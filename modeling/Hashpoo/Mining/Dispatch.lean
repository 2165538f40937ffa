import Hashpoo.Foundation.History
import Hashpoo.Mining.System
import Mathlib.Data.List.Pairwise

/-!
# The missions that are sent

A mission is sent by a task of its own, long after its block of nonces was taken, and
the counter may be reset in between. The log of a run keeps the missions with the epoch
of their block, an epoch being the time between two resets of the counter. Within one
epoch the blocks are disjoint, from the counter through the spawned tasks to the sockets.

The counter is not reset with the challenge: a batch under way outlives the reset, and behind
a failed submission the old challenge is handed out again. `TakesInOneEpoch` excludes both.
-/

namespace Hashpoo.Mining

open Foundation

/-! ## Blocks of nonces -/

/-- A range of nonces with the epoch in which it was taken. -/
structure Block where
  epoch : Nat
  range : NonceRange
  deriving DecidableEq

namespace Block

/-- Blocks of one epoch have no nonce in common. -/
def Separate (a b : Block) : Prop :=
  a.epoch = b.epoch → ∀ nonce, a.range.Contains nonce → ¬ b.range.Contains nonce

theorem Separate.symm {a b : Block} (h : a.Separate b) : b.Separate a :=
  fun hepoch nonce hb ha => h hepoch.symm nonce ha hb

/-- The counter has left the block behind. -/
structure Behind (n : Nonces) (b : Block) : Prop where
  epoch_le : b.epoch ≤ n.resets
  stop_le : b.epoch = n.resets → b.range.stop ≤ n.appNonce

variable {n : Nonces} {b : Block}

theorem Behind.reset (h : b.Behind n) : b.Behind n.reset where
  epoch_le := Nat.le_succ_of_le h.epoch_le
  stop_le hepoch := by
    have hle := h.epoch_le
    simp only [Nonces.reset] at hepoch
    omega

theorem Behind.take (h : b.Behind n) (owner : Option Pubkey)
    (hfit : n.appNonce + nonceRangeSize < 2 ^ 64) : b.Behind (n.take owner) where
  epoch_le := h.epoch_le
  stop_le hepoch := by
    have hle := h.stop_le hepoch
    simp only [Nonces.take, Nonces.nextRange_stop hfit]
    omega

theorem behind_take (n : Nonces) (owner : Option Pubkey) :
    (⟨n.resets, n.nextRange⟩ : Block).Behind (n.take owner) := ⟨le_rfl, fun _ => le_rfl⟩

/-- The next block starts where the counter stands. -/
theorem Behind.separate_next (h : b.Behind n) :
    (⟨n.resets, n.nextRange⟩ : Block).Separate b := by
  intro hepoch nonce hnext hb
  have hstop := h.stop_le hepoch.symm
  have hlow : n.appNonce ≤ nonce := hnext.1
  have hhigh := hb.2
  omega

end Block

/-! ## The log -/

/-- A mission with the epoch of its block. -/
structure Dispatch where
  mission : Mission
  epoch : Nat
  deriving DecidableEq

namespace Dispatch

def block (d : Dispatch) : Block := ⟨d.epoch, d.mission.nonceRange⟩

def markSent (d : Dispatch) : Dispatch := { d with mission := { d.mission with sent := true } }

end Dispatch

/-- What a run tells about missions, the latest one first in `sent` and `recorded`. -/
structure MissionLog where
  /-- The epoch of the block taken last. -/
  taken : Nat
  /-- The missions of the spawned tasks, in the order of the tasks. -/
  underway : List Dispatch
  sent : List Dispatch
  recorded : List Dispatch
  deriving DecidableEq

namespace MissionLog

def empty : MissionLog := ⟨0, [], [], []⟩

def spawn (log : MissionLog) (mission : Mission) : MissionLog :=
  { log with underway := log.underway ++ [⟨mission, log.taken⟩] }

def send (log : MissionLog) (k : Nat) : MissionLog :=
  { log with
    underway := log.underway.modify k Dispatch.markSent
    sent := (log.underway[k]?.map Dispatch.markSent).toList ++ log.sent }

def record (log : MissionLog) (k : Nat) : MissionLog :=
  { log with
    underway := log.underway.eraseIdx k
    recorded := log.underway[k]?.toList ++ log.recorded }

def observe (sh : Shared) (log : MissionLog) : Effect → MissionLog
  | .takeNonce _ => { log with taken := sh.nonces.resets }
  | .spawnMission mission => log.spawn mission
  | .sendMission k => log.send k
  | .recordRange k _ _ => log.record k
  | _ => log

/-- The log of the system. -/
def observeStep (cfg : Config) (s : State) (e : Event) (log : MissionLog) : MissionLog :=
  match s.perform cfg e with
  | some (_, eff) => log.observe s.shared eff
  | none => log

/-- The log shows the spawned tasks. -/
def Aligned (sh : Shared) (log : MissionLog) : Prop :=
  log.underway.map Dispatch.mission = sh.missions

/-- The blocks of the spawned tasks and of the clients. -/
def blocks (log : MissionLog) : List Block :=
  log.underway.map Dispatch.block ++ log.sent.map Dispatch.block

/-! ## Separate blocks -/

/-- The blocks of an epoch that are in the hands of the ready processor, of a spawned task
or of a client are separate. A task that has sent its mission shares the block with the
client. -/
structure Separated (n : Nonces) (held : Option NonceRange) (log : MissionLog) : Prop where
  behind : ∀ b ∈ log.blocks, b.Behind n
  held : ∀ range ∈ held, (⟨log.taken, range⟩ : Block).Behind n ∧
    ∀ b ∈ log.blocks, (⟨log.taken, range⟩ : Block).Separate b
  underway : (log.underway.map Dispatch.block).Pairwise Block.Separate
  unsent : ∀ d ∈ log.underway, d.mission.sent = false →
    ∀ x ∈ log.sent, d.block.Separate x.block
  sent : (log.sent.map Dispatch.block).Pairwise Block.Separate

/-- Two places in a list of separate blocks. -/
theorem separate_of_ne {l : List Dispatch} (h : (l.map Dispatch.block).Pairwise Block.Separate)
    {i j : Nat} {a b : Dispatch} (hi : l[i]? = some a) (hj : l[j]? = some b) (hij : i ≠ j) :
    a.block.Separate b.block := by
  rw [List.pairwise_map, List.pairwise_iff_getElem] at h
  obtain ⟨hi', rfl⟩ := List.getElem?_eq_some_iff.mp hi
  obtain ⟨hj', rfl⟩ := List.getElem?_eq_some_iff.mp hj
  obtain hlt | hlt := Nat.lt_or_gt_of_ne hij
  · exact h i j hi' hj' hlt
  · exact (h j i hj' hi' hlt).symm

theorem map_block_modify (l : List Dispatch) (k : Nat) :
    (l.modify k Dispatch.markSent).map Dispatch.block = l.map Dispatch.block := by
  apply List.ext_getElem?
  intro j
  rw [List.getElem?_map, List.getElem?_modify, List.getElem?_map]
  split <;> cases l[j]? <;> rfl

/-- What is left unsent by a send is another mission than the one sent. -/
theorem exists_of_unsent {l : List Dispatch} {k : Nat} {d : Dispatch}
    (h : d ∈ l.modify k Dispatch.markSent) (hunsent : d.mission.sent = false) :
    ∃ j, j ≠ k ∧ l[j]? = some d := by
  obtain ⟨j, hj⟩ := List.mem_iff_getElem?.mp h
  by_cases hkj : k = j
  · subst hkj
    rw [List.getElem?_modify_eq] at hj
    obtain ⟨x, -, rfl⟩ := Option.map_eq_some_iff.mp hj
    cases hunsent
  · rw [List.getElem?_modify_ne _ _ hkj] at hj
    exact ⟨j, Ne.symm hkj, hj⟩

namespace Separated

variable {n : Nonces} {held : Option NonceRange} {log : MissionLog}

theorem empty (n : Nonces) : Separated n none .empty where
  behind b hb := by cases hb
  held range hrange := by cases hrange
  underway := .nil
  unsent d hd := by cases hd
  sent := .nil

theorem drop (h : log.Separated n held) : log.Separated n none :=
  { h with held := fun range hrange => by cases hrange }

theorem reset (h : log.Separated n held) : log.Separated n.reset held where
  behind b hb := (h.behind b hb).reset
  held range hrange := ⟨(h.held range hrange).1.reset, (h.held range hrange).2⟩
  underway := h.underway
  unsent := h.unsent
  sent := h.sent

theorem take (h : log.Separated n held) (owner : Option Pubkey)
    (hfit : n.appNonce + nonceRangeSize < 2 ^ 64) :
    Separated (n.take owner) (some n.nextRange) { log with taken := n.resets } where
  behind b hb := (h.behind b hb).take owner hfit
  held range hrange := by
    cases hrange
    exact ⟨Block.behind_take n owner, fun b hb => (h.behind b hb).separate_next⟩
  underway := h.underway
  unsent := h.unsent
  sent := h.sent

/-- The block goes from the ready processor to the spawned task. -/
theorem spawn {mission : Mission} (h : log.Separated n (some mission.nonceRange)) :
    (log.spawn mission).Separated n none := by
  obtain ⟨hbehind, hseparate⟩ := h.held mission.nonceRange rfl
  refine ⟨?_, (fun _ hrange => by cases hrange), ?_, ?_, h.sent⟩
  · intro b hb
    simp only [blocks, MissionLog.spawn, List.map_append, List.mem_append, List.map_cons,
      List.map_nil, List.mem_singleton] at hb
    obtain (hb | rfl) | hb := hb
    · exact h.behind b (List.mem_append_left _ hb)
    · exact hbehind
    · exact h.behind b (List.mem_append_right _ hb)
  · rw [MissionLog.spawn, List.map_append, List.pairwise_append]
    refine ⟨h.underway, List.pairwise_singleton _ _, ?_⟩
    intro a ha b hb
    cases List.mem_singleton.mp hb
    exact (hseparate a (List.mem_append_left _ ha)).symm
  · intro d hd hunsent x hx
    obtain hd | hd := List.mem_append.mp hd
    · exact h.unsent d hd hunsent x hx
    · cases List.mem_singleton.mp hd
      exact hseparate x.block (List.mem_append_right _ (List.mem_map_of_mem hx))

/-- The block goes from the spawned task to the client. -/
theorem send (h : log.Separated n held) {k : Nat} {d : Dispatch}
    (hk : log.underway[k]? = some d) (hunsent : d.mission.sent = false) :
    (log.send k).Separated n held := by
  have hd : d ∈ log.underway := List.mem_of_getElem? hk
  have hunderway : (log.send k).underway.map Dispatch.block = log.underway.map Dispatch.block :=
    map_block_modify _ _
  have hsent : (log.send k).sent = d.markSent :: log.sent := by
    rw [MissionLog.send, hk]
    rfl
  have hblocks : ∀ b ∈ (log.send k).blocks, b ∈ log.blocks := by
    intro b hb
    rw [blocks, hunderway, hsent] at hb
    obtain hb | hb := List.mem_append.mp hb
    · exact List.mem_append_left _ hb
    · cases hb with
      | head => exact List.mem_append_left _ (List.mem_map.mpr ⟨d, hd, rfl⟩)
      | tail _ hb => exact List.mem_append_right _ hb
  refine ⟨fun b hb => h.behind b (hblocks b hb), ?_, ?_, ?_, ?_⟩
  · intro range hrange
    exact ⟨(h.held range hrange).1, fun b hb => (h.held range hrange).2 b (hblocks b hb)⟩
  · rw [hunderway]
    exact h.underway
  · intro x hx hxunsent y hy
    obtain ⟨j, hj, hxj⟩ := exists_of_unsent hx hxunsent
    rw [hsent] at hy
    cases hy with
    | head =>
        change x.block.Separate d.block
        exact separate_of_ne h.underway hxj hk hj
    | tail _ hy => exact h.unsent x (List.mem_of_getElem? hxj) hxunsent y hy
  · rw [hsent, List.map_cons, List.pairwise_cons]
    refine ⟨?_, h.sent⟩
    intro b hb
    obtain ⟨x, hx, rfl⟩ := List.mem_map.mp hb
    exact h.unsent d hd hunsent x hx

/-- A task that has recorded its range ends. -/
theorem record (h : log.Separated n held) (k : Nat) : (log.record k).Separated n held := by
  have hsub : (log.record k).underway.Sublist log.underway := List.eraseIdx_sublist _ _
  have hblocks : ∀ b ∈ (log.record k).blocks, b ∈ log.blocks := by
    intro b hb
    obtain hb | hb := List.mem_append.mp hb
    · exact List.mem_append_left _ ((hsub.map _).subset hb)
    · exact List.mem_append_right _ hb
  refine ⟨fun b hb => h.behind b (hblocks b hb), ?_, h.underway.sublist (hsub.map _), ?_, h.sent⟩
  · intro range hrange
    exact ⟨(h.held range hrange).1, fun b hb => (h.held range hrange).2 b (hblocks b hb)⟩
  · exact fun d hd => h.unsent d (hsub.subset hd)

end Separated

theorem Aligned.observe {sh : Shared} {log : MissionLog} (h : log.Aligned sh) (eff : Effect) :
    (log.observe sh eff).Aligned (sh.apply eff) := by
  simp only [Aligned] at h ⊢
  cases eff with
  | spawnMission mission => simp [MissionLog.observe, MissionLog.spawn, Shared.apply, h]
  | sendMission k =>
      simp only [MissionLog.observe, MissionLog.send, Shared.apply, ← h]
      apply List.ext_getElem?
      intro j
      simp only [List.getElem?_map, List.getElem?_modify]
      split <;> cases log.underway[j]? <;> rfl
  | recordRange k pubkey nonceRange =>
      simp only [MissionLog.observe, MissionLog.record, Shared.apply, ← h]
      exact (List.eraseIdx_map _ _ _).symm
  | _ => exact h

/-- The `k`-th task in the log. -/
theorem Aligned.underway_eq {sh : Shared} {log : MissionLog} (h : log.Aligned sh) {k : Nat}
    {mission : Mission} (hk : sh.missions[k]? = some mission) :
    ∃ d, log.underway[k]? = some d ∧ d.mission = mission := by
  rw [← h, List.getElem?_map] at hk
  exact Option.map_eq_some_iff.mp hk

theorem observe_eq {sh : Shared} {log : MissionLog} {eff : Effect} (hnonces : eff.scope ≠ .nonces)
    (hmissions : eff.scope ≠ .missions) (hranges : eff.scope ≠ .ranges) :
    log.observe sh eff = log := by
  cases eff with
  | takeNonce => exact absurd rfl hnonces
  | spawnMission | sendMission => exact absurd rfl hmissions
  | recordRange => exact absurd rfl hranges
  | _ => rfl

end MissionLog

/-! ## Runs -/

namespace State

variable {cfg : Config} {s s' t : State} {e : Event} {eff : Effect} {log log' : MissionLog}

/-- The counter has room for a block: after some `4 * 10 ^ 11` blocks in a row it would
wrap. -/
def HasRoom (s : State) (e : Event) : Prop :=
  e.isReady → s.shared.nonces.appNonce + nonceRangeSize < 2 ^ 64

instance (s : State) (e : Event) : Decidable (s.HasRoom e) :=
  inferInstanceAs (Decidable (_ → _))

/-- The log knows the spawned tasks, and the blocks it shows are separate. -/
structure Dispatching (s : State) (log : MissionLog) : Prop where
  aligned : log.Aligned s.shared
  separated : log.Separated s.shared.nonces s.ready.holding

theorem dispatching_start (proof : Proof) : (State.start proof).Dispatching .empty where
  aligned := rfl
  separated := .empty _

theorem separated_ready {pc : ReadyPc} {input : ReadyInput} (hinv : s.Dispatching log)
    (hroom : s.HasRoom (.ready input))
    (h : s.ready.step cfg s.shared input = some (pc, eff)) :
    (log.observe s.shared eff).Separated (s.shared.apply eff).nonces pc.holding := by
  obtain ⟨hholding, owner, rfl⟩ | ⟨hholding, mission, rfl, -, hheld⟩ | ⟨hholding, hscope⟩ :=
    ReadyPc.step_holding h
  · rw [hholding]
    exact hinv.separated.take owner (hroom rfl)
  · have hseparated := hinv.separated
    rw [hheld] at hseparated
    rw [hholding]
    exact hseparated.spawn
  · have hnonces : eff.scope ≠ .nonces := by rintro hn; simp [hn] at hscope
    have hmissions : eff.scope ≠ .missions := by rintro hn; simp [hn] at hscope
    have hranges : eff.scope ≠ .ranges := by rintro hn; simp [hn] at hscope
    rw [hholding, MissionLog.observe_eq hnonces hmissions hranges, Shared.apply_nonces hnonces]
    exact hinv.separated.drop

theorem separated_mission {k : Nat} (hinv : s.Dispatching log)
    (h : missionStep s.shared k = some eff) :
    (log.observe s.shared eff).Separated (s.shared.apply eff).nonces s.ready.holding := by
  obtain ⟨mission, hk, hcases⟩ := missionStep_cases h
  obtain ⟨d, hd, rfl⟩ := hinv.aligned.underway_eq hk
  obtain ⟨-, rfl⟩ | ⟨hunsent, rfl⟩ := hcases
  · exact hinv.separated.record k
  · exact hinv.separated.send hd hunsent

/-- The other tasks leave missions alone. At most they reset the counter. -/
theorem separated_others (hinv : s.Dispatching log) (hready : ∀ input, e ≠ .ready input)
    (hmission : ∀ k, e ≠ .mission k) (h : s.perform cfg e = some (s', eff)) :
    (log.observe s.shared eff).Separated (s.shared.apply eff).nonces s'.ready.holding := by
  rw [(perform_frame h).ready hready]
  by_cases hnonces : eff.scope = .nonces
  · obtain ⟨-, rfl⟩ | ⟨input, owner, rfl, -⟩ := perform_nonces h hnonces
    · exact hinv.separated.reset
    · exact absurd rfl (hready input)
  · have hscope : ¬ (eff.scope = .missions ∨ eff.scope = .ranges) := by
      intro hscope
      obtain ⟨input, rfl⟩ | ⟨k, rfl⟩ := perform_missions h hscope
      · exact hready input rfl
      · exact hmission k rfl
    obtain ⟨hmissions, hranges⟩ := not_or.mp hscope
    rw [MissionLog.observe_eq hnonces hmissions hranges, Shared.apply_nonces hnonces]
    exact hinv.separated

theorem observeStep_eq (h : s.perform cfg e = some (s', eff)) :
    MissionLog.observeStep cfg s e log = log.observe s.shared eff := by
  rw [MissionLog.observeStep, h]

theorem step_dispatching (hinv : s.Dispatching log) (hroom : s.HasRoom e)
    (h : s.step cfg e = some t) : t.Dispatching (MissionLog.observeStep cfg s e log) := by
  obtain ⟨-, s', eff, hperform, rfl⟩ := step_eq_some.mp h
  rw [observeStep_eq hperform]
  have hseparated : (log.observe s.shared eff).Separated (s.shared.apply eff).nonces
      s'.ready.holding := by
    cases e with
    | ready input =>
        obtain ⟨⟨pc, eff'⟩, hstep, heq⟩ := Option.map_eq_some_iff.mp hperform
        cases heq
        exact separated_ready hinv hroom hstep
    | mission k =>
        obtain ⟨eff', hstep, heq⟩ := Option.map_eq_some_iff.mp hperform
        cases heq
        exact separated_mission hinv hstep
    | _ => exact separated_others hinv (by simp) (by simp) hperform
  exact ⟨hinv.aligned.observe eff, hseparated⟩

theorem dispatching_of_run {proof : Proof} {events : List Event}
    (h : run (withHistory (State.step cfg) (MissionLog.observeStep cfg)) (.start proof, .empty)
      events = some (s, log))
    (hmeets : Meets (State.step cfg) HasRoom (.start proof) events) : s.Dispatching log := by
  refine invariant_of_history ?_ (dispatching_start proof) hmeets h
  intro s log e t hs hok hstep
  exact step_dispatching hs hok hstep

/-- In every run, two missions whose blocks were taken with no reset of the counter in
between carry disjoint ranges. -/
theorem separate_of_run {proof : Proof} {events : List Event}
    (h : run (withHistory (State.step cfg) (MissionLog.observeStep cfg)) (.start proof, .empty)
      events = some (s, log))
    (hmeets : Meets (State.step cfg) HasRoom (.start proof) events) :
    (log.sent.map Dispatch.block).Pairwise Block.Separate :=
  (dispatching_of_run h hmeets).separated.sent

/-! ## Missions of one challenge -/

end State

/-- The challenge for which the next step takes a block. -/
def ReadyPc.taking : ReadyPc → Option Challenge
  | .distribute (_ :: _) batch => some batch.challenge
  | _ => none

namespace MissionLog

variable {log : MissionLog} {sh : Shared} {pc pc' : ReadyPc} {eff : Effect} {k : Nat}

/-- The missions spawned so far, some of them in both lists. -/
def spawned (log : MissionLog) : List Dispatch := log.underway ++ log.sent

/-- All missions of one challenge have their blocks from one epoch, the mission that comes
next included. -/
structure Together (pc : ReadyPc) (log : MissionLog) : Prop where
  spawned : ∀ d ∈ log.spawned, ∀ d' ∈ log.spawned, d.mission.challenge = d'.mission.challenge →
    d.epoch = d'.epoch
  held : ∀ client rest batch nonceRange, pc = .deliver client rest batch nonceRange →
    ∀ d ∈ log.spawned, d.mission.challenge = batch.challenge → d.epoch = log.taken

theorem together_empty : Together .idle .empty where
  spawned d hd := by cases hd
  held client rest batch nonceRange hpc := by cases hpc

/-- Send and record leave challenges and epochs as they are. -/
theorem mem_spawned_send {d : Dispatch} (h : d ∈ (log.send k).spawned) :
    ∃ d' ∈ log.spawned, d'.mission.challenge = d.mission.challenge ∧ d'.epoch = d.epoch := by
  have hmarked : ∀ x ∈ log.underway[k]?, ∃ d' ∈ log.spawned,
      d'.mission.challenge = x.markSent.mission.challenge ∧ d'.epoch = x.markSent.epoch :=
    fun x hx => ⟨x, List.mem_append_left _ (List.mem_of_getElem? hx), rfl, rfl⟩
  obtain h | h := List.mem_append.mp h
  · obtain ⟨j, hj⟩ := List.mem_iff_getElem?.mp h
    rw [MissionLog.send, List.getElem?_modify] at hj
    obtain ⟨x, hx, rfl⟩ := Option.map_eq_some_iff.mp hj
    by_cases hkj : k = j
    · subst hkj
      rw [if_pos rfl]
      exact hmarked x hx
    · rw [if_neg hkj]
      exact ⟨x, List.mem_append_left _ (List.mem_of_getElem? hx), rfl, rfl⟩
  · obtain h | h := List.mem_append.mp h
    · obtain ⟨x, hx, rfl⟩ := Option.map_eq_some_iff.mp (Option.mem_toList.mp h)
      exact hmarked x hx
    · exact ⟨d, List.mem_append_right _ h, rfl, rfl⟩

theorem spawned_record_subset : (log.record k).spawned ⊆ log.spawned := by
  intro d hd
  obtain hd | hd := List.mem_append.mp hd
  · exact List.mem_append_left _ ((List.eraseIdx_sublist _ _).subset hd)
  · exact List.mem_append_right _ hd

namespace Together

/-- A log with the same missions, or fewer. -/
theorem of_spawned (h : Together pc log) {log' : MissionLog} (htaken : log'.taken = log.taken)
    (hspawned : ∀ d ∈ log'.spawned, ∃ d' ∈ log.spawned,
      d'.mission.challenge = d.mission.challenge ∧ d'.epoch = d.epoch) : Together pc log' where
  spawned a ha b hb hchallenge := by
    obtain ⟨a', ha', hachallenge, haepoch⟩ := hspawned a ha
    obtain ⟨b', hb', hbchallenge, hbepoch⟩ := hspawned b hb
    rw [← haepoch, ← hbepoch]
    exact h.spawned a' ha' b' hb' (hachallenge.trans (hchallenge.trans hbchallenge.symm))
  held client rest batch nonceRange hpc d hd hchallenge := by
    obtain ⟨d', hd', hdchallenge, hdepoch⟩ := hspawned d hd
    rw [← hdepoch, htaken]
    exact h.held client rest batch nonceRange hpc d' hd' (hdchallenge.trans hchallenge)

/-- The ready processor goes on without a block. -/
theorem letGo (h : Together pc log) (hpc : pc'.holding = none) : Together pc' log where
  spawned := h.spawned
  held client rest batch nonceRange hdeliver := by
    rw [hdeliver] at hpc
    cases hpc

theorem take (h : Together pc log) {client : SocketAddr} {rest : List SocketAddr}
    {batch : Batch} {nonceRange : NonceRange} {epoch : Nat}
    (hepoch : ∀ d ∈ log.spawned, d.mission.challenge = batch.challenge → d.epoch = epoch) :
    Together (.deliver client rest batch nonceRange) { log with taken := epoch } where
  spawned := h.spawned
  held client' rest' batch' nonceRange' hpc d hd hchallenge := by
    cases hpc
    exact hepoch d hd hchallenge

theorem spawn {client : SocketAddr} {rest : List SocketAddr} {batch : Batch}
    {nonceRange : NonceRange} (h : Together (.deliver client rest batch nonceRange) log)
    (sender : ClientConnection) :
    Together (.removeReady client rest batch)
      (log.spawn (ReadyPc.missionOf batch sender nonceRange)) where
  spawned a ha b hb hchallenge := by
    have hcases : ∀ d ∈ (log.spawn (ReadyPc.missionOf batch sender nonceRange)).spawned,
        d ∈ log.spawned ∨
          d = ⟨ReadyPc.missionOf batch sender nonceRange, log.taken⟩ := by
      intro d hd
      simp only [MissionLog.spawned, MissionLog.spawn, List.mem_append, List.mem_singleton]
        at hd ⊢
      obtain (hd | hd) | hd := hd
      · exact .inl (.inl hd)
      · exact .inr hd
      · exact .inl (.inr hd)
    have hnew : ∀ d ∈ log.spawned, d.mission.challenge = batch.challenge → d.epoch = log.taken :=
      h.held client rest batch nonceRange rfl
    obtain ha | rfl := hcases a ha
    · obtain hb | rfl := hcases b hb
      · exact h.spawned a ha b hb hchallenge
      · exact hnew a ha hchallenge
    · obtain hb | rfl := hcases b hb
      · exact (hnew b hb hchallenge.symm).symm
      · rfl
  held client' rest' batch' nonceRange' hpc := by cases hpc

end Together

end MissionLog

namespace State

variable {cfg : Config} {s s' t : State} {e : Event} {eff : Effect} {log log' : MissionLog}

/-- No block is taken for a challenge of which missions have blocks from before the last
reset of the counter. -/
def TakesInOneEpoch (x : State × MissionLog) : Event → Prop
  | .ready _ => ∀ challenge ∈ x.1.ready.taking, ∀ d ∈ x.2.spawned,
      d.mission.challenge = challenge → d.epoch = x.1.shared.nonces.resets
  | _ => True

instance (x : State × MissionLog) (e : Event) : Decidable (TakesInOneEpoch x e) :=
  match e with
  | .ready _ => inferInstanceAs (Decidable (∀ challenge ∈ x.1.ready.taking, _))
  | .submission _ | .mission _ | .message | .contribution | .tracking _ => .isTrue trivial
  | .ping _ | .pong | .connect _ _ _ | .receive _ _ | .streamEnded _ => .isTrue trivial
  | .disconnect _ | .land _ _ _ _ | .claim _ | .tick _ => .isTrue trivial

theorem together_ready {pc : ReadyPc} (hinv : MissionLog.Together s.ready log)
    (hok : ∀ challenge ∈ s.ready.taking, ∀ d ∈ log.spawned,
      d.mission.challenge = challenge → d.epoch = s.shared.nonces.resets)
    (h : s.ready.Moves cfg s.shared pc eff) :
    MissionLog.Together pc (log.observe s.shared eff) := by
  cases h with
  | take client rest batch hpc =>
      rw [hpc] at hok
      exact hinv.take (hok batch.challenge rfl)
  | spawn client rest batch nonceRange sender hpc =>
      rw [hpc] at hinv
      exact hinv.spawn sender
  | _ => exact hinv.letGo rfl

theorem step_together (hinv : MissionLog.Together s.ready log) (hok : TakesInOneEpoch (s, log) e)
    (h : s.step cfg e = some t) :
    MissionLog.Together t.ready (MissionLog.observeStep cfg s e log) := by
  obtain ⟨-, s', eff, hperform, rfl⟩ := step_eq_some.mp h
  rw [observeStep_eq hperform]
  change MissionLog.Together s'.ready _
  by_cases hready : ∃ input, e = .ready input
  · obtain ⟨input, rfl⟩ := hready
    obtain ⟨⟨pc, eff'⟩, hstep, heq⟩ := Option.map_eq_some_iff.mp hperform
    cases heq
    exact together_ready hinv hok (ReadyPc.step_moves hstep)
  · rw [(perform_frame hperform).ready (by simpa using hready)]
    cases eff with
    | takeNonce owner =>
        obtain ⟨-, heff⟩ | ⟨input, owner', rfl, -⟩ := perform_nonces hperform rfl
        · cases heff
        · exact absurd ⟨input, rfl⟩ hready
    | spawnMission mission => exact absurd (perform_spawnMission hperform) hready
    | sendMission k => exact hinv.of_spawned rfl fun d hd => MissionLog.mem_spawned_send hd
    | recordRange k pubkey nonceRange =>
        exact hinv.of_spawned rfl fun d hd =>
          ⟨d, MissionLog.spawned_record_subset hd, rfl, rfl⟩
    | _ => exact hinv

theorem together_of_run {proof : Proof} {events : List Event}
    (h : run (withHistory (State.step cfg) (MissionLog.observeStep cfg)) (.start proof, .empty)
      events = some (s, log))
    (hmeets : Meets (withHistory (State.step cfg) (MissionLog.observeStep cfg)) TakesInOneEpoch
      (.start proof, .empty) events) : MissionLog.Together s.ready log := by
  refine invariant_of_meets (I := fun x : State × MissionLog => MissionLog.Together x.1.ready x.2)
    ?_ MissionLog.together_empty hmeets h
  rintro ⟨s, log⟩ e ⟨t, log'⟩ hs hok hpair
  obtain ⟨hstep, rfl⟩ := withHistory_eq_some.mp hpair
  exact step_together hs hok hstep

/-- In every run in which the blocks of each challenge are taken between two resets of the
counter, two missions of one challenge carry disjoint ranges. -/
theorem unrepeated_of_run {proof : Proof} {events : List Event}
    (h : run (withHistory (State.step cfg) (MissionLog.observeStep cfg)) (.start proof, .empty)
      events = some (s, log))
    (hroom : Meets (State.step cfg) HasRoom (.start proof) events)
    (hmeets : Meets (withHistory (State.step cfg) (MissionLog.observeStep cfg)) TakesInOneEpoch
      (.start proof, .empty) events) :
    log.sent.Pairwise fun a b => a.mission.challenge = b.mission.challenge →
      ∀ nonce, a.mission.nonceRange.Contains nonce → ¬ b.mission.nonceRange.Contains nonce := by
  have htogether := together_of_run h hmeets
  have hseparate := List.pairwise_map.mp (separate_of_run h hroom)
  refine hseparate.imp_of_mem fun {a b} ha hb hab hchallenge => hab ?_
  exact htogether.spawned a (List.mem_append_right _ ha) b (List.mem_append_right _ hb) hchallenge

/-- Two clients of one batch. -/
def twoClients : List Event :=
  Scenario.join 0 (.fill 32 1) 1 ++ Scenario.join 1 (.fill 32 2) 2 ++ Scenario.batch [0, 1]

theorem unrepeated_twoClients : ∃ s log, run
    (withHistory (State.step Scenario.config) (MissionLog.observeStep Scenario.config))
    (.start Scenario.proof, .empty) twoClients = some (s, log) ∧ log.sent.length = 2 ∧
    log.sent.Pairwise fun a b => a.mission.challenge = b.mission.challenge →
      ∀ nonce, a.mission.nonceRange.Contains nonce → ¬ b.mission.nonceRange.Contains nonce := by
  obtain ⟨⟨s, log⟩, hrun, hsent⟩ := exists_run
    (withHistory (State.step Scenario.config) (MissionLog.observeStep Scenario.config))
    (.start Scenario.proof, .empty) twoClients (fun x => x.2.sent.length = 2) (by decide)
  exact ⟨s, log, hrun, hsent, unrepeated_of_run hrun (by decide) (by decide)⟩

/-- A batch finds no best solution yet and reads the challenge. Before it takes its block a
solution is recorded, lands and is reported, and the counter starts again. -/
def inFlight : List Event :=
  Scenario.join 0 (.fill 32 1) 1 ++ Scenario.batch [0] ++
    [.receive 0 (.binary (Scenario.solutionBytes Scenario.solution (.fill 32 1))),
      .receive 0 (.binary [0]), .message, .message, .message, .message,
      .ready (.collect [0]), .ready .proceed, .ready .proceed, .ready (.clock 100),
      .ready .proceed, .ready .proceed, .ready .proceed] ++
    List.replicate 6 .contribution ++ Scenario.send ++ Scenario.land 500 ++ Scenario.report ++
    List.replicate 3 (.submission .proceed) ++
    [.ready .proceed, .ready .proceed, .mission 0, .mission 0]

theorem not_unrepeated : ¬ ∀ cfg proof events s log,
    run (withHistory (State.step cfg) (MissionLog.observeStep cfg)) (.start proof, .empty)
      events = some (s, log) →
    log.sent.Pairwise fun a b => a.mission.challenge = b.mission.challenge →
      ∀ nonce, a.mission.nonceRange.Contains nonce → ¬ b.mission.nonceRange.Contains nonce := by
  intro h
  obtain ⟨⟨s, log⟩, hrun, a, hfirst, b, hsecond, hchallenge, ha, hb⟩ := exists_run
    (withHistory (State.step Scenario.config) (MissionLog.observeStep Scenario.config))
    (.start Scenario.proof, .empty) inFlight
    (fun x => ∃ a ∈ x.2.sent[0]?, ∃ b ∈ x.2.sent[1]?,
      a.mission.challenge = b.mission.challenge ∧ a.mission.nonceRange.Contains 0 ∧
        b.mission.nonceRange.Contains 0) (by decide)
  obtain ⟨h0, rfl⟩ := List.getElem?_eq_some_iff.mp hfirst
  obtain ⟨h1, rfl⟩ := List.getElem?_eq_some_iff.mp hsecond
  have hpair := List.pairwise_iff_getElem.mp (h _ _ _ _ _ hrun) 0 1 h0 h1 Nat.zero_lt_one
  exact hpair hchallenge 0 ha hb

end State

end Hashpoo.Mining
