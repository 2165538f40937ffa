import Hashpoo.Mining.Dispatch

/-!
# The range check of a submission

The check reads the range recorded last for the key. A client can submit as soon as it
has received its mission, but the range is recorded after that, and a mission of another
connection with the same key replaces it.
-/

namespace Hashpoo.Mining

open Foundation

namespace MissionLog

/-- The mission of the key whose range was recorded last. -/
def lastRecorded (log : MissionLog) (pubkey : Pubkey) : Option Dispatch :=
  log.recorded.find? fun d => d.mission.pubkey = pubkey

/-- The ranges are those of the recorded missions, and only sent missions are recorded. -/
structure Recording (sh : Shared) (log : MissionLog) : Prop where
  aligned : log.Aligned sh
  carried : ∀ d ∈ log.underway, d.mission.sent = true → d ∈ log.sent
  recorded : ∀ d ∈ log.recorded, d ∈ log.sent
  ranges : ∀ pubkey, sh.clientNonceRanges.lookup pubkey =
    (log.lastRecorded pubkey).map fun d => d.mission.nonceRange

namespace Recording

variable {sh : Shared} {log : MissionLog}

theorem spawn (h : log.Recording sh) {mission : Mission} (hunsent : mission.sent = false) :
    (log.spawn mission).Recording (sh.apply (.spawnMission mission)) where
  aligned := h.aligned.observe (.spawnMission mission)
  carried d hd hsent := by
    obtain hd | hd := List.mem_append.mp hd
    · exact h.carried d hd hsent
    · cases List.mem_singleton.mp hd
      cases hunsent.symm.trans hsent
  recorded := h.recorded
  ranges := h.ranges

theorem send (h : log.Recording sh) {k : Nat} {d : Dispatch}
    (hk : log.underway[k]? = some d) : (log.send k).Recording (sh.apply (.sendMission k)) := by
  have hsent : (log.send k).sent = d.markSent :: log.sent := by
    rw [MissionLog.send, hk]
    rfl
  refine ⟨h.aligned.observe (.sendMission k), ?_, ?_, h.ranges⟩
  · intro x hx hxsent
    rw [hsent]
    obtain ⟨j, hj⟩ := List.mem_iff_getElem?.mp hx
    by_cases hkj : k = j
    · subst hkj
      have hmarked : (log.send k).underway[k]? = some d.markSent := by
        rw [MissionLog.send, List.getElem?_modify_eq, hk]
        rfl
      cases hmarked.symm.trans hj
      exact List.mem_cons_self
    · have hsame : (log.send k).underway[j]? = log.underway[j]? :=
        List.getElem?_modify_ne _ _ hkj
      rw [hsame] at hj
      exact List.mem_cons_of_mem _ (h.carried x (List.mem_of_getElem? hj) hxsent)
  · intro x hx
    rw [hsent]
    exact List.mem_cons_of_mem _ (h.recorded x hx)

theorem record (h : log.Recording sh) {k : Nat} {d : Dispatch}
    (hk : log.underway[k]? = some d) (hsent : d.mission.sent = true) : (log.record k).Recording
      (sh.apply (.recordRange k d.mission.pubkey d.mission.nonceRange)) := by
  have hrecorded : (log.record k).recorded = d :: log.recorded := by
    rw [MissionLog.record, hk]
    rfl
  refine ⟨h.aligned.observe (.recordRange k _ _), ?_, ?_, ?_⟩
  · intro x hx
    exact h.carried x (List.mem_of_mem_eraseIdx hx)
  · intro x hx
    rw [hrecorded] at hx
    cases hx with
    | head => exact h.carried d (List.mem_of_getElem? hk) hsent
    | tail _ hx => exact h.recorded x hx
  · intro pubkey
    change (sh.clientNonceRanges.insert d.mission.pubkey d.mission.nonceRange).lookup pubkey = _
    rw [lastRecorded, hrecorded]
    by_cases hkey : pubkey = d.mission.pubkey
    · subst hkey
      simp
    · rw [AList.lookup_insert_ne hkey, List.find?_cons_of_neg (by simpa using Ne.symm hkey)]
      exact h.ranges pubkey

theorem other (h : log.Recording sh) {eff : Effect} (hmissions : eff.scope ≠ .missions)
    (hranges : eff.scope ≠ .ranges) : (log.observe sh eff).Recording (sh.apply eff) := by
  cases eff with
  | spawnMission | sendMission => exact absurd rfl hmissions
  | recordRange => exact absurd rfl hranges
  | _ => exact ⟨h.aligned, h.carried, h.recorded, h.ranges⟩

end Recording

end MissionLog

namespace State

variable {cfg : Config} {s s' t : State} {e : Event} {eff : Effect} {log : MissionLog}

theorem recording_start (proof : Proof) :
    MissionLog.empty.Recording (State.start proof).shared where
  aligned := rfl
  carried d hd := by cases hd
  recorded d hd := by cases hd
  ranges pubkey := rfl

theorem perform_recording (hinv : log.Recording s.shared) (h : s.perform cfg e = some (s', eff)) :
    (log.observe s.shared eff).Recording (s.shared.apply eff) := by
  by_cases hscope : eff.scope = .missions ∨ eff.scope = .ranges
  · obtain ⟨input, rfl⟩ | ⟨k, rfl⟩ := perform_missions h hscope
    · obtain ⟨⟨pc, eff'⟩, hstep, heq⟩ := Option.map_eq_some_iff.mp h
      cases heq
      obtain ⟨-, owner, rfl⟩ | ⟨-, mission, rfl, hunsent, -⟩ | ⟨-, hother⟩ :=
        ReadyPc.step_holding hstep
      · simp [Effect.scope] at hscope
      · exact hinv.spawn hunsent
      · obtain hother | hother := hother <;> simp [hother] at hscope
    · obtain ⟨eff', hstep, heq⟩ := Option.map_eq_some_iff.mp h
      cases heq
      obtain ⟨mission, hk, hcases⟩ := missionStep_cases hstep
      obtain ⟨d, hd, rfl⟩ := hinv.aligned.underway_eq hk
      obtain ⟨hsent, rfl⟩ | ⟨-, rfl⟩ := hcases
      · exact hinv.record hd hsent
      · exact hinv.send hd
  · obtain ⟨hmissions, hranges⟩ := not_or.mp hscope
    exact hinv.other hmissions hranges

theorem recording_of_run {proof : Proof} {events : List Event}
    (h : run (withHistory (State.step cfg) (MissionLog.observeStep cfg)) (.start proof, .empty)
      events = some (s, log)) : log.Recording s.shared := by
  refine invariant_of_history (I := fun s log => log.Recording s.shared) ?_ (recording_start proof)
    (meets_true events) h
  intro s log e t hs _ hstep
  obtain ⟨-, s', eff, hperform, rfl⟩ := step_eq_some.mp hstep
  rw [observeStep_eq hperform]
  exact perform_recording hs hperform

/-! ## The check -/

/-- The contributions processor, about to look up the range, finds the nonce in it. -/
def PassesRangeCheck (cfg : Config) (s : State) (x : ClientBestSolution) : Prop :=
  ∃ nonceRange, s.contributions.step cfg s.shared = some (.readSocket x nonceRange, .silent)

theorem passesRangeCheck_iff {x : ClientBestSolution} (hpc : s.contributions = .readRange x) :
    s.PassesRangeCheck cfg x ↔ ∃ nonceRange,
      s.shared.clientNonceRanges.lookup x.pubkey = some nonceRange ∧
        nonceRange.Contains x.solution.nonce := by
  rw [PassesRangeCheck, hpc]
  simp only [ContributionsPc.step]
  cases hrange : s.shared.clientNonceRanges.lookup x.pubkey with
  | none => simp
  | some nonceRange =>
      by_cases hnonce : nonceRange.Contains x.solution.nonce
      · simp [hnonce]
      · simp [hnonce]

/-- In one epoch a nonce belongs to one sent mission. -/
theorem Dispatching.eq_of_contains (h : s.Dispatching log) (hreset : s.shared.nonces.resets = 0)
    {a b : Dispatch} (ha : a ∈ log.sent) (hb : b ∈ log.sent) {nonce : Nat}
    (hna : a.mission.nonceRange.Contains nonce) (hnb : b.mission.nonceRange.Contains nonce) :
    a = b := by
  have hepoch : ∀ d ∈ log.sent, d.epoch = 0 := by
    intro d hd
    have hle := (h.separated.behind d.block
      (List.mem_append_right _ (List.mem_map_of_mem hd))).epoch_le
    exact Nat.le_zero.mp (hreset ▸ hle)
  obtain ⟨i, hi⟩ := List.mem_iff_getElem?.mp ha
  obtain ⟨j, hj⟩ := List.mem_iff_getElem?.mp hb
  by_cases hij : i = j
  · subst hij
    exact Option.some.inj (hi.symm.trans hj)
  · have hseparate := MissionLog.separate_of_ne h.separated.sent hi hj hij
    exact absurd hnb (hseparate ((hepoch a ha).trans (hepoch b hb).symm) nonce hna)

/-- Before any reset, a nonce of a sent mission passes the check if the mission is the one
recorded last for its key, and only then as long as the counter does not wrap. -/
theorem rangeCheck_iff {proof : Proof} {events : List Event} {x : ClientBestSolution}
    {d : Dispatch}
    (h : run (withHistory (State.step cfg) (MissionLog.observeStep cfg)) (.start proof, .empty)
      events = some (s, log))
    (hreset : s.shared.nonces.resets = 0) (hsent : d ∈ log.sent)
    (hpc : s.contributions = .readRange x) (hkey : x.pubkey = d.mission.pubkey)
    (hnonce : d.mission.nonceRange.Contains x.solution.nonce) :
    (log.lastRecorded d.mission.pubkey = some d → s.PassesRangeCheck cfg x) ∧
      (Meets (State.step cfg) HasRoom (.start proof) events → s.PassesRangeCheck cfg x →
        log.lastRecorded d.mission.pubkey = some d) := by
  have hrecording := recording_of_run h
  have hranges := hrecording.ranges d.mission.pubkey
  rw [passesRangeCheck_iff hpc, hkey, hranges]
  constructor
  · intro hlast
    exact ⟨d.mission.nonceRange, by rw [hlast]; rfl, hnonce⟩
  · rintro hroom ⟨nonceRange, hlookup, hcontains⟩
    obtain ⟨x', hlast, rfl⟩ := Option.map_eq_some_iff.mp hlookup
    have hrecorded := hrecording.recorded x' (List.mem_of_find?_eq_some hlast)
    rw [hlast, (dispatching_of_run h hroom).eq_of_contains hreset hrecorded hsent hcontains hnonce]

/-- The mission of the scenario's client. -/
def firstMission : Dispatch :=
  ⟨⟨.fill 32 1, 0, .fill 32 7, 60, ⟨0, nonceRangeSize⟩, true⟩, 0⟩

/-- The client answers its mission. Its submission is at the range check. -/
def answered : List Event :=
  Scenario.join 0 (.fill 32 1) 1 ++ Scenario.batch [0] ++
    (Scenario.submit 0 Scenario.solution (.fill 32 1)).take 4

theorem rangeCheck_answered : ∃ s log, run
    (withHistory (State.step Scenario.config) (MissionLog.observeStep Scenario.config))
    (.start Scenario.proof, .empty) answered = some (s, log) ∧
    s.PassesRangeCheck Scenario.config ⟨0, Scenario.solution, .fill 32 1⟩ := by
  obtain ⟨⟨s, log⟩, hrun, hreset, hsent, hpc, hlast⟩ := exists_run
    (withHistory (State.step Scenario.config) (MissionLog.observeStep Scenario.config))
    (.start Scenario.proof, .empty) answered
    (fun x => x.1.shared.nonces.resets = 0 ∧ firstMission ∈ x.2.sent ∧
      x.1.contributions = .readRange ⟨0, Scenario.solution, .fill 32 1⟩ ∧
      x.2.lastRecorded (.fill 32 1) = some firstMission) (by decide)
  exact ⟨s, log, hrun, (rangeCheck_iff hrun hreset hsent hpc rfl (by decide)).1 hlast⟩

/-- The client answers before the task that has sent its mission records the range. -/
def answeredEarly : List Event :=
  Scenario.join 0 (.fill 32 1) 1 ++ (Scenario.batch [0]).dropLast ++
    (Scenario.submit 0 Scenario.solution (.fill 32 1)).take 4

theorem not_rangeCheck : ¬ ∀ cfg proof events s log x d conn,
    run (withHistory (State.step cfg) (MissionLog.observeStep cfg)) (.start proof, .empty)
      events = some (s, log) →
    s.shared.nonces.resets = 0 → s.shared.hashes.resets = 0 → d ∈ log.sent →
    s.shared.sockets.lookup x.addr = some conn → conn.socket = d.mission.socket →
    conn.pubkey = d.mission.pubkey → s.contributions = .readRange x →
    x.pubkey = d.mission.pubkey → d.mission.nonceRange.Contains x.solution.nonce →
    s.PassesRangeCheck cfg x := by
  intro h
  obtain ⟨⟨s, log⟩, hrun, hnonces, hhashes, hsent, hconn, hpc, hnone⟩ := exists_run
    (withHistory (State.step Scenario.config) (MissionLog.observeStep Scenario.config))
    (.start Scenario.proof, .empty) answeredEarly
    (fun x => x.1.shared.nonces.resets = 0 ∧ x.1.shared.hashes.resets = 0 ∧
      firstMission ∈ x.2.sent ∧ x.1.shared.sockets.lookup 0 = some ⟨.fill 32 1, 1, 0⟩ ∧
      x.1.contributions = .readRange ⟨0, Scenario.solution, .fill 32 1⟩ ∧
      x.1.shared.clientNonceRanges.lookup (.fill 32 1) = none) (by decide)
  have hpasses := h _ _ _ _ _ _ _ _ hrun hnonces hhashes hsent hconn rfl rfl hpc rfl (by decide)
  obtain ⟨nonceRange, hrange, -⟩ := (passesRangeCheck_iff hpc).mp hpasses
  cases hnone.symm.trans hrange

end State

end Hashpoo.Mining
