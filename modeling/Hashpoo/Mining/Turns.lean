import Hashpoo.Mining.Provenance

/-!
# No mission without a Ready message

A mission is spawned for an address that is in the set of ready clients, and the address
leaves the set behind it. So every mission uses up a ready message of its address, in the
channel, in the hands of the processor or in the set, and the missions of an address never
outnumber the ready messages received from it, whoever else sends what in between.
-/

namespace Hashpoo.Mining

open Foundation

/-! ## Turns in the batch -/

namespace ReadyPc

/-- The clients of the batch that are still to be served. -/
def pending : ReadyPc → List SocketAddr
  | .idle => []
  | .checkPaused clients | .readProof clients | .cutoff clients _ | .checkBest clients => clients
  | .readChallenge clients _ | .readSockets clients _ _ | .distribute clients _ => clients
  | .deliver client rest _ _ => client :: rest
  | .removeReady _ rest _ => rest

/-- The client that has been served and is removed next. -/
def leaving : ReadyPc → Option SocketAddr
  | .removeReady client _ _ => some client
  | _ => none

/-- The client for which the effect spawns a mission. -/
def serves : ReadyPc → Effect → List SocketAddr
  | .deliver client _ _ _, .spawnMission _ => [client]
  | _, _ => []

/-- No client is served twice in a batch. -/
def Orderly (pc : ReadyPc) : Prop := (pc.leaving.toList ++ pc.pending).Nodup

/-- The client will be served, in this batch or in a later one. -/
def Queues (pc : ReadyPc) (readyClients : Finset SocketAddr) (addr : SocketAddr) : Prop :=
  addr ∈ pc.pending ∨ addr ∈ readyClients ∧ pc.leaving ≠ some addr

instance (pc : ReadyPc) (readyClients : Finset SocketAddr) (addr : SocketAddr) :
    Decidable (pc.Queues readyClients addr) := inferInstanceAs (Decidable (_ ∨ _))

def turn (pc : ReadyPc) (readyClients : Finset SocketAddr) (addr : SocketAddr) : Nat :=
  if pc.Queues readyClients addr then 1 else 0

theorem turn_le_one (pc : ReadyPc) (readyClients : Finset SocketAddr) (addr : SocketAddr) :
    pc.turn readyClients addr ≤ 1 := by
  rw [turn]
  split <;> omega

theorem turn_le {pc pc' : ReadyPc} {readyClients readyClients' : Finset SocketAddr}
    {addr : SocketAddr} (h : pc'.Queues readyClients' addr → pc.Queues readyClients addr) :
    pc'.turn readyClients' addr ≤ pc.turn readyClients addr := by
  by_cases hqueues : pc'.Queues readyClients' addr
  · rw [turn, turn, if_pos hqueues, if_pos (h hqueues)]
  · rw [turn, if_neg hqueues]
    exact Nat.zero_le _

theorem step_orderly {cfg : Config} {sh : Shared} {pc pc' : ReadyPc} {input : ReadyInput}
    {eff : Effect} (h : pc.step cfg sh input = some (pc', eff)) (horderly : pc.Orderly) :
    pc'.Orderly := by
  simp only [step] at h
  split at h
  case h_1 clients =>
    split at h
    · next hclients =>
      cases h
      exact hclients.1
    · cases h
  case h_10 client rest batch nonceRange =>
    split at h <;> cases h <;> exact horderly
  case h_11 client rest batch =>
    cases h
    exact (List.nodup_cons.mp horderly).2
  case h_12 => cases h
  all_goals
    cases h
    (try split) <;> first | exact horderly | exact List.nodup_nil

/-- A step of the processor lets no client into the queue. -/
theorem Moves.queues {cfg : Config} {sh : Shared} {pc pc' : ReadyPc} {eff : Effect}
    (h : pc.Moves cfg sh pc' eff) {addr : SocketAddr}
    (hqueues : pc'.Queues (sh.apply eff).readyClients addr) : pc.Queues sh.readyClients addr := by
  cases h with
  | collect clients hpc hclients =>
      subst hpc
      refine .inr ⟨?_, by simp [leaving]⟩
      obtain hmem | ⟨hmem, -⟩ := hqueues
      · rw [← hclients]
        exact List.mem_toFinset.mpr hmem
      · exact hmem
  | pass clients hpc | found clients hpc =>
      subst hpc
      obtain hmem | ⟨hmem, -⟩ := hqueues
      · cases hmem
      · exact .inr ⟨hmem, by simp [leaving]⟩
  | finish batch hpc =>
      subst hpc
      exact hqueues
  | spawn client rest batch nonceRange sender hpc | gone client rest batch nonceRange hpc =>
      subst hpc
      obtain hmem | ⟨hmem, -⟩ := hqueues
      · exact .inl (List.mem_cons_of_mem client hmem)
      · exact .inr ⟨hmem, by simp [leaving]⟩
  | remove client rest batch hpc =>
      subst hpc
      obtain hmem | ⟨hmem, -⟩ := hqueues
      · exact .inl hmem
      · obtain ⟨hne, hold⟩ := Finset.mem_erase.mp hmem
        exact .inr ⟨hold, fun heq => hne (Option.some.inj heq).symm⟩
  | start clients hpc | readProof clients hpc | late clients proof now hpc
  | early clients proof now hpc | noBest clients hpc | readChallenge clients seconds hpc
  | readSockets clients seconds challenge hpc =>
      subst hpc
      exact hqueues
  | take client rest batch hpc =>
      subst hpc
      exact hqueues

theorem serves_eq_nil {pc : ReadyPc} {eff : Effect} (h : ∀ mission, eff ≠ .spawnMission mission) :
    pc.serves eff = [] := by
  rw [serves]
  exact fun client rest batch nonceRange mission _ heff => h mission heff

/-- A step ends the turn of the client that it serves. -/
theorem Moves.serves {cfg : Config} {sh : Shared} {pc pc' : ReadyPc} {eff : Effect}
    (h : pc.Moves cfg sh pc' eff) (horderly : pc.Orderly) (addr : SocketAddr) :
    (pc.serves eff).count addr + pc'.turn (sh.apply eff).readyClients addr ≤
      pc.turn sh.readyClients addr := by
  have hturn : pc'.turn (sh.apply eff).readyClients addr ≤ pc.turn sh.readyClients addr :=
    turn_le h.queues
  cases h with
  | spawn client rest batch nonceRange sender hpc =>
      subst hpc
      by_cases hclient : client = addr
      · subst hclient
        have hbefore : turn (.deliver client rest batch nonceRange) sh.readyClients client = 1 :=
          if_pos (.inl List.mem_cons_self)
        have hafter : turn (.removeReady client rest batch) sh.readyClients client = 0 := by
          refine if_neg ?_
          rintro (hmem | ⟨-, hne⟩)
          · exact (List.nodup_cons.mp horderly).1 hmem
          · exact hne rfl
        rw [hbefore]
        change [client].count client + turn _ sh.readyClients client ≤ 1
        rw [hafter, List.count_singleton_self]
      · change [client].count addr + _ ≤ _
        rw [List.count_singleton, if_neg (by simpa using hclient), Nat.zero_add]
        exact hturn
  | _ =>
      rw [serves_eq_nil (by simp), List.count_nil, Nat.zero_add]
      exact hturn

end ReadyPc

/-- The messages that an effect puts into the channel of the clients. -/
def Effect.messages : Effect → List ClientMessage
  | .sendClient messages => messages
  | _ => []

/-- Messages leave the channel at the processor alone. -/
theorem Shared.apply_clientChannel {sh : Shared} {eff : Effect} (h : eff ≠ .receiveClient) :
    (sh.apply eff).clientChannel = sh.clientChannel ++ eff.messages := by
  cases eff with
  | sendClient => rfl
  | receiveClient => exact absurd rfl h
  | _ => exact (List.append_nil _).symm

/-! ## Turns of an address -/

namespace State

variable {cfg : Config} {s s' t : State} {e : Event} {eff : Effect}

/-- The ready messages of the address in the channel, in the hands of the processor and in
the set. -/
def turns (s : State) (addr : SocketAddr) : Nat :=
  s.shared.clientChannel.count (.ready addr) +
    (if s.messages = .handle (.ready addr) then 1 else 0) +
    s.ready.turn s.shared.readyClients addr

/-- The messages that a step receives from the clients. -/
def received (cfg : Config) (s : State) (e : Event) : List ClientMessage :=
  (s.perform cfg e).elim [] fun (_, eff) => eff.messages

/-- The address for which a step spawns a mission. -/
def served (cfg : Config) (s : State) (e : Event) : List SocketAddr :=
  (s.perform cfg e).elim [] fun (_, eff) => s.ready.serves eff

theorem served_eq (h : s.perform cfg e = some (s', eff)) :
    served cfg s e = s.ready.serves eff := by
  rw [served, h]
  rfl

theorem received_eq (h : s.perform cfg e = some (s', eff)) : received cfg s e = eff.messages := by
  rw [received, h]
  rfl

theorem perform_orderly (horderly : s.ready.Orderly) (h : s.perform cfg e = some (s', eff)) :
    s'.ready.Orderly := by
  by_cases hready : ∃ input, e = .ready input
  · obtain ⟨input, rfl⟩ := hready
    obtain ⟨⟨pc, eff'⟩, hstep, heq⟩ := Option.map_eq_some_iff.mp h
    cases heq
    exact ReadyPc.step_orderly hstep horderly
  · rw [(perform_frame h).ready (by simpa using hready)]
    exact horderly

/-- A batch uses up turns and makes none. -/
theorem ready_turns {input : ReadyInput} (horderly : s.ready.Orderly)
    (h : s.perform cfg (.ready input) = some (s', eff)) (addr : SocketAddr) :
    (s.ready.serves eff).count addr +
        State.turns { s' with shared := s.shared.apply eff } addr ≤ s.turns addr := by
  obtain ⟨⟨pc, eff'⟩, hstep, heq⟩ := Option.map_eq_some_iff.mp h
  cases heq
  have hserves := (ReadyPc.step_moves hstep).serves horderly addr
  have hchannel : (s.shared.apply eff).clientChannel = s.shared.clientChannel := by
    have hscope := ReadyPc.step_scope hstep
    cases eff with
    | sendClient | receiveClient => simp [Effect.scope] at hscope
    | _ => rfl
  simp only [turns, hchannel]
  omega

/-- A ready message goes from the channel to the processor, and from there into the set. -/
theorem message_turns (h : s.perform cfg .message = some (s', eff)) (addr : SocketAddr) :
    State.turns { s' with shared := s.shared.apply eff } addr ≤ s.turns addr := by
  obtain ⟨⟨pc, eff'⟩, hstep, heq⟩ := Option.map_eq_some_iff.mp h
  cases heq
  simp only [MessagePc.step] at hstep
  split at hstep
  case h_1 hidle =>
    split at hstep
    · next message rest hchannel =>
      cases hstep
      simp only [turns, Shared.apply, hchannel, hidle, List.tail_cons, List.count_cons,
        MessagePc.handle.injEq, beq_iff_eq, reduceCtorEq, if_false]
      omega
    · cases hstep
  case h_3 client hhandle =>
    cases hstep
    simp only [turns, Shared.apply, hhandle]
    by_cases hclient : client = addr
    · subst hclient
      have hone := s.ready.turn_le_one (insert client s.shared.readyClients) client
      simp only [if_true, if_false, reduceCtorEq]
      omega
    · have hsame : s.ready.turn (insert client s.shared.readyClients) addr ≤
          s.ready.turn s.shared.readyClients addr :=
        ReadyPc.turn_le (by simp [ReadyPc.Queues, Finset.mem_insert, Ne.symm hclient])
      simp only [MessagePc.handle.injEq, ClientMessage.ready.injEq, hclient, if_false, reduceCtorEq]
      omega
  all_goals
    next hhandle =>
    cases hstep
    simp [turns, Shared.apply, hhandle]

/-- The other tasks put messages into the channel. -/
theorem perform_others (hready : ∀ input, e ≠ .ready input) (hmessage : e ≠ .message)
    (h : s.perform cfg e = some (s', eff)) : eff.scope ≠ .ready ∧ eff ≠ .receiveClient := by
  cases e with
  | ready input => exact absurd rfl (hready input)
  | message => exact absurd rfl hmessage
  | receive k msg =>
      simp only [perform] at h
      split at h <;> (try split at h) <;> cases h <;> simp [Effect.scope]
  | _ =>
      have hmem := perform_scope h
      constructor
      · intro hscope
        rw [hscope] at hmem
        simp [Event.scopes, submissionScopes] at hmem
      · rintro rfl
        simp [Event.scopes, Effect.scope, submissionScopes] at hmem

/-- Every mission for an address uses up one of its turns, and every ready message makes one. -/
theorem perform_turns (horderly : s.ready.Orderly) (h : s.perform cfg e = some (s', eff))
    (addr : SocketAddr) :
    (s.ready.serves eff).count addr +
        State.turns { s' with shared := s.shared.apply eff } addr ≤
      s.turns addr + eff.messages.count (.ready addr) := by
  by_cases hready : ∃ input, e = .ready input
  · obtain ⟨input, rfl⟩ := hready
    exact (ready_turns horderly h addr).trans (Nat.le_add_right _ _)
  · have hserves : s.ready.serves eff = [] := by
      refine ReadyPc.serves_eq_nil ?_
      rintro mission rfl
      exact hready (perform_spawnMission h)
    rw [hserves, List.count_nil, Nat.zero_add]
    have hne : ∀ input, e ≠ .ready input := by simpa using hready
    by_cases hmessage : e = .message
    · subst hmessage
      exact (message_turns h addr).trans (Nat.le_add_right _ _)
    · obtain ⟨hscope, hreceive⟩ := perform_others hne hmessage h
      have hsame : s'.messages = s.messages := by
        obtain hsame | ⟨he, -⟩ := perform_messages h
        · exact hsame
        · exact absurd he hmessage
      simp only [turns, Shared.apply_clientChannel hreceive, Shared.apply_readyClients hscope,
        (perform_frame h).ready hne, hsame, List.count_append]
      omega

/-- In every run, every mission for an address answers a ready message of its own that came
from there, and so does every ready message that still waits for its mission. -/
theorem missions_le_readies_of_run {proof : Proof} {events : List Event}
    (h : run (State.step cfg) (.start proof) events = some s) (addr : SocketAddr) :
    ((trace (State.step cfg) (.start proof) events).flatMap
        fun x => served cfg x.1 x.2).count addr + s.turns addr ≤
      ((trace (State.step cfg) (.start proof) events).flatMap
        fun x => received cfg x.1 x.2).count (.ready addr) := by
  refine (invariant_of_trace (I := fun g t => t.ready.Orderly ∧
    (g.flatMap fun x => served cfg x.1 x.2).count addr + t.turns addr ≤
      (g.flatMap fun x => received cfg x.1 x.2).count (.ready addr)) ?_ ?_ h).2
  · rintro g s e t ⟨horderly, hle⟩ hstep
    obtain ⟨-, s', eff, hperform, rfl⟩ := step_eq_some.mp hstep
    have horderly' := perform_orderly horderly hperform
    refine ⟨horderly', ?_⟩
    have hturns := perform_turns horderly hperform addr
    simp only [List.flatMap_append, List.flatMap_singleton, List.count_append, served_eq hperform,
      received_eq hperform]
    omega
  · exact ⟨List.nodup_nil, le_refl 0⟩

/-- A client is served and becomes ready again. -/
def servedOnce : List Event :=
  Scenario.join 0 (.fill 32 1) 1 ++ Scenario.batch [0] ++ [.receive 0 (.binary [0])]

theorem missions_le_readies_servedOnce : ∃ s,
    run (State.step Scenario.config) (.start Scenario.proof) servedOnce = some s ∧
      s.turns 0 = 1 ∧
      ((trace (State.step Scenario.config) (.start Scenario.proof) servedOnce).flatMap
          fun x => served Scenario.config x.1 x.2).count 0 + s.turns 0 ≤
        ((trace (State.step Scenario.config) (.start Scenario.proof) servedOnce).flatMap
          fun x => received Scenario.config x.1 x.2).count (.ready 0) := by
  obtain ⟨s, hrun, hturns⟩ := exists_run (State.step Scenario.config) (.start Scenario.proof)
    servedOnce (fun s => s.turns 0 = 1) (by decide)
  exact ⟨s, hrun, hturns, missions_le_readies_of_run hrun 0⟩

end State

end Hashpoo.Mining
