import Hashpoo.Mining.Readiness
import Hashpoo.Mining.Turns

/-!
# Who receives a mission

A mission is sent through the sink of a connection, and the turn it uses up belongs to an
address. As long as the batch's copy of the sockets is a copy of opened connections, the
sink is that of the address, and an address at which no connection has been opened has no
turn.
-/

namespace Hashpoo.Mining

open Foundation

/-! ## Missions on their way -/

/-- An entry that is modified counts anew. -/
theorem countP_modify {α : Type*} {p : α → Bool} {f : α → α} {l : List α} {k : Nat} {x : α}
    (h : l[k]? = some x) : (l.modify k f).countP p + (if p x then 1 else 0) =
      l.countP p + if p (f x) then 1 else 0 := by
  induction l generalizing k with
  | nil => cases h
  | cons y l ih =>
      cases k with
      | zero =>
          cases h
          simp only [List.modify_zero_cons, List.countP_cons]
          omega
      | succ k =>
          have hrest := ih h
          simp only [List.modify_succ_cons, List.countP_cons]
          omega

/-- The missions for the sink that have been spawned and not yet been sent. -/
def Shared.unsent (sh : Shared) (socket : Nat) : Nat :=
  sh.missions.countP fun mission => mission.socket = socket ∧ mission.sent = false

/-- The sink to which an effect sends a mission. -/
def Effect.recipient (sh : Shared) : Effect → Option Nat
  | .sendMission k => sh.missions[k]?.map Mission.socket
  | _ => none

/-- The sink for which an effect spawns a mission. -/
def Effect.spawned : Effect → Option Nat
  | .spawnMission mission => some mission.socket
  | _ => none

theorem Opened.mem_addrs_observe {opened : Opened} {addr : SocketAddr}
    (h : addr ∈ opened.map Prod.fst) (eff : Effect) :
    addr ∈ (opened.observe eff).map Prod.fst := by
  cases eff with
  | insertSocket =>
      rw [Opened.observe, List.map_append]
      exact List.mem_append_left _ h
  | _ => exact h

namespace State

variable {cfg : Config} {s s' t : State} {e : Event} {eff : Effect} {opened : Opened}

/-- A mission is sent at most once. -/
theorem perform_unsent (h : s.perform cfg e = some (s', eff)) (socket : Nat) :
    (s.shared.apply eff).unsent socket +
        (if eff.recipient s.shared = some socket then 1 else 0) ≤
      s.shared.unsent socket + if eff.spawned = some socket then 1 else 0 := by
  cases eff with
  | spawnMission mission =>
      simp only [Shared.unsent, Shared.apply, Effect.recipient, Effect.spawned,
        List.countP_append, List.countP_singleton, Option.some.injEq, reduceCtorEq, if_false]
      by_cases hsocket : mission.socket = socket
      · rw [if_pos hsocket]
        split <;> omega
      · simp [hsocket]
  | sendMission k =>
      obtain ⟨mission, hk, hunsent⟩ : ∃ mission, s.shared.missions[k]? = some mission ∧
          mission.sent = false := by
        obtain ⟨input, rfl⟩ | ⟨j, rfl⟩ := perform_missions h (.inl rfl)
        · obtain ⟨⟨pc, eff'⟩, hstep, heq⟩ := Option.map_eq_some_iff.mp h
          cases heq
          cases ReadyPc.step_moves hstep
        · obtain ⟨eff', hstep, heq⟩ := Option.map_eq_some_iff.mp h
          cases heq
          obtain ⟨mission, hk, ⟨-, heff⟩ | ⟨hunsent, heff⟩⟩ := missionStep_cases hstep
          · cases heff
          · cases heff
            exact ⟨mission, hk, hunsent⟩
      have hcount := countP_modify (p := fun m : Mission => m.socket = socket ∧ m.sent = false)
        (f := fun m => { m with sent := true }) hk
      simp only [Shared.unsent, Shared.apply, Effect.recipient, Effect.spawned, hk,
        Option.map_some, Option.some.injEq]
      simp only [hunsent, and_true, decide_eq_true_eq, reduceCtorEq, and_false, decide_false,
        Bool.false_eq_true, if_false] at hcount
      simp only [reduceCtorEq, if_false]
      omega
  | recordRange k pubkey nonceRange =>
      exact (List.eraseIdx_sublist s.shared.missions k).countP_le
  | _ => exact le_refl _

/-! ## Whose missions they are -/

/-- The processor passes on at most one ready message for a message of the client, with the
address of the connection. -/
theorem count_ready_forwarded (sdk : SignatureScheme) (msg : WsMessage) (who addr : SocketAddr) :
    (Hashpoo.forwarded (processMessage sdk msg who)).count (.ready addr) ≤
      if who = addr then 1 else 0 := by
  cases msg with
  | binary d =>
      have hsolution : (Hashpoo.forwarded ((processSolution sdk who d).map
          (·, ControlFlow.continue))).count (.ready addr) = 0 := by
        refine List.count_eq_zero.mpr fun hmem => ?_
        by_cases hlong : 57 ≤ d.length
        · rw [processSolution_eq sdk who hlong] at hmem
          cases (mem_verifySolution.mp hmem).1
        · rw [processSolution_error sdk who (not_le.mp hlong)] at hmem
          cases hmem
      cases d with
      | nil => exact Nat.zero_le _
      | cons b rest =>
          have hindex : index (b :: rest) 0 = .ok b := rfl
          simp only [processMessage, processBinary, hindex, bind, Except.bind]
          split
          · by_cases hwho : who = addr
            · simp [hwho, Except.map, Hashpoo.forwarded, pure, Except.pure]
            · simp [hwho, Except.map, Hashpoo.forwarded, pure, Except.pure]
          · split
            · exact Nat.zero_le _
            · split
              · exact hsolution.le.trans (Nat.zero_le _)
              · exact Nat.zero_le _
  | pong | text | close | ping => exact Nat.zero_le _

/-- Ready messages come in through a connection of their address, one at a time. -/
theorem perform_readies (h : s.perform cfg e = some (s', eff)) (addr : SocketAddr) :
    eff.messages.count (.ready addr) = 0 ∨ eff.messages.count (.ready addr) = 1 ∧
      ∃ k msg, e = .receive k msg ∧ ∃ c, s.connections[k]? = some c ∧ c.addr = addr := by
  by_cases hsends : ∃ messages, eff = .sendClient messages
  · obtain ⟨messages, rfl⟩ := hsends
    obtain ⟨k, msg, -, rfl, -⟩ := perform_sendClient h
    simp only [perform] at h
    split at h
    · next who pubkey hk =>
      have hcount := count_ready_forwarded cfg.sdk msg who addr
      have hmessages : messages = Hashpoo.forwarded (processMessage cfg.sdk msg who) := by
        split at h
        · next hprocess =>
          cases h
          rw [hprocess]
          rfl
        · next hprocess =>
          cases h
          rw [hprocess]
          rfl
        · cases h
      rw [← hmessages] at hcount
      by_cases hwho : who = addr
      · rw [if_pos hwho] at hcount
        obtain hzero | hone := Nat.le_one_iff_eq_zero_or_eq_one.mp hcount
        · exact .inl hzero
        · exact .inr ⟨hone, k, msg, rfl, _, hk, hwho⟩
      · rw [if_neg hwho] at hcount
        exact .inl (Nat.le_zero.mp hcount)
    · cases h
  · refine .inl ?_
    cases eff with
    | sendClient messages => exact absurd ⟨messages, rfl⟩ hsends
    | _ => rfl

/-- Connections keep their addresses. -/
theorem perform_connections (h : s.perform cfg e = some (s', eff)) {c : Connection}
    (hc : c ∈ s'.connections) : (∃ c' ∈ s.connections, c'.addr = c.addr) ∨
      ∃ conn, eff = .insertSocket c.addr conn := by
  cases e with
  | connect addr pubkey minerId =>
      simp only [perform] at h
      split at h
      · cases h
        exact .inl ⟨c, hc, rfl⟩
      · cases h
        obtain hold | hnew := List.mem_append.mp hc
        · exact .inl ⟨c, hold, rfl⟩
        · cases List.mem_singleton.mp hnew
          exact .inr ⟨_, rfl⟩
  | receive k msg =>
      simp only [perform] at h
      split at h
      · next addr pubkey hk =>
        have hset : ∀ c ∈ s.connections.set k ⟨addr, pubkey, false⟩,
            ∃ c' ∈ s.connections, c'.addr = c.addr := by
          intro c hc
          obtain hold | rfl := List.mem_or_eq_of_mem_set hc
          · exact ⟨c, hold, rfl⟩
          · exact ⟨_, List.mem_of_getElem? hk, rfl⟩
        split at h
        · cases h
          exact .inl ⟨c, hc, rfl⟩
        · cases h
          exact .inl (hset c hc)
        · cases h
          exact .inl ⟨c, hc, rfl⟩
      · cases h
  | streamEnded k =>
      simp only [perform] at h
      split at h
      · next addr pubkey hk =>
        cases h
        obtain hold | rfl := List.mem_or_eq_of_mem_set hc
        · exact .inl ⟨c, hold, rfl⟩
        · exact .inl ⟨_, List.mem_of_getElem? hk, rfl⟩
      · cases h
  | disconnect k =>
      simp only [perform] at h
      split at h
      · cases h
        exact .inl ⟨c, List.mem_of_mem_eraseIdx hc, rfl⟩
      · cases h
  | submission | ready | mission | message | contribution | tracking =>
      obtain ⟨_, -, heq⟩ := Option.map_eq_some_iff.mp h
      cases heq
      exact .inl ⟨c, hc, rfl⟩
  | ping | pong | tick =>
      cases h
      exact .inl ⟨c, hc, rfl⟩
  | claim | land =>
      simp only [perform] at h
      split at h <;> cases h
      exact .inl ⟨c, hc, rfl⟩

/-- What is known about the connections opened so far. Ready messages and missions belong
to them, and the sockets of a batch are theirs. -/
structure Grounded (s : State) (opened : Opened) : Prop where
  registered : s.Registered opened
  copied : ∀ batch ∈ s.ready.batch, opened.Registers batch.sockets
  missions : ∀ mission ∈ s.shared.missions, mission.socket < opened.length
  connections : ∀ c ∈ s.connections, c.addr ∈ opened.map Prod.fst
  orderly : s.ready.Orderly
  quiet : ∀ addr, addr ∉ opened.map Prod.fst → s.turns addr = 0

theorem grounded_start (proof : Proof) : (State.start proof).Grounded [] where
  registered := registered_start proof
  copied batch hbatch := by cases hbatch
  missions mission hmission := by cases hmission
  connections c hc := by cases hc
  orderly := List.nodup_nil
  quiet _ _ := rfl

namespace Grounded

/-- A mission goes to the connection of the address that it serves. -/
theorem spawns (h : s.Grounded opened) (hperform : s.perform cfg e = some (s', eff))
    {socket : Nat} (hspawned : eff.spawned = some socket) : ∃ client conn,
      s.ready.serves eff = [client] ∧ opened[socket]? = some (client, conn) := by
  cases eff with
  | spawnMission mission =>
      cases hspawned
      obtain ⟨input, rfl⟩ := perform_spawnMission hperform
      obtain ⟨⟨pc, eff'⟩, hstep, heq⟩ := Option.map_eq_some_iff.mp hperform
      cases heq
      generalize hbefore : s.ready = before at hstep
      cases ReadyPc.step_moves hstep with
      | spawn client rest batch nonceRange sender hpc hsender =>
          subst hpc
          refine ⟨client, sender, rfl, ?_⟩
          exact h.copied batch (by rw [hbefore]; rfl) client sender hsender
  | _ => cases hspawned

theorem perform_copied (h : s.Grounded opened) (hperform : s.perform cfg e = some (s', eff)) :
    ∀ batch ∈ s'.ready.batch, opened.Registers batch.sockets := by
  obtain hsame | ⟨input, -, hmoves⟩ := perform_ready hperform
  · rw [hsame]
    exact h.copied
  · have hcopied := h.copied
    intro batch hbatch
    generalize s.ready = pc at hmoves hcopied
    generalize s'.ready = pc' at hmoves hbatch
    cases hmoves with
    | readSockets clients seconds challenge =>
        cases hbatch
        exact h.registered.sockets
    | take client rest batch' hpc =>
        subst hpc
        exact hcopied batch hbatch
    | spawn client rest batch' nonceRange sender hpc =>
        subst hpc
        exact hcopied batch hbatch
    | gone client rest batch' nonceRange hpc =>
        subst hpc
        exact hcopied batch hbatch
    | remove client rest batch' hpc =>
        subst hpc
        exact hcopied batch hbatch
    | _ => cases hbatch

theorem step (h : s.Grounded opened) (hperform : s.perform cfg e = some (s', eff)) :
    State.Grounded { s' with shared := s.shared.apply eff } (opened.observe eff) where
  registered := perform_registered h.registered hperform
  copied batch hbatch := (h.perform_copied hperform batch hbatch).observe eff
  missions mission hmission := by
    have hlength : opened.length ≤ (opened.observe eff).length := by
      cases eff with
      | insertSocket => exact (List.sublist_append_left _ _).length_le
      | _ => exact le_refl _
    obtain rfl | ⟨m, hm, hsame⟩ := Shared.mem_missions_apply hmission
    · obtain ⟨client, conn, -, hopened⟩ := h.spawns hperform rfl
      exact lt_of_lt_of_le (List.getElem?_eq_some_iff.mp hopened).1 hlength
    · have hsocket : mission.socket = m.socket := by
        obtain rfl | rfl := hsame <;> rfl
      rw [hsocket]
      exact (h.missions m hm).trans_le hlength
  connections c hc := by
    obtain ⟨c', hc', haddr⟩ | ⟨conn, rfl⟩ := perform_connections hperform hc
    · rw [← haddr]
      exact Opened.mem_addrs_observe (h.connections c' hc') eff
    · exact List.mem_map.mpr ⟨(c.addr, conn), List.mem_append_right _ List.mem_cons_self, rfl⟩
  orderly := by
    have horderly := perform_orderly h.orderly hperform
    exact horderly
  quiet addr haddr := by
    have hbefore : addr ∉ opened.map Prod.fst := fun hmem =>
      haddr (Opened.mem_addrs_observe hmem eff)
    have hturns := perform_turns h.orderly hperform addr
    obtain hzero | ⟨-, k, msg, -, c, hc, rfl⟩ := perform_readies hperform addr
    · have hquiet := h.quiet addr hbefore
      omega
    · exact absurd (h.connections c (List.mem_of_getElem? hc)) hbefore

end Grounded

end State

end Hashpoo.Mining
