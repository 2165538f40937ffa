import Hashpoo.Foundation.History
import Hashpoo.Mining.Connections

/-!
# Ready messages

`ready_clients_processor` copies the ready clients, spawns the task that sends the mission,
and only then removes the address. The client answers the mission, and its next ready
message may be handled before the removal, which then takes the new entry for the old one.
-/

namespace Hashpoo.Mining

open Foundation

/-! ## The log -/

/-- What a run tells about ready messages. -/
structure ReadyLog where
  opened : Opened
  /-- The sinks to which a mission has been sent. -/
  served : List Nat
  /-- The clients that have become ready after their last mission, with their sinks. -/
  waiting : List (SocketAddr × Nat)
  deriving DecidableEq

namespace ReadyLog

def empty : ReadyLog := ⟨[], [], []⟩

/-- A mission goes to the sink. -/
def serve (log : ReadyLog) (socket : Nat) : ReadyLog :=
  { log with
    served := socket :: log.served
    waiting := log.waiting.filter fun x => x.2 ≠ socket }

def observe (sh : Shared) (log : ReadyLog) : Effect → ReadyLog
  | .insertSocket addr conn => { log with opened := log.opened.observe (.insertSocket addr conn) }
  | .removeSocket addr => { log with waiting := log.waiting.filter fun x => x.1 ≠ addr }
  | .sendMission k =>
      match sh.missions[k]? with
      | some mission => log.serve mission.socket
      | none => log
  | .insertReady addr =>
      match sh.sockets.lookup addr with
      | some conn =>
          if conn.socket ∈ log.served then
            { log with waiting := (addr, conn.socket) :: log.waiting }
          else log
      | none => log
  | _ => log

/-- The log of the system. -/
def observeStep (cfg : Config) (s : State) (e : Event) (log : ReadyLog) : ReadyLog :=
  match s.perform cfg e with
  | some (_, eff) => log.observe s.shared eff
  | none => log

theorem observe_opened (sh : Shared) (log : ReadyLog) (eff : Effect) :
    (log.observe sh eff).opened = log.opened.observe eff := by
  cases eff with
  | sendMission k =>
      simp only [observe]
      split <;> rfl
  | insertReady addr =>
      simp only [observe]
      split <;> (try split) <;> rfl
  | _ => rfl

theorem mem_waiting_observe {sh : Shared} {log : ReadyLog} {eff : Effect}
    {x : SocketAddr × Nat} (h : x ∈ (log.observe sh eff).waiting) :
    x ∈ log.waiting ∨ eff = .insertReady x.1 := by
  cases eff with
  | removeSocket addr => exact .inl (List.mem_filter.mp h).1
  | sendMission k =>
      simp only [observe] at h
      split at h
      · exact .inl (List.mem_filter.mp h).1
      · exact .inl h
  | insertReady addr =>
      simp only [observe] at h
      split at h
      · split at h
        · obtain rfl | hold := List.mem_cons.mp h
          · exact .inr rfl
          · exact .inl hold
        · exact .inl h
      · exact .inl h
  | _ => exact .inl h

/-- Every client that waits is in the set of ready clients. -/
def Kept (sh : Shared) (log : ReadyLog) : Prop := ∀ x ∈ log.waiting, x.1 ∈ sh.readyClients

instance (sh : Shared) (log : ReadyLog) : Decidable (log.Kept sh) :=
  inferInstanceAs (Decidable (∀ x ∈ log.waiting, _))

end ReadyLog

/-- A mission for the sink has been spawned and not yet been sent. -/
def Shared.Pending (sh : Shared) (socket : Nat) : Prop :=
  ∃ mission ∈ sh.missions, mission.socket = socket ∧ mission.sent = false

instance (sh : Shared) (socket : Nat) : Decidable (sh.Pending socket) :=
  inferInstanceAs (Decidable (∃ mission ∈ sh.missions, _))

theorem Shared.Pending.of_subset {sh sh' : Shared} {socket : Nat} (h : sh.Pending socket)
    (hmissions : ∀ mission ∈ sh.missions, mission ∈ sh'.missions) : sh'.Pending socket := by
  obtain ⟨mission, hmem, hsocket, hunsent⟩ := h
  exact ⟨mission, hmissions mission hmem, hsocket, hunsent⟩

/-- The send of a mission leaves every mission at its sink. -/
theorem Shared.exists_mission_of_send {sh : Shared} {k : Nat} {mission : Mission}
    (h : mission ∈ (sh.apply (.sendMission k)).missions) :
    ∃ mission' ∈ sh.missions, mission'.socket = mission.socket := by
  obtain hspawn | ⟨mission', hmission', rfl | rfl⟩ := Shared.mem_missions_apply h
  · cases hspawn
  · exact ⟨mission, hmission', rfl⟩
  · exact ⟨mission', hmission', rfl⟩

/-- Missions for other sinks stay on the way. -/
theorem Shared.Pending.send {sh : Shared} {k socket : Nat} {mission : Mission}
    (hk : sh.missions[k]? = some mission) (hne : socket ≠ mission.socket)
    (h : sh.Pending socket) : (sh.apply (.sendMission k)).Pending socket := by
  obtain ⟨m, hm, hsame, hunsent⟩ := h
  obtain ⟨j, hj⟩ := List.mem_iff_getElem?.mp hm
  refine ⟨m, List.mem_iff_getElem?.mpr ⟨j, ?_⟩, hsame, hunsent⟩
  have hjk : k ≠ j := by
    rintro rfl
    cases hk.symm.trans hj
    exact hne hsame.symm
  rw [Shared.apply, List.getElem?_modify_ne _ _ hjk, hj]

/-- The end of a task whose mission has been sent takes nothing off the way. -/
theorem Shared.Pending.record {sh : Shared} {k socket : Nat} {mission : Mission}
    (hk : sh.missions[k]? = some mission) (hsent : mission.sent = true) (h : sh.Pending socket) :
    (sh.apply (.recordRange k mission.pubkey mission.nonceRange)).Pending socket := by
  obtain ⟨m, hm, hsame, hunsent⟩ := h
  obtain ⟨j, hj⟩ := List.mem_iff_getElem?.mp hm
  refine ⟨m, List.mem_eraseIdx_iff_getElem?.mpr ⟨j, ?_, hj⟩, hsame, hunsent⟩
  rintro rfl
  cases hk.symm.trans hj
  cases hunsent.symm.trans hsent

/-- The batch in progress, from the copy of the sockets on. -/
def ReadyPc.batch : ReadyPc → Option Batch
  | .distribute _ batch | .deliver _ _ batch _ | .removeReady _ _ batch => some batch
  | _ => none

namespace State

variable {cfg : Config} {s s' t : State} {e : Event} {eff : Effect} {log : ReadyLog}

/-- The client that the ready processor removes next, with the batch. -/
def removing (s : State) : Option (SocketAddr × Batch) :=
  match s.ready with
  | .removeReady client _ batch => some (client, batch)
  | _ => none

theorem ready_of_removing {x : SocketAddr × Batch} (h : x ∈ s.removing) :
    ∃ rest, s.ready = .removeReady x.1 rest x.2 := by
  simp only [removing] at h
  split at h
  · next client rest batch hready =>
    cases h
    exact ⟨rest, hready⟩
  · cases h

theorem batch_of_removing {x : SocketAddr × Batch} (h : x ∈ s.removing) :
    x.2 ∈ s.ready.batch := by
  obtain ⟨rest, hready⟩ := ready_of_removing h
  rw [hready]
  rfl

/-- The ready clients are extended by the messages and removed by the batches. -/
theorem perform_readyClients (h : s.perform cfg e = some (s', eff)) (hscope : eff.scope = .ready) :
    (∃ addr, eff = .insertReady addr) ∨
      ∃ x ∈ s.removing, ∃ input, e = .ready input ∧ eff = .removeReady x.1 := by
  cases e with
  | ready input =>
      obtain ⟨⟨pc, eff'⟩, hstep, heq⟩ := Option.map_eq_some_iff.mp h
      cases heq
      cases ReadyPc.step_moves hstep with
      | remove client rest batch hpc =>
          exact .inr ⟨(client, batch), by rw [removing, hpc]; rfl, input, rfl, rfl⟩
      | _ => cases hscope
  | message =>
      obtain ⟨⟨pc, eff'⟩, hstep, heq⟩ := Option.map_eq_some_iff.mp h
      cases heq
      obtain ⟨addr, -, heff⟩ := MessagePc.step_ready hstep hscope
      exact .inl ⟨addr, heff⟩
  | _ =>
      have hmem := perform_scope h
      rw [hscope] at hmem
      simp [Event.scopes, submissionScopes] at hmem

/-- No ready message is handled between the send of a mission and the removal of its
client. -/
def HandlesInTime (s : State) : Event → Prop
  | .message => ∀ x ∈ s.removing, s.messages = .handle (.ready x.1) →
      ∀ conn ∈ s.shared.sockets.lookup x.1, x.2.sockets.lookup x.1 = some conn →
        s.shared.Pending conn.socket
  | _ => True

instance (s : State) (e : Event) : Decidable (s.HandlesInTime e) :=
  match e with
  | .message => inferInstanceAs (Decidable (∀ x ∈ s.removing, _))
  | .submission _ | .ready _ | .mission _ | .contribution | .tracking _ => .isTrue trivial
  | .ping _ | .pong | .connect _ _ _ | .receive _ _ | .streamEnded _ => .isTrue trivial
  | .disconnect _ | .land _ _ _ _ | .claim _ | .tick _ => .isTrue trivial

/-- A client is only removed when its mission has been sent. -/
def SendsFirst (s : State) : Event → Prop
  | .ready _ => ∀ x ∈ s.removing, ∀ conn ∈ s.shared.sockets.lookup x.1,
      x.2.sockets.lookup x.1 = some conn → ¬ s.shared.Pending conn.socket
  | _ => True

instance (s : State) (e : Event) : Decidable (s.SendsFirst e) :=
  match e with
  | .ready _ => inferInstanceAs (Decidable (∀ x ∈ s.removing, _))
  | .submission _ | .mission _ | .message | .contribution | .tracking _ => .isTrue trivial
  | .ping _ | .pong | .connect _ _ _ | .receive _ _ | .streamEnded _ => .isTrue trivial
  | .disconnect _ | .land _ _ _ _ | .claim _ | .tick _ => .isTrue trivial

/-! ## The invariant -/

/-- A sink in use has been opened. What has a mission is in the copy of the batch, and who
waits there has a mission on the way before it is removed. -/
structure Awaited (s : State) (log : ReadyLog) : Prop where
  registered : s.Registered log.opened
  served : ∀ socket ∈ log.served, socket < log.opened.length
  missions : ∀ mission ∈ s.shared.missions, mission.socket < log.opened.length
  copied : ∀ batch ∈ s.ready.batch, log.opened.Registers batch.sockets
  known : ∀ batch ∈ s.ready.batch, ∀ addr conn, s.shared.sockets.lookup addr = some conn →
    (conn.socket ∈ log.served ∨ ∃ mission ∈ s.shared.missions, mission.socket = conn.socket) →
    batch.sockets.lookup addr = some conn
  waiting : ∀ x ∈ log.waiting, x.2 ∈ log.served ∧
    ∃ conn, s.shared.sockets.lookup x.1 = some conn ∧ conn.socket = x.2
  removing : ∀ x ∈ s.removing, ∀ conn, x.2.sockets.lookup x.1 = some conn →
    (x.1, conn.socket) ∈ log.waiting → s.shared.Pending conn.socket
  kept : ∀ x ∈ log.waiting, x.1 ∈ s.shared.readyClients ∨ s.shared.Pending x.2

theorem awaited_start (proof : Proof) : (State.start proof).Awaited .empty where
  registered := registered_start proof
  served socket hsocket := by cases hsocket
  missions mission hmission := by cases hmission
  copied batch hbatch := by cases hbatch
  known batch hbatch := by cases hbatch
  waiting x hx := by cases hx
  removing x hx := by cases hx
  kept x hx := by cases hx

namespace Awaited

/-- A step that leaves the sockets, the missions and the ready clients alone. -/
theorem frame (h : s.Awaited log) (haccepted : t.accepted = s.accepted)
    (hsockets : t.shared.sockets = s.shared.sockets)
    (hmissions : t.shared.missions = s.shared.missions)
    (hreadyClients : t.shared.readyClients = s.shared.readyClients)
    (hbatch : ∀ batch ∈ t.ready.batch, batch ∈ s.ready.batch)
    (hremoving : ∀ x ∈ t.removing, x ∈ s.removing) : t.Awaited log where
  registered := h.registered.shrink haccepted (by rw [hsockets]; exact fun _ _ hconn => hconn)
  served := h.served
  missions := hmissions ▸ h.missions
  copied batch hmem := h.copied batch (hbatch batch hmem)
  known batch hmem := by
    rw [hsockets, hmissions]
    exact h.known batch (hbatch batch hmem)
  waiting := hsockets ▸ h.waiting
  removing x hx conn hconn hwaiting :=
    (h.removing x (hremoving x hx) conn hconn hwaiting).of_subset (hmissions ▸ fun _ h => h)
  kept x hx := by
    rw [hreadyClients]
    exact (h.kept x hx).imp id fun hpending => hpending.of_subset (hmissions ▸ fun _ h => h)

/-- The entry of a client that waits is in the copy of the batch. -/
theorem lookup_of_waiting (h : s.Awaited log) {batch : Batch} (hbatch : batch ∈ s.ready.batch)
    {x : SocketAddr × Nat} (hx : x ∈ log.waiting) : ∃ conn,
      s.shared.sockets.lookup x.1 = some conn ∧ batch.sockets.lookup x.1 = some conn ∧
        conn.socket = x.2 := by
  obtain ⟨hserved, conn, hconn, hsocket⟩ := h.waiting x hx
  exact ⟨conn, hconn, h.known batch hbatch x.1 conn hconn (.inl (hsocket ▸ hserved)), hsocket⟩

/-! ### Connections -/

/-- A new connection has no mission yet. -/
theorem connect (h : s.Awaited log) {addr : SocketAddr} {conn : ClientConnection}
    (hfree : addr ∉ s.shared.sockets) (hsocket : conn.socket = log.opened.length)
    (haccepted : t.accepted = s.accepted + 1) (hready : t.ready = s.ready)
    (hshared : t.shared = s.shared.apply (.insertSocket addr conn)) :
    t.Awaited (log.observe s.shared (.insertSocket addr conn)) := by
  have hremoving : t.removing = s.removing := by simp only [State.removing, hready]
  have hlookup : t.shared.sockets = s.shared.sockets.insert addr conn := by rw [hshared]; rfl
  have hlt : ∀ socket, socket < log.opened.length →
      socket < (log.opened ++ [(addr, conn)]).length := by
    intro socket hlt
    rw [List.length_append]
    omega
  constructor
  · rw [ReadyLog.observe_opened]
    exact h.registered.accept (hsocket.trans h.registered.accepted.symm) haccepted hlookup
  · exact fun socket hmem => hlt socket (h.served socket hmem)
  · rw [hshared]
    exact fun mission hmem => hlt mission.socket (h.missions mission hmem)
  · rw [hready]
    exact fun batch hmem => (h.copied batch hmem).observe (.insertSocket addr conn)
  · rw [hready, hlookup, hshared]
    intro batch hmem addr' conn' hconn husing
    obtain ⟨rfl, rfl⟩ | ⟨-, hold⟩ := HashMap.lookup_insert_eq_some.mp hconn
    · obtain hserved | ⟨mission, hmission, hsame⟩ := husing
      · exact absurd (h.served _ hserved) (by omega)
      · exact absurd (h.missions mission hmission) (by omega)
    · exact h.known batch hmem addr' conn' hold husing
  · intro x hx
    obtain ⟨hserved, conn', hconn, hsame⟩ := h.waiting x hx
    refine ⟨hserved, conn', ?_, hsame⟩
    rw [hlookup, AList.lookup_insert_ne, hconn]
    intro haddr
    rw [haddr] at hconn
    exact hfree (AList.lookup_isSome.mp (by rw [hconn]; rfl))
  · rw [hremoving, hshared]
    exact h.removing
  · rw [hshared]
    exact h.kept

/-- Nobody waits behind a removed entry. -/
theorem disconnect (h : s.Awaited log) {addr : SocketAddr} (haccepted : t.accepted = s.accepted)
    (hready : t.ready = s.ready) (hshared : t.shared = s.shared.apply (.removeSocket addr)) :
    t.Awaited (log.observe s.shared (.removeSocket addr)) := by
  have hremoving : t.removing = s.removing := by simp only [State.removing, hready]
  have hlookup : t.shared.sockets = s.shared.sockets.erase addr := by rw [hshared]; rfl
  constructor
  · refine h.registered.shrink haccepted fun addr' conn hconn => ?_
    rw [hlookup] at hconn
    exact HashMap.lookup_of_erase hconn
  · exact h.served
  · rw [hshared]
    exact h.missions
  · rw [hready]
    exact h.copied
  · rw [hready, hlookup, hshared]
    exact fun batch hmem addr' conn hconn =>
      h.known batch hmem addr' conn (HashMap.lookup_of_erase hconn)
  · intro x hx
    obtain ⟨hx, hne⟩ := List.mem_filter.mp hx
    obtain ⟨hserved, conn, hconn, hsame⟩ := h.waiting x hx
    refine ⟨hserved, conn, ?_, hsame⟩
    rw [hlookup, AList.lookup_erase_ne (by simpa using hne), hconn]
  · rw [hremoving, hshared]
    exact fun x hx conn hconn hwaiting => h.removing x hx conn hconn (List.mem_filter.mp hwaiting).1
  · rw [hshared]
    exact fun x hx => h.kept x (List.mem_filter.mp hx).1

/-! ### Missions -/

/-- The mission goes out, and its client has nothing to wait for. -/
theorem send (h : s.Awaited log) {k : Nat} {mission : Mission}
    (hk : s.shared.missions[k]? = some mission) :
    Awaited { s with shared := s.shared.apply (.sendMission k) }
      (log.serve mission.socket) := by
  have hmission : mission ∈ s.shared.missions := List.mem_of_getElem? hk
  constructor
  · exact ⟨h.registered.accepted, h.registered.sockets⟩
  · intro socket hmem
    obtain rfl | hold := List.mem_cons.mp hmem
    · exact h.missions mission hmission
    · exact h.served socket hold
  · intro m hm
    obtain ⟨m', hm', hsame⟩ := Shared.exists_mission_of_send hm
    exact hsame ▸ h.missions m' hm'
  · exact h.copied
  · intro batch hbatch addr conn hconn husing
    refine h.known batch hbatch addr conn hconn ?_
    obtain hserved | ⟨m, hm, hsame⟩ := husing
    · obtain hnew | hold := List.mem_cons.mp hserved
      · exact .inr ⟨mission, hmission, hnew.symm⟩
      · exact .inl hold
    · obtain ⟨m', hm', hsame'⟩ := Shared.exists_mission_of_send hm
      exact .inr ⟨m', hm', hsame'.trans hsame⟩
  · intro x hx
    obtain ⟨hserved, hconn⟩ := h.waiting x (List.mem_filter.mp hx).1
    exact ⟨List.mem_cons_of_mem _ hserved, hconn⟩
  · intro x hx conn hconn hwaiting
    obtain ⟨hwaiting, hne⟩ := List.mem_filter.mp hwaiting
    exact (h.removing x hx conn hconn hwaiting).send hk (by simpa using hne)
  · intro x hx
    obtain ⟨hx, hne⟩ := List.mem_filter.mp hx
    exact (h.kept x hx).imp id (Shared.Pending.send hk (by simpa using hne))

/-- A task ends after its mission has been sent. -/
theorem record (h : s.Awaited log) {k : Nat} {mission : Mission}
    (hk : s.shared.missions[k]? = some mission) (hsent : mission.sent = true) :
    Awaited { s with
      shared := s.shared.apply (.recordRange k mission.pubkey mission.nonceRange) } log := by
  refine ⟨⟨h.registered.accepted, h.registered.sockets⟩, h.served, ?_, h.copied, ?_, h.waiting,
    ?_, ?_⟩
  · exact fun m hm => h.missions m (List.mem_of_mem_eraseIdx hm)
  · intro batch hbatch addr conn hconn husing
    refine h.known batch hbatch addr conn hconn (husing.imp id ?_)
    rintro ⟨m, hm, hsame⟩
    exact ⟨m, List.mem_of_mem_eraseIdx hm, hsame⟩
  · exact fun x hx conn hconn hwaiting =>
      (h.removing x hx conn hconn hwaiting).record hk hsent
  · exact fun x hx => (h.kept x hx).imp id (Shared.Pending.record hk hsent)

/-! ### Ready messages -/

/-- The message of a client is handled while its mission, if it is about to be removed, is
still to be sent. -/
theorem insertReady (h : s.Awaited log) {pc : MessagePc} {addr : SocketAddr}
    (hok : s.HandlesInTime .message) (hpc : s.messages = .handle (.ready addr)) :
    Awaited { s with messages := pc, shared := s.shared.apply (.insertReady addr) }
      (log.observe s.shared (.insertReady addr)) := by
  have hkept : ∀ x ∈ log.waiting, x.1 ∈ insert addr s.shared.readyClients ∨
      s.shared.Pending x.2 :=
    fun x hx => (h.kept x hx).imp (Finset.mem_insert_of_mem) id
  have hsame : Awaited
      { s with messages := pc, shared := s.shared.apply (.insertReady addr) } log :=
    ⟨⟨h.registered.accepted, h.registered.sockets⟩, h.served, h.missions, h.copied, h.known,
      h.waiting, h.removing, hkept⟩
  simp only [ReadyLog.observe]
  split
  · next conn hconn =>
    split
    · next hserved =>
      refine { hsame with waiting := ?_, removing := ?_, kept := ?_ }
      · intro x hx
        obtain rfl | hold := List.mem_cons.mp hx
        · exact ⟨hserved, conn, hconn, rfl⟩
        · exact h.waiting x hold
      · intro x hx conn' hconn' hwaiting
        obtain heq | hold := List.mem_cons.mp hwaiting
        · obtain ⟨rfl, hsocket⟩ := Prod.mk.inj heq
          rw [hsocket]
          refine hok x hx hpc conn hconn ?_
          exact h.known x.2 (batch_of_removing hx) x.1 conn hconn (.inl hserved)
        · exact h.removing x hx conn' hconn' hold
      · intro x hx
        obtain rfl | hold := List.mem_cons.mp hx
        · exact .inl (Finset.mem_insert_self _ _)
        · exact hkept x hold
    · exact hsame
  · exact hsame

/-! ### The ready processor -/

/-- The processor takes its copy of the sockets. -/
theorem copy (h : s.Awaited log) {clients : List SocketAddr} {seconds : Int}
    {challenge : Challenge} : Awaited { s with
      ready := .distribute clients ⟨seconds, challenge, s.shared.sockets⟩ } log where
  registered := ⟨h.registered.accepted, h.registered.sockets⟩
  served := h.served
  missions := h.missions
  copied batch hbatch := by
    cases hbatch
    exact h.registered.sockets
  known batch hbatch addr conn hconn _ := by
    cases hbatch
    exact hconn
  waiting := h.waiting
  removing x hx := by cases hx
  kept := h.kept

/-- The processor spawns the mission of a client in its copy. -/
theorem spawn (h : s.Awaited log) {client : SocketAddr} {rest : List SocketAddr} {batch : Batch}
    {nonceRange : NonceRange} {sender : ClientConnection} (hbatch : batch ∈ s.ready.batch)
    (hsender : batch.sockets.lookup client = some sender) :
    Awaited { s with
      ready := .removeReady client rest batch
      shared := s.shared.apply (.spawnMission (ReadyPc.missionOf batch sender nonceRange)) }
      log := by
  have hpending : ∀ socket, s.shared.Pending socket →
      (s.shared.apply (.spawnMission (ReadyPc.missionOf batch sender nonceRange))).Pending socket :=
    fun socket hpending => hpending.of_subset fun _ => List.mem_append_left _
  refine ⟨⟨h.registered.accepted, h.registered.sockets⟩, h.served, ?_, ?_, ?_, h.waiting, ?_, ?_⟩
  · intro mission hmission
    obtain hold | hnew := List.mem_append.mp hmission
    · exact h.missions mission hold
    · cases List.mem_singleton.mp hnew
      exact (h.copied batch hbatch).socket_lt hsender
  · rintro batch' ⟨⟩
    exact h.copied batch hbatch
  · rintro batch' ⟨⟩ addr conn hconn husing
    obtain hserved | ⟨mission, hmission, hsame⟩ := husing
    · exact h.known batch hbatch addr conn hconn (.inl hserved)
    · obtain hold | hnew := List.mem_append.mp hmission
      · exact h.known batch hbatch addr conn hconn (.inr ⟨mission, hold, hsame⟩)
      · -- The sink of the new mission is that of the client in the copy.
        cases List.mem_singleton.mp hnew
        obtain ⟨rfl, rfl⟩ :=
          (h.copied batch hbatch).unique h.registered.sockets hsender hconn hsame
        exact hsender
  · rintro x ⟨⟩ conn hconn -
    cases hsender.symm.trans hconn
    exact ⟨_, List.mem_append_right _ List.mem_cons_self, rfl, rfl⟩
  · exact fun x hx => (h.kept x hx).imp id (hpending _)

/-- The processor passes over a client that is not in its copy. -/
theorem pass (h : s.Awaited log) {client : SocketAddr} {rest : List SocketAddr} {batch : Batch}
    (hbatch : batch ∈ s.ready.batch) (hgone : batch.sockets.lookup client = none) :
    Awaited { s with ready := .removeReady client rest batch } log where
  registered := ⟨h.registered.accepted, h.registered.sockets⟩
  served := h.served
  missions := h.missions
  copied := by
    rintro batch' ⟨⟩
    exact h.copied batch hbatch
  known := by
    rintro batch' ⟨⟩
    exact h.known batch hbatch
  waiting := h.waiting
  removing := by
    rintro x ⟨⟩ conn hconn
    cases hgone.symm.trans hconn
  kept := h.kept

/-- Who is removed and waits has a mission on the way. -/
theorem pending_of_removing (h : s.Awaited log) {x : SocketAddr × Batch} (hx : x ∈ s.removing)
    {y : SocketAddr × Nat} (hy : y ∈ log.waiting) (haddr : y.1 = x.1) :
    ∃ conn, s.shared.sockets.lookup x.1 = some conn ∧ x.2.sockets.lookup x.1 = some conn ∧
      conn.socket = y.2 ∧ s.shared.Pending conn.socket := by
  obtain ⟨conn, hconn, hcopy, hsocket⟩ := h.lookup_of_waiting (batch_of_removing hx) hy
  rw [haddr] at hconn hcopy
  refine ⟨conn, hconn, hcopy, hsocket, h.removing x hx conn hcopy ?_⟩
  rw [hsocket, ← haddr]
  exact hy

/-- The processor removes the client. -/
theorem remove (h : s.Awaited log) {client : SocketAddr} {rest : List SocketAddr} {batch : Batch}
    (hready : s.ready = .removeReady client rest batch) :
    Awaited { s with
      ready := .distribute rest batch
      shared := s.shared.apply (.removeReady client) } log where
  registered := ⟨h.registered.accepted, h.registered.sockets⟩
  served := h.served
  missions := h.missions
  copied := by
    rintro batch' ⟨⟩
    exact h.copied batch (by rw [hready]; rfl)
  known := by
    rintro batch' ⟨⟩
    exact h.known batch (by rw [hready]; rfl)
  waiting := h.waiting
  removing x hx := by cases hx
  kept x hx := by
    by_cases haddr : x.1 = client
    · obtain ⟨conn, -, -, hsocket, hpending⟩ := h.pending_of_removing
        (x := (client, batch)) (by rw [State.removing, hready]; rfl) hx haddr
      exact .inr (hsocket ▸ hpending)
    · exact (h.kept x hx).imp (Finset.mem_erase_of_ne_of_mem haddr) id

theorem ready (h : s.Awaited log) {pc : ReadyPc} (hmoves : s.ready.Moves cfg s.shared pc eff) :
    Awaited { s with ready := pc, shared := s.shared.apply eff } (log.observe s.shared eff) := by
  cases hmoves with
  | readSockets => exact h.copy
  | take client rest batch hpc =>
      exact h.frame rfl rfl rfl rfl (fun _ hbatch => by rwa [hpc]) (fun _ hx => by cases hx)
  | spawn client rest batch nonceRange sender hpc hsender =>
      exact h.spawn (by rw [hpc]; rfl) hsender
  | gone client rest batch nonceRange hpc hgone => exact h.pass (by rw [hpc]; rfl) hgone
  | remove client rest batch hpc => exact h.remove hpc
  | _ =>
      exact h.frame rfl rfl rfl rfl (fun _ hbatch => by cases hbatch) (fun _ hx => by cases hx)

/-- The steps that leave the missions, the ready clients and the ready processor alone. -/
theorem others (h : s.Awaited log) (hperform : s.perform cfg e = some (s', eff))
    (hready : s'.ready = s.ready)
    (hscope : eff.scope ≠ .ready ∧ eff.scope ≠ .missions ∧ eff.scope ≠ .ranges) :
    Awaited { s' with shared := s.shared.apply eff } (log.observe s.shared eff) := by
  obtain ⟨haccepted, hinsert⟩ | ⟨addr, pubkey, minerId, rfl, hfree, rfl, rfl⟩ :=
    perform_accepted hperform
  · have hbatch : ∀ batch ∈ s'.ready.batch, batch ∈ s.ready.batch := by
      rw [hready]
      exact fun _ hbatch => hbatch
    have hremoving : ∀ x ∈ s'.removing, x ∈ s.removing := by
      simp only [State.removing, hready]
      exact fun _ hx => hx
    cases eff with
    | insertSocket addr conn => exact absurd rfl (hinsert addr conn)
    | removeSocket addr => exact h.disconnect haccepted hready rfl
    | insertReady | removeReady => exact absurd rfl hscope.1
    | spawnMission | sendMission => exact absurd rfl hscope.2.1
    | recordRange => exact absurd rfl hscope.2.2
    | _ => exact h.frame haccepted rfl rfl rfl hbatch hremoving
  · exact h.connect hfree h.registered.accepted rfl rfl rfl

end Awaited

/-! ## Steps -/

theorem step_awaited (h : s.Awaited log) (hok : s.HandlesInTime e)
    (hstep : s.step cfg e = some t) : t.Awaited (log.observeStep cfg s e) := by
  obtain ⟨-, s', eff, hperform, rfl⟩ := step_eq_some.mp hstep
  rw [ReadyLog.observeStep, hperform]
  show Awaited _ (log.observe s.shared eff)
  cases e with
  | ready input =>
      obtain ⟨⟨pc, eff'⟩, hready, heq⟩ := Option.map_eq_some_iff.mp hperform
      cases heq
      exact h.ready (ReadyPc.step_moves hready)
  | mission k =>
      obtain ⟨eff', hmission, heq⟩ := Option.map_eq_some_iff.mp hperform
      cases heq
      obtain ⟨mission, hk, ⟨hsent, rfl⟩ | ⟨-, rfl⟩⟩ := missionStep_cases hmission
      · exact h.record hk hsent
      · simp only [ReadyLog.observe, hk]
        exact h.send hk
  | message =>
      by_cases hscope : eff.scope = .ready
      · obtain ⟨⟨pc, eff'⟩, hmessage, heq⟩ := Option.map_eq_some_iff.mp hperform
        cases heq
        obtain ⟨addr, hpc, rfl⟩ := MessagePc.step_ready hmessage hscope
        exact h.insertReady hok hpc
      · refine h.others hperform ((perform_frame hperform).ready (by simp)) ⟨hscope, ?_, ?_⟩ <;>
          intro hother <;> have hmem := perform_scope hperform <;> rw [hother] at hmem <;>
          simp [Event.scopes] at hmem
  | _ =>
      refine h.others hperform ((perform_frame hperform).ready (by simp)) ⟨?_, ?_, ?_⟩ <;>
        intro hother <;> have hmem := perform_scope hperform <;> rw [hother] at hmem <;>
        simp [Event.scopes, submissionScopes] at hmem

/-- While every client is removed after its mission has been sent, those who wait stay. -/
theorem step_kept (h : s.Awaited log) (hkept : log.Kept s.shared) (hok : s.SendsFirst e)
    (hstep : s.step cfg e = some t) : (log.observeStep cfg s e).Kept t.shared := by
  obtain ⟨-, s', eff, hperform, rfl⟩ := step_eq_some.mp hstep
  rw [ReadyLog.observeStep, hperform]
  intro x hx
  show x.1 ∈ (s.shared.apply eff).readyClients
  obtain hold | rfl := ReadyLog.mem_waiting_observe hx
  · by_cases hscope : eff.scope = .ready
    · obtain ⟨addr, rfl⟩ | ⟨y, hy, input, rfl, rfl⟩ := perform_readyClients hperform hscope
      · exact Finset.mem_insert_of_mem (hkept x hold)
      · refine Finset.mem_erase_of_ne_of_mem (fun haddr => ?_) (hkept x hold)
        obtain ⟨conn, hconn, hcopy, -, hpending⟩ := h.pending_of_removing hy hold haddr
        exact hok y hy conn hconn hcopy hpending
    · rw [Shared.apply_readyClients hscope]
      exact hkept x hold
  · exact Finset.mem_insert_self _ _

end State

/-! ## Runs -/

namespace ReadyLog

variable {cfg : Config} {s : State} {log : ReadyLog}

/-- In every run in which no ready message falls between the send of a mission and the
removal of its client, a client that waits is in the set of ready clients or has a mission on
the way. When moreover a client is only removed after its mission has been sent, it stays in
the set. -/
theorem kept_of_run {proof : Proof} {events : List Event}
    (h : run (withHistory (State.step cfg) (observeStep cfg)) (.start proof, .empty) events =
      some (s, log))
    (hmeets : Meets (State.step cfg) State.HandlesInTime (.start proof) events) :
    (∀ x ∈ log.waiting, x.1 ∈ s.shared.readyClients ∨ s.shared.Pending x.2) ∧
      (Meets (State.step cfg) State.SendsFirst (.start proof) events → log.Kept s.shared) := by
  constructor
  · refine (invariant_of_history (I := State.Awaited) ?_ (State.awaited_start proof) hmeets h).kept
    intro s log e t hs hok hstep
    exact State.step_awaited hs hok hstep
  · intro hfirst
    refine (invariant_of_history (I := fun s log => s.Awaited log ∧ log.Kept s.shared) ?_ ?_
      (hmeets.and hfirst) h).2
    · rintro s log e t ⟨hs, hkept⟩ hok hstep
      exact ⟨State.step_awaited hs hok.1 hstep, State.step_kept hs hkept hok.2 hstep⟩
    · exact ⟨State.awaited_start proof, fun x hx => by cases hx⟩

/-- The mission of a client up to its send, the removal of the client, and its next ready
message. -/
def readyAgain : List Event :=
  Scenario.join 0 (.fill 32 1) 1 ++
    [.ready (.collect [0]), .ready .proceed, .ready .proceed, .ready (.clock 0)] ++
    List.replicate 4 (.ready .proceed) ++
    [.mission 0, .ready .proceed, .receive 0 (.binary [0]), .message, .message]

theorem kept_readyAgain : ∃ s log,
    run (withHistory (State.step Scenario.config) (observeStep Scenario.config))
      (.start Scenario.proof, .empty) readyAgain = some (s, log) ∧
    log.waiting = [(0, 0)] ∧ log.Kept s.shared := by
  obtain ⟨⟨s, log⟩, hrun, hwaiting⟩ := exists_run
    (withHistory (State.step Scenario.config) (observeStep Scenario.config))
    (.start Scenario.proof, .empty) readyAgain (fun x => x.2.waiting = [(0, 0)]) (by decide)
  exact ⟨s, log, hrun, hwaiting, (kept_of_run hrun (by decide)).2 (by decide)⟩

/-- The next ready message comes before the removal. -/
def readyTooSoon : List Event :=
  Scenario.join 0 (.fill 32 1) 1 ++
    [.ready (.collect [0]), .ready .proceed, .ready .proceed, .ready (.clock 0)] ++
    List.replicate 4 (.ready .proceed) ++
    [.mission 0, .receive 0 (.binary [0]), .message, .message, .ready .proceed]

/-- It is lost, and the client is sent no further mission. -/
theorem lost_readyTooSoon : ∃ s log,
    run (withHistory (State.step Scenario.config) (observeStep Scenario.config))
      (.start Scenario.proof, .empty) readyTooSoon = some (s, log) ∧
    ∃ x ∈ log.waiting, x.1 ∉ s.shared.readyClients ∧ ¬ s.shared.Pending x.2 := by
  obtain ⟨⟨s, log⟩, hrun, hlost⟩ := exists_run
    (withHistory (State.step Scenario.config) (observeStep Scenario.config))
    (.start Scenario.proof, .empty) readyTooSoon
    (fun y => ∃ x ∈ y.2.waiting, x.1 ∉ y.1.shared.readyClients ∧ ¬ y.1.shared.Pending x.2)
    (by decide)
  exact ⟨s, log, hrun, hlost⟩

theorem not_kept : ¬ ∀ cfg proof events s log,
    run (withHistory (State.step cfg) (observeStep cfg)) (.start proof, .empty) events =
      some (s, log) → log.Kept s.shared := by
  intro h
  obtain ⟨s, log, hrun, x, hx, hlost, -⟩ := lost_readyTooSoon
  exact hlost (h _ _ _ _ _ hrun x hx)

end ReadyLog

end Hashpoo.Mining
