import Hashpoo.Foundation.History
import Hashpoo.Mining.Connections

/-!
# Evictions

Three tasks remove entries of the sockets: the task of a connection when it ends, the ping
check and the pong tracker. Each of them removes by address, the last two on the strength
of a copy taken earlier, and the records of the pongs outlive the connection. They hit the
connection they mean as long as an address is only used again when nothing of its older
connection is left.
-/

namespace Hashpoo.Mining

open Foundation

/-! ## The log -/

/-- An entry that was removed, with what was known of its connection at that moment. -/
structure Eviction where
  conn : ClientConnection
  /-- The task of the connection had stopped receiving. -/
  ended : Bool
  /-- A ping to the connection had failed. -/
  pingFailed : Bool
  /-- The seconds since the connection was opened or last sent a pong. -/
  silence : Nat
  deriving DecidableEq

def Eviction.Justified (x : Eviction) : Prop := x.ended ∨ x.pingFailed ∨ 90 < x.silence

instance (x : Eviction) : Decidable x.Justified :=
  inferInstanceAs (Decidable (x.ended = true ∨ x.pingFailed = true ∨ 90 < x.silence))

/-- What a run tells about connections. -/
structure EvictionLog where
  opened : Opened
  /-- The sinks of the tasks in `connections`, in the same order. -/
  tasks : List Nat
  /-- The copy of the sockets to which the pings of this round were sent. -/
  pinged : HashMap SocketAddr ClientConnection
  /-- The sinks to which a ping has failed. -/
  failed : List Nat
  /-- When the connection of a sink was opened or last sent a pong. -/
  heard : Nat → Nat
  evictions : List Eviction

/-- The addresses whose ping is outstanding. -/
def PingPc.awaiting : PingPc → List SocketAddr
  | .idle => []
  | .await pinged => pinged

/-- The record that the tracker looks at next. -/
def PongPc.checking : PongPc → Option (SocketAddr × Nat)
  | .check (x :: _) => some x
  | _ => none

namespace EvictionLog

def empty : EvictionLog := ⟨[], [], ∅, [], fun _ => 0, []⟩

/-- The entry of the address is removed. -/
def evict (s : State) (addr : SocketAddr) (log : EvictionLog) : EvictionLog :=
  match s.shared.sockets.lookup addr with
  | some conn =>
      { log with
        evictions := {
          conn := conn
          ended := (s.connections.zip log.tasks).any fun x =>
            x.2 = conn.socket ∧ x.1.receiving = false
          pingFailed := conn.socket ∈ log.failed
          silence := s.shared.now - log.heard conn.socket } :: log.evictions }
  | none => log

/-- A ping of this round has failed. -/
def fail (who : SocketAddr) (log : EvictionLog) : EvictionLog :=
  { log with
    failed := ((log.pinged.lookup who).map ClientConnection.socket).toList ++ log.failed }

/-- The connection of a sink is heard of. -/
def hear (s : State) (socket : Nat) (log : EvictionLog) : EvictionLog :=
  { log with heard := Function.update log.heard socket s.shared.now }

/-- The log of the system. -/
def observe (s : State) (e : Event) (log : EvictionLog) : EvictionLog :=
  match e with
  | .connect addr pubkey minerId =>
      if addr ∈ s.shared.sockets then log
      else
        hear s s.accepted { log with
          opened := log.opened.observe (.insertSocket addr ⟨pubkey, minerId, s.accepted⟩)
          tasks := log.tasks ++ [s.accepted] }
  | .receive k .pong =>
      match log.tasks[k]? with
      | some socket => log.hear s socket
      | none => log
  | .disconnect k =>
      match s.connections[k]? with
      | some c => { log.evict s c.addr with tasks := log.tasks.eraseIdx k }
      | none => log
  | .ping failed =>
      match s.pings with
      | .idle => { log with pinged := s.shared.sockets }
      | .await (who :: _) => if failed then (log.fail who).evict s who else log
      | .await [] => log
  | .pong =>
      match s.pongs.checking with
      | some (addr, last) => if s.shared.now - last > 90 then log.evict s addr else log
      | none => log
  | _ => log

/-- Every removed entry was that of a connection that had itself given cause. -/
def Justified (log : EvictionLog) : Prop := ∀ x ∈ log.evictions, x.Justified

instance (log : EvictionLog) : Decidable log.Justified :=
  inferInstanceAs (Decidable (∀ x ∈ log.evictions, _))

/-- An eviction changes nothing but the list of the evictions. -/
theorem evict_eq (s : State) (addr : SocketAddr) (log : EvictionLog) :
    ∃ evictions, log.evict s addr = { log with evictions := evictions } := by
  rw [evict]
  split
  · exact ⟨_, rfl⟩
  · exact ⟨log.evictions, rfl⟩

/-- Nothing is heard in the future. -/
theorem hear_le {s : State} {log : EvictionLog} (h : ∀ socket, log.heard socket ≤ s.shared.now)
    (k socket : Nat) : (log.hear s k).heard socket ≤ s.shared.now := by
  show Function.update log.heard k s.shared.now socket ≤ s.shared.now
  rw [Function.update_apply]
  split
  · exact le_rfl
  · exact h socket

theorem hear_of_ne (s : State) (log : EvictionLog) {k socket : Nat} (h : socket ≠ k) :
    (log.hear s k).heard socket = log.heard socket := Function.update_of_ne h _ _

/-- The connection of the entry has given cause for its removal. -/
def Cause (s : State) (log : EvictionLog) (conn : ClientConnection) : Prop :=
  (∃ (k : Nat) (c : Connection), s.connections[k]? = some c ∧ log.tasks[k]? = some conn.socket ∧
    c.receiving = false) ∨
    conn.socket ∈ log.failed ∨ 90 < s.shared.now - log.heard conn.socket

theorem Justified.evict {s : State} {log : EvictionLog} {addr : SocketAddr} (h : log.Justified)
    (hcause : ∀ conn, s.shared.sockets.lookup addr = some conn → log.Cause s conn) :
    (log.evict s addr).Justified := by
  rw [EvictionLog.evict]
  split
  · next conn hconn =>
    intro x hx
    obtain rfl | hold := List.mem_cons.mp hx
    · obtain ⟨k, c, hc, hsocket, hended⟩ | hfailed | hsilent := hcause conn hconn
      · refine .inl (List.any_eq_true.mpr ⟨(c, conn.socket), ?_, by simp [hended]⟩)
        exact List.mem_iff_getElem?.mpr ⟨k, List.getElem?_zip_eq_some.mpr ⟨hc, hsocket⟩⟩
      · exact .inr (.inl (decide_eq_true hfailed))
      · exact .inr (.inr hsilent)
    · exact h x hold
  · exact h

end EvictionLog

/-- The effect enters no connection, records no pong and takes no message. -/
def Effect.Quiet (eff : Effect) : Prop :=
  (∀ addr conn, eff ≠ .insertSocket addr conn) ∧ (∀ addr, eff ≠ .insertPong addr) ∧
    eff ≠ .receiveClient

theorem Effect.quiet_of_scope {eff : Effect} {scopes : List Scope} (h : eff.scope ∈ scopes)
    (hscopes : ∀ scope ∈ [Scope.sockets, .pongs, .clientChannel], scope ∉ scopes) : eff.Quiet := by
  refine ⟨?_, ?_, ?_⟩
  · rintro addr conn rfl
    exact hscopes .sockets (by simp) h
  · rintro addr rfl
    exact hscopes .pongs (by simp) h
  · rintro rfl
    exact hscopes .clientChannel (by simp) h

namespace State

variable {cfg : Config} {s s' t : State} {e : Event} {eff : Effect} {log : EvictionLog}

/-- A pong from the address has been received and not yet been recorded. -/
def PongUnderway (s : State) (addr : SocketAddr) : Prop :=
  .pong addr ∈ s.shared.clientChannel ∨ s.messages = .handle (.pong addr)

instance (s : State) (addr : SocketAddr) : Decidable (s.PongUnderway addr) :=
  inferInstanceAs (Decidable (_ ∨ _))

/-- An address is used again when nothing of an older connection is left: no task, no
outstanding ping and no pong record. The tracker gives up an entry for a record that is
still the latest word. -/
def ReusesFreed (s : State) : Event → Prop
  | .connect addr _ _ => addr ∉ s.shared.sockets →
      (∀ c ∈ s.connections, c.addr ≠ addr) ∧ addr ∉ s.pings.awaiting ∧ addr ∉ s.shared.pongs
  | .pong => ∀ x ∈ s.pongs.checking, 90 < s.shared.now - x.2 → x.1 ∈ s.shared.sockets →
      s.shared.pongs.lookup x.1 = some x.2 ∧ ¬ s.PongUnderway x.1
  | _ => True

instance (s : State) (e : Event) : Decidable (s.ReusesFreed e) :=
  match e with
  | .connect _ _ _ => inferInstanceAs (Decidable (_ → _))
  | .pong => inferInstanceAs (Decidable (∀ x ∈ s.pongs.checking, _))
  | .submission _ | .ready _ | .mission _ | .message | .contribution | .tracking _ =>
      .isTrue trivial
  | .ping _ | .receive _ _ | .streamEnded _ | .disconnect _ => .isTrue trivial
  | .land _ _ _ _ | .claim _ | .tick _ => .isTrue trivial

/-! ## The invariant -/

/-- What a task, an outstanding ping or a pong record at an address refers to is the
connection of the entry, if there is one. -/
structure Tracked (s : State) (log : EvictionLog) : Prop where
  registered : s.Registered log.opened
  length : log.tasks.length = s.connections.length
  tasks : ∀ (k : Nat) (c : Connection) (socket : Nat),
    s.connections[k]? = some c → log.tasks[k]? = some socket →
    (∃ conn, log.opened[socket]? = some (c.addr, conn)) ∧
      ∀ conn, s.shared.sockets.lookup c.addr = some conn → conn.socket = socket
  pinged : ∀ who ∈ s.pings.awaiting, ∀ conn, s.shared.sockets.lookup who = some conn →
    log.pinged.lookup who = some conn
  past : ∀ socket, log.heard socket ≤ s.shared.now
  heard : ∀ addr conn last, s.shared.sockets.lookup addr = some conn →
    s.shared.pongs.lookup addr = some last → log.heard conn.socket ≤ last ∨ s.PongUnderway addr
  justified : log.Justified

theorem tracked_start (proof : Proof) : (State.start proof).Tracked .empty where
  registered := registered_start proof
  length := rfl
  tasks k c socket hc := by cases hc
  pinged who hwho := by cases hwho
  past socket := le_rfl
  heard addr conn last hconn := by cases hconn
  justified x hx := by cases hx

/-! ### Steps that open nothing -/

/-- The step opens no connection, sends no ping and records no pong. -/
structure Shrinks (s t : State) : Prop where
  accepted : t.accepted = s.accepted
  sockets : ∀ addr conn, t.shared.sockets.lookup addr = some conn →
    s.shared.sockets.lookup addr = some conn
  pongs : ∀ addr last, t.shared.pongs.lookup addr = some last →
    s.shared.pongs.lookup addr = some last
  pings : ∀ who ∈ t.pings.awaiting, who ∈ s.pings.awaiting
  now : s.shared.now ≤ t.shared.now
  underway : ∀ addr, s.PongUnderway addr → t.PongUnderway addr

theorem shrinks_apply (s' : State) (eff : Effect) (haccepted : s'.accepted = s.accepted)
    (hpings : ∀ who ∈ s'.pings.awaiting, who ∈ s.pings.awaiting)
    (hmessages : ∀ addr, s.messages = .handle (.pong addr) → s'.messages = .handle (.pong addr))
    (hquiet : eff.Quiet) : s.Shrinks { s' with shared := s.shared.apply eff } := by
  have hunderway : (∀ m ∈ s.shared.clientChannel, m ∈ (s.shared.apply eff).clientChannel) →
      ∀ addr, s.PongUnderway addr →
        PongUnderway { s' with shared := s.shared.apply eff } addr :=
    fun hmem addr h => h.imp (hmem _) (hmessages addr)
  cases eff with
  | insertSocket addr conn => exact absurd rfl (hquiet.1 addr conn)
  | insertPong addr => exact absurd rfl (hquiet.2.1 addr)
  | receiveClient => exact absurd rfl hquiet.2.2
  | removeSocket addr =>
      exact ⟨haccepted, fun _ _ h => HashMap.lookup_of_erase h, fun _ _ h => h, hpings, le_rfl,
        hunderway fun _ h => h⟩
  | removePong addr =>
      exact ⟨haccepted, fun _ _ h => h, fun _ _ h => HashMap.lookup_of_erase h, hpings, le_rfl,
        hunderway fun _ h => h⟩
  | sendClient messages =>
      exact ⟨haccepted, fun _ _ h => h, fun _ _ h => h, hpings, le_rfl,
        hunderway fun _ h => List.mem_append_left _ h⟩
  | tick seconds =>
      exact ⟨haccepted, fun _ _ h => h, fun _ _ h => h, hpings, Nat.le_add_right _ _,
        hunderway fun _ h => h⟩
  | _ =>
      exact ⟨haccepted, fun _ _ h => h, fun _ _ h => h, hpings, le_rfl, hunderway fun _ h => h⟩

namespace Tracked

theorem shrink (h : s.Tracked log) (hshrinks : s.Shrinks t) {tasks failed : List Nat}
    {evictions : List Eviction} (hlength : tasks.length = t.connections.length)
    (htasks : ∀ (k : Nat) (c : Connection) (socket : Nat), t.connections[k]? = some c →
      tasks[k]? = some socket → ∃ (j : Nat) (c' : Connection),
        s.connections[j]? = some c' ∧ c'.addr = c.addr ∧ log.tasks[j]? = some socket)
    (hjustified : ∀ x ∈ evictions, x.Justified) :
    t.Tracked { log with tasks := tasks, failed := failed, evictions := evictions } where
  registered := h.registered.shrink hshrinks.accepted hshrinks.sockets
  length := hlength
  tasks k c socket hc hsocket := by
    obtain ⟨j, c', hc', haddr, hsocket'⟩ := htasks k c socket hc hsocket
    obtain ⟨hopened, hentry⟩ := h.tasks j c' socket hc' hsocket'
    rw [haddr] at hopened hentry
    exact ⟨hopened, fun conn hconn => hentry conn (hshrinks.sockets _ conn hconn)⟩
  pinged who hwho conn hconn :=
    h.pinged who (hshrinks.pings who hwho) conn (hshrinks.sockets who conn hconn)
  past socket := (h.past socket).trans hshrinks.now
  heard addr conn last hconn hlast :=
    (h.heard addr conn last (hshrinks.sockets addr conn hconn)
      (hshrinks.pongs addr last hlast)).imp id (hshrinks.underway addr)
  justified := hjustified

/-- The tasks stay, apart from one that may stop receiving. -/
theorem same (h : s.Tracked log) (hshrinks : s.Shrinks t) {failed : List Nat}
    {evictions : List Eviction}
    (hconnections : t.connections.map Connection.addr = s.connections.map Connection.addr)
    (hjustified : ∀ x ∈ evictions, x.Justified) :
    t.Tracked { log with failed := failed, evictions := evictions } := by
  refine Tracked.shrink h hshrinks ?_ ?_ hjustified
  · have hlength := congrArg List.length hconnections
    rw [List.length_map, List.length_map] at hlength
    exact h.length.trans hlength.symm
  · intro k c socket hc hsocket
    have haddr := congrArg (fun l => l[k]?) hconnections
    simp only [List.getElem?_map, hc, Option.map_some] at haddr
    obtain ⟨c', hc', heq⟩ := Option.map_eq_some_iff.mp haddr.symm
    exact ⟨k, c', hc', heq, hsocket⟩

/-- An entry is removed, and its connection has given cause. -/
theorem evict (h : s.Tracked log) (hshrinks : s.Shrinks t) {addr : SocketAddr} {failed : List Nat}
    (hconnections : t.connections.map Connection.addr = s.connections.map Connection.addr)
    (hcause : ∀ conn, s.shared.sockets.lookup addr = some conn →
      EvictionLog.Cause s { log with failed := failed } conn) :
    t.Tracked (EvictionLog.evict s addr { log with failed := failed }) := by
  have hjustified := EvictionLog.Justified.evict
    (show EvictionLog.Justified { log with failed := failed } from h.justified) hcause
  obtain ⟨evictions, heq⟩ := EvictionLog.evict_eq s addr { log with failed := failed }
  rw [heq] at hjustified ⊢
  exact h.same hshrinks hconnections hjustified

/-- A step that neither opens a connection nor has to do with pongs or pings. -/
theorem quiet (h : s.Tracked log) (s' : State) (eff : Effect)
    (hconnections : s'.connections.map Connection.addr = s.connections.map Connection.addr)
    (haccepted : s'.accepted = s.accepted) (hpings : s'.pings = s.pings)
    (hmessages : ∀ addr, s.messages = .handle (.pong addr) → s'.messages = .handle (.pong addr))
    (hquiet : eff.Quiet) : Tracked { s' with shared := s.shared.apply eff } log := by
  refine h.same (shrinks_apply s' eff haccepted ?_ hmessages hquiet) hconnections h.justified
  rw [hpings]
  exact fun _ hwho => hwho

/-! ### Connections and pongs -/

/-- The address of the new connection is free. -/
theorem connect (h : s.Tracked log) {addr : SocketAddr} {pubkey : Pubkey} {minerId : Int}
    (hok : s.ReusesFreed (.connect addr pubkey minerId)) (hfree : addr ∉ s.shared.sockets) :
    Tracked { s with
      connections := s.connections ++ [⟨addr, pubkey, true⟩]
      accepted := s.accepted + 1
      shared := s.shared.apply (.insertSocket addr ⟨pubkey, minerId, s.accepted⟩) }
      (log.observe s (.connect addr pubkey minerId)) := by
  obtain ⟨hconnections, hpings, hpongs⟩ := hok hfree
  have haccepted := h.registered.accepted
  rw [EvictionLog.observe, if_neg hfree]
  constructor
  · exact h.registered.accept rfl rfl rfl
  · show (log.tasks ++ [s.accepted]).length = (s.connections ++ [_]).length
    rw [List.length_append, List.length_append, h.length]
    rfl
  · intro k c socket hc hsocket
    change (s.connections ++ [_])[k]? = some c at hc
    change (log.tasks ++ [s.accepted])[k]? = some socket at hsocket
    rw [List.getElem?_append] at hc hsocket
    rw [h.length] at hsocket
    split at hc
    · next hlt =>
      rw [if_pos hlt] at hsocket
      obtain ⟨⟨conn, hopened⟩, hentry⟩ := h.tasks k c socket hc hsocket
      refine ⟨⟨conn, Opened.getElem?_observe hopened (.insertSocket addr _)⟩, ?_⟩
      refine fun conn hconn => hentry conn ?_
      exact (AList.lookup_insert_ne (hconnections c (List.mem_of_getElem? hc))).symm.trans hconn
    · next hge =>
      rw [if_neg hge] at hsocket
      cases List.mem_singleton.mp (List.mem_of_getElem? hc)
      cases List.mem_singleton.mp (List.mem_of_getElem? hsocket)
      refine ⟨⟨⟨pubkey, minerId, s.accepted⟩, ?_⟩, fun conn hconn => ?_⟩
      · rw [haccepted]
        exact List.getElem?_concat_length
      · cases (AList.lookup_insert _).symm.trans hconn
        rfl
  · intro who hwho conn hconn
    have hne : who ≠ addr := by
      rintro rfl
      exact hpings hwho
    exact h.pinged who hwho conn ((AList.lookup_insert_ne hne).symm.trans hconn)
  · exact fun socket => log.hear_le h.past s.accepted socket
  · intro addr' conn last hconn hlast
    obtain ⟨rfl, rfl⟩ | ⟨hne, hold⟩ := HashMap.lookup_insert_eq_some.mp hconn
    · change s.shared.pongs.lookup addr' = some last at hlast
      exact absurd (AList.lookup_isSome.mp (by rw [hlast]; rfl)) hpongs
    · have hlt := h.registered.sockets.socket_lt hold
      refine (h.heard addr' conn last hold hlast).imp (fun hle => ?_) id
      exact (log.hear_of_ne s (by omega : conn.socket ≠ s.accepted)).trans_le hle
  · exact h.justified

/-- A pong has been received. -/
theorem hear (h : s.Tracked log) {k socket : Nat} {c : Connection}
    (hc : s.connections[k]? = some c) (hsocket : log.tasks[k]? = some socket) :
    Tracked { s with shared := s.shared.apply (.sendClient [.pong c.addr]) }
      (log.hear s socket) := by
  have hmem : ∀ m ∈ s.shared.clientChannel, m ∈ s.shared.clientChannel ++ [.pong c.addr] :=
    fun m => List.mem_append_left _
  refine ⟨⟨h.registered.accepted, h.registered.sockets⟩, h.length, h.tasks, h.pinged,
    fun socket' => log.hear_le h.past socket socket', ?_, h.justified⟩
  intro addr conn last hconn hlast
  by_cases hsame : conn.socket = socket
  · -- The sink belongs to the address of the task.
    obtain ⟨⟨conn', hopened⟩, -⟩ := h.tasks k c socket hc hsocket
    have hentry := h.registered.sockets addr conn hconn
    rw [hsame, hopened] at hentry
    cases hentry
    exact .inr (.inl (List.mem_append_right _ List.mem_cons_self))
  · refine (h.heard addr conn last hconn hlast).imp (fun hle => ?_) (Or.imp (hmem _) id)
    exact (log.hear_of_ne s hsame).trans_le hle

/-- A message is taken from the channel. -/
theorem receive (h : s.Tracked log) {m : ClientMessage} {rest : List ClientMessage}
    (hidle : s.messages = .idle) (hchannel : s.shared.clientChannel = m :: rest) :
    Tracked { s with messages := .handle m, shared := s.shared.apply .receiveClient } log := by
  refine ⟨⟨h.registered.accepted, h.registered.sockets⟩, h.length, h.tasks, h.pinged, h.past, ?_,
    h.justified⟩
  intro addr conn last hconn hlast
  refine (h.heard addr conn last hconn hlast).imp id ?_
  rintro (hmem | hpc)
  · rw [hchannel] at hmem
    obtain rfl | hrest := List.mem_cons.mp hmem
    · exact .inr rfl
    · refine .inl ?_
      show _ ∈ s.shared.clientChannel.tail
      rwa [hchannel]
  · cases hidle.symm.trans hpc

/-- The record of a pong is as late as anything heard. -/
theorem record (h : s.Tracked log) {addr : SocketAddr}
    (hpc : s.messages = .handle (.pong addr)) :
    Tracked { s with messages := .idle, shared := s.shared.apply (.insertPong addr) } log := by
  refine ⟨⟨h.registered.accepted, h.registered.sockets⟩, h.length, h.tasks, h.pinged, h.past, ?_,
    h.justified⟩
  intro addr' conn last hconn hlast
  obtain ⟨rfl, rfl⟩ | ⟨hne, hold⟩ := HashMap.lookup_insert_eq_some.mp hlast
  · exact .inl (h.past conn.socket)
  · refine (h.heard addr' conn last hconn hold).imp id ?_
    rintro (hmem | hother)
    · exact .inl hmem
    · cases hpc.symm.trans hother
      exact absurd rfl hne

/-- A round of pings starts with a copy of the sockets. -/
theorem ping (h : s.Tracked log) (pc : PingPc) :
    Tracked { s with pings := pc } { log with pinged := s.shared.sockets } :=
  ⟨⟨h.registered.accepted, h.registered.sockets⟩, h.length, h.tasks, fun _ _ _ hconn => hconn,
    h.past, h.heard, h.justified⟩

end Tracked

/-! ## Steps -/

theorem map_addr_set {connections : List Connection} {k : Nat} {c c' : Connection}
    (hc : connections[k]? = some c) (haddr : c'.addr = c.addr) :
    (connections.set k c').map Connection.addr = connections.map Connection.addr := by
  apply List.ext_getElem?
  intro j
  rw [List.getElem?_map, List.getElem?_map, List.getElem?_set]
  split
  · next hjk =>
    subst hjk
    obtain ⟨hlt, rfl⟩ := List.getElem?_eq_some_iff.mp hc
    rw [if_pos hlt, List.getElem?_eq_getElem hlt, Option.map_some, Option.map_some, haddr]
  · rfl

/-- The task of a connection takes the entry of its address along. -/
theorem tracked_disconnect (h : s.Tracked log) {k : Nat} {c : Connection}
    (hc : s.connections[k]? = some c) (hended : c.receiving = false) :
    Tracked { s with
      connections := s.connections.eraseIdx k
      shared := s.shared.apply (.removeSocket c.addr) } (log.observe s (.disconnect k)) := by
  obtain ⟨hk, -⟩ := List.getElem?_eq_some_iff.mp hc
  have hjustified : (log.evict s c.addr).Justified := by
    refine h.justified.evict fun conn hconn => .inl ⟨k, c, hc, ?_, hended⟩
    have htask := List.getElem?_eq_getElem (h.length ▸ hk : k < log.tasks.length)
    rw [htask, (h.tasks k c _ hc htask).2 conn hconn]
  have hshrinks : s.Shrinks { s with
      connections := s.connections.eraseIdx k
      shared := s.shared.apply (.removeSocket c.addr) } :=
    shrinks_apply { s with connections := s.connections.eraseIdx k } _ rfl
      (fun _ hwho => hwho) (fun _ hpc => hpc) (by simp [Effect.Quiet])
  obtain ⟨evictions, heq⟩ := log.evict_eq s c.addr
  simp only [EvictionLog.observe, hc]
  rw [heq] at hjustified ⊢
  refine h.shrink hshrinks ?_ ?_ hjustified
  · show (log.tasks.eraseIdx k).length = (s.connections.eraseIdx k).length
    rw [List.length_eraseIdx, List.length_eraseIdx, h.length]
  · intro j c' socket hc' hsocket
    change (s.connections.eraseIdx k)[j]? = some c' at hc'
    rw [List.getElem?_eraseIdx] at hc' hsocket
    split at hc'
    · next hlt =>
      rw [if_pos hlt] at hsocket
      exact ⟨j, c', hc', rfl, hsocket⟩
    · next hge =>
      rw [if_neg hge] at hsocket
      exact ⟨j + 1, c', hc', rfl, hsocket⟩

/-- A ping has failed. -/
theorem tracked_failed (h : s.Tracked log) {who : SocketAddr} {rest : List SocketAddr}
    (hpings : s.pings = .await (who :: rest)) :
    Tracked { s with pings := .await rest, shared := s.shared.apply (.removeSocket who) }
      ((log.fail who).evict s who) := by
  have hshrinks : s.Shrinks { s with
      pings := .await rest, shared := s.shared.apply (.removeSocket who) } :=
    shrinks_apply { s with pings := .await rest } _ rfl
      (fun _ hwho => by rw [hpings]; exact List.mem_cons_of_mem _ hwho) (fun _ hpc => hpc)
      (by simp [Effect.Quiet])
  refine h.evict hshrinks rfl fun conn hconn => .inr (.inl (List.mem_append_left _ ?_))
  rw [h.pinged who (by rw [hpings]; exact List.mem_cons_self) conn hconn]
  exact List.mem_cons_self

/-- The tracker gives up a connection that is silent. -/
theorem tracked_late (h : s.Tracked log) {addr : SocketAddr} {last : Nat}
    {rest : List (SocketAddr × Nat)} (hok : s.ReusesFreed .pong)
    (hpc : s.pongs = .check ((addr, last) :: rest)) (hlate : s.shared.now - last > 90) :
    Tracked { s with
      pongs := .removePong addr rest, shared := s.shared.apply (.removeSocket addr) }
      (log.evict s addr) := by
  have hshrinks : s.Shrinks { s with
      pongs := .removePong addr rest, shared := s.shared.apply (.removeSocket addr) } :=
    shrinks_apply { s with pongs := .removePong addr rest } _ rfl (fun _ hwho => hwho)
      (fun _ hpc => hpc) (by simp [Effect.Quiet])
  refine h.evict hshrinks rfl fun conn hconn => .inr (.inr ?_)
  have hentry : addr ∈ s.shared.sockets := AList.lookup_isSome.mp (by rw [hconn]; rfl)
  obtain ⟨hlast, hquiet⟩ := hok (addr, last) (by rw [hpc]; rfl) hlate hentry
  obtain hheard | hunderway := h.heard addr conn last hconn hlast
  · show 90 < s.shared.now - log.heard conn.socket
    omega
  · exact absurd hunderway hquiet

/-- A message of a connection. -/
theorem tracked_receive (h : s.Tracked log) {k : Nat} {msg : WsMessage}
    (hperform : s.perform cfg (.receive k msg) = some (s', eff)) :
    Tracked { s' with shared := s.shared.apply eff } (log.observe s (.receive k msg)) := by
  simp only [perform] at hperform
  split at hperform
  · next addr pubkey hc =>
    by_cases hpong : msg = .pong
    · subst hpong
      cases hperform
      obtain ⟨hk, -⟩ := List.getElem?_eq_some_iff.mp hc
      have htask := List.getElem?_eq_getElem (h.length ▸ hk : k < log.tasks.length)
      simp only [EvictionLog.observe, htask]
      exact h.hear hc htask
    · have hlog : log.observe s (.receive k msg) = log := by
        cases msg with
        | pong => exact absurd rfl hpong
        | _ => rfl
      have hquiet : s'.connections.map Connection.addr = s.connections.map Connection.addr ∧
          s'.accepted = s.accepted ∧ s'.pings = s.pings ∧ s'.messages = s.messages ∧
          eff.Quiet := by
        split at hperform <;> cases hperform
        · exact ⟨rfl, rfl, rfl, rfl, by simp [Effect.Quiet]⟩
        · exact ⟨map_addr_set hc rfl, rfl, rfl, rfl, by simp [Effect.Quiet]⟩
        · exact ⟨rfl, rfl, rfl, rfl, by simp [Effect.Quiet]⟩
      obtain ⟨hconnections, haccepted, hpings, hmessages, heff⟩ := hquiet
      rw [hlog]
      exact h.quiet s' eff hconnections haccepted hpings
        (by rw [hmessages]; exact fun _ hpc => hpc) heff
  · cases hperform

/-- A step of `client_message_processor`. -/
theorem tracked_message (h : s.Tracked log) (hperform : s.perform cfg .message = some (s', eff)) :
    Tracked { s' with shared := s.shared.apply eff } log := by
  obtain ⟨⟨pc, eff'⟩, hmessage, heq⟩ := Option.map_eq_some_iff.mp hperform
  cases heq
  simp only [MessagePc.step] at hmessage
  split at hmessage
  case h_1 hidle =>
    split at hmessage
    · next m rest hchannel =>
      cases hmessage
      exact h.receive hidle hchannel
    · cases hmessage
  case h_2 addr hpc =>
    cases hmessage
    exact h.record hpc
  all_goals
    next hpc =>
    cases hmessage
    exact h.quiet { s with messages := .idle } _ rfl rfl rfl
      (fun _ hother => by cases hpc.symm.trans hother) (by simp [Effect.Quiet])

/-- A step of `ping_check_processor`. -/
theorem tracked_ping (h : s.Tracked log) (failed : Bool) :
    Tracked { s with
      pings := (s.pings.step s.shared failed).1
      shared := s.shared.apply (s.pings.step s.shared failed).2 }
      (log.observe s (.ping failed)) := by
  cases hpings : s.pings with
  | idle =>
      simp only [EvictionLog.observe, hpings]
      exact h.ping _
  | await pinged =>
      cases pinged with
      | nil =>
          simp only [EvictionLog.observe, hpings]
          exact h.same (shrinks_apply { s with pings := .idle } .silent rfl
            (fun _ hwho => (by cases hwho)) (fun _ hpc => hpc) (by simp [Effect.Quiet])) rfl
            h.justified
      | cons who rest =>
          simp only [EvictionLog.observe, hpings]
          cases failed with
          | true => exact tracked_failed h hpings
          | false =>
              refine h.same (shrinks_apply { s with pings := .await rest } .silent rfl ?_
                (fun _ hpc => hpc) (by simp [Effect.Quiet])) rfl h.justified
              rw [hpings]
              exact fun _ hwho => List.mem_cons_of_mem _ hwho

/-- A step of `pong_tracking_processor`. -/
theorem tracked_pong (h : s.Tracked log) (hok : s.ReusesFreed .pong) :
    Tracked { s with
      pongs := (s.pongs.step s.shared).1, shared := s.shared.apply (s.pongs.step s.shared).2 }
      (log.observe s .pong) := by
  cases hpongs : s.pongs with
  | check pongs =>
      cases pongs with
      | nil =>
          simp only [EvictionLog.observe, hpongs, PongPc.checking]
          exact h.quiet { s with pongs := .idle } .silent rfl rfl rfl
            (fun _ hpc => hpc) (by simp [Effect.Quiet])
      | cons x rest =>
          obtain ⟨addr, last⟩ := x
          simp only [EvictionLog.observe, hpongs, PongPc.checking, PongPc.step]
          by_cases hlate : s.shared.now - last > 90
          · simp only [if_pos hlate]
            exact tracked_late h hok hpongs hlate
          · simp only [if_neg hlate]
            exact h.quiet { s with pongs := .check rest } .silent rfl rfl rfl
              (fun _ hpc => hpc) (by simp [Effect.Quiet])
  | idle =>
      simp only [EvictionLog.observe, hpongs, PongPc.checking]
      exact h.quiet { s with
        pongs := .check (s.shared.pongs.entries.map fun e => (e.1, e.2)) } .silent rfl rfl rfl
        (fun _ hpc => hpc) (by simp [Effect.Quiet])
  | removePong addr rest =>
      simp only [EvictionLog.observe, hpongs, PongPc.checking]
      exact h.quiet { s with pongs := .check rest } (.removePong addr) rfl rfl rfl
        (fun _ hpc => hpc) (by simp [Effect.Quiet])

theorem step_tracked (h : s.Tracked log) (hok : s.ReusesFreed e) (hstep : s.step cfg e = some t) :
    t.Tracked (log.observe s e) := by
  obtain ⟨-, s', eff, hperform, rfl⟩ := step_eq_some.mp hstep
  cases e with
  | connect addr pubkey minerId =>
      simp only [perform] at hperform
      split at hperform
      · next hused =>
        cases hperform
        rw [EvictionLog.observe, if_pos hused]
        exact h
      · next hfree =>
        cases hperform
        exact h.connect hok hfree
  | receive k msg => exact tracked_receive h hperform
  | streamEnded k =>
      simp only [perform] at hperform
      split at hperform
      · next addr pubkey hc =>
        cases hperform
        exact h.quiet { s with connections := s.connections.set k ⟨addr, pubkey, false⟩ } _
          (map_addr_set hc rfl) rfl rfl (fun _ hpc => hpc) (by simp [Effect.Quiet])
      · cases hperform
  | disconnect k =>
      simp only [perform] at hperform
      split at hperform
      · next addr pubkey hc =>
        cases hperform
        exact tracked_disconnect h hc rfl
      · cases hperform
  | message => exact tracked_message h hperform
  | ping failed =>
      cases hperform
      exact tracked_ping h failed
  | pong =>
      cases hperform
      exact tracked_pong h hok
  | submission | ready | mission | contribution | tracking =>
      have hquiet := Effect.quiet_of_scope (perform_scope hperform)
        (by simp [Event.scopes, submissionScopes])
      have hsame : s'.connections = s.connections ∧ s'.accepted = s.accepted ∧
          s'.pings = s.pings ∧ s'.messages = s.messages := by
        obtain ⟨_, -, heq⟩ := Option.map_eq_some_iff.mp hperform
        cases heq
        exact ⟨rfl, rfl, rfl, rfl⟩
      obtain ⟨hconnections, haccepted, hpings, hmessages⟩ := hsame
      exact h.quiet s' eff (congrArg _ hconnections) haccepted hpings
        (by rw [hmessages]; exact fun _ hpc => hpc) hquiet
  | land | claim | tick =>
      have hquiet := Effect.quiet_of_scope (perform_scope hperform) (by simp [Event.scopes])
      simp only [perform] at hperform
      (try split at hperform) <;> cases hperform
      exact h.quiet s _ rfl rfl rfl (fun _ hpc => hpc) hquiet

end State

/-! ## Runs -/

namespace EvictionLog

variable {cfg : Config} {s : State} {log : EvictionLog}

/-- In every run in which addresses are used again only when they are free, an entry is
removed only if its own connection has ended, has failed a ping or has been silent. -/
theorem justified_of_run {proof : Proof} {events : List Event}
    (h : run (withHistory (State.step cfg) observe) (.start proof, .empty) events =
      some (s, log))
    (hmeets : Meets (State.step cfg) State.ReusesFreed (.start proof) events) :
    log.Justified := by
  refine (invariant_of_history (I := State.Tracked) ?_ (State.tracked_start proof) hmeets
    h).justified
  intro s log e t hs hok hstep
  exact State.step_tracked hs hok hstep

/-- A client answers one ping and is then silent. The tracker gives it up, and when its task
has ended the address is used again. -/
def silentAndBack : List Event :=
  [.connect 0 (.fill 32 1) 1, .receive 0 .pong, .message, .message, .tick 91, .pong, .pong,
    .pong, .streamEnded 0, .disconnect 0, .connect 0 (.fill 32 1) 1, .streamEnded 0,
    .disconnect 0]

theorem justified_silentAndBack : ∃ s log,
    run (withHistory (State.step Scenario.config) observe) (.start Scenario.proof, .empty)
      silentAndBack = some (s, log) ∧
    log.evictions.map Eviction.silence = [0, 91] ∧ log.Justified := by
  obtain ⟨⟨s, log⟩, hrun, hsilence⟩ := exists_run
    (withHistory (State.step Scenario.config) observe) (.start Scenario.proof, .empty)
    silentAndBack (fun x => x.2.evictions.map Eviction.silence = [0, 91]) (by decide)
  exact ⟨s, log, hrun, hsilence, justified_of_run hrun (by decide)⟩

/-- A ping fails, so the entry is removed while the task of the connection still receives.
The client connects again from the same address, and then the old task ends. -/
def reconnected : List Event :=
  [.connect 0 (.fill 32 1) 1, .ping false, .ping true, .connect 0 (.fill 32 1) 1,
    .streamEnded 0, .disconnect 0]

theorem not_justified : ¬ ∀ cfg proof events s log,
    run (withHistory (State.step cfg) observe) (.start proof, .empty) events =
      some (s, log) → log.Justified := by
  intro h
  obtain ⟨⟨s, log⟩, hrun, hlive⟩ := exists_run
    (withHistory (State.step Scenario.config) observe) (.start Scenario.proof, .empty)
    reconnected (fun x => ¬ x.2.Justified) (by decide)
  exact hlive (h _ _ _ _ _ hrun)

end EvictionLog

end Hashpoo.Mining
