import Hashpoo.Client.Worker
import Hashpoo.Mining.Recipients

/-!
# One mission at a time

A miner starts a task for every `StartMining` message, and all of them send to one submission
processor, which knows no missions but only resets. It is the server that keeps the missions
apart: it answers a `Ready` message with at most one mission, and the miner sends the next
`Ready` message behind the `Reset` of the mission.

The server tells its clients by their addresses, so this holds of clients at addresses of
their own.
-/

namespace Hashpoo.Protocol

open Foundation Client
open Mining (Config Opened)

/-! ## Sessions of a miner -/

/-- `Ready`: `bin_data`. -/
def readyMessage (sdk : SigningScheme) (key : sdk.Keypair) (now : UInt64) : List UInt8 :=
  let msg := (u64LeBytes now).val
  0 :: ((sdk.pubkey key).val ++ (msg ++ utf8 (sdk.toString (sdk.signMessage key msg))))

/-- A task for a `StartMining` message, from its sending on. -/
inductive Task where
  | received
  /-- The threads are at work on the `round`-th mission. -/
  | mining (round : Nat)
  /-- The `Reset` has been sent. -/
  | readying
  deriving DecidableEq

/-- A session of `mine` or `turbomine` over one websocket. -/
structure Session (sdk : SigningScheme) where
  key : sdk.Keypair
  addr : SocketAddr
  /-- The sink of the server for this connection. -/
  socket : Nat
  /-- The first `Ready` message has been sent. -/
  ready : Bool
  /-- The `Ready` messages on their way. -/
  wire : List (List UInt8)
  tasks : List Task
  /-- What has been sent to the submission processor so far. -/
  channel : List MessageSubmissionProcessor
  /-- The submissions of each mission until `Finish`. -/
  rounds : List (List ThreadSubmission)
  /-- `receiver_thread` is in its loop. -/
  receiving : Bool

/-- The steps of a session. `j` is the number of the task. -/
inductive Action where
  | start (now : UInt64)
  | begin (j : Nat)
  /-- After Ctrl-C the task returns before it begins. -/
  | ignore (j : Nat)
  | submit (j : Nat) (s : ThreadSubmission)
  | reset (j : Nat)
  | readyUp (j : Nat) (now : UInt64)
  /-- "Failed to send Ready message. Returning..." -/
  | fail (j : Nat)
  | close

namespace Session

variable {sdk : SigningScheme}

/-- Right after the handshake. -/
def opened (key : sdk.Keypair) (addr : SocketAddr) (socket : Nat) : Session sdk where
  key := key
  addr := addr
  socket := socket
  ready := false
  wire := []
  tasks := []
  channel := []
  rounds := []
  receiving := true

/-- The message goes into the channel of the submission processor. -/
def push (x : Session sdk) (message : MessageSubmissionProcessor) : Session sdk :=
  { x with channel := x.channel ++ [message] }

def act (x : Session sdk) : Action → Option (Session sdk)
  | .start now =>
      if x.ready then none
      else some { x with ready := true, wire := x.wire ++ [readyMessage sdk x.key now] }
  | .begin j =>
      match x.tasks[j]? with
      | some .received =>
          some { x with
            tasks := x.tasks.set j (.mining x.rounds.length)
            rounds := x.rounds ++ [[]] }
      | _ => none
  | .ignore j =>
      match x.tasks[j]? with
      | some .received => some { x with tasks := x.tasks.eraseIdx j }
      | _ => none
  | .submit j s =>
      match x.tasks[j]? with
      | some (.mining round) =>
          some { x.push (.submission s) with
            rounds := if .finish ∈ x.channel then x.rounds else x.rounds.modify round (· ++ [s]) }
      | _ => none
  | .reset j =>
      match x.tasks[j]? with
      | some (.mining _) => some { x.push .reset with tasks := x.tasks.set j .readying }
      | _ => none
  | .readyUp j now =>
      match x.tasks[j]? with
      | some .readying =>
          some { x with
            tasks := x.tasks.eraseIdx j
            wire := x.wire ++ [readyMessage sdk x.key now] }
      | _ => none
  | .fail j =>
      match x.tasks[j]? with
      | some .readying => some { x.push .finish with tasks := x.tasks.eraseIdx j }
      | _ => none
  | .close => if x.receiving then some { x.push .finish with receiving := false } else none

/-- A mission is sent to the sink. -/
def hear (x : Session sdk) (recipient : Option Nat) : Session sdk :=
  if recipient = some x.socket ∧ x.receiving then { x with tasks := x.tasks ++ [.received] }
  else x

end Session

/-! ## Sessions and the server -/

structure State (sdk : SigningScheme) where
  server : Mining.State
  /-- The connections that the server has accepted so far. -/
  opened : Opened
  sessions : List (Session sdk)

inductive Event (sdk : SigningScheme) where
  /-- A step of the server, with any message of a peer but the `Ready` messages of sessions. -/
  | server (e : Mining.Event)
  | join (addr : SocketAddr) (key : sdk.Keypair) (minerId : Int)
  | client (i : Nat) (action : Action)
  /-- The server receives the first `Ready` message on the way through the `k`-th connection. -/
  | deliver (i k : Nat)

/-- The address of a handshake. -/
def Event.address {sdk : SigningScheme} : Event sdk → Option SocketAddr
  | .join addr _ _ | .server (.connect addr _ _) => some addr
  | _ => none

namespace State

variable {sdk : SigningScheme}

def start (proof : Proof) : State sdk := ⟨.start proof, [], []⟩

/-- A step of the server. The sessions hear of the missions that it sends. -/
def serve (cfg : Config) (s : State sdk) (e : Mining.Event) : Option (State sdk) :=
  (s.server.step cfg e).bind fun server => (s.server.perform cfg e).map fun (_, eff) =>
    { server := server
      opened := s.opened.observe eff
      sessions := s.sessions.map (Session.hear · (eff.recipient s.server.shared)) }

def step (cfg : Config) (s : State sdk) : Event sdk → Option (State sdk)
  | .server e =>
      if ∀ x ∈ s.sessions, .ready x.addr ∉ s.server.received cfg e then s.serve cfg e else none
  | .join addr key minerId =>
      if addr ∈ s.server.shared.sockets then none
      else (s.serve cfg (.connect addr (sdk.pubkey key) minerId)).map fun t =>
        { t with sessions := t.sessions ++ [.opened key addr s.server.accepted] }
  | .client i action =>
      match s.sessions[i]? with
      | some x => (x.act action).map fun y => { s with sessions := s.sessions.set i y }
      | none => none
  | .deliver i k =>
      match s.sessions[i]?, s.server.connections[k]? with
      | some x, some c =>
          match x.wire with
          | bytes :: rest =>
              if c.addr = x.addr then
                (s.serve cfg (.receive k (.binary bytes))).map fun t =>
                  { t with sessions := t.sessions.modify i fun y => { y with wire := rest } }
              else none
          | [] => none
      | _, _ => none

/-- No connection is accepted at an address that has been used before. -/
def Fresh (s : State sdk) (e : Event sdk) : Prop :=
  ∀ addr ∈ e.address, addr ∈ s.server.shared.sockets ∨ addr ∉ s.opened.map Prod.fst

instance (s : State sdk) (e : Event sdk) : Decidable (s.Fresh e) :=
  inferInstanceAs (Decidable (∀ addr ∈ e.address, _))

end State

/-! ## The submissions of a session -/

namespace Session

variable {sdk : SigningScheme} {x y : Session sdk}

/-- What goes out for the missions, each on its own. -/
def sends (rounds : List (List ThreadSubmission)) : List ThreadSubmission :=
  rounds.flatMap (records ThreadSubmission.difficulty 0)

/-- What the submission processor sends now, and whatever else comes into its channel. -/
inductive Grouped (x : Session sdk) : Prop
  | between : .finish ∉ x.channel → (∀ round, .mining round ∉ x.tasks) →
      (∀ messages, sentSubmissions 0 (x.channel ++ messages) =
        sends x.rounds ++ sentSubmissions 0 messages) → Grouped x
  | during (done : List (List ThreadSubmission)) (current : List ThreadSubmission) :
      .finish ∉ x.channel → x.tasks = [.mining done.length] → x.rounds = done ++ [current] →
      (∀ messages, sentSubmissions 0 (x.channel ++ messages) =
        sends done ++ sentSubmissions 0 (current.map .submission ++ messages)) → Grouped x
  | after : .finish ∈ x.channel →
      (∀ messages, sentSubmissions 0 (x.channel ++ messages) = sends x.rounds) → Grouped x

theorem sends_concat (done : List (List ThreadSubmission)) (current : List ThreadSubmission) :
    sends (done ++ [current]) = sends done ++ records ThreadSubmission.difficulty 0 current := by
  rw [sends, List.flatMap_append, List.flatMap_singleton]
  rfl

theorem grouped_opened (key : sdk.Keypair) (addr : SocketAddr) (socket : Nat) :
    (opened key addr socket).Grouped := by
  refine .between List.not_mem_nil (fun _ => List.not_mem_nil) fun messages => ?_
  rfl

namespace Grouped

/-- What goes out are the records of the missions. -/
theorem sentSubmissions_eq (h : x.Grouped) : sentSubmissions 0 x.channel = sends x.rounds := by
  rw [← List.append_nil x.channel]
  cases h with
  | between _ _ hsent => rw [hsent, sentSubmissions, List.append_nil]
  | during done current _ _ hrounds hsent =>
      rw [hsent, sentSubmissions_map, sentSubmissions, List.append_nil, hrounds, sends_concat]
  | after _ hsent => exact hsent []

/-- Tasks that are not at work may come and go. -/
theorem of_tasks (h : x.Grouped) (hchannel : y.channel = x.channel) (hrounds : y.rounds = x.rounds)
    (htasks : ∀ round, (.mining round ∈ y.tasks → .mining round ∈ x.tasks))
    (hmining : ∀ round, x.tasks = [.mining round] → y.tasks = x.tasks) : y.Grouped := by
  cases h with
  | between hfinish hnone hsent =>
      refine .between ?_ (fun round hround => hnone round (htasks round hround)) ?_
      · rwa [hchannel]
      · rwa [hchannel, hrounds]
  | during done current hfinish hone hdone hsent =>
      refine .during done current ?_ ((hmining _ hone).trans hone) (hrounds.trans hdone) ?_
      · rwa [hchannel]
      · rwa [hchannel]
  | after hfinish hsent =>
      refine .after ?_ ?_
      · rwa [hchannel]
      · rwa [hchannel, hrounds]

/-- A task that is not at work ends. -/
theorem erase (h : x.Grouped) {j : Nat} {task : Task} (hj : x.tasks[j]? = some task)
    (hidle : ∀ round, task ≠ .mining round) :
    Grouped { x with tasks := x.tasks.eraseIdx j } := by
  refine h.of_tasks rfl rfl (fun round => List.mem_of_mem_eraseIdx) fun round hmining => ?_
  have hmem := List.mem_of_getElem? hj
  rw [hmining, List.mem_singleton] at hmem
  exact absurd hmem (hidle round)

/-- After `Finish` nothing goes out. -/
theorem finish (h : x.Grouped) (hchannel : y.channel = x.channel ++ [.finish])
    (hrounds : y.rounds = x.rounds) : y.Grouped := by
  have hmem : .finish ∈ y.channel := by
    rw [hchannel]
    exact List.mem_append_right _ List.mem_cons_self
  refine .after hmem fun messages => ?_
  rw [hchannel, hrounds, List.append_assoc]
  cases h with
  | between _ _ hsent => rw [hsent, List.singleton_append, sentSubmissions, List.append_nil]
  | during done current _ _ hdone hsent =>
      rw [hsent, sentSubmissions_map, List.singleton_append, sentSubmissions, List.append_nil,
        hdone, sends_concat]
  | after _ hsent => exact hsent _

/-- A mission begins when no other is under way. -/
theorem begin (h : x.Grouped) {j : Nat} (hj : x.tasks[j]? = some .received)
    (hone : x.tasks.length ≤ 1) : Grouped { x with
      tasks := x.tasks.set j (.mining x.rounds.length), rounds := x.rounds ++ [[]] } := by
  obtain ⟨task, htasks⟩ : ∃ task, x.tasks = [task] :=
    List.length_eq_one_iff.mp (le_antisymm hone
      (Nat.zero_lt_of_lt (List.getElem?_eq_some_iff.mp hj).1))
  obtain ⟨rfl, rfl⟩ : j = 0 ∧ task = .received := by
    rw [htasks] at hj
    cases j with
    | zero => exact ⟨rfl, Option.some.inj hj⟩
    | succ j => cases hj
  cases h with
  | between hfinish hnone hsent =>
      refine .during x.rounds [] hfinish ?_ rfl hsent
      rw [htasks]
      rfl
  | during done current _ hmining => cases htasks.symm.trans hmining
  | after hfinish hsent =>
      refine .after hfinish fun messages => ?_
      rw [sends_concat]
      exact (hsent messages).trans (List.append_nil _).symm

/-- A submission belongs to the mission under way. -/
theorem submit (h : x.Grouped) {j round : Nat} (hj : x.tasks[j]? = some (.mining round))
    (s : ThreadSubmission) : Grouped { x.push (.submission s) with
      rounds := if .finish ∈ x.channel then x.rounds
        else x.rounds.modify round (· ++ [s]) } := by
  cases h with
  | between _ hnone => exact absurd (List.mem_of_getElem? hj) (hnone round)
  | during done current hfinish hmining hdone hsent =>
      have hround : round = done.length := by
        have hmem := List.mem_of_getElem? hj
        rw [hmining, List.mem_singleton] at hmem
        exact Task.mining.inj hmem
      subst hround
      refine .during done (current ++ [s]) ?_ hmining ?_ fun messages => ?_
      · simpa [push] using hfinish
      · rw [if_neg hfinish, hdone, List.modify_eq_take_drop, List.take_left, List.drop_left]
        rfl
      · rw [push, List.append_assoc, hsent, List.map_append, List.append_assoc]
        rfl
  | after hfinish hsent =>
      refine .after (List.mem_append_left _ hfinish) fun messages => ?_
      rw [if_pos hfinish, push, List.append_assoc]
      exact hsent _

/-- The `Reset` ends the mission. -/
theorem reset (h : x.Grouped) {j round : Nat} (hj : x.tasks[j]? = some (.mining round)) :
    Grouped { x.push .reset with tasks := x.tasks.set j .readying } := by
  cases h with
  | between _ hnone => exact absurd (List.mem_of_getElem? hj) (hnone round)
  | during done current hfinish hmining hdone hsent =>
      have htasks : x.tasks.set j .readying = [.readying] := by
        rw [hmining] at hj ⊢
        cases j with
        | zero => rfl
        | succ j => cases hj
      refine .between ?_ ?_ fun messages => ?_
      · simpa [push] using hfinish
      · intro k
        rw [htasks]
        simp
      · rw [push, List.append_assoc, hsent, sentSubmissions_map, hdone, sends_concat,
          List.append_assoc]
        rfl
  | after hfinish hsent =>
      refine .after (List.mem_append_left _ hfinish) fun messages => ?_
      rw [push, List.append_assoc]
      exact hsent _

end Grouped

/-! ## One mission at a time -/

theorem length_eraseIdx_of_getElem? {α : Type*} {l : List α} {j : Nat} {a : α}
    (h : l[j]? = some a) : (l.eraseIdx j).length + 1 = l.length := by
  have hlt := (List.getElem?_eq_some_iff.mp h).1
  rw [List.length_eraseIdx_of_lt hlt]
  omega

/-- The session owns its turns, missions, tasks and messages on the way, one altogether. -/
structure Steady (server : Mining.State) (opened : Opened) (x : Session sdk) : Prop where
  opened : ∃ conn, opened[x.socket]? = some (x.addr, conn)
  budget : server.turns x.addr + server.shared.unsent x.socket + x.tasks.length + x.wire.length ≤
    x.ready.toNat
  grouped : x.Grouped

namespace Steady

variable {server : Mining.State} {opened : Opened}

theorem tasks_le_one (h : x.Steady server opened) : x.tasks.length ≤ 1 := by
  have hbudget := h.budget
  have hready := Bool.toNat_le x.ready
  omega

theorem act (h : x.Steady server opened) {action : Action} (hact : x.act action = some y) :
    y.Steady server opened ∧ y.addr = x.addr := by
  have hbudget := h.budget
  have hone := h.tasks_le_one
  cases action with
  | start now =>
      simp only [Session.act] at hact
      split at hact
      · cases hact
      · next hready =>
        cases hact
        rw [Bool.not_eq_true] at hready
        refine ⟨⟨h.opened, ?_, h.grouped.of_tasks rfl rfl (fun _ => id) fun _ _ => rfl⟩, rfl⟩
        simp only [hready, Bool.toNat_false, List.length_append, List.length_singleton,
          Bool.toNat_true] at hbudget ⊢
        omega
  | begin j =>
      simp only [Session.act] at hact
      split at hact
      · next hj =>
        cases hact
        refine ⟨⟨h.opened, ?_, h.grouped.begin hj hone⟩, rfl⟩
        simpa using hbudget
      · cases hact
  | ignore j =>
      simp only [Session.act] at hact
      split at hact
      · next hj =>
        cases hact
        refine ⟨⟨h.opened, ?_, h.grouped.erase hj (by simp)⟩, rfl⟩
        have hlength := length_eraseIdx_of_getElem? hj
        simp only
        omega
      · cases hact
  | submit j s =>
      simp only [Session.act] at hact
      split at hact
      · next round hj =>
        cases hact
        exact ⟨⟨h.opened, hbudget, h.grouped.submit hj s⟩, rfl⟩
      · cases hact
  | reset j =>
      simp only [Session.act] at hact
      split at hact
      · next round hj =>
        cases hact
        refine ⟨⟨h.opened, ?_, h.grouped.reset hj⟩, rfl⟩
        simpa [push] using hbudget
      · cases hact
  | readyUp j now =>
      simp only [Session.act] at hact
      split at hact
      · next hj =>
        cases hact
        have hgrouped := h.grouped.erase hj (by simp)
        refine ⟨⟨h.opened, ?_, hgrouped.of_tasks rfl rfl (fun _ => id) fun _ _ => rfl⟩, rfl⟩
        have hlength := length_eraseIdx_of_getElem? hj
        simp only [List.length_append, List.length_singleton]
        omega
      · cases hact
  | fail j =>
      simp only [Session.act] at hact
      split at hact
      · next hj =>
        cases hact
        refine ⟨⟨h.opened, ?_, h.grouped.finish rfl rfl⟩, rfl⟩
        have hlength := length_eraseIdx_of_getElem? hj
        simp only [push]
        omega
      · cases hact
  | close =>
      simp only [Session.act] at hact
      split at hact
      · cases hact
        exact ⟨⟨h.opened, hbudget, h.grouped.finish rfl rfl⟩, rfl⟩
      · cases hact

/-- A step of the server costs the session nothing, except that it hears of the mission
that is sent to it, and gains a turn with its `Ready` message. -/
theorem serve {cfg : Config} {server' : Mining.State} {e : Mining.Event} {eff : Mining.Effect}
    (h : x.Steady server opened) (hgrounded : server.Grounded opened)
    (hperform : server.perform cfg e = some (server', eff)) :
    (x.hear (eff.recipient server.shared)).Grouped ∧
      Mining.State.turns { server' with shared := server.shared.apply eff } x.addr +
          (server.shared.apply eff).unsent x.socket +
          (x.hear (eff.recipient server.shared)).tasks.length + x.wire.length ≤
        x.ready.toNat + eff.messages.count (.ready x.addr) := by
  have hbudget := h.budget
  have hready := Bool.toNat_le x.ready
  have hturns := Mining.State.perform_turns hgrounded.orderly hperform x.addr
  have hunsent := Mining.State.perform_unsent hperform x.socket
  have hspawned : (if eff.spawned = some x.socket then 1 else 0) ≤
      (server.ready.serves eff).count x.addr := by
    split
    · next hspawned =>
      obtain ⟨client, conn, hserves, hopened⟩ := hgrounded.spawns hperform hspawned
      obtain ⟨conn', hx⟩ := h.opened
      cases hopened.symm.trans hx
      rw [hserves, List.count_singleton_self]
    · exact Nat.zero_le _
  by_cases hhears : eff.recipient server.shared = some x.socket ∧ x.receiving = true
  · have hspawned' : eff.spawned = none := by
      cases eff with
      | spawnMission => cases hhears.1
      | _ => rfl
    have hnone : x.tasks = [] := by
      rw [hspawned', if_pos hhears.1, if_neg (by simp)] at hunsent
      exact List.length_eq_zero_iff.mp (by omega)
    rw [hear, if_pos hhears]
    rw [if_pos hhears.1] at hunsent
    constructor
    · refine h.grouped.of_tasks rfl rfl (fun round hround => ?_) fun round hround => ?_
      · simp [hnone] at hround
      · cases hnone.symm.trans hround
    · simp only [List.length_append, List.length_singleton]
      omega
  · rw [hear, if_neg hhears]
    exact ⟨h.grouped, by omega⟩

end Steady

end Session

namespace Session

variable {sdk : SigningScheme} {x : Session sdk}

@[simp] theorem hear_addr (recipient : Option Nat) : (x.hear recipient).addr = x.addr := by
  rw [hear]
  split <;> rfl

@[simp] theorem hear_socket (recipient : Option Nat) : (x.hear recipient).socket = x.socket := by
  rw [hear]
  split <;> rfl

@[simp] theorem hear_ready (recipient : Option Nat) : (x.hear recipient).ready = x.ready := by
  rw [hear]
  split <;> rfl

@[simp] theorem hear_wire (recipient : Option Nat) : (x.hear recipient).wire = x.wire := by
  rw [hear]
  split <;> rfl

end Session

namespace State

variable {sdk : SigningScheme} {cfg : Config} {s t : State sdk}

/-- The invariant of the server and the sessions. No two sessions share an address. -/
structure Steady (s : State sdk) : Prop where
  grounded : s.server.Grounded s.opened
  distinct : (s.sessions.map Session.addr).Nodup
  sessions : ∀ x ∈ s.sessions, x.Steady s.server s.opened

theorem serve_eq_some {e : Mining.Event} : s.serve cfg e = some t ↔
    s.server.aborted = false ∧ ∃ server' eff, s.server.perform cfg e = some (server', eff) ∧
      t = ⟨{ server' with shared := s.server.shared.apply eff }, s.opened.observe eff,
        s.sessions.map (Session.hear · (eff.recipient s.server.shared))⟩ := by
  simp only [serve, Option.bind_eq_some_iff, Option.map_eq_some_iff, Mining.State.step_eq_some]
  constructor
  · rintro ⟨_, ⟨hrunning, server', eff, hperform, rfl⟩, ⟨server'', eff'⟩, hsame, rfl⟩
    cases hperform.symm.trans hsame
    exact ⟨hrunning, server', eff, hperform, rfl⟩
  · rintro ⟨hrunning, server', eff, hperform, rfl⟩
    exact ⟨_, ⟨hrunning, server', eff, hperform, rfl⟩, (server', eff), hperform, rfl⟩

theorem map_addr_hear (sessions : List (Session sdk)) (recipient : Option Nat) :
    (sessions.map (Session.hear · recipient)).map Session.addr = sessions.map Session.addr := by
  rw [List.map_map]
  exact List.map_congr_left fun x _ => Session.hear_addr recipient

/-- A change that a map does not see. -/
theorem map_modify_of_eq {α β : Type*} {f : α → β} {g : α → α} (h : ∀ a, f (g a) = f a)
    {l : List α} {k : Nat} : (l.modify k g).map f = l.map f := by
  induction l generalizing k with
  | nil => cases k <;> rfl
  | cons a l ih => cases k <;> simp [h, ih]

theorem steady_start (proof : Proof) : (start proof : State sdk).Steady where
  grounded := Mining.State.grounded_start proof
  distinct := List.nodup_nil
  sessions x hx := by cases hx

namespace Steady

/-- A session whose ready message is not received stays as it is, or hears of a mission. -/
theorem hear (h : s.Steady) {e : Mining.Event} {server' : Mining.State} {eff : Mining.Effect}
    (hperform : s.server.perform cfg e = some (server', eff)) {x : Session sdk}
    (hx : x ∈ s.sessions) (hready : eff.messages.count (.ready x.addr) = 0) :
    (x.hear (eff.recipient s.server.shared)).Steady
      { server' with shared := s.server.shared.apply eff } (s.opened.observe eff) := by
  obtain ⟨hgrouped, hbudget⟩ := (h.sessions x hx).serve h.grounded hperform
  obtain ⟨conn, hopened⟩ := (h.sessions x hx).opened
  refine ⟨⟨conn, ?_⟩, ?_, hgrouped⟩
  · rw [Session.hear_socket, Session.hear_addr]
    exact Opened.getElem?_observe hopened eff
  · rw [Session.hear_socket, Session.hear_addr, Session.hear_wire, Session.hear_ready]
    change _ + (s.server.shared.apply eff).unsent x.socket + _ + _ ≤ _
    omega

theorem server (h : s.Steady) {e : Mining.Event}
    (hready : ∀ x ∈ s.sessions, .ready x.addr ∉ s.server.received cfg e)
    (hserve : s.serve cfg e = some t) : t.Steady := by
  obtain ⟨-, server', eff, hperform, rfl⟩ := serve_eq_some.mp hserve
  refine ⟨h.grounded.step hperform, ?_, fun y hy => ?_⟩
  · rw [map_addr_hear]
    exact h.distinct
  · obtain ⟨x, hx, rfl⟩ := List.mem_map.mp hy
    refine h.hear hperform hx (List.count_eq_zero.mpr ?_)
    rw [← Mining.State.received_eq hperform]
    exact hready x hx

/-- The address is a new one, so nothing is on the way to the session or from there. -/
theorem join (h : s.Steady) {addr : SocketAddr} {key : sdk.Keypair} {minerId : Int}
    (hfree : addr ∉ s.server.shared.sockets) (hfresh : addr ∉ s.opened.map Prod.fst)
    (hserve : s.serve cfg (.connect addr (sdk.pubkey key) minerId) = some t) :
    State.Steady { t with sessions := t.sessions ++ [.opened key addr s.server.accepted] } := by
  obtain ⟨-, server', eff, hperform, rfl⟩ := serve_eq_some.mp hserve
  have hgrounded := h.grounded.step hperform
  have heff : eff = .insertSocket addr ⟨sdk.pubkey key, minerId, s.server.accepted⟩ := by
    simp only [Mining.State.perform, if_neg hfree] at hperform
    cases hperform
    rfl
  have haccepted : s.server.accepted = s.opened.length := h.grounded.registered.accepted
  have haddrs : ∀ x ∈ s.sessions, x.addr ∈ s.opened.map Prod.fst := by
    intro x hx
    obtain ⟨conn, hopened⟩ := (h.sessions x hx).opened
    exact List.mem_map.mpr ⟨_, List.mem_of_getElem? hopened, rfl⟩
  refine ⟨hgrounded, ?_, fun y hy => ?_⟩
  · rw [List.map_append, map_addr_hear]
    refine List.nodup_append.mpr ⟨h.distinct, List.nodup_singleton _, ?_⟩
    intro a ha b hb
    obtain ⟨x, hx, rfl⟩ := List.mem_map.mp ha
    cases List.mem_singleton.mp hb
    intro heq
    change x.addr = addr at heq
    exact hfresh (heq ▸ haddrs x hx)
  · obtain hold | hnew := List.mem_append.mp hy
    · obtain ⟨x, hx, rfl⟩ := List.mem_map.mp hold
      exact h.hear hperform hx (by rw [heff]; rfl)
    · cases List.mem_singleton.mp hnew
      refine ⟨⟨⟨sdk.pubkey key, minerId, s.server.accepted⟩, ?_⟩, ?_,
        Session.grouped_opened key addr _⟩
      · rw [heff, Session.opened, haccepted]
        exact List.getElem?_concat_length
      · have hturns := Mining.State.perform_turns h.grounded.orderly hperform addr
        have hquiet := h.grounded.quiet addr hfresh
        have hmessages : eff.messages.count (.ready addr) = 0 := by rw [heff]; rfl
        have hunsent : (s.server.shared.apply eff).unsent s.server.accepted = 0 := by
          refine List.countP_eq_zero.mpr fun mission hmission => ?_
          rw [heff] at hmission
          have hlt := h.grounded.missions mission hmission
          simp only [decide_eq_true_eq, not_and]
          omega
        simp only [Session.opened, List.length_nil, Bool.toNat_false]
        omega

theorem client (h : s.Steady) {i : Nat} {x y : Session sdk} {action : Action}
    (hi : s.sessions[i]? = some x) (hact : x.act action = some y) :
    State.Steady { s with sessions := s.sessions.set i y } := by
  obtain ⟨hsteady, haddr⟩ := (h.sessions x (List.mem_of_getElem? hi)).act hact
  refine ⟨h.grounded, ?_, fun z hz => ?_⟩
  · have hsame : (s.sessions.map Session.addr).set i y.addr = s.sessions.map Session.addr := by
      obtain ⟨hlt, rfl⟩ := List.getElem?_eq_some_iff.mp hi
      rw [haddr, ← List.map_set, List.set_getElem_self]
    rw [List.map_set, hsame]
    exact h.distinct
  · obtain hold | rfl := List.mem_or_eq_of_mem_set hz
    · exact h.sessions z hold
    · exact hsteady

/-- A `Ready` message goes over from the wire to the server. -/
theorem deliver (h : s.Steady) {i k : Nat} {x : Session sdk} {c : Mining.Connection}
    {bytes : List UInt8} {rest : List (List UInt8)} (hi : s.sessions[i]? = some x)
    (hk : s.server.connections[k]? = some c) (hwire : x.wire = bytes :: rest)
    (haddr : c.addr = x.addr) (hserve : s.serve cfg (.receive k (.binary bytes)) = some t) :
    State.Steady { t with
      sessions := t.sessions.modify i fun y => { y with wire := rest } } := by
  obtain ⟨-, server', eff, hperform, rfl⟩ := serve_eq_some.mp hserve
  have hothers : ∀ j z, s.sessions[j]? = some z → j ≠ i →
      eff.messages.count (.ready z.addr) = 0 := by
    intro j z hj hne
    obtain hzero | ⟨-, k', msg, he, c', hk', hc'⟩ := Mining.State.perform_readies hperform z.addr
    · exact hzero
    · cases he
      cases hk.symm.trans hk'
      refine absurd ((List.getElem?_inj ?_ h.distinct).mp ?_) hne
      · rw [List.length_map]
        exact (List.getElem?_eq_some_iff.mp hj).1
      · rw [List.getElem?_map, List.getElem?_map, hj, hi, Option.map_some, Option.map_some,
          ← hc', haddr]
  refine ⟨h.grounded.step hperform, ?_, fun y hy => ?_⟩
  · have hsame : ∀ l : List (Session sdk), (l.modify i fun y => { y with wire := rest }).map
        Session.addr = l.map Session.addr :=
      fun l => map_modify_of_eq (g := fun y : Session sdk => { y with wire := rest }) fun _ => rfl
    rw [hsame, map_addr_hear]
    exact h.distinct
  · obtain ⟨j, hj⟩ := List.mem_iff_getElem?.mp hy
    rw [List.getElem?_modify, List.getElem?_map] at hj
    obtain ⟨_, hz', rfl⟩ := Option.map_eq_some_iff.mp hj
    obtain ⟨z, hz, rfl⟩ := Option.map_eq_some_iff.mp hz'
    by_cases hij : i = j
    · subst hij
      cases hi.symm.trans hz
      rw [if_pos rfl]
      obtain ⟨hgrouped, hbudget⟩ :=
        (h.sessions x (List.mem_of_getElem? hi)).serve h.grounded hperform
      obtain ⟨conn, hopened⟩ := (h.sessions x (List.mem_of_getElem? hi)).opened
      refine ⟨⟨conn, ?_⟩, ?_, hgrouped.of_tasks rfl rfl (fun _ => id) fun _ _ => rfl⟩
      · simp only [Session.hear_socket, Session.hear_addr]
        exact Opened.getElem?_observe hopened eff
      · have hone : eff.messages.count (.ready x.addr) ≤ 1 := by
          obtain hzero | ⟨hone, -⟩ := Mining.State.perform_readies hperform x.addr
          · exact hzero.trans_le (Nat.zero_le 1)
          · exact hone.le
        simp only [Session.hear_socket, Session.hear_addr, Session.hear_ready]
        change _ + (s.server.shared.apply eff).unsent x.socket + _ + _ ≤ _
        rw [hwire, List.length_cons] at hbudget
        omega
    · rw [if_neg hij]
      exact h.hear hperform (List.mem_of_getElem? hz) (hothers j z hz (Ne.symm hij))

theorem step (h : s.Steady) {e : Event sdk} (hfresh : s.Fresh e)
    (hstep : s.step cfg e = some t) : t.Steady := by
  cases e with
  | server e =>
      simp only [State.step] at hstep
      split at hstep
      · next hready => exact h.server hready hstep
      · cases hstep
  | join addr key minerId =>
      simp only [State.step] at hstep
      split at hstep
      · cases hstep
      · next hfree =>
        obtain ⟨u, hserve, rfl⟩ := Option.map_eq_some_iff.mp hstep
        exact h.join hfree ((hfresh addr rfl).resolve_left hfree) hserve
  | client i action =>
      simp only [State.step] at hstep
      split at hstep
      · next x hi =>
        obtain ⟨y, hact, rfl⟩ := Option.map_eq_some_iff.mp hstep
        exact h.client hi hact
      · cases hstep
  | deliver i k =>
      simp only [State.step] at hstep
      split at hstep
      · next x c hi hk =>
        split at hstep
        · next bytes rest hwire =>
          split at hstep
          · next haddr =>
            obtain ⟨u, hserve, rfl⟩ := Option.map_eq_some_iff.mp hstep
            exact h.deliver hi hk hwire haddr hserve
          · cases hstep
        · cases hstep
      · cases hstep

end Steady

/-! ## Runs -/

/-- In every run in which no address is used for a second connection, a session has at most one
mission under way or on its way to it, and what goes out to the server are the records of each
mission, mission by mission. -/
theorem rounds_of_run {proof : Proof} {events : List (Event sdk)}
    (h : run (step cfg) (start proof) events = some s)
    (hfresh : Meets (step cfg) Fresh (start proof) events) {x : Session sdk}
    (hx : x ∈ s.sessions) :
    s.server.shared.unsent x.socket + x.tasks.length ≤ 1 ∧
      sentSubmissions 0 x.channel = x.rounds.flatMap (records ThreadSubmission.difficulty 0) := by
  have hsteady : s.Steady := invariant_of_meets (fun s e t hs hok hstep => hs.step hok hstep)
    (steady_start proof) hfresh h
  have hbudget := (hsteady.sessions x hx).budget
  have hready := Bool.toNat_le x.ready
  exact ⟨by omega, (hsteady.sessions x hx).grouped.sentSubmissions_eq⟩

/-- The `Ready` message of the `i`-th session is handled. -/
def readied (i k : Nat) : List (Event SigningScheme.spelledOut) :=
  [.deliver i k, .server .message, .server .message]

/-- Two missions, and the second one begins with a lower difficulty. -/
def twoMissions : List (Event SigningScheme.spelledOut) :=
  [.join 0 (.fill 32 1) 1, .client 0 (.start 0)] ++ readied 0 0 ++
    (Mining.Scenario.batch [0]).map .server ++
    [.client 0 (.begin 0), .client 0 (.submit 0 ⟨0, 9, .fill 16 0⟩), .client 0 (.reset 0),
      .client 0 (.readyUp 0 1)] ++
    readied 0 0 ++ (Mining.Scenario.batch [0]).map .server ++
    [.client 0 (.begin 0), .client 0 (.submit 0 ⟨1, 8, .fill 16 0⟩)]

theorem rounds_twoMissions : ∃ s,
    run (step Mining.Scenario.config) (start Mining.Scenario.proof) twoMissions = some s ∧
      ∃ x ∈ s.sessions, (x.rounds.length = 2 ∧ x.tasks.length = 1) ∧
        (s.server.shared.unsent x.socket + x.tasks.length ≤ 1 ∧
          sentSubmissions 0 x.channel =
            x.rounds.flatMap (records ThreadSubmission.difficulty 0)) := by
  obtain ⟨s, hrun, x, hx, hrounds⟩ := exists_run (step Mining.Scenario.config)
    (start Mining.Scenario.proof) twoMissions
    (fun s => ∃ x ∈ s.sessions, x.rounds.length = 2 ∧ x.tasks.length = 1) (by decide)
  exact ⟨s, hrun, x, hx, hrounds, rounds_of_run hrun (by decide) hx⟩

/-- A client is ready and goes before it is served. The next one at its address is served in
its place, and once more when it has said that it is ready. -/
def reusedAddress : List (Event SigningScheme.spelledOut) :=
  [.join 0 (.fill 32 1) 1, .client 0 (.start 0)] ++ readied 0 0 ++
    [.server (.streamEnded 0), .server (.disconnect 0), .join 0 (.fill 32 2) 2,
      .client 1 (.start 0)] ++
    (Mining.Scenario.batch [0]).map .server ++ readied 1 0 ++
    (Mining.Scenario.batch [0]).map .server

/-- At an address that has been used before, two missions can be under way at once. -/
theorem overlap_reusedAddress : ∃ s,
    run (step Mining.Scenario.config) (start Mining.Scenario.proof) reusedAddress = some s ∧
      ∃ x ∈ s.sessions, x.tasks.length = 2 :=
  exists_run _ _ _ _ (by decide)

end State

end Hashpoo.Protocol
