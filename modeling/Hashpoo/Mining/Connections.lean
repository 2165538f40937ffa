import Hashpoo.Mining.System

/-!
# The identity of a connection

The tasks know a connection by its address, and an address may be used again. The sink of
an accepted connection is created for it alone, so the sink tells the connections apart.
-/

namespace Hashpoo.Mining

open Foundation

/-- The connections opened so far, at the number of their sink. -/
abbrev Opened := List (SocketAddr × ClientConnection)

/-- Every entry of the map is an opened connection under its address. -/
def Opened.Registers (opened : Opened) (sockets : HashMap SocketAddr ClientConnection) : Prop :=
  ∀ addr conn, sockets.lookup addr = some conn → opened[conn.socket]? = some (addr, conn)

/-- The connections after an effect. -/
def Opened.observe (opened : Opened) : Effect → Opened
  | .insertSocket addr conn => opened ++ [(addr, conn)]
  | _ => opened

namespace Opened

variable {opened : Opened} {sockets : HashMap SocketAddr ClientConnection}

theorem observe_eq {eff : Effect} (h : eff.scope ≠ .sockets) : opened.observe eff = opened := by
  cases eff with
  | insertSocket => exact absurd rfl h
  | _ => rfl

/-- A connection keeps its number. -/
theorem getElem?_observe {k : Nat} {x : SocketAddr × ClientConnection} (h : opened[k]? = some x)
    (eff : Effect) : (opened.observe eff)[k]? = some x := by
  cases eff with
  | insertSocket => exact (List.getElem?_append_left (List.getElem?_eq_some_iff.mp h).1).trans h
  | _ => exact h

namespace Registers

theorem observe (h : opened.Registers sockets) (eff : Effect) :
    (opened.observe eff).Registers sockets :=
  fun addr conn hconn => getElem?_observe (h addr conn hconn) eff

/-- The next number goes to the next entry. -/
theorem insert (h : opened.Registers sockets) {addr : SocketAddr} {conn : ClientConnection}
    (hsocket : conn.socket = opened.length) :
    Opened.Registers (opened ++ [(addr, conn)]) (sockets.insert addr conn) := by
  intro addr' conn' hconn
  obtain ⟨rfl, rfl⟩ | ⟨-, hold⟩ := HashMap.lookup_insert_eq_some.mp hconn
  · rw [hsocket]
    exact List.getElem?_concat_length
  · exact h.observe (.insertSocket addr conn) addr' conn' hold

theorem socket_lt (h : opened.Registers sockets) {addr : SocketAddr} {conn : ClientConnection}
    (hconn : sockets.lookup addr = some conn) : conn.socket < opened.length :=
  (List.getElem?_eq_some_iff.mp (h addr conn hconn)).1

/-- Two maps that agree on a sink agree on its connection and on the address. -/
theorem unique (h : opened.Registers sockets) {sockets' : HashMap SocketAddr ClientConnection}
    (h' : opened.Registers sockets') {addr addr' : SocketAddr} {conn conn' : ClientConnection}
    (hconn : sockets.lookup addr = some conn) (hconn' : sockets'.lookup addr' = some conn')
    (hsocket : conn.socket = conn'.socket) : addr = addr' ∧ conn = conn' := by
  have hopened := h addr conn hconn
  rw [hsocket, h' addr' conn' hconn'] at hopened
  exact ⟨congrArg Prod.fst (Option.some.inj hopened).symm,
    congrArg Prod.snd (Option.some.inj hopened).symm⟩

end Registers

end Opened

namespace State

variable {cfg : Config} {s s' t : State} {e : Event} {eff : Effect} {opened : Opened}

/-- The entries of the sockets are opened connections, numbered as they were accepted. -/
structure Registered (s : State) (opened : Opened) : Prop where
  accepted : s.accepted = opened.length
  sockets : opened.Registers s.shared.sockets

theorem registered_start (proof : Proof) : (State.start proof).Registered [] where
  accepted := rfl
  sockets addr conn hconn := by cases hconn

namespace Registered

/-- Entries may go, as long as no connection is accepted. -/
theorem shrink (h : s.Registered opened) (haccepted : t.accepted = s.accepted)
    (hsockets : ∀ addr conn, t.shared.sockets.lookup addr = some conn →
      s.shared.sockets.lookup addr = some conn) : t.Registered opened where
  accepted := haccepted.trans h.accepted
  sockets addr conn hconn := h.sockets addr conn (hsockets addr conn hconn)

/-- The accepted connection has the next number. -/
theorem accept (h : s.Registered opened) {addr : SocketAddr} {conn : ClientConnection}
    (hsocket : conn.socket = s.accepted) (haccepted : t.accepted = s.accepted + 1)
    (hsockets : t.shared.sockets = s.shared.sockets.insert addr conn) :
    t.Registered (opened ++ [(addr, conn)]) where
  accepted := by rw [haccepted, h.accepted, List.length_append, List.length_singleton]
  sockets := by
    rw [hsockets]
    exact h.sockets.insert (hsocket.trans h.accepted)

end Registered

/-- A connection is accepted at an address without an entry, and nothing else is. -/
theorem perform_accepted (h : s.perform cfg e = some (s', eff)) :
    s'.accepted = s.accepted ∧ (∀ addr conn, eff ≠ .insertSocket addr conn) ∨
      ∃ addr pubkey minerId, e = .connect addr pubkey minerId ∧ addr ∉ s.shared.sockets ∧
        s' = { s with
          connections := s.connections ++ [⟨addr, pubkey, true⟩], accepted := s.accepted + 1 } ∧
        eff = .insertSocket addr ⟨pubkey, minerId, s.accepted⟩ := by
  by_cases hconnect : ∃ addr pubkey minerId, e = .connect addr pubkey minerId
  · obtain ⟨addr, pubkey, minerId, rfl⟩ := hconnect
    simp only [perform] at h
    split at h
    · cases h
      exact .inl ⟨rfl, by simp⟩
    · next hfree =>
      cases h
      exact .inr ⟨addr, pubkey, minerId, rfl, hfree, rfl, rfl⟩
  · refine .inl ⟨?_, ?_⟩
    · cases e with
      | connect addr pubkey minerId => exact absurd ⟨addr, pubkey, minerId, rfl⟩ hconnect
      | submission | ready | mission | message | contribution | tracking =>
          obtain ⟨_, -, heq⟩ := Option.map_eq_some_iff.mp h
          cases heq
          rfl
      | receive k msg =>
          simp only [perform] at h
          split at h <;> (try split at h) <;> cases h <;> rfl
      | _ =>
          simp only [perform] at h
          (try split at h) <;> cases h <;> rfl
    · rintro addr conn rfl
      obtain ⟨addr', heff⟩ | ⟨addr', pubkey, minerId, he, -⟩ := perform_sockets h rfl
      · cases heff
      · exact hconnect ⟨addr', pubkey, minerId, he⟩

theorem perform_registered (h : s.Registered opened) (hperform : s.perform cfg e = some (s', eff)) :
    State.Registered { s' with shared := s.shared.apply eff } (opened.observe eff) := by
  obtain ⟨haccepted, hinsert⟩ | ⟨addr, pubkey, minerId, -, -, rfl, rfl⟩ := perform_accepted hperform
  · have hopened : opened.observe eff = opened := by
      cases eff with
      | insertSocket addr conn => exact absurd rfl (hinsert addr conn)
      | _ => rfl
    rw [hopened]
    refine h.shrink haccepted fun addr conn hconn => ?_
    cases eff with
    | insertSocket addr conn => exact absurd rfl (hinsert addr conn)
    | removeSocket addr => exact HashMap.lookup_of_erase hconn
    | _ => exact hconn
  · exact h.accept rfl rfl rfl

/-- In every run the sink tells the entries of the sockets apart. -/
theorem sinks_distinct_of_run {proof : Proof} {events : List Event}
    (h : run (State.step cfg) (.start proof) events = some s) {addr addr' : SocketAddr}
    {conn conn' : ClientConnection} (hconn : s.shared.sockets.lookup addr = some conn)
    (hconn' : s.shared.sockets.lookup addr' = some conn') (hsocket : conn.socket = conn'.socket) :
    addr = addr' ∧ conn = conn' := by
  have hregistered : ∃ opened, s.Registered opened := by
    refine invariant_of_step (I := fun s : State => ∃ opened, s.Registered opened) ?_
      ⟨[], registered_start proof⟩ h
    rintro s e t ⟨opened, hs⟩ hstep
    obtain ⟨-, s', eff, hperform, rfl⟩ := step_eq_some.mp hstep
    exact ⟨opened.observe eff, perform_registered hs hperform⟩
  obtain ⟨opened, hs⟩ := hregistered
  exact hs.sockets.unique hs.sockets hconn hconn' hsocket

end State

end Hashpoo.Mining
