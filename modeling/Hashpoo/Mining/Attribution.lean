import Hashpoo.Mining.System

/-!
# Contributions under their own miner

A submission names its key in the body of the message; its miner id is the one of the
connection it came through. The two belong together only if the connection found at the
address was authenticated for that key. Nothing in the code compares them, and the
signature covers neither the connection nor the epoch, so signed bytes can be replayed.
-/

namespace Hashpoo.Mining.State

open Foundation

variable {cfg : Config} {s s' t : State} {e : Event} {eff : Effect} {minerIdOf : Pubkey → Int}

/-- Handshakes are accepted with the miner id that the database keeps for the key. -/
def Authenticated (minerIdOf : Pubkey → Int) (_ : State) (e : Event) : Prop :=
  match e with
  | .connect _ pubkey minerId => minerId = minerIdOf pubkey
  | _ => True

instance (s : State) (e : Event) : Decidable (Authenticated minerIdOf s e) :=
  match e with
  | .connect _ _ _ => inferInstanceAs (Decidable (_ = _))
  | .contribution | .mission _ | .message | .tracking _ | .ping _ | .pong => .isTrue trivial
  | .submission _ | .ready _ | .receive _ _ | .streamEnded _ | .disconnect _ => .isTrue trivial
  | .land _ _ _ _ | .claim _ | .tick _ => .isTrue trivial

/-- The connection found at the address of a submission is one of the key it names. -/
def SenderOwnsKey (s : State) (e : Event) : Prop :=
  match e with
  | .contribution => ∀ m ∈ s.contributions.locating,
      ∀ conn ∈ s.shared.sockets.lookup m.addr, conn.pubkey = m.pubkey
  | _ => True

instance (s : State) (e : Event) : Decidable (s.SenderOwnsKey e) :=
  match e with
  | .contribution => inferInstanceAs (Decidable (∀ m ∈ s.contributions.locating, _))
  | .connect _ _ _ | .mission _ | .message | .tracking _ | .ping _ | .pong => .isTrue trivial
  | .submission _ | .ready _ | .receive _ _ | .streamEnded _ | .disconnect _ => .isTrue trivial
  | .land _ _ _ _ | .claim _ | .tick _ => .isTrue trivial

/-- Miner ids belong to their keys, in the sockets, under way and in the contributions. -/
structure Attributed (minerIdOf : Pubkey → Int) (s : State) : Prop where
  sockets : ∀ addr conn, s.shared.sockets.lookup addr = some conn →
    conn.minerId = minerIdOf conn.pubkey
  identified : ∀ x ∈ s.contributions.identified, x.2 = minerIdOf x.1.pubkey
  contributions : ∀ pubkey c, s.shared.epochHashes.contributions.lookup pubkey = some c →
    c.minerId = minerIdOf pubkey

theorem attributed_start (proof : Proof) : (State.start proof).Attributed minerIdOf where
  sockets addr conn hconn := by simp [start, Shared.start] at hconn
  identified x hx := by simp [start, ContributionsPc.identified] at hx
  contributions pubkey c hc := by simp [start, Shared.start, EpochHashes.fresh] at hc

theorem perform_attributed_sockets (hinv : s.Attributed minerIdOf)
    (hauth : s.Authenticated minerIdOf e) (h : s.perform cfg e = some (s', eff)) :
    ∀ addr conn, (s.shared.apply eff).sockets.lookup addr = some conn →
      conn.minerId = minerIdOf conn.pubkey := by
  intro addr conn hconn
  by_cases hscope : eff.scope = .sockets
  · obtain ⟨removed, rfl⟩ | ⟨entered, pubkey, minerId, rfl, rfl⟩ := perform_sockets h hscope
    · rw [Shared.apply_removeSocket_sockets] at hconn
      exact hinv.sockets addr conn (HashMap.lookup_of_erase hconn)
    · rw [Shared.apply_insertSocket_sockets] at hconn
      by_cases haddr : addr = entered
      · subst haddr
        rw [AList.lookup_insert, Option.some.injEq] at hconn
        subst hconn
        exact hauth
      · rw [AList.lookup_insert_ne haddr] at hconn
        exact hinv.sockets addr conn hconn
  · rw [Shared.apply_sockets hscope] at hconn
    exact hinv.sockets addr conn hconn

theorem perform_attributed_contributions (hinv : s.Attributed minerIdOf)
    (h : s.perform cfg e = some (s', eff)) :
    ∀ pubkey c, (s.shared.apply eff).epochHashes.contributions.lookup pubkey = some c →
      c.minerId = minerIdOf pubkey := by
  intro pubkey c hc
  by_cases hscope : eff.scope = .hashes
  · obtain ⟨-, challenge, rfl⟩ | ⟨rfl, m, nonceRange, minerId, hpc, rfl⟩ := perform_hashes h hscope
    · simp at hc
    · rw [Shared.apply_record_contributions] at hc
      by_cases hkey : pubkey = m.pubkey
      · subst hkey
        rw [AList.lookup_insert, Option.some.injEq] at hc
        subst hc
        exact hinv.identified (m, minerId) (by rw [hpc]; rfl)
      · rw [AList.lookup_insert_ne hkey] at hc
        exact hinv.contributions pubkey c hc
  · rw [Shared.epochHashes, Shared.apply_hashes hscope] at hc
    exact hinv.contributions pubkey c hc

/-- The lookup of the socket is the step that ties a miner id to a key. -/
theorem perform_attributed_identified (hinv : s.Attributed minerIdOf) (hsender : s.SenderOwnsKey e)
    (h : s.perform cfg e = some (s', eff)) :
    ∀ x ∈ s'.contributions.identified, x.2 = minerIdOf x.1.pubkey := by
  intro x hx
  obtain hsame | ⟨rfl, hstep⟩ := perform_contributions h
  · rw [hsame] at hx
    exact hinv.identified x hx
  · obtain hbefore | ⟨nonceRange, conn, hpc, hconn, hminer⟩ :=
      ContributionsPc.step_identified hstep x hx
    · exact hinv.identified x hbefore
    · have howner : conn.pubkey = x.1.pubkey := hsender x.1 (by rw [hpc]; rfl) conn hconn
      rw [hminer, hinv.sockets _ conn hconn, howner]

/-- In every run of authenticated connections in which each accepted submission comes
through a connection of the key it names, each entry carries the miner id of its key. -/
theorem attributed_of_run {proof : Proof} {events : List Event}
    (h : run (State.step cfg) (.start proof) events = some s)
    (hauth : Meets (State.step cfg) (Authenticated minerIdOf) (.start proof) events)
    (hmeets : Meets (State.step cfg) SenderOwnsKey (.start proof) events) :
    ∀ pubkey c, s.shared.epochHashes.contributions.lookup pubkey = some c →
      c.minerId = minerIdOf pubkey := by
  have hinv : s.Attributed minerIdOf := by
    refine invariant_of_meets ?_ (attributed_start proof) (hauth.and hmeets) h
    intro s e t hs hok hstep
    obtain ⟨-, s', eff, hperform, rfl⟩ := step_eq_some.mp hstep
    have hidentified := perform_attributed_identified hs hok.2 hperform
    exact ⟨perform_attributed_sockets hs hok.1 hperform, hidentified,
      perform_attributed_contributions hs hperform⟩
  exact hinv.contributions

/-- The miner ids of the scenario. -/
def scenarioMinerId (pubkey : Pubkey) : Int := if pubkey = .fill 32 1 then 1 else 2

theorem attributed_twoKeys : ∃ s, run (State.step Scenario.config) (.start Scenario.proof)
    Scenario.twoKeys = some s ∧ s.shared.epochHashes.contributions.len = 2 ∧
    ∀ pubkey c, s.shared.epochHashes.contributions.lookup pubkey = some c →
      c.minerId = scenarioMinerId pubkey := by
  obtain ⟨s, hrun, hlen⟩ := exists_run (State.step Scenario.config) (.start Scenario.proof)
    Scenario.twoKeys (fun s => s.shared.epochHashes.contributions.len = 2) (by decide)
  exact ⟨s, hrun, hlen, attributed_of_run hrun (by decide) (by decide)⟩

/-- After a failed submission the first client sends the bytes that the second one had
signed and sent before, over its own connection. -/
def replay : List Event :=
  Scenario.twoKeys ++ Scenario.send ++ Scenario.fail ++
    Scenario.submit 0 Scenario.solution' (.fill 32 2)

theorem not_attributed : ¬ ∀ cfg minerIdOf proof events s,
    run (State.step cfg) (.start proof) events = some s →
    Meets (State.step cfg) (Authenticated minerIdOf) (.start proof) events →
    ∀ pubkey c, s.shared.epochHashes.contributions.lookup pubkey = some c →
      c.minerId = minerIdOf pubkey := by
  intro h
  obtain ⟨s, hrun, hentry⟩ := exists_run (State.step Scenario.config) (.start Scenario.proof)
    replay (fun s => (s.shared.epochHashes.contributions.lookup (.fill 32 2)).map
      InternalMessageContribution.minerId = some 1) (by decide)
  obtain ⟨c, hc, hminer⟩ := Option.map_eq_some_iff.mp hentry
  have hclaim := h _ scenarioMinerId _ _ _ hrun (by decide +kernel) _ c hc
  rw [hminer] at hclaim
  exact absurd hclaim (by decide)

end Hashpoo.Mining.State
