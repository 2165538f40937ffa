import Hashpoo.Mining.System

/-!
# One nonce, one miner

Within an epoch the counter hands out disjoint blocks, so a nonce belongs to the one key
its block was taken for. The contributions inherit this as long as every submission is
checked against a block of the epoch whose contributions it enters. The code does not
see to that: ranges survive the resets, and the counter and the contributions are reset
one after the other.
-/

namespace Hashpoo.Mining

open Foundation

/-! ## The blocks of one epoch -/

/-- No nonce lies in two blocks of one epoch, and the counter stands behind all blocks
of its epoch. -/
structure Nonces.Disjoint (n : Nonces) : Prop where
  epoch_le : ∀ a ∈ n.assigned, a.epoch ≤ n.resets
  stop_le : ∀ a ∈ n.assigned, a.epoch = n.resets → a.range.stop ≤ n.appNonce
  unique : ∀ a ∈ n.assigned, ∀ b ∈ n.assigned, a.epoch = b.epoch → ∀ nonce,
    a.range.Contains nonce → b.range.Contains nonce → a = b

namespace Nonces.Disjoint

variable {n : Nonces}

theorem reset (h : n.Disjoint) : n.reset.Disjoint where
  epoch_le a ha := Nat.le_succ_of_le (h.epoch_le a ha)
  stop_le a ha hepoch := by
    have hle := h.epoch_le a ha
    simp only [Nonces.reset] at hepoch
    omega
  unique := h.unique

theorem take (h : n.Disjoint) (owner : Option Pubkey)
    (hfit : n.appNonce + nonceRangeSize < 2 ^ 64) : (n.take owner).Disjoint := by
  have hstop := Nonces.nextRange_stop hfit
  -- An older block of the epoch ends before the new one starts.
  have hfresh : ∀ a ∈ n.assigned, a.epoch = n.resets → ∀ nonce,
      a.range.Contains nonce → ¬ n.nextRange.Contains nonce := by
    intro a ha hepoch nonce hold hnew
    have hle := h.stop_le a ha hepoch
    have hlow : n.appNonce ≤ nonce := hnew.1
    have hhigh := hold.2
    omega
  refine ⟨?_, ?_, ?_⟩
  · intro a ha
    cases ha with
    | head => exact le_rfl
    | tail _ ha => exact h.epoch_le a ha
  · intro a ha hepoch
    cases ha with
    | head => exact le_rfl
    | tail _ ha =>
        have hle := h.stop_le a ha hepoch
        simp only [Nonces.take, hstop]
        omega
  · intro a ha b hb hepoch nonce hna hnb
    cases ha with
    | head =>
        cases hb with
        | head => rfl
        | tail _ hb => exact absurd hna (hfresh b hb hepoch.symm nonce hnb)
    | tail _ ha =>
        cases hb with
        | head => exact absurd hnb (hfresh a ha hepoch nonce hna)
        | tail _ hb => exact h.unique a ha b hb hepoch nonce hna hnb

end Nonces.Disjoint

/-! ## Contributions in their blocks -/

/-- The nonce lies in a block taken for the key in the epoch. -/
def Nonces.Assigned (n : Nonces) (pubkey : Pubkey) (epoch nonce : Nat) : Prop :=
  ∃ a ∈ n.assigned, a.owner = some pubkey ∧ a.epoch = epoch ∧ a.range.Contains nonce

theorem Nonces.Assigned.take {n : Nonces} {pubkey : Pubkey} {epoch nonce : Nat}
    (h : n.Assigned pubkey epoch nonce) (owner : Option Pubkey) :
    (n.take owner).Assigned pubkey epoch nonce := by
  obtain ⟨a, ha, hrest⟩ := h
  exact ⟨a, List.mem_cons_of_mem _ ha, hrest⟩

/-- Every contribution lies in a block of its key and of the present epoch. -/
def Shared.ContributionsAssigned (sh : Shared) : Prop :=
  ∀ pubkey c, sh.epochHashes.contributions.lookup pubkey = some c →
    sh.nonces.Assigned pubkey sh.hashes.resets c.suppliedNonce

namespace State

variable {cfg : Config} {s s' t : State} {e : Event} {eff : Effect}

/-- A submission is recorded only if the range it was checked against is that of a block
taken for its key, at a time when the nonce counter had been reset as often as the epoch hashes
have been by now. The counter has room for a block at every step of the ready processor. -/
def EpochKept (s : State) (e : Event) : Prop :=
  match e with
  | .contribution => ∀ x ∈ s.contributions.writing, ∃ a ∈ s.shared.nonces.assigned,
      a.owner = some x.1.pubkey ∧ a.epoch = s.shared.hashes.resets ∧ a.range = x.2
  | .ready _ => s.shared.nonces.appNonce + nonceRangeSize < 2 ^ 64
  | _ => True

instance (s : State) (e : Event) : Decidable (s.EpochKept e) :=
  match e with
  | .contribution => inferInstanceAs (Decidable (∀ x ∈ s.contributions.writing, _))
  | .ready _ => inferInstanceAs (Decidable (_ < _))
  | .submission _ | .mission _ | .message | .tracking _ | .ping _ | .pong => .isTrue trivial
  | .connect _ _ _ | .receive _ _ | .streamEnded _ | .disconnect _ => .isTrue trivial
  | .land _ _ _ _ | .claim _ | .tick _ => .isTrue trivial

/-- The invariant of the nonces. -/
structure Owned (s : State) : Prop where
  disjoint : s.shared.nonces.Disjoint
  assigned : s.shared.ContributionsAssigned
  checked : ∀ x ∈ s.contributions.ranged, x.2.Contains x.1.solution.nonce

theorem owned_start (proof : Proof) : (State.start proof).Owned where
  disjoint := ⟨by simp [start, Shared.start], by simp [start, Shared.start],
    by simp [start, Shared.start]⟩
  assigned pubkey c hc := by simp [start, Shared.start, EpochHashes.fresh] at hc
  checked x hx := by simp [start, ContributionsPc.ranged] at hx

theorem perform_disjoint (hinv : s.Owned) (hok : s.EpochKept e)
    (h : s.perform cfg e = some (s', eff)) : (s.shared.apply eff).nonces.Disjoint := by
  by_cases hscope : eff.scope = .nonces
  · obtain ⟨-, rfl⟩ | ⟨input, owner, rfl, rfl⟩ := perform_nonces h hscope
    · exact hinv.disjoint.reset
    · exact hinv.disjoint.take owner hok
  · rw [Shared.apply_nonces hscope]
    exact hinv.disjoint

/-- Blocks are never forgotten, so only a new entry needs a look. -/
theorem perform_assigned (hinv : s.Owned) (hok : s.EpochKept e)
    (h : s.perform cfg e = some (s', eff)) : (s.shared.apply eff).ContributionsAssigned := by
  by_cases hnonces : eff.scope = .nonces
  · obtain ⟨-, rfl⟩ | ⟨input, owner, rfl, rfl⟩ := perform_nonces h hnonces
    · exact hinv.assigned
    · intro pubkey c hc
      exact (hinv.assigned pubkey c hc).take owner
  · by_cases hhashes : eff.scope = .hashes
    · obtain ⟨-, challenge, rfl⟩ | ⟨rfl, m, nonceRange, minerId, hpc, rfl⟩ :=
        perform_hashes h hhashes
      · intro pubkey c hc
        simp at hc
      · intro pubkey c hc
        have hranged : s.contributions.ranged = some (m, nonceRange) := by rw [hpc]; rfl
        rw [Shared.apply_record_contributions] at hc
        obtain ⟨a, ha, howner, hepoch, hrange⟩ := hok (m, nonceRange) (by rw [hpc]; rfl)
        by_cases hkey : pubkey = m.pubkey
        · subst hkey
          rw [AList.lookup_insert, Option.some.injEq] at hc
          subst hc
          refine ⟨a, ha, howner, hepoch, ?_⟩
          rw [hrange]
          exact hinv.checked _ hranged
        · rw [AList.lookup_insert_ne hkey] at hc
          exact hinv.assigned pubkey c hc
    · simp only [Shared.ContributionsAssigned, Shared.apply_epochHashes hhashes,
        Shared.apply_hashes hhashes, Shared.apply_nonces hnonces]
      exact hinv.assigned

theorem step_owned (hinv : s.Owned) (hok : s.EpochKept e) (h : s.step cfg e = some t) :
    t.Owned := by
  obtain ⟨-, s', eff, hperform, rfl⟩ := step_eq_some.mp h
  refine ⟨perform_disjoint hinv hok hperform, perform_assigned hinv hok hperform, ?_⟩
  change ∀ x ∈ s'.contributions.ranged, _
  obtain hsame | ⟨-, hstep⟩ := perform_contributions hperform
  · rw [hsame]
    exact hinv.checked
  · intro x hx
    obtain hbefore | hcontains := ContributionsPc.step_ranged hstep x hx
    · exact hinv.checked x hbefore
    · exact hcontains

/-- In every run that keeps the epochs of blocks and contributions together, two keys never
hold the same nonce. -/
theorem nonces_distinct_of_run {proof : Proof} {events : List Event}
    (h : run (State.step cfg) (.start proof) events = some s)
    (hmeets : Meets (State.step cfg) EpochKept (.start proof) events) :
    ∀ pubkey pubkey' c c', s.shared.epochHashes.contributions.lookup pubkey = some c →
      s.shared.epochHashes.contributions.lookup pubkey' = some c' →
      c.suppliedNonce = c'.suppliedNonce → pubkey = pubkey' := by
  have hinv : s.Owned := invariant_of_meets (fun _ _ _ hs hok hstep => step_owned hs hok hstep)
    (owned_start proof) hmeets h
  intro pubkey pubkey' c c' hc hc' hnonce
  obtain ⟨a, ha, howner, hepoch, hrange⟩ := hinv.assigned pubkey c hc
  obtain ⟨a', ha', howner', hepoch', hrange'⟩ := hinv.assigned pubkey' c' hc'
  have hblock : a = a' := hinv.disjoint.unique a ha a' ha' (hepoch.trans hepoch'.symm)
    c.suppliedNonce hrange (hnonce ▸ hrange')
  subst hblock
  exact Option.some.inj (howner.symm.trans howner')

theorem nonces_distinct_ownRanges : ∃ s, run (State.step Scenario.config)
    (.start Scenario.proof) Scenario.twoKeys = some s ∧
    s.shared.epochHashes.contributions.len = 2 ∧
    ∀ pubkey pubkey' c c', s.shared.epochHashes.contributions.lookup pubkey = some c →
      s.shared.epochHashes.contributions.lookup pubkey' = some c' →
      c.suppliedNonce = c'.suppliedNonce → pubkey = pubkey' := by
  obtain ⟨s, hrun, hlen⟩ := exists_run (State.step Scenario.config) (.start Scenario.proof)
    Scenario.twoKeys (fun s => s.shared.epochHashes.contributions.len = 2) (by decide)
  exact ⟨s, hrun, hlen, nonces_distinct_of_run hrun (by decide)⟩

/-- The first client keeps its range over a failed submission, while the counter starts
again for the second one. Both then submit the nonce 0. -/
def staleRange : List Event :=
  Scenario.join 0 (.fill 32 1) 1 ++ Scenario.batch [0] ++
    Scenario.submit 0 Scenario.solution (.fill 32 1) ++ Scenario.send ++ Scenario.fail ++
    Scenario.join 1 (.fill 32 2) 2 ++ Scenario.batch [1] ++
    Scenario.submit 0 Scenario.solution (.fill 32 1) ++
    Scenario.submit 1 Scenario.solution (.fill 32 2)

theorem not_nonces_distinct : ¬ ∀ cfg proof events s,
    run (State.step cfg) (.start proof) events = some s →
    ∀ pubkey pubkey' c c', s.shared.epochHashes.contributions.lookup pubkey = some c →
      s.shared.epochHashes.contributions.lookup pubkey' = some c' →
      c.suppliedNonce = c'.suppliedNonce → pubkey = pubkey' := by
  intro h
  obtain ⟨s, hrun, hfirst, hsecond⟩ := exists_run (State.step Scenario.config)
    (.start Scenario.proof) staleRange
    (fun s => s.shared.epochHashes.contributions.lookup (.fill 32 1) =
        some (.of Scenario.config.drillx 1 Scenario.solution) ∧
      s.shared.epochHashes.contributions.lookup (.fill 32 2) =
        some (.of Scenario.config.drillx 2 Scenario.solution)) (by decide)
  exact absurd (h _ _ _ _ hrun _ _ _ _ hfirst hsecond rfl) (by decide)

end State

end Hashpoo.Mining
