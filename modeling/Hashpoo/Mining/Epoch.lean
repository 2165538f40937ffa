import Hashpoo.Mining.System
import Hashpoo.Server.EpochHashes

/-!
# The epoch hashes in every reachable state

The contributions processor decides on a copy of the contributions and writes later. In
between only a reset can change the epoch, and a reset leaves contributions that admit
everything, so the decision is still right when the entry is written.
-/

namespace Hashpoo.Mining

open Foundation

namespace State

variable {cfg : Config} {s s' t : State} {e : Event} {eff : Effect}

/-- The invariant of the epoch hashes. -/
structure Epochal (cfg : Config) (s : State) : Prop where
  consistent : s.shared.epochHashes.Consistent cfg.drillx cfg.minDifficulty
  qualified : ∀ m ∈ s.contributions.handling,
    cfg.minDifficulty ≤ cfg.drillx.difficulty m.solution
  admitted : ∀ x ∈ s.contributions.writing, admits s.shared.epochHashes.contributions
    x.1.pubkey (cfg.drillx.difficulty x.1.solution)

theorem epochal_start (cfg : Config) (proof : Proof) : (State.start proof).Epochal cfg where
  consistent := EpochHashes.consistent_fresh _
  qualified m hm := by simp [start, ContributionsPc.handling] at hm
  admitted x hx := by simp [start, ContributionsPc.writing] at hx

theorem perform_consistent (hinv : s.Epochal cfg) (h : s.perform cfg e = some (s', eff)) :
    (s.shared.apply eff).epochHashes.Consistent cfg.drillx cfg.minDifficulty := by
  by_cases hscope : eff.scope = .hashes
  · obtain ⟨-, challenge, rfl⟩ | ⟨rfl, m, nonceRange, minerId, hpc, rfl⟩ := perform_hashes h hscope
    · exact EpochHashes.consistent_fresh _
    · have hhandling : s.contributions.handling = some m := by rw [hpc]; rfl
      have hwriting : s.contributions.writing = some (m, nonceRange) := by rw [hpc]; rfl
      exact hinv.consistent.record minerId (hinv.admitted _ hwriting)
        (hinv.qualified m hhandling)
  · rw [Shared.apply_epochHashes hscope]
    exact hinv.consistent

theorem perform_admitted (hinv : s.Epochal cfg) (h : s.perform cfg e = some (s', eff)) :
    ∀ x ∈ s'.contributions.writing, admits (s.shared.apply eff).epochHashes.contributions
      x.1.pubkey (cfg.drillx.difficulty x.1.solution) := by
  intro x hx
  obtain hsame | ⟨-, hstep⟩ := perform_contributions h
  · rw [hsame] at hx
    by_cases hscope : eff.scope = .hashes
    · obtain ⟨-, challenge, rfl⟩ | ⟨rfl, m, nonceRange, minerId, hpc, rfl⟩ :=
        perform_hashes h hscope
      · rw [Shared.apply_resetHashes_contributions]
        rfl
      · -- The write section is left with the write.
        obtain ⟨⟨pc, eff'⟩, hstep, heq⟩ := Option.map_eq_some_iff.mp h
        cases heq
        rw [hpc] at hstep
        cases hstep
        rw [← hsame] at hx
        cases hx
    · rw [Shared.apply_epochHashes hscope]
      exact hinv.admitted x hx
  · obtain ⟨rfl, hadmits⟩ := ContributionsPc.step_writing hstep x hx
    exact hadmits

theorem step_epochal (hinv : s.Epochal cfg) (h : s.step cfg e = some t) : t.Epochal cfg := by
  obtain ⟨-, s', eff, hperform, rfl⟩ := step_eq_some.mp h
  have hadmitted := perform_admitted hinv hperform
  refine ⟨perform_consistent hinv hperform, ?_, hadmitted⟩
  change ∀ m ∈ s'.contributions.handling, _
  intro m hm
  obtain hsame | ⟨-, hstep⟩ := perform_contributions hperform
  · rw [hsame] at hm
    exact hinv.qualified m hm
  · obtain hbefore | hdiff := ContributionsPc.step_handling hstep m hm
    · exact hinv.qualified m hbefore
    · exact hdiff

theorem epochal_of_run {proof : Proof} {events : List Event}
    (h : run (State.step cfg) (.start proof) events = some s) : s.Epochal cfg :=
  invariant_of_step (fun _ _ _ hs hstep => step_epochal hs hstep) (epochal_start cfg proof) h

/-- In every reachable state, for every interleaving of the writes and the resets,
`best_hash` is the best of the contributions and every entry has earned its place. -/
theorem bestHash_of_run {proof : Proof} {events : List Event}
    (h : run (State.step cfg) (.start proof) events = some s) :
    s.shared.epochHashes.Consistent cfg.drillx cfg.minDifficulty :=
  (epochal_of_run h).consistent

theorem bestHash_untilLanded : ∃ s, run (State.step Scenario.config) (.start Scenario.proof)
    (Scenario.untilLanded 100_000_000) = some s ∧
    s.shared.epochHashes.bestHash = ⟨some Scenario.solution, 10⟩ ∧
    s.shared.epochHashes.Consistent Scenario.config.drillx Scenario.config.minDifficulty := by
  obtain ⟨s, hrun, hbest⟩ := exists_run (State.step Scenario.config) (.start Scenario.proof)
    (Scenario.untilLanded 100_000_000)
    (fun s => s.shared.epochHashes.bestHash = ⟨some Scenario.solution, 10⟩) (by decide)
  exact ⟨s, hrun, hbest, bestHash_of_run hrun⟩

end State

end Hashpoo.Mining
