import Hashpoo.Mining.System
import Hashpoo.Server.Hashpower

/-!
# Hashpowers in every reachable state

The contributions processor weighs what it records, and the setting `min_difficulty`
alone decides what it records. The hashpowers of an epoch are sound in all states of a
run exactly when no step records a difficulty below the base of the weights.
-/

namespace Hashpoo.Mining

open Foundation

namespace State

variable {cfg : Config} {s s' t : State} {e : Event} {eff : Effect}

/-- The submission that the step records. -/
def accepting (s : State) : Event → Option ClientBestSolution
  | .contribution => s.contributions.writing.map Prod.fst
  | _ => none

/-- The step records no difficulty below the base. -/
def AcceptsWeighty (cfg : Config) (s : State) (e : Event) : Prop :=
  ∀ m ∈ s.accepting e, minDiff ≤ cfg.drillx.difficulty m.solution

instance : Decidable (s.AcceptsWeighty cfg e) :=
  inferInstanceAs (Decidable (∀ m ∈ s.accepting e, _))

/-- The contributions stay, are emptied, or get the entry of the submission recorded. -/
theorem perform_recorded (h : s.perform cfg e = some (s', eff)) :
    (s.shared.apply eff).epochHashes.contributions = s.shared.epochHashes.contributions ∨
      (s.shared.apply eff).epochHashes.contributions = ∅ ∨
      ∃ m minerId, s.accepting e = some m ∧ (s.shared.apply eff).epochHashes.contributions =
        s.shared.epochHashes.contributions.insert m.pubkey (.of cfg.drillx minerId m.solution) := by
  by_cases hscope : eff.scope = .hashes
  · obtain ⟨-, challenge, rfl⟩ | ⟨rfl, m, nonceRange, minerId, hpc, rfl⟩ := perform_hashes h hscope
    · exact .inr (.inl (Shared.apply_resetHashes_contributions challenge))
    · refine .inr (.inr ⟨m, minerId, ?_, Shared.apply_record_contributions _ _ _⟩)
      rw [accepting, hpc]
      rfl
  · exact .inl (congrArg EpochHashes.contributions (Shared.apply_epochHashes hscope))

/-- The step that accepts a submission records it. -/
theorem step_accepting {m : ClientBestSolution} (haccepting : s.accepting e = some m)
    (h : s.step cfg e = some t) : ∃ minerId,
      (.of cfg.drillx minerId m.solution) ∈ HashMap.values t.shared.epochHashes.contributions := by
  obtain ⟨-, s', eff, hperform, rfl⟩ := step_eq_some.mp h
  cases e with
  | contribution =>
      obtain ⟨⟨pc, eff'⟩, hstep, heq⟩ := Option.map_eq_some_iff.mp hperform
      cases heq
      cases hpc : s.contributions with
      | write m' nonceRange minerId =>
          rw [accepting, hpc] at haccepting
          rw [hpc] at hstep
          cases haccepting
          cases hstep
          exact ⟨minerId, HashMap.mem_values.mpr ⟨_, AList.lookup_insert _⟩⟩
      | _ =>
          rw [accepting, hpc] at haccepting
          cases haccepting
  | _ => cases haccepting

/-- What holds of the recorded entries holds of all entries. -/
theorem step_entries {P : InternalMessageContribution → Prop}
    (hnew : ∀ m ∈ s.accepting e, ∀ minerId, P (.of cfg.drillx minerId m.solution))
    (hold : ∀ c ∈ HashMap.values s.shared.epochHashes.contributions, P c)
    (h : s.step cfg e = some t) :
    ∀ c ∈ HashMap.values t.shared.epochHashes.contributions, P c := by
  obtain ⟨-, s', eff, hperform, rfl⟩ := step_eq_some.mp h
  show ∀ c ∈ HashMap.values (s.shared.apply eff).epochHashes.contributions, P c
  intro c hc
  obtain hsame | hempty | ⟨m, minerId, haccepting, hinsert⟩ := perform_recorded hperform
  · rw [hsame] at hc
    exact hold c hc
  · rw [hempty] at hc
    cases hc
  · rw [hinsert] at hc
    obtain ⟨pubkey, hlookup⟩ := HashMap.mem_values.mp hc
    obtain ⟨-, rfl⟩ | ⟨-, hbefore⟩ := HashMap.lookup_insert_eq_some.mp hlookup
    · exact hnew m haccepting minerId
    · exact hold c (HashMap.mem_values.mpr ⟨pubkey, hbefore⟩)

theorem weighed_of_states {proof : Proof} {events : List Event}
    (h : t ∈ states (State.step cfg) (.start proof) events) :
    Weighed t.shared.epochHashes.contributions := by
  refine invariant_of_states (I := fun s => Weighed s.shared.epochHashes.contributions) ?_ ?_
    (meets_true events) h
  · intro s e u hs _ hstep
    exact step_entries (fun m _ minerId => rfl) hs hstep
  · intro c hc
    cases hc

/-- While the powers of the difficulties held fit a word, the hashpowers are sound in every
state of a run exactly when the run accepts no submission below the base of the weights. -/
theorem soundHashpower_of_run_iff {proof : Proof} {events : List Event}
    (h : run (State.step cfg) (.start proof) events = some s)
    (hfit : ∀ t ∈ states (State.step cfg) (.start proof) events,
      powerSum t.shared.epochHashes.contributions < 2 ^ 64) :
    (∀ t ∈ states (State.step cfg) (.start proof) events,
      SoundHashpower t.shared.epochHashes.contributions) ↔
        Meets (State.step cfg) (fun s e => s.AcceptsWeighty cfg e) (.start proof) events := by
  have hsound : ∀ t ∈ states (State.step cfg) (.start proof) events,
      (SoundHashpower t.shared.epochHashes.contributions ↔
        ∀ c ∈ HashMap.values t.shared.epochHashes.contributions, minDiff ≤ c.suppliedDiff) :=
    fun t ht => soundHashpower_iff (weighed_of_states ht) (hfit t ht)
  constructor
  · intro hall
    refine meets_of_states (I := fun t =>
      ∀ c ∈ HashMap.values t.shared.epochHashes.contributions, minDiff ≤ c.suppliedDiff) ?_ h
      fun t ht => (hsound t ht).mp (hall t ht)
    intro s e u _ hstep hbase m hm
    obtain ⟨minerId, hmem⟩ := step_accepting hm hstep
    exact hbase _ hmem
  · intro hmeets t ht
    refine (hsound t ht).mpr (invariant_of_states (I := fun t =>
      ∀ c ∈ HashMap.values t.shared.epochHashes.contributions, minDiff ≤ c.suppliedDiff) ?_ ?_
      hmeets ht)
    · intro s e u hs hok hstep
      exact step_entries (fun m hm minerId => hok m hm) hs hstep
    · intro c hc
      cases hc

/-- A client takes part and submits one solution. -/
def Scenario.contribute : List Event :=
  Scenario.join 0 (.fill 32 1) 1 ++ Scenario.batch [0] ++
    Scenario.submit 0 Scenario.solution (.fill 32 1)

theorem soundHashpower_contribute :
    ∃ s, run (State.step Scenario.config) (.start Scenario.proof) Scenario.contribute = some s ∧
      SoundHashpower s.shared.epochHashes.contributions := by
  obtain ⟨s, hrun, -⟩ := exists_run (State.step Scenario.config) (.start Scenario.proof)
    Scenario.contribute (fun _ => True) (by decide)
  have hsound := (soundHashpower_of_run_iff hrun (by decide)).mpr (by decide)
  exact ⟨s, hrun, hsound s (mem_states_of_run hrun)⟩

/-- With a threshold below the base, a submission of difficulty 7 weighs nothing. -/
def Scenario.lightConfig : Config :=
  { Scenario.config with
    drillx := ⟨fun _ => 7, fun _ _ => true⟩
    minDifficulty := 7 }

theorem not_soundHashpower : ¬ ∀ (cfg : Config) (proof : Proof) (events : List Event) (s : State),
    run (State.step cfg) (.start proof) events = some s →
    (∀ t ∈ states (State.step cfg) (.start proof) events,
      powerSum t.shared.epochHashes.contributions < 2 ^ 64) →
    ∀ t ∈ states (State.step cfg) (.start proof) events,
      SoundHashpower t.shared.epochHashes.contributions := by
  intro h
  obtain ⟨s, hrun, hlight⟩ := exists_run (State.step Scenario.lightConfig)
    (.start Scenario.proof) Scenario.contribute
    (fun s => ∃ c ∈ HashMap.values s.shared.epochHashes.contributions, c.hashpower = 0) (by decide)
  obtain ⟨c, hc, hzero⟩ := hlight
  have hpos := (h _ _ _ s hrun (by decide) s (mem_states_of_run hrun)).positive c hc
  omega

end State

end Hashpoo.Mining
