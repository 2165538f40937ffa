import Hashpoo.Mining.Epoch

/-!
# Messages that describe one state of the epoch

The submission takes its solution from one read of the epoch and its contributions from
another, the freeze. The message made from both is consistent as long as no better
solution is recorded between the two reads.
-/

namespace Hashpoo

/-- The best nonce and the difficulty are those of an entry, and no entry is better. -/
def MessageInternalMineSuccess.SelfConsistent (msg : MessageInternalMineSuccess) : Prop :=
  (∃ pubkey c, msg.contributions.lookup pubkey = some c ∧ c.suppliedNonce = msg.bestNonce ∧
    c.suppliedDiff = msg.difficulty) ∧
  ∀ pubkey c, msg.contributions.lookup pubkey = some c → c.suppliedDiff ≤ msg.difficulty

namespace Mining

open Foundation

/-- The frozen solution is the best of the frozen contributions. -/
def Submission.Matched (drillx : Drillx) (r : Submission) : Prop :=
  ∀ solution ∈ r.bestSolution,
    (∃ pubkey c, r.contributions.lookup pubkey = some c ∧ c.suppliedNonce = solution.nonce ∧
      c.suppliedDiff = drillx.difficulty solution) ∧
    ∀ pubkey c, r.contributions.lookup pubkey = some c →
      c.suppliedDiff ≤ drillx.difficulty solution

/-- What a consistent epoch holds beside its best solution. -/
theorem matched_of_consistent {drillx : Drillx} {minDifficulty : Nat} {e : EpochHashes}
    (h : e.Consistent drillx minDifficulty) (number : Nat) (oldProof : Proof) :
    (Submission.frozen number oldProof e.bestHash.solution e.contributions).Matched drillx := by
  intro solution hsolution
  have hpos : 0 < e.bestHash.difficulty := by
    apply Nat.pos_of_ne_zero
    intro hzero
    have hnone : e.bestHash.solution = some solution := hsolution
    rw [h.zero hzero] at hnone
    cases hnone
  obtain ⟨s, pubkey, c, hs, hc, hdigest, hnonce, hdiff⟩ := h.positive hpos
  cases hs.symm.trans hsolution
  have hown : c.suppliedDiff = drillx.difficulty solution := by
    rw [(h.entries pubkey c hc).1, c.solution_eq hdigest hnonce]
  refine ⟨⟨pubkey, c, hc, hnonce, hown⟩, ?_⟩
  intro pubkey' c' hc'
  rw [← hown, hdiff, h.difficulty]
  exact le_maxDiff hc'

theorem Submission.Moves.selfConsistent {cfg : Config} {sh : Shared} {r r' : Submission}
    {stage : Stage} {next : Option Stage} {eff : Effect} (h : r.Moves cfg sh stage r' next eff)
    (hmatched : r.Matched cfg.drillx) (hmessages : ∀ msg ∈ r.messages, msg.SelfConsistent) :
    ∀ msg ∈ r'.messages, msg.SelfConsistent := by
  cases h with
  | report latest id bestSolution hbest =>
      intro msg hmsg
      cases hmsg with
      | head => exact hmatched bestSolution hbest
      | tail _ hmsg => exact hmessages msg hmsg
  | _ => exact hmessages

/-! ## Runs -/

namespace State

variable {cfg : Config} {s t : State} {e : Event}

/-- The best solution already read, when the next step is the freeze. -/
def freezing (s : State) : Option (Option Solution) :=
  match s.submission.pc with
  | .freeze _ bestSolution => some bestSolution
  | _ => none

/-- The contributions are frozen while the solution read before is still the best one. -/
def FreezesBest (s : State) (e : Event) : Prop :=
  e.isSubmission → ∀ bestSolution ∈ s.freezing,
    s.shared.epochHashes.bestHash.solution = bestSolution

instance (s : State) (e : Event) : Decidable (s.FreezesBest e) :=
  inferInstanceAs (Decidable (_ → ∀ bestSolution ∈ s.freezing, _))

/-- The invariant: frozen data match, and so do the messages made of them. -/
structure Matching (cfg : Config) (s : State) : Prop where
  epochal : s.Epochal cfg
  matched : ∀ r ∈ s.submission.submissions, r.Matched cfg.drillx
  messages : ∀ r ∈ s.submission.submissions, ∀ msg ∈ r.messages, msg.SelfConsistent

theorem matching_start (cfg : Config) (proof : Proof) : (State.start proof).Matching cfg where
  epochal := epochal_start cfg proof
  matched r hr := by simp [start, PoolSubmissionProcessor.start,
    PoolSubmissionProcessor.submissions, SubmissionPc.current] at hr
  messages r hr := by simp [start, PoolSubmissionProcessor.start,
    PoolSubmissionProcessor.submissions, SubmissionPc.current] at hr

theorem step_matching (hinv : s.Matching cfg) (hok : s.FreezesBest e)
    (h : s.step cfg e = some t) : t.Matching cfg := by
  have hepochal := step_epochal hinv.epochal h
  obtain ⟨-, s', eff, hperform, rfl⟩ := step_eq_some.mp h
  have hstep : ∀ r ∈ s'.submission.submissions, r.Matched cfg.drillx ∧
      ∀ msg ∈ r.messages, msg.SelfConsistent := by
    intro x hx
    obtain ⟨-, hsame⟩ | ⟨input, rfl, hmoves⟩ := perform_submission hperform
    · rw [hsame] at hx
      exact ⟨hinv.matched x hx, hinv.messages x hx⟩
    · obtain hold | ⟨oldProof, bestSolution, hpc, rfl⟩ | ⟨r, stage, next, hpc, hmoves⟩ :=
        hmoves.mem_submissions hx
      · exact ⟨hinv.matched x hold, hinv.messages x hold⟩
      · have hbest : s.shared.epochHashes.bestHash.solution = bestSolution :=
          hok rfl bestSolution (by rw [freezing, hpc]; rfl)
        rw [← hbest]
        refine ⟨matched_of_consistent hinv.epochal.consistent _ oldProof, ?_⟩
        simp [Submission.frozen]
      · have hr := PoolSubmissionProcessor.mem_submissions_of_submit hpc
        obtain ⟨-, hbest, hcontributions⟩ := hmoves.frozen_eq
        refine ⟨?_, hmoves.selfConsistent (hinv.matched r hr) (hinv.messages r hr)⟩
        rw [Submission.Matched, hbest, hcontributions]
        exact hinv.matched r hr
  exact ⟨hepochal, fun r hr => (hstep r hr).1, fun r hr => (hstep r hr).2⟩

/-- In every run in which no better solution is recorded between the two reads of a
submission, every message is self-consistent. -/
theorem selfConsistent_of_run {proof : Proof} {events : List Event}
    (h : run (State.step cfg) (.start proof) events = some s)
    (hmeets : Meets (State.step cfg) FreezesBest (.start proof) events) :
    ∀ r ∈ s.submission.submissions, ∀ msg ∈ r.messages, msg.SelfConsistent :=
  (invariant_of_meets (fun _ _ _ hs hok hstep => step_matching hs hok hstep)
    (matching_start cfg proof) hmeets h : s.Matching cfg).messages

theorem selfConsistent_of_run_scenario : ∃ s, run (State.step Scenario.config)
    (.start Scenario.proof) (Scenario.untilLanded 500 ++ Scenario.report) = some s ∧
    (s.submission.submissions.flatMap (·.messages)).length = 1 ∧
    ∀ r ∈ s.submission.submissions, ∀ msg ∈ r.messages, msg.SelfConsistent := by
  obtain ⟨s, hrun, hsent⟩ := exists_run (State.step Scenario.config) (.start Scenario.proof)
    (Scenario.untilLanded 500 ++ Scenario.report)
    (fun s => (s.submission.submissions.flatMap (·.messages)).length = 1) (by decide)
  exact ⟨s, hrun, hsent, selfConsistent_of_run hrun (by decide)⟩

/-- Every solution but the scenario's one has difficulty 12. -/
def improvableConfig : Config :=
  { Scenario.config with
    drillx := { Scenario.config.drillx with
      difficulty := fun solution => if solution = Scenario.solution then 10 else 12 } }

def improvement : Solution := ⟨.fill 16 0, ⟨[1, 0, 0, 0, 0, 0, 0, 0], rfl⟩⟩

/-- The client improves its contribution after the solution has been read and before the
contributions are frozen. -/
def improvedBeforeFreeze : List Event :=
  Scenario.join 0 (.fill 32 1) 1 ++ Scenario.batch [0] ++
    Scenario.submit 0 Scenario.solution (.fill 32 1) ++ Scenario.send.take 5 ++
    Scenario.submit 0 improvement (.fill 32 1) ++ Scenario.send.drop 5 ++
    Scenario.land 500 ++ Scenario.report

theorem not_selfConsistent : ¬ ∀ cfg proof events s,
    run (State.step cfg) (.start proof) events = some s →
    ∀ r ∈ s.submission.submissions, ∀ msg ∈ r.messages, msg.SelfConsistent := by
  intro h
  obtain ⟨s, hrun, r, hr, msg, hmsg, hnone⟩ := exists_run (State.step improvableConfig)
    (.start Scenario.proof) improvedBeforeFreeze
    (fun s => ∃ r ∈ s.submission.submissions, ∃ msg ∈ r.messages,
      ∀ c ∈ msg.contributions.values, c.suppliedNonce ≠ msg.bestNonce) (by decide)
  obtain ⟨⟨pubkey, c, hc, hnonce, -⟩, -⟩ := h _ _ _ _ hrun r hr msg hmsg
  exact hnone c (HashMap.mem_values.mpr ⟨pubkey, hc⟩) hnonce

end State

end Mining

end Hashpoo
