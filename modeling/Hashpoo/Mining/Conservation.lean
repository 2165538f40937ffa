import Hashpoo.Mining.Delivery

/-!
# Credits against the reward of the landed transaction

The landed-tx task infers the reward from two snapshots of the proof account. Claims
debit the same account, and both snapshots may be late, so the inferred reward is right
only when the second balance lies between the first one and the first one plus the
reward of the landing. `ReportsWithin` states that for one step; with it the credits are
conserved in every run, and without it a single claim makes the commission negative.
-/

namespace Hashpoo.Mining

/-! ## One message -/

/-- No credit is a debit, and together they stay within the reward. -/
def CreditsWithin (msg : MessageInternalMineSuccess) (reward : Nat) : Prop :=
  (∀ x ∈ msg.credits, 0 ≤ x) ∧ msg.credits.sum ≤ reward

instance (msg : MessageInternalMineSuccess) (reward : Nat) :
    Decidable (CreditsWithin msg reward) := inferInstanceAs (Decidable (_ ∧ _))

/-- The snapshots that a report uses, and the frozen contributions, fit the landing. -/
structure SnapshotsFit (r : Submission) (latest : Proof) (l : Landing) : Prop where
  grown : r.oldProof.balance ≤ latest.balance
  within : latest.balance ≤ r.oldProof.balance + l.reward
  rewards : 5 * (latest.balance - r.oldProof.balance) < 2 ^ 63
  hashpower : hashpowerSum r.contributions < 2 ^ 64

instance (r : Submission) (latest : Proof) (l : Landing) : Decidable (SnapshotsFit r latest l) :=
  decidable_of_iff (r.oldProof.balance ≤ latest.balance ∧
      latest.balance ≤ r.oldProof.balance + l.reward ∧
      5 * (latest.balance - r.oldProof.balance) < 2 ^ 63 ∧
      hashpowerSum r.contributions < 2 ^ 64)
    ⟨fun ⟨hgrown, hwithin, hrewards, hhash⟩ => ⟨hgrown, hwithin, hrewards, hhash⟩,
      fun ⟨hgrown, hwithin, hrewards, hhash⟩ => ⟨hgrown, hwithin, hrewards, hhash⟩⟩

theorem creditsWithin_of_fit {msg : MessageInternalMineSuccess} {r : Submission}
    {latest : Proof} {l : Landing} (hfit : SnapshotsFit r latest l) (hcomputed : msg.Computed)
    (hrewards : msg.rewards = poolRewards latest.balance r.oldProof.balance)
    (hcontributions : msg.contributions = r.contributions) (hpos : 0 < msg.totalHashpower) :
    CreditsWithin msg l.reward := by
  have hfive := hfit.rewards
  rw [poolRewards_eq hfit.grown (by omega)] at hrewards
  have hsum : hashpowerSum msg.contributions < 2 ^ 64 := by
    rw [hcontributions]
    exact hfit.hashpower
  obtain ⟨hnonneg, hle⟩ := hcomputed.credits_within hrewards hfive hsum hpos
  refine ⟨hnonneg, hle.trans ?_⟩
  have hwithin := hfit.within
  rw [hrewards]
  omega

/-! ## Submissions -/

/-- Every message of the submission stays within the reward of its landing. -/
def Submission.Conserves (chain : Chain) (r : Submission) : Prop :=
  ∀ msg ∈ r.messages, 0 < msg.totalHashpower →
    ∀ l ∈ chain.landings, r.confirmed = some l.tx → CreditsWithin msg l.reward

/-- The second snapshot, when the next step of the submission is the report. -/
def Stage.reported : Stage → Option Proof
  | .report latest _ => some latest
  | _ => none

theorem Submission.Moves.conserves {cfg : Config} {sh : Shared} {r r' : Submission}
    {stage : Stage} {next : Option Stage} {eff : Effect}
    (hok : ∀ latest ∈ stage.reported, ∀ l ∈ sh.chain.landings, r.confirmed = some l.tx →
      SnapshotsFit r latest l)
    (hat : r.At stage.phase) (hconserves : r.Conserves sh.chain)
    (h : r.Moves cfg sh stage r' next eff) : r'.Conserves sh.chain := by
  cases h with
  | confirmed i tx hlanded =>
      obtain ⟨-, -, hmessages⟩ := hat
      simp [Submission.Conserves, hmessages]
  | report latest id bestSolution hbest =>
      obtain ⟨-, hmessages, -⟩ := hat
      intro msg hmsg hpos l hl htx
      rw [Submission.report_messages, hmessages, List.mem_singleton] at hmsg
      subst hmsg
      exact creditsWithin_of_fit (hok latest rfl l hl htx) (mineSuccess_computed ..)
        (mineSuccess_rewards ..) (mineSuccess_contributions ..) hpos
  | _ => exact hconserves

theorem PoolSubmissionProcessor.Moves.conserves {cfg : Config} {sh : Shared}
    {p p' : PoolSubmissionProcessor} {eff : Effect} (hinv : p.Delivering cfg sh.chain)
    (hok : ∀ r stage, p.pc = .submit r stage → ∀ latest ∈ stage.reported,
      ∀ l ∈ sh.chain.landings, r.confirmed = some l.tx → SnapshotsFit r latest l)
    (hconserves : ∀ r ∈ p.submissions, r.Conserves sh.chain) (h : p.Moves cfg sh p' eff) :
    ∀ r ∈ p'.submissions, r.Conserves sh.chain := by
  intro x hx
  obtain hold | ⟨oldProof, bestSolution, -, rfl⟩ | ⟨r, stage, next, hpc, hmoves⟩ :=
    h.mem_submissions hx
  · exact hconserves x hold
  · simp [Submission.Conserves, Submission.frozen]
  · exact hmoves.conserves (hok r stage hpc) (hinv.current r stage hpc).2
      (hconserves r (mem_submissions_of_submit hpc))

/-! ## Runs -/

namespace State

variable {cfg : Config} {s t : State} {e : Event}

/-- The submission that is about to be reported, with the second snapshot. -/
def reporting (s : State) : Option (Submission × Proof) :=
  match s.submission.pc with
  | .submit r stage => stage.reported.map fun latest => (r, latest)
  | _ => none

/-- A report is made from snapshots that fit the landing of its transaction. -/
def ReportsWithin (s : State) (_ : Event) : Prop :=
  ∀ x ∈ s.reporting, ∀ l ∈ s.shared.chain.landings, x.1.confirmed = some l.tx →
    SnapshotsFit x.1 x.2 l

instance (s : State) (e : Event) : Decidable (s.ReportsWithin e) :=
  inferInstanceAs (Decidable (∀ x ∈ s.reporting, _))

/-- The invariant: what is known about deliveries, and conservation. -/
structure Conserving (cfg : Config) (s : State) : Prop where
  delivering : s.submission.Delivering cfg s.shared.chain
  conserves : ∀ r ∈ s.submission.submissions, r.Conserves s.shared.chain

/-- A new landing belongs to no confirmed transaction. -/
theorem conserves_apply {r : Submission} {s' : State} {eff : Effect}
    (hsound : r.Sound cfg s.shared.chain) (hconserves : r.Conserves s.shared.chain)
    (h : s.perform cfg e = some (s', eff)) : r.Conserves (s.shared.apply eff).chain := by
  by_cases hscope : eff.scope = .landings
  · cases e with
    | land tx reward challenge time =>
        simp only [perform] at h
        split at h
        · next hland =>
          cases h
          intro msg hmsg hpos l hl htx
          cases hl with
          | head =>
              obtain ⟨tx', htx', -, -, hlanded⟩ := hsound.confirmed (by rw [htx]; rfl)
              cases htx'.symm.trans htx
              exact absurd hlanded hland.2.1
          | tail _ hl => exact hconserves msg hmsg hpos l hl htx
        · cases h
    | claim amount =>
        simp only [perform] at h
        split at h
        · cases h
          exact hconserves
        · cases h
    | _ =>
        have hmem := perform_scope h
        rw [hscope] at hmem
        simp [Event.scopes, submissionScopes] at hmem
  · rw [Submission.Conserves, Shared.apply_landings hscope]
    exact hconserves

theorem step_conserving (hinv : s.Conserving cfg) (hok : s.ReportsWithin e)
    (h : s.step cfg e = some t) : t.Conserving cfg := by
  refine ⟨step_delivering hinv.delivering h, ?_⟩
  obtain ⟨-, s', eff, hperform, rfl⟩ := step_eq_some.mp h
  by_cases hsubmission : ∃ input, e = .submission input
  · obtain ⟨input, rfl⟩ := hsubmission
    obtain ⟨⟨p, eff'⟩, hstep, heq⟩ := Option.map_eq_some_iff.mp hperform
    cases heq
    have hmoves := PoolSubmissionProcessor.step_moves hstep
    intro r hr
    refine conserves_apply ((hmoves.delivering hinv.delivering).sound r hr) ?_ hperform
    refine hmoves.conserves hinv.delivering ?_ hinv.conserves r hr
    intro x stage hpc latest hlatest
    exact hok (x, latest) (by simp only [reporting, hpc]; exact Option.mem_map_of_mem _ hlatest)
  · have hframe := (perform_frame hperform).submission (by simpa using hsubmission)
    intro r hr
    change r ∈ s'.submission.submissions at hr
    rw [hframe] at hr
    exact conserves_apply (hinv.delivering.sound r hr) (hinv.conserves r hr) hperform

/-- In every run whose reports are made from fitting snapshots, the credits of each
message are non-negative and stay within the reward of the transaction that landed. -/
theorem conserves_of_run {proof : Proof} {events : List Event}
    (h : Foundation.run (State.step cfg) (.start proof) events = some s)
    (hmeets : Foundation.Meets (State.step cfg) ReportsWithin (.start proof) events) :
    ∀ r ∈ s.submission.submissions, ∀ msg ∈ r.messages, 0 < msg.totalHashpower →
      r.ConfirmedOn s.shared.chain ∧
      ∀ l ∈ s.shared.chain.landings, r.confirmed = some l.tx → CreditsWithin msg l.reward := by
  have hinv : s.Conserving cfg := Foundation.invariant_of_meets
    (fun _ _ _ hs hok hstep => step_conserving hs hok hstep)
    ⟨delivering_start proof, by simp [start, PoolSubmissionProcessor.start,
      PoolSubmissionProcessor.submissions, SubmissionPc.current]⟩ hmeets h
  intro r hr msg hmsg hpos
  have hsound := hinv.delivering.sound r hr
  exact ⟨hsound.confirmed (hsound.carries msg hmsg).1, hinv.conserves r hr msg hmsg hpos⟩

theorem conserves_of_run_scenario : ∃ s, Foundation.run (State.step Scenario.config)
    (.start Scenario.proof) (Scenario.untilLanded 500 ++ Scenario.report) = some s ∧
    ∀ r ∈ s.submission.submissions, ∀ msg ∈ r.messages, 0 < msg.totalHashpower →
      r.ConfirmedOn s.shared.chain ∧
      ∀ l ∈ s.shared.chain.landings, r.confirmed = some l.tx → CreditsWithin msg l.reward := by
  obtain ⟨s, hrun, -⟩ := Foundation.exists_run (State.step Scenario.config)
    (.start Scenario.proof) (Scenario.untilLanded 500 ++ Scenario.report) (fun _ => True)
    (by decide)
  exact ⟨s, hrun, conserves_of_run hrun (by decide)⟩

/-- While the confirmation is on its way, a claim of 0.005 ORE lands behind a mine
transaction with a reward of 0.001 ORE. -/
def claimBeforeSnapshot : List Event :=
  Scenario.untilLanded 100_000_000 ++ [.claim 500_000_000] ++ Scenario.report

theorem not_conserves : ¬ ∀ cfg proof events s,
    Foundation.run (State.step cfg) (.start proof) events = some s →
    ∀ r ∈ s.submission.submissions, ∀ msg ∈ r.messages, 0 < msg.totalHashpower →
      ∀ l ∈ s.shared.chain.landings, r.confirmed = some l.tx → CreditsWithin msg l.reward := by
  intro h
  obtain ⟨s, hrun, hnot⟩ := Foundation.exists_run (State.step Scenario.config)
    (.start Scenario.proof) claimBeforeSnapshot
    (fun s => ¬ ∀ r ∈ s.submission.submissions, ∀ msg ∈ r.messages, 0 < msg.totalHashpower →
      ∀ l ∈ s.shared.chain.landings, r.confirmed = some l.tx → CreditsWithin msg l.reward)
    (by decide)
  exact hnot (h _ _ _ _ hrun)

end State

end Hashpoo.Mining
