import Hashpoo.Mining.System
import Hashpoo.Server.EpochHashes

/-!
# Contributions that are valid for their challenge

An entry does not say for which challenge it was checked. Between two resets the entries
stay valid for the challenge of the shared proof if that challenge does not change under
them. It may change, once a submission has frozen its copy and is bound to reset the
epoch: whatever is recorded from then on is thrown away.
-/

namespace Hashpoo.Mining

open Foundation

/-- Every entry holds a solution of the challenge. -/
def AllValid (drillx : Drillx) (contributions : Contributions) (challenge : Challenge) : Prop :=
  ∀ pubkey c, contributions.lookup pubkey = some c → drillx.isValid c.solution challenge

theorem allValid_of_nil {contributions : Contributions} (h : contributions.entries = [])
    (drillx : Drillx) (challenge : Challenge) : AllValid drillx contributions challenge := by
  intro pubkey c hc
  have hmem := AList.mem_lookup_iff.mp (Option.mem_def.mpr hc)
  rw [h] at hmem
  cases hmem

theorem allValid_empty (drillx : Drillx) (challenge : Challenge) :
    AllValid drillx ∅ challenge := allValid_of_nil rfl drillx challenge

theorem AllValid.insert {drillx : Drillx} {contributions : Contributions} {challenge : Challenge}
    (h : AllValid drillx contributions challenge) (pubkey : Pubkey)
    {c : InternalMessageContribution} (hc : drillx.isValid c.solution challenge) :
    AllValid drillx (contributions.insert pubkey c) challenge := by
  intro pubkey' c' hc'
  obtain ⟨-, rfl⟩ | ⟨-, hold⟩ := HashMap.lookup_insert_eq_some.mp hc'
  · exact hc
  · exact h pubkey' c' hold

/-! ## Submissions that reset the epoch -/

/-- The submission will reset the epoch hashes, when `challenge` is the one of the shared
proof. Up to the polling it may still give up, but only on the challenge it started with. -/
def Stage.resetBound (oldChallenge challenge : Challenge) : Stage → Bool
  | .pause | .attempt _ | .send _ | .confirm _ _ | .poll _ | .fetch _ => challenge ≠ oldChallenge
  | .storeLoaded _ | .storeFetched _ | .readLatest | .database _ | .report _ _ => true
  | .refresh | .storeRefreshed _ | .resetNonce _ | .resetHashes _ => true
  | .unpause => false

def SubmissionPc.resetBound (challenge : Challenge) : SubmissionPc → Bool
  | .submit r stage => stage.resetBound r.oldProof.challenge challenge
  | _ => false

theorem SubmissionPc.resetBound_of_current_none {pc : SubmissionPc} (h : pc.current = none)
    (challenge : Challenge) : pc.resetBound challenge = false := by
  cases pc with
  | submit r stage => cases h
  | _ => rfl

namespace Submission

variable {cfg : Config} {sh : Shared} {r r' : Submission} {stage : Stage} {next : Option Stage}
  {eff : Effect}

/-- Messages are made of the frozen contributions and carry the old challenge. -/
def Reports (r : Submission) : Prop :=
  ∀ msg ∈ r.messages, msg.challenge = r.oldProof.challenge ∧ msg.contributions = r.contributions

theorem Moves.reports (h : r.Moves cfg sh stage r' next eff) (hreports : r.Reports) :
    r'.Reports := by
  cases h with
  | report latest id bestSolution hbest =>
      intro msg hmsg
      cases hmsg with
      | head => exact ⟨rfl, rfl⟩
      | tail _ hmsg => exact hreports msg hmsg
  | _ => exact hreports

theorem resetBound_nextAttempt {oldChallenge challenge : Challenge} (h : challenge ≠ oldChallenge)
    (i : Nat) : (nextAttempt i).resetBound oldChallenge challenge := by
  rw [nextAttempt]
  split
  · simpa [Stage.resetBound] using h
  · rfl

/-- A reset that is due stays due until it happens. -/
theorem Moves.resetBound (h : r.Moves cfg sh stage r' next eff)
    (hbound : stage.resetBound r.oldProof.challenge sh.appProof.challenge) :
    (∃ challenge, eff = .resetHashes challenge) ∨
      ∃ stage', next = some stage' ∧
        stage'.resetBound r'.oldProof.challenge (sh.apply eff).appProof.challenge := by
  cases h with
  | resetHashes latest => exact .inl ⟨_, rfl⟩
  | unpause => cases hbound
  | gaveUp numChecking hsame =>
      have hchanged : sh.appProof.challenge ≠ r.oldProof.challenge := of_decide_eq_true hbound
      exact absurd hsame.symm hchanged
  | noSolution i | notSent i | failed i =>
      exact .inr ⟨_, rfl, resetBound_nextAttempt (of_decide_eq_true hbound) i⟩
  | storeLoaded | hashInvalid | changed | fetchChanged | storeFetched | readLatest | database =>
      exact .inr ⟨_, rfl, rfl⟩
  | report | refreshFailed | refreshed | storeRefreshed | resetNonce =>
      exact .inr ⟨_, rfl, rfl⟩
  | invalid => exact .inr ⟨_, rfl, rfl⟩
  | pause | unchecked | valid | send | confirmed | unchanged | fetchFailed | fetchUnchanged =>
      exact .inr ⟨_, rfl, hbound⟩

/-- The submission writes the proof or the epoch only when it is bound to reset the epoch. -/
theorem Moves.resetBound_of_scope (h : r.Moves cfg sh stage r' next eff)
    (hscope : eff.scope = .proof ∨ eff.scope = .hashes) :
    stage.resetBound r.oldProof.challenge sh.appProof.challenge := by
  cases h <;> first | rfl | simp [Effect.scope] at hscope

/-- The entries stay valid or bound to be removed. -/
theorem Moves.entries (h : r.Moves cfg sh stage r' next eff)
    (hentries : stage.resetBound r.oldProof.challenge sh.appProof.challenge ∨
      AllValid cfg.drillx sh.epochHashes.contributions sh.appProof.challenge) :
    (∃ stage', next = some stage' ∧
      stage'.resetBound r'.oldProof.challenge (sh.apply eff).appProof.challenge) ∨
    AllValid cfg.drillx (sh.apply eff).epochHashes.contributions
      (sh.apply eff).appProof.challenge := by
  by_cases hbound : stage.resetBound r.oldProof.challenge sh.appProof.challenge
  · obtain ⟨challenge, rfl⟩ | hnext := h.resetBound hbound
    · rw [Shared.apply_resetHashes_contributions]
      exact .inr (allValid_empty _ _)
    · exact .inl hnext
  · have hproof : eff.scope ≠ .proof := fun hscope => hbound (h.resetBound_of_scope (.inl hscope))
    have hhashes : eff.scope ≠ .hashes := fun hscope => hbound (h.resetBound_of_scope (.inr hscope))
    rw [Shared.apply_appProof hproof, Shared.apply_epochHashes hhashes]
    exact .inr (hentries.resolve_left hbound)

end Submission

/-! ## Runs -/

namespace State

variable {cfg : Config} {s s' t : State} {e : Event} {eff : Effect}

/-- The entries in the epoch need not be valid for the challenge: a submission is bound
to remove them. -/
def resetBound (s : State) (challenge : Challenge) : Bool :=
  s.submission.pc.resetBound challenge

/-- The challenge the submission has started with, when the next step is the freeze. -/
def freezingFor (s : State) : Option Challenge :=
  match s.submission.pc with
  | .freeze oldProof _ => some oldProof.challenge
  | _ => none

/-- The challenge does not change under entries that stay: a submission is recorded while
it is valid for the shared proof, a notification brings a new challenge and a freeze uses
an old one only when there are no entries. Both exceptions are for entries that will be
removed. -/
def KeepsChallenge (cfg : Config) (s : State) (e : Event) : Prop :=
  match e with
  | .contribution => ∀ x ∈ s.contributions.writing,
      s.resetBound s.shared.appProof.challenge ∨
        cfg.drillx.isValid x.1.solution s.shared.appProof.challenge
  | .tracking _ => ∀ newProof ∈ s.tracked,
      s.resetBound newProof.challenge ∨ s.shared.epochHashes.contributions.entries = [] ∨
        newProof.challenge = s.shared.appProof.challenge
  | .submission _ => ∀ oldChallenge ∈ s.freezingFor,
      s.shared.epochHashes.contributions.entries = [] ∨
        oldChallenge = s.shared.appProof.challenge
  | _ => True

instance (s : State) (e : Event) : Decidable (s.KeepsChallenge cfg e) :=
  match e with
  | .contribution => inferInstanceAs (Decidable (∀ x ∈ s.contributions.writing, _))
  | .tracking _ => inferInstanceAs (Decidable (∀ newProof ∈ s.tracked, _))
  | .submission _ => inferInstanceAs (Decidable (∀ oldChallenge ∈ s.freezingFor, _))
  | .ready _ | .mission _ | .message | .ping _ | .pong => .isTrue trivial
  | .connect _ _ _ | .receive _ _ | .streamEnded _ | .disconnect _ => .isTrue trivial
  | .land _ _ _ _ | .claim _ | .tick _ => .isTrue trivial

/-- The entries of the epoch are valid or will be removed, and frozen ones are valid. -/
structure Valid (cfg : Config) (s : State) : Prop where
  entries : s.resetBound s.shared.appProof.challenge ∨
    AllValid cfg.drillx s.shared.epochHashes.contributions s.shared.appProof.challenge
  frozen : ∀ r ∈ s.submission.submissions,
    AllValid cfg.drillx r.contributions r.oldProof.challenge
  reports : ∀ r ∈ s.submission.submissions, r.Reports

theorem valid_start (cfg : Config) (proof : Proof) : (State.start proof).Valid cfg where
  entries := .inr (allValid_empty _ _)
  frozen r hr := by simp [start, PoolSubmissionProcessor.start,
    PoolSubmissionProcessor.submissions, SubmissionPc.current] at hr
  reports r hr := by simp [start, PoolSubmissionProcessor.start,
    PoolSubmissionProcessor.submissions, SubmissionPc.current] at hr

/-- In the outer loop nothing will remove the entries. -/
theorem Valid.of_outer (h : s.Valid cfg) (houter : s.submission.pc.current = none) :
    AllValid cfg.drillx s.shared.epochHashes.contributions s.shared.appProof.challenge := by
  obtain hbound | hvalid := h.entries
  · rw [resetBound, SubmissionPc.resetBound_of_current_none houter] at hbound
    cases hbound
  · exact hvalid

/-- The steps of the submission keep the entries valid or on their way out. -/
theorem entries_of_moves {p' : PoolSubmissionProcessor} (hinv : s.Valid cfg)
    (h : s.submission.Moves cfg s.shared p' eff) :
    p'.pc.resetBound (s.shared.apply eff).appProof.challenge ∨
      AllValid cfg.drillx (s.shared.apply eff).epochHashes.contributions
        (s.shared.apply eff).appProof.challenge := by
  cases h with
  | outer pc numWaiting hbefore => exact .inr (hinv.of_outer hbefore)
  | freeze oldProof bestSolution hpc => exact .inr (hinv.of_outer (by rw [hpc]; rfl))
  | submit r r' stage next _ hpc hmoves =>
      have hentries := hinv.entries
      rw [resetBound, hpc] at hentries
      obtain ⟨stage', rfl, hbound⟩ | hvalid := hmoves.entries hentries
      · exact .inl hbound
      · exact .inr hvalid

/-- So do the other tasks, if they keep the challenge. -/
theorem entries_of_others (hinv : s.Valid cfg) (hok : s.KeepsChallenge cfg e)
    (hothers : ∀ input, e ≠ .submission input) (h : s.perform cfg e = some (s', eff)) :
    s.resetBound (s.shared.apply eff).appProof.challenge ∨
      AllValid cfg.drillx (s.shared.apply eff).epochHashes.contributions
        (s.shared.apply eff).appProof.challenge := by
  by_cases hproof : eff.scope = .proof
  · obtain ⟨input, rfl⟩ | ⟨newProof, rfl, hpc, rfl⟩ := perform_proof h hproof
    · exact absurd rfl (hothers input)
    · obtain hbound | hempty | hsame := hok newProof (by rw [tracked, hpc]; rfl)
      · exact .inl hbound
      · exact .inr (allValid_of_nil hempty _ _)
      · have hentries := hinv.entries
        rw [← hsame] at hentries
        exact hentries
  · rw [Shared.apply_appProof hproof]
    by_cases hhashes : eff.scope = .hashes
    · obtain ⟨-, challenge, rfl⟩ | ⟨rfl, m, nonceRange, minerId, hpc, rfl⟩ :=
        perform_hashes h hhashes
      · rw [Shared.apply_resetHashes_contributions]
        exact .inr (allValid_empty _ _)
      · obtain hbound | hvalid := hok (m, nonceRange) (by rw [hpc]; rfl)
        · exact .inl hbound
        · obtain hbound | hentries := hinv.entries
          · exact .inl hbound
          · rw [Shared.apply_record_contributions]
            exact .inr (hentries.insert _ (by simpa using hvalid))
    · rw [Shared.apply_epochHashes hhashes]
      exact hinv.entries

/-- What is frozen is valid for the challenge it is frozen for. -/
theorem frozen_of_moves {p' : PoolSubmissionProcessor} {input : SubmissionInput}
    (hinv : s.Valid cfg) (hok : s.KeepsChallenge cfg (.submission input))
    (h : s.submission.Moves cfg s.shared p' eff) {x : Submission} (hx : x ∈ p'.submissions) :
    AllValid cfg.drillx x.contributions x.oldProof.challenge ∧ x.Reports := by
  obtain hold | ⟨oldProof, bestSolution, hpc, rfl⟩ | ⟨r, stage, next, hpc, hmoves⟩ :=
    h.mem_submissions hx
  · exact ⟨hinv.frozen x hold, hinv.reports x hold⟩
  · refine ⟨?_, by simp [Submission.Reports, Submission.frozen]⟩
    change AllValid cfg.drillx s.shared.epochHashes.contributions oldProof.challenge
    obtain hempty | hsame := hok oldProof.challenge (by rw [freezingFor, hpc]; rfl)
    · exact allValid_of_nil hempty _ _
    · rw [hsame]
      exact hinv.of_outer (by rw [hpc]; rfl)
  · have hr := PoolSubmissionProcessor.mem_submissions_of_submit hpc
    obtain ⟨hproof, -, hcontributions⟩ := hmoves.frozen_eq
    refine ⟨?_, hmoves.reports (hinv.reports r hr)⟩
    rw [hproof, hcontributions]
    exact hinv.frozen r hr

theorem step_valid (hinv : s.Valid cfg) (hok : s.KeepsChallenge cfg e)
    (h : s.step cfg e = some t) : t.Valid cfg := by
  obtain ⟨-, s', eff, hperform, rfl⟩ := step_eq_some.mp h
  obtain ⟨hothers, hsame⟩ | ⟨input, rfl, hmoves⟩ := perform_submission hperform
  · have hentries := entries_of_others hinv hok hothers hperform
    rw [resetBound, ← hsame] at hentries
    refine ⟨hentries, ?_, ?_⟩
    · change ∀ r ∈ s'.submission.submissions, _
      rw [hsame]
      exact hinv.frozen
    · change ∀ r ∈ s'.submission.submissions, _
      rw [hsame]
      exact hinv.reports
  · exact ⟨entries_of_moves hinv hmoves, fun r hr => (frozen_of_moves hinv hok hmoves hr).1,
      fun r hr => (frozen_of_moves hinv hok hmoves hr).2⟩

/-- In every run that keeps the challenge, the contributions of every message are valid
for its challenge. -/
theorem validContributions_of_run {proof : Proof} {events : List Event}
    (h : run (State.step cfg) (.start proof) events = some s)
    (hmeets : Meets (State.step cfg) (KeepsChallenge cfg) (.start proof) events) :
    ∀ r ∈ s.submission.submissions, ∀ msg ∈ r.messages, ∀ pubkey c,
      msg.contributions.lookup pubkey = some c →
      cfg.drillx.isValid c.solution msg.challenge := by
  have hinv : s.Valid cfg := invariant_of_meets (fun _ _ _ hs hok hstep => step_valid hs hok hstep)
    (valid_start cfg proof) hmeets h
  intro r hr msg hmsg pubkey c hc
  obtain ⟨hchallenge, hcontributions⟩ := hinv.reports r hr msg hmsg
  rw [hcontributions] at hc
  rw [hchallenge]
  exact hinv.frozen r hr pubkey c hc

theorem validContributions_of_run_scenario : ∃ s, run (State.step Scenario.config)
    (.start Scenario.proof) (Scenario.untilLanded 500 ++ Scenario.report) = some s ∧
    (s.submission.submissions.flatMap (·.messages)).length = 1 ∧
    ∀ r ∈ s.submission.submissions, ∀ msg ∈ r.messages, ∀ pubkey c,
      msg.contributions.lookup pubkey = some c →
      Scenario.config.drillx.isValid c.solution msg.challenge := by
  obtain ⟨s, hrun, hsent⟩ := exists_run (State.step Scenario.config) (.start Scenario.proof)
    (Scenario.untilLanded 500 ++ Scenario.report)
    (fun s => (s.submission.submissions.flatMap (·.messages)).length = 1) (by decide)
  exact ⟨s, hrun, hsent, validContributions_of_run hrun (by decide)⟩

/-- A solution is valid for the challenges that start with its first nonce byte, and as
difficult as its nonce bytes add up to. -/
def firstByteConfig : Config :=
  { Scenario.config with
    drillx :=
      { difficulty := fun solution => (solution.n.val.map UInt8.toNat).sum
        isValid := fun solution challenge => solution.n.val.head? = challenge.val.head? } }

def nonceBytes (first second : UInt8) : Solution :=
  ⟨.fill 16 0, ⟨[first, second, 0, 0, 0, 0, 0, 0], rfl⟩⟩

/-- A second solution of the client for the challenge `7, 7, …` passes every check. Before
it is written, the first one lands and the epoch is reset. Then another client's solution
for the challenge `8, 8, …` lands. -/
def writtenAfterReset : List Event :=
  Scenario.join 0 (.fill 32 1) 1 ++ Scenario.batch [0] ++
    Scenario.submit 0 (nonceBytes 7 1) (.fill 32 1) ++
    (Scenario.submit 0 (nonceBytes 7 2) (.fill 32 1)).dropLast ++
    Scenario.send ++ [.land ⟨0, 0, nonceBytes 7 1⟩ 500 (.fill 32 8) 100] ++ Scenario.report ++
    List.replicate 3 (.submission .proceed) ++ [.contribution] ++
    Scenario.join 1 (.fill 32 2) 2 ++ Scenario.batch [1] ++
    Scenario.submit 1 (nonceBytes 8 2) (.fill 32 2) ++
    [.submission .proceed, .submission (.clock 200)] ++ Scenario.send.drop 2 ++
    [.land ⟨1, 0, nonceBytes 8 2⟩ 500 (.fill 32 9) 200] ++ Scenario.report

theorem not_validContributions : ¬ ∀ cfg proof events s,
    run (State.step cfg) (.start proof) events = some s →
    ∀ r ∈ s.submission.submissions, ∀ msg ∈ r.messages, ∀ pubkey c,
      msg.contributions.lookup pubkey = some c →
      cfg.drillx.isValid c.solution msg.challenge := by
  intro h
  obtain ⟨s, hrun, r, hr, msg, hmsg, c, hc, hinvalid⟩ := exists_run (State.step firstByteConfig)
    (.start Scenario.proof) writtenAfterReset
    (fun s => ∃ r ∈ s.submission.submissions, ∃ msg ∈ r.messages,
      ∃ c ∈ msg.contributions.values, ¬ firstByteConfig.drillx.isValid c.solution msg.challenge)
    (by decide +kernel)
  obtain ⟨pubkey, hlookup⟩ := HashMap.mem_values.mp hc
  exact hinvalid (h _ _ _ _ hrun r hr msg hmsg pubkey c hlookup)

end State

end Hashpoo.Mining
