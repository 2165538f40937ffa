import Hashpoo.Mining.System

/-!
# Coming back from a submission

A pass through the submission branch ends in one of two copies of the clean-up, or by
giving up: the landed-tx task that has waited too long for a new challenge ends without
either of them. `Perseveres` excludes that one exit.
-/

namespace Hashpoo.Mining

open Foundation

/-! ## Resets along a submission -/

/-- How often the submission has reset the nonce counter when it stands here. -/
def Stage.nonceResets : Stage → Nat
  | .resetHashes _ | .unpause => 1
  | _ => 0

/-- How often the submission has reset the epoch hashes when it stands here. -/
def Stage.hashResets : Stage → Nat
  | .unpause => 1
  | _ => 0

/-- The counts of the resets that a stage has seen are in the shared state, on top of
those from before the submission. -/
structure Shared.ResetsAt (nonces hashes : Nat) (sh : Shared) (stage : Stage) : Prop where
  nonces : sh.nonces.resets = nonces + stage.nonceResets
  hashes : sh.hashes.resets = hashes + stage.hashResets

/-- The epoch hashes hold no solution and no contribution. -/
structure Shared.HashesCleared (sh : Shared) : Prop where
  solution : sh.epochHashes.bestHash.solution = none
  difficulty : sh.epochHashes.bestHash.difficulty = 0
  contributions : sh.epochHashes.contributions = ∅

/-- A step that counts as a reset leaves the counter at 0, or clears the epoch hashes, and
any other one takes a block or records a contribution at most. -/
structure Shared.Counts (sh sh' : Shared) : Prop where
  nonces : sh'.nonces.resets = sh.nonces.resets + 1 ∧ sh'.nonces.appNonce = 0 ∨
    sh'.nonces.resets = sh.nonces.resets ∧
      (sh'.nonces.appNonce = sh.nonces.appNonce ∨ sh'.nonces.appNonce = sh.nonces.nextRange.stop)
  hashes : sh'.hashes.resets = sh.hashes.resets + 1 ∧ sh'.HashesCleared ∨
    sh'.hashes.resets = sh.hashes.resets ∧ (sh'.epochHashes = sh.epochHashes ∨
      ∃ pubkey c solution, sh'.epochHashes = sh.epochHashes.record pubkey c solution)

theorem Shared.apply_counts (sh : Shared) (eff : Effect) : sh.Counts (sh.apply eff) where
  nonces := by
    cases eff with
    | resetNonce => exact .inl ⟨rfl, rfl⟩
    | takeNonce owner => exact .inr ⟨rfl, .inr rfl⟩
    | _ => exact .inr ⟨rfl, .inl rfl⟩
  hashes := by
    cases eff with
    | resetHashes challenge => exact .inl ⟨rfl, rfl, rfl, rfl⟩
    | record pubkey c solution => exact .inr ⟨rfl, .inr ⟨pubkey, c, solution, rfl⟩⟩
    | _ => exact .inr ⟨rfl, .inl rfl⟩

/-- What the clean-up leaves behind. -/
structure Shared.CleanedUp (nonces hashes : Nat) (sh : Shared) : Prop where
  paused : sh.paused = false
  nonces : sh.nonces.resets = nonces + 1
  hashes : sh.hashes.resets = hashes + 1

namespace Submission

variable {cfg : Config} {sh : Shared} {r r' : Submission} {stage : Stage} {next : Option Stage}
  {eff : Effect} {nonces hashes : Nat}

/-- The landed-tx task is about to give up: the challenge is still the old one at the last
check. -/
def GivesUp (sh : Shared) (r : Submission) : Stage → Prop
  | .poll numChecking => r.oldProof.challenge = sh.appProof.challenge ∧
      checkLimit ≤ numChecking + 1
  | _ => False

instance (sh : Shared) (r : Submission) (stage : Stage) : Decidable (r.GivesUp sh stage) :=
  match stage with
  | .poll _ => inferInstanceAs (Decidable (_ ∧ _))
  | .pause | .attempt _ | .storeLoaded _ | .send _ | .confirm _ _ => .isFalse id
  | .fetch _ | .storeFetched _ | .readLatest | .database _ | .report _ _ => .isFalse id
  | .refresh | .storeRefreshed _ | .resetNonce _ | .resetHashes _ | .unpause => .isFalse id

theorem nextAttempt_resets (i : Nat) :
    (nextAttempt i).nonceResets = 0 ∧ (nextAttempt i).hashResets = 0 := by
  rw [nextAttempt]
  split <;> exact ⟨rfl, rfl⟩

/-- A submission that goes on keeps the counts. -/
theorem Moves.resetsAt {stage' : Stage} (h : r.Moves cfg sh stage r' (some stage') eff)
    (hresets : sh.ResetsAt nonces hashes stage) :
    (sh.apply eff).ResetsAt nonces hashes stage' := by
  obtain ⟨hnonces, hhashes⟩ := hresets
  cases h with
  | noSolution i | notSent i | failed i =>
      obtain ⟨hn, hh⟩ := nextAttempt_resets i
      exact ⟨by rw [hn]; exact hnonces, by rw [hh]; exact hhashes⟩
  | resetNonce latest => exact ⟨congrArg (· + 1) hnonces, hhashes⟩
  | resetHashes latest => exact ⟨hnonces, congrArg (· + 1) hhashes⟩
  | _ => exact ⟨hnonces, hhashes⟩

theorem Moves.not_givesUp {stage' : Stage} (h : r.Moves cfg sh stage r' (some stage') eff) :
    ¬ r.GivesUp sh stage := by
  cases h with
  | unchanged numChecking hsame hlimit =>
      exact fun hgives => absurd hgives.2 (Nat.not_le.mpr hlimit)
  | changed numChecking hchanged => exact fun hgives => hchanged hgives.1
  | _ => exact id

/-- A submission that ends has cleaned up, unless it has given up. -/
theorem Moves.ended (h : r.Moves cfg sh stage r' none eff)
    (hresets : sh.ResetsAt nonces hashes stage) :
    (sh.apply eff).CleanedUp nonces hashes ↔ ¬ r.GivesUp sh stage := by
  obtain ⟨hnonces, hhashes⟩ := hresets
  cases h with
  | gaveUp numChecking hsame hlimit =>
      constructor
      · intro hclean
        have hcount := hnonces.symm.trans hclean.nonces
        simp [Stage.nonceResets] at hcount
      · intro hnot
        exact absurd ⟨hsame, hlimit⟩ hnot
  | unpause => exact ⟨fun _ => id, fun _ => ⟨rfl, hnonces, hhashes⟩⟩

end Submission

/-! ## Passes through the submission branch -/

/-- The submission in progress and its stage. -/
def SubmissionPc.staged : SubmissionPc → Option (Submission × Stage)
  | .submit r stage => some (r, stage)
  | _ => none

namespace State

variable {cfg : Config} {s s' t : State} {e : Event} {eff : Effect} {nonces hashes : Nat}

/-- The step does not end a submission by giving up. -/
def Perseveres (s : State) (e : Event) : Prop :=
  e.isSubmission → ∀ x ∈ s.submission.pc.staged, ¬ x.1.GivesUp s.shared x.2

instance (s : State) (e : Event) : Decidable (s.Perseveres e) :=
  inferInstanceAs (Decidable (_ → ∀ x ∈ s.submission.pc.staged, _))

/-- The processor is not in its outer loop. -/
def Submitting (s : State) : Prop := s.submission.pc.staged.isSome

instance (s : State) : Decidable s.Submitting := inferInstanceAs (Decidable (_ = true))

/-- Every step of the run counts its resets, and every counted reset is one. -/
def ResetsCounted (cfg : Config) (s : State) (events : List Event) : Prop :=
  Meets (State.step cfg) (fun u e => ∀ v, u.step cfg e = some v → u.shared.Counts v.shared)
    s events

theorem resetsCounted (cfg : Config) (s : State) (events : List Event) :
    s.ResetsCounted cfg events := by
  refine (meets_true events).mono fun u e _ v hstep => ?_
  obtain ⟨-, s', eff, -, rfl⟩ := step_eq_some.mp hstep
  exact u.shared.apply_counts eff

/-- `PAUSED` is false, and on the way from `s` the nonce counter has been reset to 0 and the
epoch hashes have been cleared exactly once. -/
structure Restored (cfg : Config) (s : State) (events : List Event) (t : State) : Prop where
  cleanedUp : t.shared.CleanedUp s.shared.nonces.resets s.shared.hashes.resets
  counted : s.ResetsCounted cfg events

/-- The other tasks reset nothing. -/
theorem perform_resets (hothers : ∀ input, e ≠ .submission input)
    (h : s.perform cfg e = some (s', eff)) {stage : Stage}
    (hresets : s.shared.ResetsAt nonces hashes stage) :
    (s.shared.apply eff).ResetsAt nonces hashes stage := by
  constructor
  · by_cases hscope : eff.scope = .nonces
    · obtain ⟨⟨input, rfl⟩, -⟩ | ⟨input, owner, -, rfl⟩ := perform_nonces h hscope
      · exact absurd rfl (hothers input)
      · exact hresets.nonces
    · rw [Shared.apply_nonces hscope]
      exact hresets.nonces
  · by_cases hscope : eff.scope = .hashes
    · obtain ⟨⟨input, rfl⟩, -⟩ | ⟨-, m, nonceRange, minerId, -, rfl⟩ := perform_hashes h hscope
      · exact absurd rfl (hothers input)
      · exact hresets.hashes
    · rw [Shared.apply_hashes hscope]
      exact hresets.hashes

/-- A step of the system during a submission: either it goes on with the counts of its
stage, or it ends, cleaned up exactly if it did not give up. -/
theorem step_submitting {r : Submission} {stage : Stage} (hpc : s.submission.pc = .submit r stage)
    (hresets : s.shared.ResetsAt nonces hashes stage) (h : s.step cfg e = some t) :
    (s.Perseveres e ∧ ∃ r' stage', t.submission.pc = .submit r' stage' ∧
      t.shared.ResetsAt nonces hashes stage') ∨
    (¬ t.Submitting ∧ (t.shared.CleanedUp nonces hashes ↔ s.Perseveres e)) := by
  have hperseveres : (∀ input, e = .submission input → ¬ r.GivesUp s.shared stage) →
      s.Perseveres e := by
    intro hnot hsubmission x hx
    rw [hpc] at hx
    cases hx
    cases e with
    | submission input => exact hnot input rfl
    | _ => cases hsubmission
  obtain ⟨-, s', eff, hperform, rfl⟩ := step_eq_some.mp h
  obtain ⟨hothers, hsame⟩ | ⟨input, rfl, hmoves⟩ := perform_submission hperform
  · refine .inl ⟨hperseveres fun input hinput => absurd hinput (hothers input), r, stage, ?_, ?_⟩
    · change s'.submission.pc = _
      rw [hsame, hpc]
    · exact perform_resets hothers hperform hresets
  · obtain ⟨r', next, hmove, hp⟩ := hmoves.of_submit hpc
    cases next with
    | some stage' =>
        refine .inl ⟨hperseveres fun _ _ => hmove.not_givesUp, r', stage', ?_,
          hmove.resetsAt hresets⟩
        change s'.submission.pc = _
        rw [hp]
        rfl
    | none =>
        right
        constructor
        · change ¬ s'.submission.pc.staged.isSome
          rw [hp]
          exact Bool.false_ne_true
        · rw [hmove.ended hresets]
          constructor
          · intro hnot
            exact hperseveres fun _ _ => hnot
          · intro hstep
            exact hstep rfl (r, stage) (by rw [hpc]; rfl)

/-- The run to the first return: cleaned up exactly if no step gave up. -/
theorem cleanedUp_iff {events : List Event} {r : Submission} {stage : Stage}
    (hpc : s.submission.pc = .submit r stage) (hresets : s.shared.ResetsAt nonces hashes stage)
    (h : run (State.step cfg) s events = some t)
    (hwithin : Meets (State.step cfg) (fun s _ => s.Submitting) s events)
    (hback : ¬ t.Submitting) :
    t.shared.CleanedUp nonces hashes ↔ Meets (State.step cfg) Perseveres s events := by
  induction events generalizing s r stage with
  | nil =>
      cases h
      exact absurd (by rw [Submitting, hpc]; rfl) hback
  | cons e events ih =>
      obtain ⟨u, hu, hrest⟩ := run_cons_eq_some.mp h
      have hlater := hwithin.tail hu
      rw [meets_cons hu]
      obtain ⟨hstep, r', stage', hpc', hresets'⟩ | ⟨hended, hiff⟩ :=
        step_submitting hpc hresets hu
      · rw [ih hpc' hresets' hrest hlater]
        exact ⟨fun hmeets => ⟨hstep, hmeets⟩, And.right⟩
      · -- The first return is the end of the run.
        cases events with
        | nil =>
            cases hrest
            rw [hiff]
            exact ⟨fun hstep => ⟨hstep, trivial⟩, And.left⟩
        | cons e' events => exact absurd hlater.head hended

/-- A pass that has set `PAUSED` leaves everything restored at its first return to the
outer loop if and only if it has not given up. -/
theorem restored_iff {events : List Event} {r : Submission}
    (hstart : s.submission.pc = .submit r .pause) (h : run (State.step cfg) s events = some t)
    (hwithin : Meets (State.step cfg) (fun s _ => s.Submitting) s events)
    (hback : ¬ t.Submitting) :
    s.Restored cfg events t ↔ Meets (State.step cfg) Perseveres s events := by
  have hclean := cleanedUp_iff hstart ⟨rfl, rfl⟩ h hwithin hback
  exact ⟨fun hrestored => hclean.mp hrestored.cleanedUp,
    fun hmeets => ⟨hclean.mpr hmeets, resetsCounted cfg s events⟩⟩

/-- The events up to the point where `PAUSED` is about to be set. -/
def untilPause : List Event :=
  Scenario.join 0 (.fill 32 1) 1 ++ Scenario.batch [0] ++
    Scenario.submit 0 Scenario.solution (.fill 32 1) ++ Scenario.send.take 6

/-- From there a submission that lands, is reported and cleaned up. -/
def landedPass : List Event :=
  Scenario.send.drop 6 ++ Scenario.land 500 ++ Scenario.report ++
    List.replicate 3 (.submission .proceed)

theorem exists_of_staged {s : State} (h : s.submission.pc.staged.map Prod.snd = some .pause) :
    ∃ r, s.submission.pc = .submit r .pause := by
  cases hpc : s.submission.pc with
  | submit r stage =>
      rw [hpc] at h
      cases h
      exact ⟨r, rfl⟩
  | _ =>
      rw [hpc] at h
      cases h

theorem restored_landedPass : ∃ s t, run (State.step Scenario.config) (.start Scenario.proof)
    untilPause = some s ∧ run (State.step Scenario.config) s landedPass = some t ∧
    s.Restored Scenario.config landedPass t := by
  obtain ⟨s, hrun, hstart, hwithin, hmeets, hend⟩ := exists_run (State.step Scenario.config)
    (.start Scenario.proof) untilPause
    (fun s => s.submission.pc.staged.map Prod.snd = some .pause ∧
      Meets (State.step Scenario.config) (fun s _ => s.Submitting) s landedPass ∧
      Meets (State.step Scenario.config) Perseveres s landedPass ∧
      ((run (State.step Scenario.config) s landedPass).any fun t : State =>
        decide (¬ t.Submitting)) = true)
    (by decide)
  obtain ⟨r, hpc⟩ := exists_of_staged hstart
  obtain ⟨t, ht, hback⟩ := exists_run _ _ _ (fun t : State => ¬ t.Submitting) hend
  exact ⟨s, t, hrun, ht, (restored_iff hpc ht hwithin hback).mpr hmeets⟩

/-- From there a submission that lands, while no proof with a new challenge reaches the
server until the last check. -/
def unnoticedPass : List Event :=
  Scenario.send.drop 6 ++ Scenario.land 500 ++ [.submission (.outcome .ok)] ++
    (List.replicate 29 [.submission .proceed, .submission (.rpcProof none)]).flatten ++
    [.submission .proceed]

theorem not_restored : ¬ ∀ cfg proof before events s r t,
    run (State.step cfg) (.start proof) before = some s → s.submission.pc = .submit r .pause →
    run (State.step cfg) s events = some t →
    Meets (State.step cfg) (fun s _ => s.Submitting) s events → ¬ t.Submitting →
    s.Restored cfg events t := by
  intro h
  obtain ⟨s, hrun, hstart, hwithin, hend⟩ := exists_run (State.step Scenario.config)
    (.start Scenario.proof) untilPause
    (fun s => s.submission.pc.staged.map Prod.snd = some .pause ∧
      Meets (State.step Scenario.config) (fun s _ => s.Submitting) s unnoticedPass ∧
      ((run (State.step Scenario.config) s unnoticedPass).any fun t : State =>
        decide (t.shared.paused = true ∧ ¬ t.Submitting)) = true)
    (by decide +kernel)
  obtain ⟨r, hpc⟩ := exists_of_staged hstart
  obtain ⟨t, ht, hpaused, hback⟩ := exists_run _ _ _
    (fun t : State => t.shared.paused = true ∧ ¬ t.Submitting) hend
  have hrestored := h _ _ _ _ _ _ _ hrun hpc ht hwithin hback
  exact absurd hrestored.cleanedUp.paused (by rw [hpaused]; decide)

end State

end Hashpoo.Mining
