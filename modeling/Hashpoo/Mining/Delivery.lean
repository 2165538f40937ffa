import Hashpoo.Mining.Cleanup
import Mathlib.Data.List.Range

/-!
# Which submissions lead to a mine-success message

A submission passes through four phases: it tries to land, its landed-tx task waits for
a new challenge, has seen one, or the submission is closing. `At` says what is known in
each of them. The environment enters through one fact only, that a landing is never
taken back, so the argument covers every pattern of network answers and every
interleaving with the other tasks.

A landing is lost where the server cleans up without having heard of it: behind an error of
the send, or when the landed-tx task gives up. `Hears` excludes these steps.
-/

namespace Hashpoo.Mining

/-! ## Phases of a submission -/

inductive Phase where
  | trying
  | waiting (numChecking : Nat)
  | seen
  | closing

def Stage.phase : Stage → Phase
  | .pause | .attempt _ | .storeLoaded _ | .send _ | .confirm _ _ => .trying
  | .refresh | .storeRefreshed _ => .trying
  | .poll numChecking | .fetch numChecking => .waiting numChecking
  | .storeFetched _ | .readLatest | .database _ | .report _ _ => .seen
  | .resetNonce _ | .resetHashes _ | .unpause => .closing

namespace Submission

/-- The landed-tx task has seen a challenge other than the submitted one. -/
def Observed (r : Submission) : Prop := ∃ c ∈ r.observed, c ≠ r.oldProof.challenge

instance (r : Submission) : Decidable r.Observed := inferInstanceAs (Decidable (∃ c ∈ _, _))

/-- The message is the one computed from the frozen data of the submission. -/
def Carries (cfg : Config) (r : Submission) (msg : MessageInternalMineSuccess) : Prop :=
  ∃ bestSolution latest id, r.bestSolution = some bestSolution ∧
    msg = mineSuccess cfg.drillx r.oldProof latest bestSolution r.contributions id

/-- Its confirmation was returned for a landed transaction of its own. -/
def ConfirmedOn (r : Submission) (chain : Chain) : Prop :=
  ∃ tx, r.confirmed = some tx ∧ tx.submission = r.number ∧ r.bestSolution = some tx.solution ∧
    chain.Landed tx

/-- What holds of a submission in every phase. -/
structure Sound (cfg : Config) (chain : Chain) (r : Submission) : Prop where
  confirmed : r.confirmed.isSome → r.ConfirmedOn chain
  atMostOne : r.messages.length ≤ 1
  carries : ∀ msg ∈ r.messages, r.confirmed.isSome ∧ r.Carries cfg msg

/-- What holds of a submission that has sent its message or will send none. -/
structure Settled (r : Submission) : Prop where
  delivered : r.messages ≠ [] ↔ r.confirmed.isSome ∧ r.Observed
  gaveUp : r.confirmed.isSome → ¬ r.Observed → checkLimit ≤ r.observed.length

/-- What is known in a phase. -/
def At (r : Submission) : Phase → Prop
  | .trying => r.confirmed = none ∧ r.observed = [] ∧ r.messages = []
  | .waiting numChecking =>
      r.confirmed.isSome ∧ r.messages = [] ∧ ¬ r.Observed ∧ numChecking ≤ r.observed.length
  | .seen => r.confirmed.isSome ∧ r.messages = [] ∧ r.Observed
  | .closing => r.Settled

/-- The transaction under confirmation is the submission's own. -/
def Fits (r : Submission) : Stage → Prop
  | .confirm _ tx => tx.submission = r.number ∧ r.bestSolution = some tx.solution
  | _ => True

variable {cfg : Config} {sh : Shared} {chain : Chain} {r r' : Submission} {stage : Stage}
  {input : SubmissionInput} {next : Option Stage} {eff : Effect} {c : Challenge}

@[simp] theorem observe_messages : (r.observe c).messages = r.messages := rfl

@[simp] theorem observe_observed : (r.observe c).observed = c :: r.observed := rfl

@[simp] theorem report_confirmed (msg : MessageInternalMineSuccess) :
    (r.report msg).confirmed = r.confirmed := rfl

@[simp] theorem report_messages (msg : MessageInternalMineSuccess) :
    (r.report msg).messages = msg :: r.messages := rfl

theorem observed_observe : (r.observe c).Observed ↔ c ≠ r.oldProof.challenge ∨ r.Observed := by
  simp [Observed, observe]

@[simp] theorem observed_report (msg : MessageInternalMineSuccess) :
    (r.report msg).Observed ↔ r.Observed := Iff.rfl

/-- A submission whose landed-tx task never started leads to no message. -/
theorem Settled.of_trying (h : r.At .trying) : r.Settled := by
  obtain ⟨hconfirmed, -, hmessages⟩ := h
  constructor <;> simp [hconfirmed, hmessages]

/-! ## One step -/

/-- What control returns to: the next stage with its phase, or the outer loop. -/
def Continues (r : Submission) : Option Stage → Prop
  | some stage => r.Fits stage ∧ r.At stage.phase
  | none => r.Settled

theorem continues_nextAttempt (hat : r.At .trying) (i : Nat) :
    r.Continues (some (nextAttempt i)) := by
  rw [nextAttempt]
  split <;> exact ⟨trivial, hat⟩

/-- Each move leads from the facts of its phase to those of the next one. -/
theorem Moves.continues (hat : r.At stage.phase) (h : r.Moves cfg sh stage r' next eff) :
    r'.Continues next := by
  cases h with
  | pause | unchecked | valid | invalid | storeLoaded | hashInvalid => exact ⟨trivial, hat⟩
  | noSolution i | notSent i | failed i => exact continues_nextAttempt hat i
  | send i bestSolution hbest => exact ⟨⟨rfl, hbest⟩, hat⟩
  | confirmed i tx hlanded =>
      obtain ⟨-, hobserved, hmessages⟩ := hat
      exact ⟨trivial, rfl, hmessages, by simp [Observed, hobserved], Nat.zero_le _⟩
  | gaveUp numChecking heq hlimit =>
      obtain ⟨hconfirmed, hmessages, hnot, hcount⟩ := hat
      have hstill : ¬ (r.observe sh.appProof.challenge).Observed := by
        simp [observed_observe, heq, hnot]
      refine ⟨by simp [hmessages, hstill], fun _ _ => ?_⟩
      rw [observe_observed, List.length_cons]
      omega
  | unchanged numChecking heq =>
      obtain ⟨hconfirmed, hmessages, hnot, hcount⟩ := hat
      refine ⟨trivial, hconfirmed, hmessages, ?_, ?_⟩
      · simp [observed_observe, heq, hnot]
      · rw [observe_observed, List.length_cons]
        omega
  | changed numChecking hne =>
      obtain ⟨hconfirmed, hmessages, -, -⟩ := hat
      exact ⟨trivial, hconfirmed, hmessages, observed_observe.mpr (.inl hne.symm)⟩
  | fetchFailed numChecking => exact ⟨trivial, hat⟩
  | fetchUnchanged numChecking p heq =>
      obtain ⟨hconfirmed, hmessages, hnot, hcount⟩ := hat
      refine ⟨trivial, hconfirmed, hmessages, ?_, ?_⟩
      · simp [observed_observe, heq, hnot]
      · rw [observe_observed, List.length_cons]
        omega
  | fetchChanged numChecking p hne =>
      obtain ⟨hconfirmed, hmessages, -, -⟩ := hat
      exact ⟨trivial, hconfirmed, hmessages, observed_observe.mpr (.inl hne.symm)⟩
  | storeFetched | readLatest | database => exact ⟨trivial, hat⟩
  | report latest id bestSolution hbest =>
      obtain ⟨hconfirmed, -, hobserved⟩ := hat
      exact ⟨trivial, by simp [hconfirmed, hobserved], fun _ hnot => absurd hobserved hnot⟩
  | refreshFailed | storeRefreshed => exact ⟨trivial, .of_trying hat⟩
  | refreshed => exact ⟨trivial, hat⟩
  | resetNonce | resetHashes => exact ⟨trivial, hat⟩
  | unpause => exact hat

/-- The tries and looks of a submission leave its messages alone; its one message is
made of the frozen data. -/
theorem Moves.sound (hsound : r.Sound cfg sh.chain) (hfits : r.Fits stage)
    (hat : r.At stage.phase) (h : r.Moves cfg sh stage r' next eff) :
    r'.Sound cfg sh.chain := by
  cases h with
  | confirmed i tx hlanded =>
      obtain ⟨-, -, hmessages⟩ := hat
      exact ⟨fun _ => ⟨tx, rfl, hfits.1, hfits.2, hlanded⟩, hsound.atMostOne,
        by simp [hmessages]⟩
  | gaveUp | unchanged | changed | fetchUnchanged | fetchChanged =>
      exact ⟨hsound.confirmed, hsound.atMostOne, hsound.carries⟩
  | report latest id bestSolution hbest =>
      obtain ⟨hconfirmed, hmessages, -⟩ := hat
      refine ⟨hsound.confirmed, by simp [hmessages], ?_⟩
      intro msg hmsg
      rw [report_messages, hmessages, List.mem_singleton] at hmsg
      exact ⟨hconfirmed, bestSolution, latest, id, hbest, hmsg⟩
  | _ => exact hsound

theorem sound_frozen (number : Nat) (oldProof : Proof) (bestSolution : Option Solution)
    (contributions : Contributions) :
    (frozen number oldProof bestSolution contributions).Sound cfg chain where
  confirmed hconfirmed := by simp [frozen] at hconfirmed
  atMostOne := Nat.zero_le _
  carries := by simp [frozen]

theorem Sound.mono {chain' : Chain} (h : r.Sound cfg chain)
    (hlanded : ∀ tx, chain.Landed tx → chain'.Landed tx) : r.Sound cfg chain' where
  confirmed hconfirmed := by
    obtain ⟨tx, htx, hnumber, hbest, hland⟩ := h.confirmed hconfirmed
    exact ⟨tx, htx, hnumber, hbest, hlanded tx hland⟩
  atMostOne := h.atMostOne
  carries := h.carries

theorem Moves.number_eq (h : r.Moves cfg sh stage r' next eff) : r'.number = r.number := by
  cases h <;> rfl

end Submission

/-! ## Runs -/

/-- The invariant of the processor, relative to the chain. -/
structure PoolSubmissionProcessor.Delivering (cfg : Config) (chain : Chain)
    (p : PoolSubmissionProcessor) : Prop where
  sound : ∀ r ∈ p.submissions, r.Sound cfg chain
  finished : ∀ r ∈ p.finished, r.Settled
  current : ∀ r stage, p.pc = .submit r stage → r.Fits stage ∧ r.At stage.phase
  numbers : p.submissions.map Submission.number = (List.range p.submissions.length).reverse

namespace PoolSubmissionProcessor

variable {cfg : Config} {sh : Shared} {chain chain' : Chain} {p p' : PoolSubmissionProcessor}
  {eff : Effect}

theorem Delivering.mono (h : p.Delivering cfg chain)
    (hlanded : ∀ tx, chain.Landed tx → chain'.Landed tx) : p.Delivering cfg chain' :=
  { h with sound := fun r hr => (h.sound r hr).mono hlanded }

theorem Moves.delivering (hinv : p.Delivering cfg sh.chain) (h : p.Moves cfg sh p' eff) :
    p'.Delivering cfg sh.chain := by
  have hsound : ∀ r ∈ p'.submissions, r.Sound cfg sh.chain := by
    intro x hx
    obtain hold | ⟨oldProof, bestSolution, -, rfl⟩ | ⟨r, stage, next, hpc, hmoves⟩ :=
      h.mem_submissions hx
    · exact hinv.sound x hold
    · exact Submission.sound_frozen _ oldProof bestSolution _
    · obtain ⟨hfits, hat⟩ := hinv.current r stage hpc
      exact hmoves.sound (hinv.sound r (mem_submissions_of_submit hpc)) hfits hat
  cases h with
  | outer pc numWaiting hbefore hafter =>
      have hsame : PoolSubmissionProcessor.submissions ⟨pc, numWaiting, p.finished⟩ =
          p.submissions := by
        rw [submissions_of_current_none hbefore, submissions_of_current_none hafter]
      refine ⟨hsound, hinv.finished, ?_, by simpa only [hsame] using hinv.numbers⟩
      intro r stage hpc
      rw [show pc = .submit r stage from hpc] at hafter
      cases hafter
  | freeze oldProof bestSolution hpc =>
      refine ⟨hsound, hinv.finished, ?_, ?_⟩
      · intro r stage hsubmit
        cases hsubmit
        exact ⟨trivial, rfl, rfl, rfl⟩
      · have hnumbers := hinv.numbers
        rw [submissions_of_current_none (by rw [hpc]; rfl)] at hnumbers
        simp [hnumbers, List.range_succ, Submission.frozen]
  | submit r r' stage next _ hpc hmoves =>
      have hcontinues := hmoves.continues (hinv.current r stage hpc).2
      refine ⟨hsound, ?_, ?_, ?_⟩
      · cases next with
        | some stage' => exact hinv.finished
        | none =>
            intro x hx
            cases hx with
            | head => exact hcontinues
            | tail _ hx => exact hinv.finished x hx
      · intro x stage' hsubmit
        cases next with
        | some stage'' =>
            cases hsubmit
            exact hcontinues
        | none => cases hsubmit
      · have hnumbers := hinv.numbers
        rw [submissions_of_submit hpc] at hnumbers
        simpa [hmoves.number_eq] using hnumbers

end PoolSubmissionProcessor

namespace State

variable {cfg : Config} {s t : State} {e : Event}

/-- Other tasks and the chain do not disturb the processor. -/
theorem step_delivering (hinv : s.submission.Delivering cfg s.shared.chain)
    (h : s.step cfg e = some t) : t.submission.Delivering cfg t.shared.chain := by
  obtain ⟨-, s', eff, hperform, rfl⟩ := step_eq_some.mp h
  by_cases hsubmission : ∃ input, e = .submission input
  · obtain ⟨input, rfl⟩ := hsubmission
    obtain ⟨⟨p, eff'⟩, hstep, heq⟩ := Option.map_eq_some_iff.mp hperform
    cases heq
    have hmoves := PoolSubmissionProcessor.step_moves hstep
    exact (hmoves.delivering hinv).mono fun _ => Shared.Landed_apply
  · have hframe := (perform_frame hperform).submission (by simpa using hsubmission)
    change s'.submission.Delivering cfg _
    rw [hframe]
    exact hinv.mono fun _ => Shared.Landed_apply

theorem delivering_start (proof : Proof) :
    (State.start proof).submission.Delivering cfg (State.start proof).shared.chain where
  sound r hr := by cases hr
  finished r hr := by cases hr
  current r stage hpc := by cases hpc
  numbers := rfl

/-- What a state says about the messages sent so far. -/
structure Delivers (cfg : Config) (s : State) : Prop where
  /-- Messages of different submissions are told apart by the submission's number. -/
  distinct : (s.submission.submissions.map Submission.number).Nodup
  atMostOne : ∀ r ∈ s.submission.submissions, r.messages.length ≤ 1
  /-- A message comes from a landed transaction whose confirmation was returned, and
  carries the solution and the contributions frozen for it. -/
  genuine : ∀ r ∈ s.submission.submissions, ∀ msg ∈ r.messages,
    r.ConfirmedOn s.shared.chain ∧ r.Carries cfg msg
  /-- Behind the processor, a submission has its message exactly when its confirmation
  was returned and the landed-tx task saw another challenge. -/
  delivered : ∀ r ∈ s.submission.finished, r.messages ≠ [] ↔ r.confirmed.isSome ∧ r.Observed
  /-- The landed-tx task only gives up after `CHECK_LIMIT` looks at the old challenge. -/
  gaveUp : ∀ r ∈ s.submission.finished, r.confirmed.isSome → ¬ r.Observed →
    checkLimit ≤ r.observed.length

/-- In every run, a submission leads to at most one message, which is its own, and to
exactly one when it was confirmed and its new challenge was seen in time. -/
theorem delivers_of_run {proof : Proof} {events : List Event}
    (h : Foundation.run (State.step cfg) (.start proof) events = some s) : s.Delivers cfg := by
  have hinv : s.submission.Delivering cfg s.shared.chain :=
    Foundation.invariant_of_step (I := fun s => s.submission.Delivering cfg s.shared.chain)
      (fun _ _ _ hs hstep => step_delivering hs hstep) (delivering_start proof) h
  refine ⟨?_, fun r hr => (hinv.sound r hr).atMostOne, ?_,
    fun r hr => (hinv.finished r hr).delivered, fun r hr => (hinv.finished r hr).gaveUp⟩
  · rw [hinv.numbers]
    exact List.nodup_reverse.mpr List.nodup_range
  · intro r hr msg hmsg
    obtain ⟨hconfirmed, hcarries⟩ := (hinv.sound r hr).carries msg hmsg
    exact ⟨(hinv.sound r hr).confirmed hconfirmed, hcarries⟩

/-- Every submission behind the processor has led to exactly one message, with its
contributions, if one of its transactions has landed, and to none otherwise. -/
def ReportsLandings (s : State) : Prop :=
  ∀ r ∈ s.submission.finished, r.messages.map MessageInternalMineSuccess.contributions =
    if ∃ l ∈ s.shared.chain.landings, l.tx.submission = r.number then [r.contributions] else []

instance (s : State) : Decidable s.ReportsLandings := inferInstanceAs (Decidable (∀ r ∈ _, _))

/-! ## Landings that are heard of -/

end State

/-- The clean-up has begun, in either copy. -/
def Stage.isCleanup : Stage → Bool
  | .storeRefreshed _ | .resetNonce _ | .resetHashes _ | .unpause => true
  | .pause | .attempt _ | .storeLoaded _ | .send _ | .confirm _ _ | .refresh => false
  | .poll _ | .fetch _ | .storeFetched _ | .readLatest | .database _ | .report _ _ => false

namespace Submission

/-- No transaction of the submission has landed. -/
def Unlanded (r : Submission) (chain : Chain) : Prop :=
  ∀ l ∈ chain.landings, l.tx.submission ≠ r.number

instance (r : Submission) (chain : Chain) : Decidable (r.Unlanded chain) :=
  inferInstanceAs (Decidable (∀ l ∈ chain.landings, _))

/-- A confirmed submission has seen its new challenge, and another one has not landed. -/
structure Heard (chain : Chain) (r : Submission) : Prop where
  observed : r.confirmed.isSome → r.Observed
  unlanded : r.confirmed = none → r.Unlanded chain

variable {cfg : Config} {sh : Shared} {r r' : Submission} {stage : Stage} {next : Option Stage}
  {eff : Effect}

theorem isCleanup_nextAttempt (i : Nat) : (nextAttempt i).isCleanup = false := by
  rw [nextAttempt]
  split <;> rfl

/-- The clean-up begins behind a report, or for a submission that was not confirmed. -/
theorem Moves.heard (hat : r.At stage.phase) (hrefresh : stage = .refresh → r.Unlanded sh.chain)
    (hperseveres : ¬ r.GivesUp sh stage) (hold : stage.isCleanup → r.Heard sh.chain)
    (h : r.Moves cfg sh stage r' next eff) (hnext : ∀ stage' ∈ next, stage'.isCleanup) :
    r'.Heard sh.chain := by
  cases h with
  | gaveUp numChecking heq hlimit => exact absurd ⟨heq, hlimit⟩ hperseveres
  | report latest id bestSolution hbest =>
      obtain ⟨hconfirmed, -, hobserved⟩ := hat
      refine ⟨fun _ => hobserved, fun hnone => ?_⟩
      rw [← report_confirmed, hnone] at hconfirmed
      cases hconfirmed
  | refreshFailed | refreshed =>
      refine ⟨fun hsome => ?_, fun _ => hrefresh rfl⟩
      rw [hat.1] at hsome
      cases hsome
  | storeRefreshed | resetNonce | resetHashes | unpause => exact hold rfl
  | noSolution i | notSent i | failed i =>
      have hcleanup := hnext _ rfl
      rw [isCleanup_nextAttempt] at hcleanup
      cases hcleanup
  | _ => cases hnext _ rfl

end Submission

namespace PoolSubmissionProcessor

/-- The submissions that have come to their clean-up. -/
def cleaned (p : PoolSubmissionProcessor) : List Submission :=
  match p.pc with
  | .submit r stage => if stage.isCleanup then r :: p.finished else p.finished
  | _ => p.finished

variable {cfg : Config} {sh : Shared} {p p' : PoolSubmissionProcessor} {eff : Effect}

theorem cleaned_of_submit {r : Submission} {stage : Stage} (h : p.pc = .submit r stage) :
    p.cleaned = if stage.isCleanup then r :: p.finished else p.finished := by
  rw [cleaned, h]

theorem cleaned_of_current_none (h : p.pc.current = none) : p.cleaned = p.finished := by
  cases hpc : p.pc with
  | submit r stage =>
      rw [hpc] at h
      cases h
  | _ => rw [cleaned, hpc]

theorem finished_subset_cleaned : p.finished ⊆ p.cleaned := by
  rw [cleaned]
  split
  · split
    · exact List.subset_cons_self _ _
    · exact List.Subset.refl _
  · exact List.Subset.refl _

theorem Moves.heard (hinv : p.Delivering cfg sh.chain)
    (hok : ∀ x ∈ p.pc.staged, ¬ x.1.GivesUp sh x.2 ∧ (x.2 = .refresh → x.1.Unlanded sh.chain))
    (hheard : ∀ r ∈ p.cleaned, r.Heard sh.chain) (h : p.Moves cfg sh p' eff) :
    ∀ r ∈ p'.cleaned, r.Heard sh.chain := by
  have hfinished : ∀ r ∈ p.finished, r.Heard sh.chain := fun r hr =>
    hheard r (finished_subset_cleaned hr)
  cases h with
  | outer pc numWaiting hbefore hafter =>
      rw [cleaned_of_current_none hafter]
      exact hfinished
  | freeze oldProof bestSolution hpc => exact hfinished
  | submit r r' stage next _ hpc hmoves =>
      obtain ⟨hperseveres, hrefresh⟩ := hok (r, stage) (by rw [hpc]; rfl)
      have hold : stage.isCleanup → r.Heard sh.chain := by
        intro hcleanup
        rw [cleaned_of_submit hpc, if_pos hcleanup] at hheard
        exact hheard r List.mem_cons_self
      have hmoved := hmoves.heard (hinv.current r stage hpc).2 hrefresh hperseveres hold
      intro x hx
      cases next with
      | none =>
          cases hx with
          | head => exact hmoved fun stage' hstage' => by cases hstage'
          | tail _ hx => exact hfinished x hx
      | some stage' =>
          rw [cleaned_of_submit (show (p.resume r' (some stage')).pc = .submit r' stage' from rfl)]
            at hx
          split at hx
          · next hcleanup =>
            cases hx with
            | head => exact hmoved fun stage'' hstage'' => by cases hstage''; exact hcleanup
            | tail _ hx => exact hfinished x hx
          · exact hfinished x hx

end PoolSubmissionProcessor

namespace State

variable {cfg : Config} {s t : State} {e : Event}

/-- The landed-tx task does not give up, the failure branch is only taken while nothing of the
submission has landed, and nothing of it lands later. -/
def Hears (s : State) : Event → Prop
  | .submission _ => ∀ x ∈ s.submission.pc.staged,
      ¬ x.1.GivesUp s.shared x.2 ∧ (x.2 = .refresh → x.1.Unlanded s.shared.chain)
  | .land tx _ _ _ => ∀ r ∈ s.submission.cleaned, r.confirmed = none → tx.submission ≠ r.number
  | _ => True

instance (s : State) (e : Event) : Decidable (s.Hears e) :=
  match e with
  | .submission _ => inferInstanceAs (Decidable (∀ x ∈ s.submission.pc.staged, _))
  | .land _ _ _ _ => inferInstanceAs (Decidable (∀ r ∈ s.submission.cleaned, _))
  | .ready _ | .mission _ | .message | .contribution | .tracking _ => .isTrue trivial
  | .ping _ | .pong | .connect _ _ _ | .receive _ _ | .streamEnded _ => .isTrue trivial
  | .disconnect _ | .claim _ | .tick _ => .isTrue trivial

theorem step_heard (hinv : s.submission.Delivering cfg s.shared.chain)
    (hheard : ∀ r ∈ s.submission.cleaned, r.Heard s.shared.chain) (hok : s.Hears e)
    (h : s.step cfg e = some t) : ∀ r ∈ t.submission.cleaned, r.Heard t.shared.chain := by
  obtain ⟨-, s', eff, hperform, rfl⟩ := step_eq_some.mp h
  change ∀ r ∈ s'.submission.cleaned, _
  obtain ⟨hothers, hsame⟩ | ⟨input, rfl, hmoves⟩ := perform_submission hperform
  · rw [hsame]
    intro r hr
    refine ⟨(hheard r hr).observed, fun hnone l hl => ?_⟩
    have hunlanded := (hheard r hr).unlanded hnone
    by_cases hscope : eff.scope = .landings
    · obtain ⟨tx, reward, challenge, time, rfl, rfl⟩ | ⟨amount, rfl, rfl⟩ :=
        perform_landings hperform hscope
      · cases hl with
        | head => exact hok r hr hnone
        | tail _ hl => exact hunlanded l hl
      · exact hunlanded l hl
    · change l ∈ (s.shared.apply eff).chain.landings at hl
      rw [Shared.apply_landings hscope] at hl
      exact hunlanded l hl
  · intro r hr
    have hmoved := hmoves.heard hinv hok hheard r hr
    have hscope : eff.scope ≠ .landings := by
      intro hscope
      have hmem := hmoves.scope
      rw [hscope] at hmem
      simp [submissionScopes] at hmem
    refine ⟨hmoved.observed, fun hnone l hl => hmoved.unlanded hnone l ?_⟩
    change l ∈ (s.shared.apply eff).chain.landings at hl
    rwa [Shared.apply_landings hscope] at hl

/-- What is heard of is reported. -/
theorem Delivers.reportsLandings (h : s.Delivers cfg)
    (hsound : ∀ r ∈ s.submission.submissions, r.Sound cfg s.shared.chain)
    (hheard : ∀ r ∈ s.submission.cleaned, r.Heard s.shared.chain) : s.ReportsLandings := by
  intro r hr
  have hheard := hheard r (PoolSubmissionProcessor.finished_subset_cleaned hr)
  have hsubmission : r ∈ s.submission.submissions := List.mem_append_right _ hr
  cases hconfirmed : r.confirmed with
  | none =>
      have hempty : r.messages = [] := by
        by_contra hsome
        have hsent := ((h.delivered r hr).mp hsome).1
        rw [hconfirmed] at hsent
        cases hsent
      have hnot : ¬ ∃ l ∈ s.shared.chain.landings, l.tx.submission = r.number := by
        rintro ⟨l, hl, hnumber⟩
        exact hheard.unlanded hconfirmed l hl hnumber
      rw [hempty, if_neg hnot, List.map_nil]
  | some _ =>
      have hsome : r.confirmed.isSome := by rw [hconfirmed]; rfl
      obtain ⟨-, -, hnumber, -, l, hl, rfl⟩ := (hsound r hsubmission).confirmed hsome
      rw [if_pos ⟨l, hl, hnumber⟩]
      have hsent : r.messages ≠ [] := (h.delivered r hr).mpr ⟨hsome, hheard.observed hsome⟩
      obtain ⟨msg, hmsg⟩ : ∃ msg, r.messages = [msg] :=
        List.length_eq_one_iff.mp (le_antisymm (h.atMostOne r hsubmission)
          (List.length_pos_iff.mpr hsent))
      obtain ⟨-, bestSolution, latest, id, -, rfl⟩ :=
        h.genuine r hsubmission msg (by rw [hmsg]; exact List.mem_singleton_self _)
      rw [hmsg, List.map_singleton, mineSuccess_contributions]

/-- In every run in which the server hears of its landings, each submission behind the
processor has led to exactly one message if it has landed, and to none otherwise. -/
theorem reportsLandings_of_run {proof : Proof} {events : List Event}
    (h : Foundation.run (State.step cfg) (.start proof) events = some s)
    (hmeets : Foundation.Meets (State.step cfg) Hears (.start proof) events) :
    s.ReportsLandings ∧ s.Delivers cfg := by
  have hinv : s.submission.Delivering cfg s.shared.chain ∧
      ∀ r ∈ s.submission.cleaned, r.Heard s.shared.chain :=
    Foundation.invariant_of_meets (I := fun s => s.submission.Delivering cfg s.shared.chain ∧
        ∀ r ∈ s.submission.cleaned, r.Heard s.shared.chain)
      (fun _ _ _ hs hok hstep =>
        ⟨step_delivering hs.1 hstep, step_heard hs.1 hs.2 hok hstep⟩)
      ⟨delivering_start proof, fun r hr => by cases hr⟩ hmeets h
  have hdelivers := delivers_of_run h
  exact ⟨hdelivers.reportsLandings hinv.1.sound hinv.2, hdelivers⟩

/-- The confirmation is returned, the reward reported, and the submission cleaned up. -/
theorem reportsLandings_reported : ∃ s, Foundation.run (State.step Scenario.config)
    (.start Scenario.proof) (Scenario.untilLanded 500 ++ Scenario.report ++
      List.replicate 3 (.submission .proceed)) = some s ∧
    s.submission.finished.map (fun r => r.messages.length) = [1] ∧
    s.ReportsLandings ∧ s.Delivers Scenario.config := by
  obtain ⟨s, hrun, hone⟩ := Foundation.exists_run (State.step Scenario.config)
    (.start Scenario.proof) (Scenario.untilLanded 500 ++ Scenario.report ++
      List.replicate 3 (.submission .proceed))
    (fun s => s.submission.finished.map (fun r => r.messages.length) = [1]) (by decide)
  exact ⟨s, hrun, hone, reportsLandings_of_run hrun (by decide)⟩

/-- The send reports an error for a transaction that has landed. The next attempt finds
the solution outdated, and the submission is cleaned up without a message. -/
def lostLanding : List Event :=
  Scenario.untilLanded 500 ++ [.submission (.outcome .otherError),
    .submission (.rpcProof (some 0)), .submission .proceed, .submission (.rpcProof none),
    .submission .proceed, .submission .proceed, .submission .proceed]

theorem not_reportsLandings : ¬ ∀ cfg proof events s,
    Foundation.run (State.step cfg) (.start proof) events = some s → s.ReportsLandings := by
  intro h
  obtain ⟨s, hrun, hnot⟩ := Foundation.exists_run (State.step Scenario.config)
    (.start Scenario.proof) lostLanding (fun s => ¬ s.ReportsLandings) (by decide)
  exact hnot (h _ _ _ _ hrun)

end State

end Hashpoo.Mining
