import Hashpoo.Mining.Shared
import Hashpoo.Server.Rewards

/-!
# `pool_submission_processor` and the landed-tx task

The processor waits for the cutoff, freezes the best solution and the contributions and
tries to land them. On success it spawns the landed-tx task and waits for its signal, so
the two are one thread of control: the stages of a submission from `poll` to `unpause`
belong to the spawned task. Everything the network answers is part of the input.

A submission also keeps what happened to it: the transaction whose confirmation was
returned, the challenges its landed-tx task looked at, and the messages sent for it.
-/

namespace Hashpoo.Mining

/-! ## One submission -/

/-- How `send_and_confirm` ends. An error says nothing about the transaction. -/
inductive SendOutcome where
  | ok
  | needsReset
  | hashInvalid
  | otherError
  deriving DecidableEq

/-- What the environment contributes to a step of the processor. -/
inductive SubmissionInput where
  | proceed
  /-- `try_lock` failed. -/
  | busy
  | clock (now : Int)
  /-- An RPC read of the proof, `none` when it fails. -/
  | rpcProof (lag : Option Nat)
  /-- No transaction could be sent, for example for want of a blockhash. -/
  | notSent
  | outcome (outcome : SendOutcome)
  /-- The id under which the database knows the old challenge. -/
  | challengeId (id : Int)
  deriving DecidableEq

/-- The frozen data of a pass through the submission branch, and its record. -/
structure Submission where
  number : Nat
  oldProof : Proof
  bestSolution : Option Solution
  contributions : Contributions
  confirmed : Option MineTx
  observed : List Challenge
  messages : List MessageInternalMineSuccess
  deriving DecidableEq

/-- Where a submission stands. -/
inductive Stage where
  | pause
  | attempt (i : Nat)
  | storeLoaded (loaded : Proof)
  | send (i : Nat)
  | confirm (i : Nat) (tx : MineTx)
  -- the landed-tx task
  | poll (numChecking : Nat)
  | fetch (numChecking : Nat)
  | storeFetched (p : Proof)
  | readLatest
  | database (latest : Proof)
  | report (latest : Proof) (challengeId : Int)
  -- after a failure
  | refresh
  | storeRefreshed (refreshed : Proof)
  -- both ends
  | resetNonce (latest : Option Proof)
  | resetHashes (latest : Option Proof)
  | unpause
  deriving DecidableEq

namespace Submission

/-- A submission at its start, with the data it has frozen. -/
def frozen (number : Nat) (oldProof : Proof) (bestSolution : Option Solution)
    (contributions : Contributions) : Submission where
  number := number
  oldProof := oldProof
  bestSolution := bestSolution
  contributions := contributions
  confirmed := none
  observed := []
  messages := []

/-- The next turn of `for i in 0..SUBMIT_LIMIT`, or the failure branch behind it. -/
def nextAttempt (i : Nat) : Stage := if i + 1 < submitLimit then .attempt (i + 1) else .refresh

/-- The landed-tx task sees a challenge, in the shared proof or through RPC. -/
def observe (r : Submission) (challenge : Challenge) : Submission :=
  { r with observed := challenge :: r.observed }

def report (r : Submission) (msg : MessageInternalMineSuccess) : Submission :=
  { r with messages := msg :: r.messages }

/-- One step. The new stage is `none` when control returns to the outer loop. -/
def step (cfg : Config) (sh : Shared) (r : Submission) :
    Stage → SubmissionInput → Option (Submission × Option Stage × Effect)
  | .pause, .proceed => some (r, some (.attempt 0), .setPaused true)
  | .attempt i, .proceed =>
      -- "Solution is_some but got none on best hash re-check?"
      if r.bestSolution = none then some (r, some (nextAttempt i), .silent) else none
  | .attempt i, .rpcProof none =>
      if r.bestSolution = none then none else some (r, some (.send i), .silent)
  | .attempt i, .rpcProof (some lag) =>
      match r.bestSolution, sh.chain.proofAt lag with
      | some bestSolution, some loaded =>
          some (r, some (if cfg.drillx.isValid bestSolution loaded.challenge then .send i
            else .storeLoaded loaded), .silent)
      | _, _ => none
  | .storeLoaded loaded, .proceed => some (r, some .refresh, .storeProof loaded)
  | .send i, .notSent => some (r, some (nextAttempt i), .silent)
  | .send i, .proceed =>
      match r.bestSolution with
      | some bestSolution =>
          let tx := ⟨r.number, i, bestSolution⟩
          some (r, some (.confirm i tx), .sendTx tx)
      | none => none
  | .confirm _ tx, .outcome .ok =>
      -- the confirmation is only returned for a transaction that has landed
      if sh.chain.Landed tx then
        some ({ r with confirmed := some tx }, some (.poll 0), .silent)
      else
        none
  | .confirm _ _, .outcome .hashInvalid => some (r, some .refresh, .silent)
  | .confirm i _, .outcome .needsReset => some (r, some (nextAttempt i), .silent)
  | .confirm i _, .outcome .otherError => some (r, some (nextAttempt i), .silent)
  | .poll numChecking, .proceed =>
      if r.oldProof.challenge = sh.appProof.challenge then
        -- at the limit the task ends without its signal, which also ends the submission
        some (r.observe sh.appProof.challenge,
          if numChecking + 1 ≥ checkLimit then none else some (.fetch (numChecking + 1)), .silent)
      else
        some (r.observe sh.appProof.challenge, some .readLatest, .silent)
  | .fetch numChecking, .rpcProof none => some (r, some (.poll numChecking), .silent)
  | .fetch numChecking, .rpcProof (some lag) =>
      match sh.chain.proofAt lag with
      | some p =>
          some (r.observe p.challenge, some (if r.oldProof.challenge = p.challenge then
            .poll numChecking else .storeFetched p), .silent)
      | none => none
  | .storeFetched p, .proceed => some (r, some .readLatest, .storeProof p)
  | .readLatest, .proceed => some (r, some (.database sh.appProof), .silent)
  | .database latest, .challengeId id => some (r, some (.report latest id), .silent)
  | .report latest id, .proceed =>
      match r.bestSolution with
      | some bestSolution =>
          some (r.report
              (mineSuccess cfg.drillx r.oldProof latest bestSolution r.contributions id),
            some (.resetNonce (some latest)), .silent)
      | none => none
  | .refresh, .rpcProof none => some (r, some (.resetNonce none), .silent)
  | .refresh, .rpcProof (some lag) =>
      match sh.chain.proofAt lag with
      | some refreshed => some (r, some (.storeRefreshed refreshed), .silent)
      | none => none
  | .storeRefreshed refreshed, .proceed =>
      some (r, some (.resetNonce none), .storeProof refreshed)
  | .resetNonce latest, .proceed => some (r, some (.resetHashes latest), .resetNonce)
  | .resetHashes latest, .proceed =>
      some (r, some .unpause, .resetHashes (latest.map Proof.challenge))
  | .unpause, .proceed => some (r, none, .setPaused false)
  | _, _ => none

end Submission

/-! ## The outer loop -/

/-- Where the loop of the processor stands. -/
inductive SubmissionPc where
  | top
  | cutoff (oldProof : Proof)
  | readSolution (oldProof : Proof)
  | countMiners (oldProof : Proof) (isSome : Bool)
  | readEpoch (oldProof : Proof) (numActiveMiners : Nat)
  | freeze (oldProof : Proof) (bestSolution : Option Solution)
  | submit (r : Submission) (stage : Stage)
  deriving DecidableEq

/-- The submission in progress. -/
def SubmissionPc.current : SubmissionPc → Option Submission
  | .submit r _ => some r
  | _ => none

structure PoolSubmissionProcessor where
  pc : SubmissionPc
  numWaiting : Nat
  /-- The submissions behind it, the last one first. -/
  finished : List Submission
  deriving DecidableEq

namespace PoolSubmissionProcessor

def start : PoolSubmissionProcessor := ⟨.top, 0, []⟩

/-- Go on at `pc`. -/
def goto (p : PoolSubmissionProcessor) (pc : SubmissionPc) : PoolSubmissionProcessor :=
  { p with pc := pc }

/-- Go on with the submission, or return to the outer loop. -/
def resume (p : PoolSubmissionProcessor) (r : Submission) :
    Option Stage → PoolSubmissionProcessor
  | some stage => p.goto (.submit r stage)
  | none => { p with pc := .top, finished := r :: p.finished }

def step (cfg : Config) (sh : Shared) (p : PoolSubmissionProcessor) (input : SubmissionInput) :
    Option (PoolSubmissionProcessor × Effect) :=
  match p.pc, input with
  | .top, .busy => some (p, .silent)
  | .top, .proceed => some (p.goto (.cutoff sh.appProof), .silent)
  | .cutoff oldProof, .clock now =>
      if cfg.getCutoff oldProof now ≤ 0 then
        some (p.goto (.readSolution oldProof), .silent)
      else
        some (p.goto .top, .silent)
  | .readSolution oldProof, .proceed =>
      some (p.goto (.countMiners oldProof sh.epochHashes.bestHash.solution.isSome), .silent)
  | .countMiners oldProof isSome, .proceed =>
      if isSome then
        some (p.goto (.readEpoch oldProof sh.sockets.len), .silent)
      else
        some (p.goto .top, .silent)
  | .readEpoch oldProof numActiveMiners, .proceed =>
      if sh.epochHashes.contributions.len ≠ numActiveMiners ∧ p.numWaiting < 6 then
        some ({ p with pc := .top, numWaiting := p.numWaiting + 1 }, .silent)
      else
        some ({ p with
          pc := .freeze oldProof sh.epochHashes.bestHash.solution, numWaiting := 0 }, .silent)
  | .freeze oldProof bestSolution, .proceed =>
      some (p.goto (.submit (.frozen p.finished.length oldProof bestSolution
        sh.epochHashes.contributions) .pause), .silent)
  | .submit r stage, input =>
      match r.step cfg sh stage input with
      | some (r, next, eff) => some (p.resume r next, eff)
      | none => none
  | _, _ => none

/-- All submissions so far, the one in progress first. -/
def submissions (p : PoolSubmissionProcessor) : List Submission :=
  p.pc.current.toList ++ p.finished

end PoolSubmissionProcessor

/-! ## What a step can do -/

namespace Submission

/-- The moves of a submission, one for each exit of each stage. -/
inductive Moves (cfg : Config) (sh : Shared) (r : Submission) :
    Stage → Submission → Option Stage → Effect → Prop
  | pause : Moves cfg sh r .pause r (some (.attempt 0)) (.setPaused true)
  | noSolution (i : Nat) : r.bestSolution = none →
      Moves cfg sh r (.attempt i) r (some (nextAttempt i)) .silent
  | unchecked (i : Nat) : r.bestSolution ≠ none →
      Moves cfg sh r (.attempt i) r (some (.send i)) .silent
  | valid (i : Nat) (bestSolution : Solution) (loaded : Proof) :
      r.bestSolution = some bestSolution → cfg.drillx.isValid bestSolution loaded.challenge →
      Moves cfg sh r (.attempt i) r (some (.send i)) .silent
  | invalid (i : Nat) (bestSolution : Solution) (loaded : Proof) :
      r.bestSolution = some bestSolution → ¬ cfg.drillx.isValid bestSolution loaded.challenge →
      Moves cfg sh r (.attempt i) r (some (.storeLoaded loaded)) .silent
  | storeLoaded (loaded : Proof) :
      Moves cfg sh r (.storeLoaded loaded) r (some .refresh) (.storeProof loaded)
  | notSent (i : Nat) : Moves cfg sh r (.send i) r (some (nextAttempt i)) .silent
  | send (i : Nat) (bestSolution : Solution) : r.bestSolution = some bestSolution →
      Moves cfg sh r (.send i) r (some (.confirm i ⟨r.number, i, bestSolution⟩))
        (.sendTx ⟨r.number, i, bestSolution⟩)
  | confirmed (i : Nat) (tx : MineTx) : sh.chain.Landed tx →
      Moves cfg sh r (.confirm i tx) { r with confirmed := some tx } (some (.poll 0)) .silent
  | hashInvalid (i : Nat) (tx : MineTx) :
      Moves cfg sh r (.confirm i tx) r (some .refresh) .silent
  | failed (i : Nat) (tx : MineTx) :
      Moves cfg sh r (.confirm i tx) r (some (nextAttempt i)) .silent
  | gaveUp (numChecking : Nat) : r.oldProof.challenge = sh.appProof.challenge →
      numChecking + 1 ≥ checkLimit →
      Moves cfg sh r (.poll numChecking) (r.observe sh.appProof.challenge) none .silent
  | unchanged (numChecking : Nat) : r.oldProof.challenge = sh.appProof.challenge →
      numChecking + 1 < checkLimit →
      Moves cfg sh r (.poll numChecking) (r.observe sh.appProof.challenge)
        (some (.fetch (numChecking + 1))) .silent
  | changed (numChecking : Nat) : r.oldProof.challenge ≠ sh.appProof.challenge →
      Moves cfg sh r (.poll numChecking) (r.observe sh.appProof.challenge)
        (some .readLatest) .silent
  | fetchFailed (numChecking : Nat) :
      Moves cfg sh r (.fetch numChecking) r (some (.poll numChecking)) .silent
  | fetchUnchanged (numChecking : Nat) (p : Proof) : r.oldProof.challenge = p.challenge →
      Moves cfg sh r (.fetch numChecking) (r.observe p.challenge) (some (.poll numChecking))
        .silent
  | fetchChanged (numChecking : Nat) (p : Proof) : r.oldProof.challenge ≠ p.challenge →
      Moves cfg sh r (.fetch numChecking) (r.observe p.challenge) (some (.storeFetched p)) .silent
  | storeFetched (p : Proof) :
      Moves cfg sh r (.storeFetched p) r (some .readLatest) (.storeProof p)
  | readLatest : Moves cfg sh r .readLatest r (some (.database sh.appProof)) .silent
  | database (latest : Proof) (id : Int) :
      Moves cfg sh r (.database latest) r (some (.report latest id)) .silent
  | report (latest : Proof) (id : Int) (bestSolution : Solution) :
      r.bestSolution = some bestSolution →
      Moves cfg sh r (.report latest id)
        (r.report (mineSuccess cfg.drillx r.oldProof latest bestSolution r.contributions id))
        (some (.resetNonce (some latest))) .silent
  | refreshFailed : Moves cfg sh r .refresh r (some (.resetNonce none)) .silent
  | refreshed (p : Proof) : Moves cfg sh r .refresh r (some (.storeRefreshed p)) .silent
  | storeRefreshed (p : Proof) :
      Moves cfg sh r (.storeRefreshed p) r (some (.resetNonce none)) (.storeProof p)
  | resetNonce (latest : Option Proof) :
      Moves cfg sh r (.resetNonce latest) r (some (.resetHashes latest)) .resetNonce
  | resetHashes (latest : Option Proof) :
      Moves cfg sh r (.resetHashes latest) r (some .unpause)
        (.resetHashes (latest.map Proof.challenge))
  | unpause : Moves cfg sh r .unpause r none (.setPaused false)

variable {cfg : Config} {sh : Shared} {r r' : Submission} {stage : Stage}
  {input : SubmissionInput} {next : Option Stage} {eff : Effect}

theorem step_moves (h : r.step cfg sh stage input = some (r', next, eff)) :
    r.Moves cfg sh stage r' next eff := by
  simp only [step] at h
  split at h
  case h_2 i =>
    split at h
    · next hnone =>
      cases h
      exact .noSolution i hnone
    · cases h
  case h_3 i =>
    split at h
    · cases h
    · next hsome =>
      cases h
      exact .unchecked i hsome
  case h_4 i lag =>
    split at h
    · next bestSolution loaded hbest _ =>
      cases h
      split
      · next hvalid => exact .valid i bestSolution loaded hbest hvalid
      · next hinvalid => exact .invalid i bestSolution loaded hbest hinvalid
    · cases h
  case h_7 i =>
    split at h
    · next bestSolution hbest =>
      cases h
      exact .send i bestSolution hbest
    · cases h
  case h_8 i tx =>
    split at h
    · next hlanded =>
      cases h
      exact .confirmed i tx hlanded
    · cases h
  case h_12 numChecking =>
    split at h
    · next heq =>
      cases h
      split
      · next hlimit => exact .gaveUp numChecking heq hlimit
      · next hlimit => exact .unchanged numChecking heq (Nat.lt_of_not_le hlimit)
    · next hne =>
      cases h
      exact .changed numChecking hne
  case h_14 numChecking lag =>
    split at h
    · next p _ =>
      cases h
      split
      · next heq => exact .fetchUnchanged numChecking p heq
      · next hne => exact .fetchChanged numChecking p hne
    · cases h
  case h_18 latest id =>
    split at h
    · next bestSolution hbest =>
      cases h
      exact .report latest id bestSolution hbest
    · cases h
  case h_20 lag =>
    split at h
    · next p _ =>
      cases h
      exact .refreshed p
    · cases h
  all_goals cases h <;> constructor

end Submission

namespace PoolSubmissionProcessor

/-- The moves of the processor: a turn of the outer loop, the freeze that starts a
submission, and the moves of the submission. -/
inductive Moves (cfg : Config) (sh : Shared) (p : PoolSubmissionProcessor) :
    PoolSubmissionProcessor → Effect → Prop
  | outer (pc : SubmissionPc) (numWaiting : Nat) : p.pc.current = none → pc.current = none →
      Moves cfg sh p { p with pc := pc, numWaiting := numWaiting } .silent
  | freeze (oldProof : Proof) (bestSolution : Option Solution) :
      p.pc = .freeze oldProof bestSolution →
      Moves cfg sh p (p.goto (.submit (.frozen p.finished.length oldProof bestSolution
        sh.epochHashes.contributions) .pause)) .silent
  | submit (r r' : Submission) (stage : Stage) (next : Option Stage) (eff : Effect) :
      p.pc = .submit r stage → r.Moves cfg sh stage r' next eff →
      Moves cfg sh p (p.resume r' next) eff

theorem step_moves {cfg : Config} {sh : Shared} {p p' : PoolSubmissionProcessor}
    {input : SubmissionInput} {eff : Effect} (h : p.step cfg sh input = some (p', eff)) :
    p.Moves cfg sh p' eff := by
  simp only [step] at h
  split at h
  case h_7 oldProof bestSolution hpc =>
    cases h
    exact .freeze oldProof bestSolution hpc
  case h_8 r stage hpc =>
    split at h
    · next hstep =>
      cases h
      exact .submit r _ stage _ _ hpc (Submission.step_moves hstep)
    · cases h
  case h_9 => cases h
  -- The other steps stay in the outer loop.
  all_goals
    next hpc =>
    (try split at h) <;> cases h <;>
      exact .outer _ _ (by rw [hpc]; rfl) (by first | rfl | rw [hpc]; rfl)

end PoolSubmissionProcessor

/-! ## The submissions so far -/

/-- The frozen data of a submission stay as they are. -/
theorem Submission.Moves.frozen_eq {cfg : Config} {sh : Shared} {r r' : Submission}
    {stage : Stage} {next : Option Stage} {eff : Effect} (h : r.Moves cfg sh stage r' next eff) :
    r'.oldProof = r.oldProof ∧ r'.bestSolution = r.bestSolution ∧
      r'.contributions = r.contributions := by
  cases h <;> exact ⟨rfl, rfl, rfl⟩

namespace PoolSubmissionProcessor

variable {cfg : Config} {sh : Shared} {p p' : PoolSubmissionProcessor} {eff : Effect}

theorem submissions_of_current_none (h : p.pc.current = none) : p.submissions = p.finished := by
  simp [submissions, h]

@[simp] theorem submissions_goto_submit (r : Submission) (stage : Stage) :
    (p.goto (.submit r stage)).submissions = r :: p.finished := rfl

theorem submissions_of_submit {r : Submission} {stage : Stage} (h : p.pc = .submit r stage) :
    p.submissions = r :: p.finished := by
  simp [submissions, h, SubmissionPc.current]

/-- Whether it goes on or ends, the submission stays the latest one. -/
@[simp] theorem submissions_resume (r : Submission) (next : Option Stage) :
    (p.resume r next).submissions = r :: p.finished := by
  cases next <;> rfl

/-- A submission is an earlier one, freshly frozen, or the one that has just moved. -/
theorem Moves.mem_submissions (h : p.Moves cfg sh p' eff) {x : Submission}
    (hx : x ∈ p'.submissions) : x ∈ p.submissions ∨
      (∃ oldProof bestSolution, p.pc = .freeze oldProof bestSolution ∧
        x = .frozen p.finished.length oldProof bestSolution sh.epochHashes.contributions) ∨
      ∃ r stage next, p.pc = .submit r stage ∧ r.Moves cfg sh stage x next eff := by
  cases h with
  | outer pc numWaiting hbefore hafter =>
      rw [submissions_of_current_none hafter] at hx
      exact .inl (List.mem_append_right _ hx)
  | freeze oldProof bestSolution hpc =>
      rw [submissions_goto_submit] at hx
      cases hx with
      | head => exact .inr (.inl ⟨oldProof, bestSolution, hpc, rfl⟩)
      | tail _ hx => exact .inl (List.mem_append_right _ hx)
  | submit r r' stage next _ hpc hmoves =>
      rw [submissions_resume] at hx
      cases hx with
      | head => exact .inr (.inr ⟨r, stage, next, hpc, hmoves⟩)
      | tail _ hx => exact .inl (List.mem_append_right _ hx)

/-- During a submission the processor moves with it. -/
theorem Moves.of_submit {r : Submission} {stage : Stage} (h : p.Moves cfg sh p' eff)
    (hpc : p.pc = .submit r stage) :
    ∃ r' next, r.Moves cfg sh stage r' next eff ∧ p' = p.resume r' next := by
  cases h with
  | outer pc numWaiting hbefore =>
      rw [hpc] at hbefore
      cases hbefore
  | freeze oldProof bestSolution hfreeze => cases hpc.symm.trans hfreeze
  | submit x r' stage' next _ hsubmit hmoves =>
      cases hpc.symm.trans hsubmit
      exact ⟨r', next, hmoves, rfl⟩

theorem mem_submissions_of_submit {r : Submission} {stage : Stage} (h : p.pc = .submit r stage) :
    r ∈ p.submissions := by
  rw [submissions_of_submit h]
  exact List.mem_cons_self

end PoolSubmissionProcessor

/-! ## What the processor writes -/

/-- The parts of the shared state that the processor and its landed-tx task write. -/
def submissionScopes : List Scope := [.nothing, .proof, .paused, .nonces, .hashes, .sent]

theorem Submission.Moves.scope {cfg : Config} {sh : Shared} {r r' : Submission} {stage : Stage}
    {next : Option Stage} {eff : Effect} (h : r.Moves cfg sh stage r' next eff) :
    eff.scope ∈ submissionScopes := by
  cases h <;> simp [submissionScopes, Effect.scope]

theorem PoolSubmissionProcessor.Moves.scope {cfg : Config} {sh : Shared}
    {p p' : PoolSubmissionProcessor} {eff : Effect} (h : p.Moves cfg sh p' eff) :
    eff.scope ∈ submissionScopes := by
  cases h with
  | outer | freeze => simp [submissionScopes, Effect.scope]
  | submit r r' stage next eff hpc hmoves => exact hmoves.scope

/-- Of the nonce counter and the epoch hashes the processor only performs the resets. -/
theorem PoolSubmissionProcessor.Moves.resets {cfg : Config} {sh : Shared}
    {p p' : PoolSubmissionProcessor} {eff : Effect} (h : p.Moves cfg sh p' eff) :
    (eff.scope = .nonces → eff = .resetNonce) ∧
      (eff.scope = .hashes → ∃ challenge, eff = .resetHashes challenge) := by
  cases h with
  | outer | freeze => simp [Effect.scope]
  | submit r r' stage next _ hpc hmoves => cases hmoves <;> simp [Effect.scope]

end Hashpoo.Mining
