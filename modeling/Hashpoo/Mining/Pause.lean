import Hashpoo.Foundation.History
import Hashpoo.Mining.System

/-!
# Missions while a submission is under way

`ready_clients_processor` looks at `PAUSED` once, before an RPC call and two reads of the
proof, and then creates one message after another. So the flag holds back the batches to
come. A batch under way goes on, and what it hands out depends on the challenge that it
has read or will read.
-/

namespace Hashpoo.Mining

open Foundation

/-- The submission is that of a solution of `challenge`: it was started for this challenge,
or the solution is valid for it. -/
def Submission.IsFor (cfg : Config) (r : Submission) (challenge : Challenge) : Prop :=
  r.oldProof.challenge = challenge ∨
    ∃ solution ∈ r.bestSolution, cfg.drillx.isValid solution challenge = true

instance (cfg : Config) (r : Submission) (challenge : Challenge) :
    Decidable (r.IsFor cfg challenge) :=
  inferInstanceAs (Decidable (_ ∨ ∃ solution ∈ r.bestSolution, _))

namespace PoolSubmissionProcessor

/-- The submission for which the next step sets `PAUSED`. -/
def pausing (p : PoolSubmissionProcessor) : Option Submission :=
  match p.pc with
  | .submit r .pause => some r
  | _ => none

end PoolSubmissionProcessor

namespace ReadyPc

/-- The challenge of the message that the next step creates. -/
def creating : ReadyPc → Option Challenge
  | .deliver _ _ batch _ => some batch.challenge
  | _ => none

/-- The challenge of the messages that are still to be created. -/
def carrying : ReadyPc → Option Challenge
  | .readSockets _ _ challenge => some challenge
  | .distribute (_ :: _) batch | .removeReady _ (_ :: _) batch => some batch.challenge
  | .deliver _ _ batch _ => some batch.challenge
  | _ => none

theorem carrying_of_creating {pc : ReadyPc} {challenge : Challenge}
    (h : challenge ∈ pc.creating) : challenge ∈ pc.carrying := by
  cases pc with
  | deliver => exact h
  | _ => cases h

/-- A batch keeps its challenge, which it has read from the shared proof. -/
theorem Moves.carrying {cfg : Config} {sh : Shared} {pc pc' : ReadyPc} {eff : Effect}
    (h : pc.Moves cfg sh pc' eff) : ∀ challenge ∈ pc'.carrying, challenge ∈ pc.carrying ∨
      (∃ clients seconds, pc = .readChallenge clients seconds) ∧
        challenge = sh.appProof.challenge := by
  intro challenge hcarrying
  cases h with
  | readChallenge clients seconds hpc =>
      cases hcarrying
      exact .inr ⟨⟨clients, seconds, hpc⟩, rfl⟩
  | readSockets clients seconds challenge' hpc =>
      subst hpc
      cases clients with
      | nil => cases hcarrying
      | cons client rest => exact .inl hcarrying
  | take client rest batch hpc =>
      subst hpc
      exact .inl hcarrying
  | spawn client rest batch nonceRange sender hpc | gone client rest batch nonceRange hpc =>
      subst hpc
      cases rest with
      | nil => cases hcarrying
      | cons => exact .inl hcarrying
  | remove client rest batch hpc =>
      subst hpc
      cases rest with
      | nil => cases hcarrying
      | cons => exact .inl hcarrying
  | _ => cases hcarrying

end ReadyPc

/-! ## The log -/

/-- A `StartMining` message, with the submissions under way at its creation. -/
structure Creation where
  challenge : Challenge
  pausedFor : List Submission
  deriving DecidableEq

/-- What a run tells about `PAUSED`: the submissions for which it has been set since it was
last cleared, and the messages created so far. -/
structure PauseLog where
  pausedFor : List Submission
  created : List Creation
  deriving DecidableEq

namespace PauseLog

def empty : PauseLog := ⟨[], []⟩

/-- The log of the system. -/
def observe (s : State) (e : Event) (log : PauseLog) : PauseLog :=
  match e with
  | .submission _ =>
      match s.submission.pc with
      | .submit r .pause => { log with pausedFor := r :: log.pausedFor }
      | .submit _ .unpause => { log with pausedFor := [] }
      | _ => log
  | .ready _ =>
      { log with
        created := (s.ready.creating.map fun c => ⟨c, log.pausedFor⟩).toList ++ log.created }
  | _ => log

/-- No message was created for a challenge a solution of which was being submitted. -/
def HeldBack (cfg : Config) (log : PauseLog) : Prop :=
  ∀ x ∈ log.created, ∀ r ∈ x.pausedFor, ¬ r.IsFor cfg x.challenge

instance (cfg : Config) (log : PauseLog) : Decidable (log.HeldBack cfg) :=
  inferInstanceAs (Decidable (∀ x ∈ log.created, _))

variable {cfg : Config} {s s' t : State} {e : Event} {eff : Effect} {log : PauseLog}

/-- A submission enters the log when `PAUSED` is set for it. -/
theorem mem_pausedFor_observe {r : Submission} (h : r ∈ (log.observe s e).pausedFor) :
    r ∈ log.pausedFor ∨ (∃ input, e = .submission input) ∧ r ∈ s.submission.pausing := by
  cases e with
  | submission input =>
      simp only [observe] at h
      split at h
      · next x hpc =>
        refine (List.mem_cons.mp h).symm.imp id ?_
        rintro rfl
        exact ⟨⟨input, rfl⟩, by rw [PoolSubmissionProcessor.pausing, hpc]; rfl⟩
      · cases h
      · exact .inl h
  | _ => exact .inl h

/-- A message enters the log when the processor creates it. -/
theorem mem_created_observe {x : Creation} (h : x ∈ (log.observe s e).created) :
    x ∈ log.created ∨ x.challenge ∈ s.ready.creating ∧ x.pausedFor = log.pausedFor := by
  cases e with
  | submission input =>
      simp only [observe] at h
      split at h <;> exact .inl h
  | ready input =>
      refine (List.mem_append.mp h).symm.imp id ?_
      intro hnew
      obtain ⟨challenge, hchallenge, rfl⟩ := Option.map_eq_some_iff.mp (Option.mem_toList.mp hnew)
      exact ⟨hchallenge, rfl⟩
  | _ => exact .inl h

end PauseLog

/-! ## Messages under way -/

namespace State

variable {cfg : Config} {s s' t : State} {e : Event} {eff : Effect} {log : PauseLog}

/-- The challenge that the ready processor reads next. -/
def reading (s : State) : Option Challenge :=
  match s.ready with
  | .readChallenge _ _ => some s.shared.appProof.challenge
  | _ => none

/-- When `PAUSED` is set for a submission, no batch under way carries a challenge of its
solution, and while it is set no batch reads one. -/
def KeepsApart (cfg : Config) (x : State × PauseLog) : Event → Prop
  | .submission _ => ∀ r ∈ x.1.submission.pausing, ∀ challenge ∈ x.1.ready.carrying,
      ¬ r.IsFor cfg challenge
  | .ready _ => ∀ challenge ∈ x.1.reading, ∀ r ∈ x.2.pausedFor, ¬ r.IsFor cfg challenge
  | _ => True

instance (x : State × PauseLog) (e : Event) : Decidable (KeepsApart cfg x e) :=
  match e with
  | .submission _ => inferInstanceAs (Decidable (∀ r ∈ x.1.submission.pausing, _))
  | .ready _ => inferInstanceAs (Decidable (∀ challenge ∈ x.1.reading, _))
  | .mission _ | .message | .contribution | .tracking _ | .ping _ | .pong => .isTrue trivial
  | .connect _ _ _ | .receive _ _ | .streamEnded _ | .disconnect _ => .isTrue trivial
  | .land _ _ _ _ | .claim _ | .tick _ => .isTrue trivial

/-- The challenge under way is that of no submission under way. -/
structure Apart (cfg : Config) (s : State) (log : PauseLog) : Prop where
  carrying : ∀ challenge ∈ s.ready.carrying, ∀ r ∈ log.pausedFor, ¬ r.IsFor cfg challenge
  heldBack : log.HeldBack cfg

theorem step_apart (h : s.Apart cfg log) (hok : KeepsApart cfg (s, log) e)
    (hstep : s.step cfg e = some t) : t.Apart cfg (log.observe s e) := by
  obtain ⟨-, s', eff, hperform, rfl⟩ := step_eq_some.mp hstep
  constructor
  · intro challenge hcarrying r hr
    change challenge ∈ s'.ready.carrying at hcarrying
    obtain hready | ⟨input, rfl, hmoves⟩ := perform_ready hperform
    · rw [hready] at hcarrying
      obtain hold | ⟨⟨input, rfl⟩, hpausing⟩ := PauseLog.mem_pausedFor_observe hr
      · exact h.carrying challenge hcarrying r hold
      · exact hok r hpausing challenge hcarrying
    · obtain hold | ⟨⟨clients, seconds, hpc⟩, rfl⟩ := hmoves.carrying challenge hcarrying
      · exact h.carrying challenge hold r hr
      · exact hok _ (by rw [reading, hpc]; rfl) r hr
  · intro x hx r hr
    obtain hold | ⟨hcreating, hpausedFor⟩ := PauseLog.mem_created_observe hx
    · exact h.heldBack x hold r hr
    · rw [hpausedFor] at hr
      exact h.carrying x.challenge (ReadyPc.carrying_of_creating hcreating) r hr

end State

/-! ## Runs -/

namespace PauseLog

variable {cfg : Config} {s : State} {log : PauseLog}

/-- In every run in which the batches keep apart from the submissions, no message is created
for a challenge a solution of which is being submitted. -/
theorem heldBack_of_run {proof : Proof} {events : List Event}
    (h : run (withHistory (State.step cfg) fun s e log => observe s e log)
      (.start proof, .empty) events = some (s, log))
    (hmeets : Meets (withHistory (State.step cfg) fun s e log => observe s e log)
      (State.KeepsApart cfg) (.start proof, .empty) events) : log.HeldBack cfg := by
  have hstart : State.Apart cfg (.start proof) .empty :=
    ⟨fun challenge hcarrying => (by cases hcarrying), fun x hx => (by cases hx)⟩
  refine (invariant_of_meets (I := fun x : State × PauseLog => x.1.Apart cfg x.2) ?_ hstart
    hmeets h).heldBack
  rintro ⟨s, log⟩ e ⟨t, log'⟩ hs hok hpair
  obtain ⟨hstep, rfl⟩ := withHistory_eq_some.mp hpair
  exact State.step_apart hs hok hstep

/-- A batch is handed out, and then the solution of one of its missions is sent. -/
theorem heldBack_send : ∃ s log,
    run (withHistory (State.step Scenario.config) fun s e log => observe s e log)
      (.start Scenario.proof, .empty) (Scenario.untilLanded 5) = some (s, log) ∧
    log.created.length = 1 ∧ log.pausedFor.length = 1 ∧ log.HeldBack Scenario.config := by
  obtain ⟨⟨s, log⟩, hrun, hcreated, hpausedFor⟩ := exists_run
    (withHistory (State.step Scenario.config) fun s e log => observe s e log)
    (.start Scenario.proof, .empty) (Scenario.untilLanded 5)
    (fun x => x.2.created.length = 1 ∧ x.2.pausedFor.length = 1) (by decide)
  exact ⟨s, log, hrun, hcreated, hpausedFor, heldBack_of_run hrun (by decide)⟩

/-- A client submits a solution and is ready again. Its second batch finds no best solution
yet and passes the check, then the solution is recorded and its submission starts, and then
the batch goes on. -/
def readyUp : List Event :=
  Scenario.join 0 (.fill 32 1) 1 ++ Scenario.batch [0] ++
    [.receive 0 (.binary (Scenario.solutionBytes Scenario.solution (.fill 32 1))),
      .receive 0 (.binary [0]), .message, .message, .message, .message,
      .ready (.collect [0]), .ready .proceed, .ready .proceed, .ready (.clock 100),
      .ready .proceed] ++
    List.replicate 6 .contribution ++ Scenario.send ++ List.replicate 4 (.ready .proceed)

theorem not_heldBack : ¬ ∀ cfg proof events s log,
    run (withHistory (State.step cfg) fun s e log => observe s e log)
      (.start proof, .empty) events = some (s, log) → log.HeldBack cfg := by
  intro h
  obtain ⟨⟨s, log⟩, hrun, hbroken⟩ := exists_run
    (withHistory (State.step Scenario.config) fun s e log => observe s e log)
    (.start Scenario.proof, .empty) readyUp (fun x => ¬ x.2.HeldBack Scenario.config) (by decide)
  exact hbroken (h _ _ _ _ _ hrun)

end PauseLog

end Hashpoo.Mining
