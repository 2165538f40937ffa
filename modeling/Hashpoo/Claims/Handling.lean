import Hashpoo.Claims.System
import Hashpoo.Foundation.Loops

/-!
# Handling one claim

Between the blockhash and the booking `claim_processor` passes two loops with one signed
transaction, the first until a send is accepted and the second until a poll decides. The
timer that is started with the blockhash is read in the second loop only. A transaction
that expires before its first accepted send is therefore sent again without end.

Time is counted in milliseconds. Each call of the node takes a time of its own, and the
sleeps between the rounds are those of the source.
-/

namespace Hashpoo.Claims

open Foundation

/-- What the node answers to the call of a round, and how long the call takes. -/
structure RpcAnswer where
  took : Nat
  /-- `get_latest_blockhash_with_commitment` succeeds. -/
  blockhash : Bool
  /-- `send_transaction_with_config` succeeds. -/
  sent : Bool
  /-- The status of the signature, and whether it has an error. -/
  status : Option (TransactionConfirmationStatus × Bool)
  deriving DecidableEq

/-- What the handling ends with. Only the first is a payment. -/
inductive ClaimResult where
  | confirmed
  | failed
  | expired
  | noBlockhash
  deriving DecidableEq

inductive HandlingPc where
  | blockhash
  | send
  | poll
  | done (result : ClaimResult)
  deriving DecidableEq

/-- `timer` is the start of `expired_timer`. -/
structure Handling where
  pc : HandlingPc
  now : Nat
  timer : Nat
  deriving DecidableEq

namespace Handling

/-- `expired_timer.elapsed().as_secs() >= 200`. -/
def Expired (h : Handling) : Prop := (h.now - h.timer) / 1000 ≥ 200

instance (h : Handling) : Decidable h.Expired := inferInstanceAs (Decidable (_ ≥ _))

def step (h : Handling) (answer : RpcAnswer) : Handling :=
  match h.pc with
  | .blockhash =>
      let now := h.now + answer.took
      if answer.blockhash then ⟨.send, now, now⟩ else ⟨.done .noBlockhash, now, h.timer⟩
  | .send =>
      let now := h.now + answer.took
      if answer.sent then { h with pc := .poll, now := now } else { h with now := now + 2000 }
  | .poll =>
      if h.Expired then { h with pc := .done .expired }
      else
        let now := h.now + answer.took
        match answer.status with
        | some (.confirmed, err) =>
            { h with pc := .done (if err then .failed else .confirmed), now := now }
        | some (.processed, _) | some (.finalized, _) | none => { h with now := now + 500 }
  | .done _ => h

/-- The claim is taken up at the time `now`. -/
def start (now : Nat) : Handling := ⟨.blockhash, now, now⟩

/-- The handling has ended, with payment or with an error. -/
def Ended (h : Handling) : Prop := ∃ result, h.pc = .done result

/-- The handling ends after finitely many sends and polls. -/
def Ends (now : Nat) (answers : Nat → RpcAnswer) : Prop :=
  Reaches step (start now) answers Ended

/-- Once the blockhash is older than `lifetime`, every send is rejected. -/
def RejectsExpired (lifetime now : Nat) (answers : Nat → RpcAnswer) : Prop :=
  ∀ n, let h := after step (start now) answers n
    h.pc = .send → lifetime ≤ h.now - h.timer → (answers n).sent = false

variable {h : Handling} {answer : RpcAnswer} {answers : Nat → RpcAnswer} {now : Nat}

/-! ## The processor of the system -/

/-- Where the processor of the system is when the handling is at the place. -/
inductive Matches (job : Job) (tx : PayoutTx) : HandlingPc → ClaimPc → Prop
  | send (timer : Nat) : Matches job tx .send (.send job tx timer)
  | poll (timer : Nat) : Matches job tx .poll (.poll job tx timer)
  | confirmed : Matches job tx (.done .confirmed) (.book job tx .getMiner)
  | failed : Matches job tx (.done .failed) .idle
  | expired : Matches job tx (.done .expired) .idle

/-- The answer is one that the chain can give. -/
def Reported (c : Chain) (tx : PayoutTx) (answer : RpcAnswer) : Prop :=
  ∀ status err, answer.status = some (status, err) → ∃ l, c.find tx = some l ∧
    status.rank ≤ l.status.rank ∧ (status = .confirmed → l.failed = err)

theorem send_simulates {wallet : Pubkey} {s : State} {job : Job} {tx : PayoutTx}
    (hpc : h.pc = .send) (hmatches : Matches job tx h.pc s.pc) :
    ∃ t, s.stepProcessor wallet (.sent answer.sent) = some t ∧
      Matches job tx (h.step answer).pc t.pc := by
  rw [hpc] at hmatches
  cases hs : s.pc with
  | send job' tx' timer =>
      rw [hs] at hmatches
      cases hmatches
      cases hsent : answer.sent with
      | true =>
          refine ⟨(s.deliver tx).goto (.poll job tx timer), by simp [State.stepProcessor, hs], ?_⟩
          simp only [step, hpc, hsent, if_true]
          exact .poll timer
      | false =>
          refine ⟨s.deliver tx, by simp [State.stepProcessor, hs], ?_⟩
          simp only [step, hpc, hsent, Bool.false_eq_true, if_false, State.deliver, hs]
          exact .send timer
  | _ =>
      rw [hs] at hmatches
      cases hmatches

theorem poll_simulates {wallet : Pubkey} {s : State} {job : Job} {tx : PayoutTx} {timer : Nat}
    (hpc : h.pc = .poll) (hs : s.pc = .poll job tx timer)
    (hclock : s.now - timer ≥ 200 ↔ h.Expired) (hchain : Reported s.chain tx answer) :
    ∃ t, s.stepProcessor wallet (.status (answer.status.map Prod.fst)) = some t ∧
      Matches job tx (h.step answer).pc t.pc := by
  by_cases hexpired : h.Expired
  · refine ⟨s.goto .idle, by simp [State.stepProcessor, hs, hclock.mpr hexpired], ?_⟩
    simp only [step, hpc, hexpired, if_true]
    exact .expired
  · have hrunning : ¬ s.now - timer ≥ 200 := mt hclock.mp hexpired
    have hwaiting : Matches job tx .poll s.pc := hs ▸ .poll timer
    cases hstatus : answer.status with
    | none =>
        refine ⟨s, by simp [State.stepProcessor, hs, hrunning], ?_⟩
        simpa only [step, hpc, hexpired, if_false, hstatus] using hwaiting
    | some seen =>
        obtain ⟨status, err⟩ := seen
        obtain ⟨l, hfind, hrank, hfailed⟩ := hchain status err hstatus
        cases status with
        | processed =>
            refine ⟨s, by simp [State.stepProcessor, hs, hrunning, hfind, hrank], ?_⟩
            simpa only [step, hpc, hexpired, if_false, hstatus] using hwaiting
        | finalized =>
            refine ⟨s, by simp [State.stepProcessor, hs, hrunning, hfind, hrank], ?_⟩
            simpa only [step, hpc, hexpired, if_false, hstatus] using hwaiting
        | confirmed =>
            obtain rfl := hfailed rfl
            simp only [State.stepProcessor, hs, hrunning, if_false, Option.map_some, hfind, hrank,
              if_true, step, hpc, hexpired, hstatus]
            cases l.failed with
            | true => exact ⟨_, rfl, .failed⟩
            | false => exact ⟨_, rfl, .confirmed⟩

/-! ## The loop of the polls -/

/-- Milliseconds until the timer runs out, and one round more. -/
def remaining (h : Handling) : Nat :=
  match h.pc with
  | .done _ => 0
  | .blockhash | .send | .poll => 1 + (200_000 - (h.now - h.timer))

/-- A poll decides, or half a second less remains. -/
theorem step_poll (hpc : h.pc = .poll) :
    (h.step answer).Ended ∨ (h.step answer).pc = .poll ∧
      (h.step answer).timer = h.timer ∧ h.now + 500 ≤ (h.step answer).now ∧ ¬ h.Expired := by
  simp only [step, hpc]
  split
  · exact .inl ⟨.expired, rfl⟩
  · next hrunning =>
    split
    · exact .inl ⟨_, rfl⟩
    all_goals exact .inr ⟨rfl, rfl, by dsimp only; omega, hrunning⟩

theorem ends_of_poll (hpc : h.pc = .poll) (htimer : h.timer ≤ h.now) :
    Reaches step h answers Ended := by
  refine reaches_of_measure (fun h => h.pc = .poll ∧ h.timer ≤ h.now ∨ h.Ended)
    (fun _ => True) remaining (fun _ => trivial) ?_ (.inl ⟨hpc, htimer⟩)
  rintro h answer (⟨hpc, htimer⟩ | hended) -
  · right
    obtain ⟨result, hdone⟩ | ⟨hpoll, hsame, hlater, hrunning⟩ :=
      @step_poll h answer hpc
    · refine ⟨.inr ⟨result, hdone⟩, ?_⟩
      simp only [remaining, hdone, hpc]
      omega
    · refine ⟨.inl ⟨hpoll, by omega⟩, ?_⟩
      simp only [Expired] at hrunning
      simp only [remaining, hpoll, hpc]
      omega
  · exact .inl hended

/-! ## The loop of the sends -/

/-- The first accepted send leads to the polls. -/
theorem ends_of_send (hpc : h.pc = .send) (htimer : h.timer ≤ h.now)
    (hsent : ∃ n, (answers n).sent = true) : Reaches step h answers Ended := by
  obtain ⟨n, hn⟩ := hsent
  induction n generalizing h answers with
  | zero =>
      refine reaches_iff_step.mpr (.inr (ends_of_poll ?_ ?_))
      · simp [step, hpc, hn]
      · simp only [step, hpc, hn, if_true]
        omega
  | succ n ih =>
      refine reaches_iff_step.mpr (.inr ?_)
      cases hfirst : (answers 0).sent with
      | true =>
          refine ends_of_poll ?_ ?_
          · simp [step, hpc, hfirst]
          · simp only [step, hpc, hfirst, if_true]
            omega
      | false =>
          refine ih ?_ ?_ (by rwa [Nat.add_comm] at hn)
          · simp [step, hpc, hfirst]
          · simp only [step, hpc, hfirst, Bool.false_eq_true, if_false]
            omega

/-- Nothing else leads out of the loop. -/
theorem not_ends_of_rejected (hpc : h.pc = .send) (hrejected : ∀ n, (answers n).sent = false) :
    ¬ Reaches step h answers Ended := by
  refine not_reaches_of_trap (fun h => h.pc = .send) (fun answer => answer.sent = false)
    hrejected ?_ ?_ hpc
  · intro h answer hpc hanswer
    simp [step, hpc, hanswer]
  · rintro h hpc ⟨result, hdone⟩
    rw [hpc] at hdone
    cases hdone

/-! ## The handling -/

/-- A claim is handled to the end exactly when the node gives it no blockhash, or accepts
some send. -/
theorem ends_iff (now : Nat) (answers : Nat → RpcAnswer) :
    Ends now answers ↔ (answers 0).blockhash = false ∨ ∃ n, (answers (1 + n)).sent = true := by
  rw [Ends, reaches_iff_step]
  have hstart : ¬ (start now).Ended := nofun
  cases hhash : (answers 0).blockhash with
  | false =>
      refine iff_of_true (.inr ⟨0, .noBlockhash, ?_⟩) (.inl rfl)
      simp [after, step, start, hhash]
  | true =>
      have hsend : ((start now).step (answers 0)).pc = .send := by simp [step, start, hhash]
      have htimer : ((start now).step (answers 0)).timer = ((start now).step (answers 0)).now := by
        simp [step, start, hhash]
      constructor
      · rintro (hended | hreaches)
        · exact absurd hended hstart
        · right
          by_contra hnever
          exact not_ends_of_rejected hsend (by simpa using hnever) hreaches
      · rintro (hfalse | hsent)
        · cases hfalse
        · exact .inr (ends_of_send hsend (le_of_eq htimer) hsent)

end Handling

end Hashpoo.Claims
