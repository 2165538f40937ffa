import Hashpoo.Admission.System
import Hashpoo.Claims.System

/-!
# One claim request from end to end

`post_claim` with its clock readings, its five checks in front of the first await and the
texts of its answers, run without interference. `postClaim_simulates` relates it to the
steps of the system, in which a request starts behind the verification of its signature.

The last checks before money leaves the pool compare a word with a balance that is cast to
one, take a failed lookup of the last claim for a missing row, and end the server when there
is a row. `guarded_iff` says when this does not matter.
-/

namespace Hashpoo.Claims

open Foundation
open Admission (Attempt)

/-! ## Requests and responses -/

/-- The foreign code that a request uses. -/
structure ClaimConfig where
  sdk : SignatureScheme
  /-- `Pubkey::from_str`. -/
  pubkeyFromStr : String → Option Pubkey

structure ClaimParams where
  timestamp : UInt64
  receiverPubkey : String
  amount : UInt64
  deriving DecidableEq

/-- Key and signature are the two parts of the basic authorization header. -/
structure ClaimRequest where
  username : String
  password : String
  queryParams : ClaimParams
  deriving DecidableEq

inductive StatusCode where
  | ok
  | badRequest
  | unauthorized
  | tooManyRequests
  | internalServerError
  deriving DecidableEq

inductive ClaimRejection where
  | timestampTooOld
  | invalidReceiverPubkey
  | invalidPubkey
  | invalidSignature
  | verificationFailed
  | queued
  | belowMinimum
  | belowMinimumWithoutAta
  | noRewards
  | exceedsBalance
  | claimedRecently (timeDifference : Int)
  deriving DecidableEq

/-- Both minima are printed as decimals of ORE. -/
def ClaimRejection.response : ClaimRejection → StatusCode × String
  | .timestampTooOld => (.unauthorized, "Timestamp too old.")
  | .invalidReceiverPubkey => (.badRequest, "Invalid receiver_pubkey provided.")
  | .invalidPubkey => (.badRequest, "Invalid Pubkey")
  | .invalidSignature => (.unauthorized, "Invalid signature")
  | .verificationFailed => (.unauthorized, "Sig verification failed")
  | .queued => (.tooManyRequests, "QUEUED")
  | .belowMinimum => (.badRequest,
      "The claim minimum is 0.005 ORE even if you have alreay a valid token account.")
  | .belowMinimumWithoutAta => (.badRequest,
      "Since no valid token account already exists, the claim minimum is 0.005 ORE")
  | .noRewards => (.internalServerError, "failed to get miner account from database")
  | .exceedsBalance => (.badRequest, "claim amount exceeds miner rewards balance.")
  | .claimedRecently timeDifference => (.tooManyRequests, toString timeDifference)

def claimResponse : Except ClaimRejection Unit → StatusCode × String
  | .ok _ => (.ok, "SUCCESS")
  | .error rejection => rejection.response

/-- What the clock, the node and the database contribute to a request. -/
structure ClaimEnvironment where
  now : UInt64
  /-- The answer of `get_token_account_balance` with its `ui_amount`. -/
  tokenAccount : Option (Option Float)
  /-- The call of `get_miner_rewards`. -/
  minerRewards : Attempt
  /-- The call of `get_last_claim`. -/
  lastClaim : Attempt
  /-- The clock behind `get_last_claim`. -/
  nowAfter : UInt64

abbrev ClaimsQueue := HashMap Pubkey ClaimsQueueItem

/-! ## `post_claim` -/

/-- The bytes that the miner signs. -/
def ClaimParams.signedMsg (params : ClaimParams) (receiverPubkey : Pubkey) : List UInt8 :=
  Word.toLeBytes 8 params.timestamp.toNat ++ receiverPubkey.val ++
    Word.toLeBytes 8 params.amount.toNat

/-- The checks in front of the first await, with the miner and the receiver they name. -/
def verifyClaim (cfg : ClaimConfig) (now : UInt64) (r : ClaimRequest) :
    Except ClaimRejection (Pubkey × Pubkey) :=
  if now - r.queryParams.timestamp ≥ 30 then .error .timestampTooOld
  else match cfg.pubkeyFromStr r.queryParams.receiverPubkey with
  | none => .error .invalidReceiverPubkey
  | some receiverPubkey =>
      match cfg.pubkeyFromStr r.username with
      | none => .error .invalidPubkey
      | some minerPubkey =>
          match cfg.sdk.fromStr r.password with
          | none => .error .invalidSignature
          | some signature =>
              if cfg.sdk.verify signature minerPubkey (r.queryParams.signedMsg receiverPubkey) then
                .ok (minerPubkey, receiverPubkey)
              else
                .error .verificationFailed

/-- A token account without a `ui_amount` counts as missing. -/
def isCreatingAta : Option (Option Float) → Bool
  | some (some _) => false
  | some none | none => true

/-- The decoding of the row panics behind a query that is answered. -/
def ClaimEnvironment.getLastClaim (env : ClaimEnvironment) (db : Database) (minerId : Int) :
    Except Panic (Except DatabaseError Int) :=
  match env.lastClaim with
  | .answered => db.getLastClaim minerId
  | .failed err => .ok (.error err)
  | .unwrapped => .error .unwrapOnErr

/-- `now - last_claim_ts` in `i64`. -/
def timeDifference (now : UInt64) (lastClaimTs : Int) : Int :=
  Word.signed 64 (Word.signed 64 now.toNat - lastClaimTs)

/-- The last check, and the insertion. `if let Ok` passes over every error. -/
def claimOrWait (env : ClaimEnvironment) (queue : ClaimsQueue) (db : Database)
    (minerPubkey : Pubkey) (item : ClaimsQueueItem) (minerId : Int) :
    Except Panic (Except ClaimRejection Unit × ClaimsQueue) :=
  match env.getLastClaim db minerId with
  | .error p => .error p
  | .ok (.ok created) =>
      if timeDifference env.nowAfter created ≤ 1800 then
        .ok (.error (.claimedRecently (timeDifference env.nowAfter created)), queue)
      else
        .ok (.ok (), queue.insert minerPubkey item)
  | .ok (.error _) => .ok (.ok (), queue.insert minerPubkey item)

def postClaim (cfg : ClaimConfig) (env : ClaimEnvironment) (queue : ClaimsQueue) (db : Database)
    (r : ClaimRequest) : Except Panic (Except ClaimRejection Unit × ClaimsQueue) :=
  match verifyClaim cfg env.now r with
  | .error rejection => .ok (.error rejection, queue)
  | .ok (minerPubkey, receiverPubkey) =>
      let amount := r.queryParams.amount.toNat
      if minerPubkey ∈ queue then .ok (.error .queued, queue)
      else if amount < minClaimAmountExistsAta then .ok (.error .belowMinimum, queue)
      else if isCreatingAta env.tokenAccount ∧ amount < minClaimAmountNotExistsAta then
        .ok (.error .belowMinimumWithoutAta, queue)
      else match env.minerRewards.query (db.getMinerRewards minerPubkey) with
      | .error p => .error p
      | .ok (.error _) => .ok (.error .noRewards, queue)
      | .ok (.ok minerRewards) =>
          if amount > Word.unsigned 64 minerRewards.balance then
            .ok (.error .exceedsBalance, queue)
          else
            claimOrWait env queue db minerPubkey ⟨receiverPubkey, amount⟩ minerRewards.minerId

/-! ## The checks of the code -/

/-- The request passes the checks in front of the first await. -/
structure Verified (cfg : ClaimConfig) (now : UInt64) (r : ClaimRequest)
    (minerPubkey receiverPubkey : Pubkey) : Prop where
  fresh : now - r.queryParams.timestamp < 30
  receiver : cfg.pubkeyFromStr r.queryParams.receiverPubkey = some receiverPubkey
  miner : cfg.pubkeyFromStr r.username = some minerPubkey
  signed : ∃ signature, cfg.sdk.fromStr r.password = some signature ∧
    cfg.sdk.verify signature minerPubkey (r.queryParams.signedMsg receiverPubkey) = true

/-- The request passes every check in front of `get_last_claim`. -/
structure Passes (cfg : ClaimConfig) (env : ClaimEnvironment) (queue : ClaimsQueue)
    (db : Database) (r : ClaimRequest) (minerPubkey receiverPubkey : Pubkey)
    (minerRewards : Reward) : Prop where
  verified : Verified cfg env.now r minerPubkey receiverPubkey
  notQueued : minerPubkey ∉ queue
  minimum : minClaimAmountExistsAta ≤ r.queryParams.amount.toNat
  answered : env.minerRewards = .answered
  rewards : db.getMinerRewards minerPubkey = .ok minerRewards
  covered : r.queryParams.amount.toNat ≤ Word.unsigned 64 minerRewards.balance

/-- The lookup of the last claim ends the server: its `prepare` is unwrapped, or it is
answered with a row. -/
def Crashes (env : ClaimEnvironment) (db : Database) (minerId : Int) : Prop :=
  env.lastClaim = .unwrapped ∨
    env.lastClaim = .answered ∧ ∃ created, db.lastClaim minerId = some created

theorem crashes_iff {env : ClaimEnvironment} {db : Database} {minerId : Int} :
    Crashes env db minerId ↔ ∃ p, env.getLastClaim db minerId = .error p := by
  cases hlast : env.lastClaim with
  | unwrapped => simp [Crashes, ClaimEnvironment.getLastClaim, hlast]
  | failed err => simp [Crashes, ClaimEnvironment.getLastClaim, hlast]
  | answered =>
      cases hrow : db.lastClaim minerId with
      | none => simp [Crashes, ClaimEnvironment.getLastClaim, Database.getLastClaim, hlast, hrow]
      | some created =>
          simp [Crashes, ClaimEnvironment.getLastClaim, Database.getLastClaim, hlast, hrow]

section Checks

variable {cfg : ClaimConfig} {env : ClaimEnvironment} {queue queue' : ClaimsQueue}
  {db : Database} {r : ClaimRequest} {minerPubkey receiverPubkey : Pubkey} {minerRewards : Reward}
  {response : Except ClaimRejection Unit}

theorem verifyClaim_eq_ok {now : UInt64} :
    verifyClaim cfg now r = .ok (minerPubkey, receiverPubkey) ↔
      Verified cfg now r minerPubkey receiverPubkey := by
  constructor
  · intro h
    simp only [verifyClaim] at h
    split at h
    · cases h
    · next hfresh =>
      split at h
      · cases h
      · next receiver hreceiver =>
        split at h
        · cases h
        · next miner hminer =>
          split at h
          · cases h
          · next signature hsignature =>
            split at h
            · next hverify =>
              cases h
              exact ⟨UInt64.not_le.mp hfresh, hreceiver, hminer, signature, hsignature, hverify⟩
            · cases h
  · rintro ⟨hfresh, hreceiver, hminer, signature, hsignature, hverify⟩
    have hnew : ¬ now - r.queryParams.timestamp ≥ 30 := UInt64.not_le.mpr hfresh
    simp only [verifyClaim, hnew, if_false, hreceiver, hminer, hsignature, hverify, if_true]

/-- A request that passes comes to the last check. -/
theorem postClaim_of_passes
    (h : Passes cfg env queue db r minerPubkey receiverPubkey minerRewards) :
    postClaim cfg env queue db r = claimOrWait env queue db minerPubkey
      ⟨receiverPubkey, r.queryParams.amount.toNat⟩ minerRewards.minerId := by
  have hminimum := Nat.not_lt.mpr h.minimum
  have hwithoutAta : ¬ (isCreatingAta env.tokenAccount = true ∧
      r.queryParams.amount.toNat < minClaimAmountNotExistsAta) := fun hlow => hminimum hlow.2
  have hcovered : ¬ r.queryParams.amount.toNat > Word.unsigned 64 minerRewards.balance :=
    Nat.not_lt.mpr h.covered
  simp only [postClaim, verifyClaim_eq_ok.mpr h.verified, h.notQueued, if_false, hminimum,
    hwithoutAta, h.answered, Attempt.query, h.rewards, hcovered]

/-- Any other request leaves the queue alone. -/
theorem postClaim_cases (h : postClaim cfg env queue db r = .ok (response, queue')) :
    queue' = queue ∨ ∃ minerPubkey receiverPubkey minerRewards,
      Passes cfg env queue db r minerPubkey receiverPubkey minerRewards := by
  simp only [postClaim] at h
  split at h
  · cases h
    exact .inl rfl
  · next minerPubkey receiverPubkey hverify =>
    split at h
    · cases h
      exact .inl rfl
    · next hqueue =>
      split at h
      · cases h
        exact .inl rfl
      · next hminimum =>
        split at h
        · cases h
          exact .inl rfl
        · split at h
          · cases h
          · cases h
            exact .inl rfl
          · next minerRewards hrewards =>
            obtain ⟨hanswered, hrow⟩ := Attempt.query_eq_ok hrewards
            split at h
            · cases h
              exact .inl rfl
            · next hcovered =>
              exact .inr ⟨minerPubkey, receiverPubkey, minerRewards, verifyClaim_eq_ok.mp hverify,
                hqueue, Nat.not_lt.mp hminimum, hanswered, hrow, Nat.not_lt.mp hcovered⟩

theorem claimOrWait_of_crashes {item : ClaimsQueueItem} {minerId : Int}
    (h : Crashes env db minerId) :
    ∃ p, claimOrWait env queue db minerPubkey item minerId = .error p := by
  obtain ⟨p, hpanic⟩ := crashes_iff.mp h
  exact ⟨p, by simp only [claimOrWait, hpanic]⟩

/-- No row is ever read, so that the code never waits. -/
theorem claimOrWait_of_not_crashes {item : ClaimsQueueItem} {minerId : Int}
    (h : ¬ Crashes env db minerId) : claimOrWait env queue db minerPubkey item minerId =
      .ok (.ok (), queue.insert minerPubkey item) := by
  cases hlast : env.lastClaim with
  | unwrapped => exact absurd (.inl hlast) h
  | failed err => simp only [claimOrWait, ClaimEnvironment.getLastClaim, hlast]
  | answered =>
      cases hrow : db.lastClaim minerId with
      | none =>
          simp only [claimOrWait, ClaimEnvironment.getLastClaim, Database.getLastClaim, hlast, hrow]
      | some created => exact absurd (.inr ⟨hlast, created, hrow⟩) h

end Checks

/-! ## The steps of the system -/

/-- The steps of the request `k` when nothing comes between them. -/
def requestEvents (k : Nat) (env : ClaimEnvironment) : List Event :=
  [.request k .proceed, .request k (.ata (isCreatingAta env.tokenAccount)),
    .request k (.call (decide env.minerRewards.Fails)),
    .request k (.call (decide env.lastClaim.Fails)), .request k .proceed]

/-- The queue of the system without its numbers. -/
def SameItems (queue : HashMap Pubkey Queued) (items : ClaimsQueue) : Prop :=
  ∀ pubkey, (queue.lookup pubkey).map Queued.item = items.lookup pubkey

namespace SameItems

variable {queue : HashMap Pubkey Queued} {items : ClaimsQueue}

theorem mem_iff (h : SameItems queue items) (pubkey : Pubkey) :
    pubkey ∈ queue ↔ pubkey ∈ items := by
  rw [← AList.lookup_isSome, ← AList.lookup_isSome, ← h pubkey, Option.isSome_map]

theorem insert (h : SameItems queue items) (minerPubkey : Pubkey) (queued : Queued) :
    SameItems (queue.insert minerPubkey queued) (items.insert minerPubkey queued.item) := by
  intro pubkey
  by_cases hkey : pubkey = minerPubkey
  · subst hkey
    rw [AList.lookup_insert, AList.lookup_insert, Option.map_some]
  · rw [AList.lookup_insert_ne hkey, AList.lookup_insert_ne hkey, h pubkey]

end SameItems

/-- Some of the events answer the request, and leave these items in the queue. -/
def Answers (wallet : Pubkey) (s : State) (k : Nat) (events : List Event)
    (items : ClaimsQueue) : Prop :=
  ∃ n t, run (State.step wallet) s (events.take n) = some t ∧ SameItems t.queue items ∧
    t.requests = s.requests.eraseIdx k

section Simulation

variable {wallet : Pubkey} {s t : State} {k : Nat} {q : Request} {input : RequestInput}
  {events : List Event} {cfg : ClaimConfig} {env : ClaimEnvironment}
  {queue queue' : ClaimsQueue} {r : ClaimRequest} {minerPubkey receiverPubkey : Pubkey}
  {response : Except ClaimRejection Unit}

theorem run_request (halive : s.aborted = false) (hrequest : s.requests[k]? = some q)
    (hstep : s.stepRequest k q input = some t) (events : List Event) :
    run (State.step wallet) s (.request k input :: events) =
      run (State.step wallet) t events := by
  rw [run, State.step, halive]
  simp only [Bool.false_eq_true, if_false, State.stepAlive, hrequest, hstep, Option.bind_some]

/-- The step answers the request. -/
theorem Answers.last (halive : s.aborted = false) (hrequest : s.requests[k]? = some q)
    (hstep : s.stepRequest k q input = some t) (hitems : SameItems t.queue queue)
    (hend : t.requests = s.requests.eraseIdx k) :
    Answers wallet s k (.request k input :: events) queue :=
  ⟨1, t, by rw [List.take_succ_cons, run_request halive hrequest hstep, List.take_zero, run],
    hitems, hend⟩

/-- The step rejects the request. -/
theorem Answers.finish (halive : s.aborted = false) (hrequest : s.requests[k]? = some q)
    (hitems : SameItems s.queue queue) (hstep : s.stepRequest k q input = some (s.finish k)) :
    Answers wallet s k (.request k input :: events) queue :=
  .last halive hrequest hstep hitems rfl

/-- The step leads to the next await. -/
theorem Answers.next (pc : RequestPc) (halive : s.aborted = false)
    (hrequest : s.requests[k]? = some q) (hstep : s.stepRequest k q input = some (s.proceed k q pc))
    (hrest : Answers wallet (s.proceed k q pc) k events queue) :
    Answers wallet s k (.request k input :: events) queue := by
  obtain ⟨n, t, hrun, hitems, hend⟩ := hrest
  refine ⟨n + 1, t, ?_, hitems, ?_⟩
  · rw [List.take_succ_cons, run_request halive hrequest hstep, hrun]
  · rw [hend, State.proceed, List.eraseIdx_set_eq]

theorem requests_proceed (hrequest : s.requests[k]? = some q) (pc : RequestPc) :
    (s.proceed k q pc).requests[k]? = some { q with pc := pc } := by
  obtain ⟨hk, -⟩ := List.getElem?_eq_some_iff.mp hrequest
  simp [State.proceed, hk]

/-- An error of an attempt is an error of the system's call. -/
theorem query_of_attempt {α : Type} {attempt : Attempt} {answer res : Except DatabaseError α}
    (h : attempt.query answer = .ok res) :
    query (decide attempt.Fails) answer = res ∨
      (∃ err, res = .error err) ∧ ∃ err, query (decide attempt.Fails) answer = .error err := by
  cases attempt with
  | answered => exact .inl (Except.ok.inj h)
  | failed err => exact .inr ⟨⟨err, (Except.ok.inj h).symm⟩, _, rfl⟩
  | unwrapped => cases h

/-- The steps from `get_last_claim` on. -/
theorem claimOrWait_simulated {minerId : Int} (halive : s.aborted = false)
    (hrequest : s.requests[k]? = some q) (hpc : q.pc = .checkLastClaim minerId)
    (hitems : SameItems s.queue queue)
    (hclaim : claimOrWait env queue s.db q.minerPubkey ⟨q.receiverPubkey, q.amount⟩ minerId =
      .ok (response, queue')) :
    Answers wallet s k [.request k (.call (decide env.lastClaim.Fails)), .request k .proceed]
      queue' := by
  have hinsert : Answers wallet (s.proceed k q .insert) k [.request k .proceed]
      (queue.insert q.minerPubkey ⟨q.receiverPubkey, q.amount⟩) := by
    refine .last halive (requests_proceed hrequest .insert) rfl (hitems.insert _ _) ?_
    rfl
  by_cases hcrashes : Crashes env s.db minerId
  · obtain ⟨p, hpanic⟩ := claimOrWait_of_crashes hcrashes
    rw [hpanic] at hclaim
    cases hclaim
  · rw [claimOrWait_of_not_crashes hcrashes] at hclaim
    cases hclaim
    refine .next .insert halive hrequest ?_ hinsert
    cases hlast : env.lastClaim with
    | unwrapped => exact absurd (.inl hlast) hcrashes
    | failed err =>
        have hfails : decide (Attempt.failed err).Fails = true := decide_eq_true trivial
        simp only [State.stepRequest, hpc, hfails, if_true]
    | answered =>
        cases hrow : s.db.lastClaim minerId with
        | none =>
            simp [State.stepRequest, hpc, Attempt.Fails, Database.getLastClaim, hrow]
        | some created => exact absurd (.inr ⟨hlast, created, hrow⟩) hcrashes

/-- Without interference the steps of a verified request do what `post_claim` does. -/
theorem postClaim_simulates (halive : s.aborted = false)
    (hverified : verifyClaim cfg env.now r = .ok (minerPubkey, receiverPubkey))
    (hrequest : s.requests[k]? =
      some ⟨minerPubkey, receiverPubkey, r.queryParams.amount.toNat, .checkQueue⟩)
    (hitems : SameItems s.queue queue)
    (hclaim : postClaim cfg env queue s.db r = .ok (response, queue')) :
    Answers wallet s k (requestEvents k env) queue' := by
  simp only [postClaim, hverified] at hclaim
  by_cases hqueue : minerPubkey ∈ queue
  · simp only [hqueue, if_true] at hclaim
    cases hclaim
    refine .finish halive hrequest hitems ?_
    simp only [State.stepRequest, (hitems.mem_iff _).mpr hqueue, if_true]
  simp only [hqueue, if_false] at hclaim
  refine .next .checkAta halive hrequest ?_ ?_
  · simp only [State.stepRequest, mt (hitems.mem_iff _).mp hqueue, if_false]
  have hrequest₁ := requests_proceed hrequest .checkAta
  by_cases hminimum : r.queryParams.amount.toNat < minClaimAmountExistsAta
  · simp only [hminimum, if_true] at hclaim
    cases hclaim
    refine .finish halive hrequest₁ hitems ?_
    simp only [State.stepRequest, hminimum, if_true]
  have hwithoutAta : ¬ (isCreatingAta env.tokenAccount = true ∧
      r.queryParams.amount.toNat < minClaimAmountNotExistsAta) := fun hlow => hminimum hlow.2
  simp only [hminimum, hwithoutAta, if_false] at hclaim
  refine .next .checkBalance halive hrequest₁ ?_ ?_
  · simp only [State.stepRequest, hminimum, hwithoutAta, if_false]
  have hrequest₂ := requests_proceed hrequest₁ .checkBalance
  split at hclaim
  · cases hclaim
  · next err hquery =>
    cases hclaim
    refine .finish halive hrequest₂ hitems ?_
    obtain hsame | ⟨-, err', herr⟩ := query_of_attempt hquery
    · simp only [State.stepRequest, State.proceed, hsame]
    · simp only [State.stepRequest, State.proceed, herr]
  · next minerRewards hquery =>
    have hcall : query (decide env.minerRewards.Fails) (s.db.getMinerRewards minerPubkey) =
        .ok minerRewards := by
      obtain hsame | ⟨⟨err, herr⟩, -⟩ := query_of_attempt hquery
      · exact hsame
      · cases herr
    by_cases hcovered : r.queryParams.amount.toNat > Word.unsigned 64 minerRewards.balance
    · simp only [hcovered, if_true] at hclaim
      cases hclaim
      refine .finish halive hrequest₂ hitems ?_
      simp only [State.stepRequest, State.proceed, hcall, hcovered, if_true]
    · simp only [hcovered, if_false] at hclaim
      refine .next (.checkLastClaim minerRewards.minerId) halive hrequest₂ ?_ ?_
      · simp only [State.stepRequest, State.proceed, hcall, hcovered, if_false]
      · exact claimOrWait_simulated halive (requests_proceed hrequest₂ _) rfl hitems hclaim

end Simulation

/-! ## Payable claims -/

/-- What has to hold for a claim, in terms of integers and of the tables. -/
structure Payable (cfg : ClaimConfig) (env : ClaimEnvironment) (queue : ClaimsQueue)
    (db : Database) (r : ClaimRequest) (minerPubkey receiverPubkey : Pubkey) : Prop where
  miner : cfg.pubkeyFromStr r.username = some minerPubkey
  receiver : cfg.pubkeyFromStr r.queryParams.receiverPubkey = some receiverPubkey
  signed : ∃ signature, cfg.sdk.fromStr r.password = some signature ∧
    cfg.sdk.verify signature minerPubkey (r.queryParams.signedMsg receiverPubkey) = true
  fresh : 0 ≤ (env.now.toNat : Int) - r.queryParams.timestamp.toNat ∧
    (env.now.toNat : Int) - r.queryParams.timestamp.toNat < 30
  notQueued : queue.lookup minerPubkey = none
  minimum : 500_000_000 ≤ r.queryParams.amount.toNat
  covered : ∃ minerRewards, db.getMinerRewards minerPubkey = .ok minerRewards ∧
    (r.queryParams.amount.toNat : Int) ≤ minerRewards.balance ∧
    ∀ created, db.lastClaim minerRewards.minerId = some created →
      1800 < (env.nowAfter.toNat : Int) - created

/-- A payable claim is all that a request inserts. -/
def Guarded (cfg : ClaimConfig) (env : ClaimEnvironment) (queue : ClaimsQueue) (db : Database)
    (r : ClaimRequest) : Prop :=
  ∀ response queue', postClaim cfg env queue db r = .ok (response, queue') →
    queue' = queue ∨ ∃ minerPubkey receiverPubkey,
      queue' = queue.insert minerPubkey ⟨receiverPubkey, r.queryParams.amount.toNat⟩ ∧
        Payable cfg env queue db r minerPubkey receiverPubkey

/-- The balance is no negative one that the cast makes large, and no failed query hides a
claim of the last 1800 seconds. -/
def Trustworthy (env : ClaimEnvironment) (db : Database) (minerRewards : Reward) : Prop :=
  0 ≤ minerRewards.balance ∧ (env.lastClaim.Fails → ∀ created,
    db.lastClaim minerRewards.minerId = some created →
      1800 < (env.nowAfter.toNat : Int) - created)

section Guarded

variable {cfg : ClaimConfig} {env : ClaimEnvironment} {queue queue' : ClaimsQueue}
  {db : Database} {r : ClaimRequest} {minerPubkey receiverPubkey : Pubkey} {minerRewards : Reward}

theorem Verified.fresh_int {now : UInt64} (h : Verified cfg now r minerPubkey receiverPubkey)
    (hnow : 30 ≤ now) : 0 ≤ (now.toNat : Int) - r.queryParams.timestamp.toNat ∧
      (now.toNat : Int) - r.queryParams.timestamp.toNat < 30 := by
  have hclock : 30 ≤ now.toNat := UInt64.le_iff_toNat_le.mp hnow
  have hlt : (now - r.queryParams.timestamp).toNat < 30 := UInt64.lt_iff_toNat_lt.mp h.fresh
  have hts := r.queryParams.timestamp.toNat_lt
  have hsize := now.toNat_lt
  rw [UInt64.toNat_sub] at hlt
  omega

/-- The cast keeps a balance that is not negative. -/
theorem Passes.covered_int (h : Passes cfg env queue db r minerPubkey receiverPubkey minerRewards)
    (hbalance : 0 ≤ minerRewards.balance) :
    (r.queryParams.amount.toNat : Int) ≤ minerRewards.balance := by
  have hcovered := h.covered
  have hcast : Word.unsigned 64 minerRewards.balance ≤ minerRewards.balance.toNat := by
    simp only [Word.unsigned]
    omega
  omega

theorem Passes.payable (h : Passes cfg env queue db r minerPubkey receiverPubkey minerRewards)
    (hnow : 30 ≤ env.now) (hruns : ¬ Crashes env db minerRewards.minerId)
    (htrust : Trustworthy env db minerRewards) :
    Payable cfg env queue db r minerPubkey receiverPubkey where
  miner := h.verified.miner
  receiver := h.verified.receiver
  signed := h.verified.signed
  fresh := h.verified.fresh_int hnow
  notQueued := AList.lookup_eq_none.mpr h.notQueued
  minimum := h.minimum
  covered := by
    refine ⟨minerRewards, h.rewards, h.covered_int htrust.1, fun created hcreated => ?_⟩
    cases hlast : env.lastClaim with
    | unwrapped => exact absurd (.inl hlast) hruns
    | failed err =>
        refine htrust.2 ?_ created hcreated
        rw [hlast]
        trivial
    | answered => exact absurd (.inr ⟨hlast, created, hcreated⟩) hruns

/-- A request inserts nothing but payable claims exactly when it fails a check on the way or
ends the server, or its balance and the lookup of its last claim can be trusted. -/
theorem guarded_iff (cfg : ClaimConfig) (env : ClaimEnvironment) (queue : ClaimsQueue)
    (db : Database) (r : ClaimRequest) (hnow : 30 ≤ env.now) :
    Guarded cfg env queue db r ↔ ∀ minerPubkey receiverPubkey minerRewards,
      Passes cfg env queue db r minerPubkey receiverPubkey minerRewards →
        Crashes env db minerRewards.minerId ∨ Trustworthy env db minerRewards := by
  constructor
  · intro hguarded minerPubkey receiverPubkey minerRewards hpasses
    refine or_iff_not_imp_left.mpr fun hruns => ?_
    have hclaim := (postClaim_of_passes hpasses).trans (claimOrWait_of_not_crashes hruns)
    obtain hsame | ⟨minerPubkey', receiverPubkey', -, hpayable⟩ := hguarded _ _ hclaim
    · -- The insertion shows, because the miner had no claim in the queue.
      refine absurd ?_ hpasses.notQueued
      rw [← hsame]
      exact AList.mem_insert _ |>.mpr (.inl rfl)
    · obtain ⟨minerRewards', hrewards, hcovered, hrested⟩ := hpayable.covered
      obtain rfl : minerPubkey' = minerPubkey :=
        Option.some.inj (hpayable.miner.symm.trans hpasses.verified.miner)
      obtain rfl : minerRewards' = minerRewards :=
        Except.ok.inj (hrewards.symm.trans hpasses.rewards)
      exact ⟨le_trans (Int.natCast_nonneg _) hcovered, fun _ => hrested⟩
  · intro hcondition response queue' hclaim
    obtain hsame | ⟨minerPubkey, receiverPubkey, minerRewards, hpasses⟩ := postClaim_cases hclaim
    · exact .inl hsame
    · rw [postClaim_of_passes hpasses] at hclaim
      by_cases hcrashes : Crashes env db minerRewards.minerId
      · obtain ⟨p, hpanic⟩ := claimOrWait_of_crashes hcrashes
        rw [hpanic] at hclaim
        cases hclaim
      · have htrust := (hcondition _ _ _ hpasses).resolve_left hcrashes
        rw [claimOrWait_of_not_crashes hcrashes] at hclaim
        cases hclaim
        exact .inr ⟨minerPubkey, receiverPubkey, rfl, hpasses.payable hnow hcrashes htrust⟩

end Guarded

/-! ## A negative balance -/

namespace Scenario

/-- Keys are written in unary, and every signature verifies. -/
def claimConfig : ClaimConfig where
  sdk := ⟨Nat, fun s => some s.length, fun _ _ _ => true⟩
  pubkeyFromStr s := some (.fill 32 (UInt8.ofNat s.length))

/-- Every call is answered. -/
def claimEnvironment : ClaimEnvironment :=
  ⟨10_000, some (some 1), .answered, .answered, 10_001⟩

/-- A claim of 0.01 ORE, ten seconds old. -/
def claimRequest : ClaimRequest := ⟨"i", "i", ⟨9_990, "iii", 1_000_000_000⟩⟩

/-- One miner with the balance, without a claim so far. -/
def claimTables (balance : Int) : Database :=
  { Receipt.sampleDb with rewards := [⟨1000, balance⟩] }

theorem passes_claimRequest {balance : Int} (h : 1_000_000_000 ≤ Word.unsigned 64 balance) :
    Passes claimConfig claimEnvironment ∅ (claimTables balance) claimRequest (.fill 32 1)
      (.fill 32 3) ⟨1000, balance⟩ where
  verified := ⟨by decide, rfl, rfl, (1 : Nat), rfl, rfl⟩
  notQueued := AList.notMem_empty _
  minimum := by decide
  answered := rfl
  rewards := rfl
  covered := h

theorem not_crashes_claimTables (balance : Int) (minerId : Int) :
    ¬ Crashes claimEnvironment (claimTables balance) minerId := by
  rintro (hpanic | ⟨-, created, hcreated⟩)
  · cases hpanic
  · cases hcreated

end Scenario

theorem guarded_positive_balance :
    Guarded Scenario.claimConfig Scenario.claimEnvironment ∅ (Scenario.claimTables 1_000_000_000)
      Scenario.claimRequest :=
  (guarded_iff _ _ _ _ _ (by decide)).mpr (by
    intro minerPubkey receiverPubkey minerRewards hpasses
    have hcovered : 1_000_000_000 ≤ Word.unsigned 64 1_000_000_000 := by decide
    have hsample := Scenario.passes_claimRequest hcovered
    obtain rfl := Option.some.inj (hpasses.verified.miner.symm.trans hsample.verified.miner)
    obtain rfl := Except.ok.inj (hpasses.rewards.symm.trans hsample.rewards)
    exact .inr ⟨by decide, fun hfails => hfails.elim⟩)

/-- The balance of -1 is cast to the greatest word, which covers every amount. -/
theorem not_guarded_negative_balance :
    ¬ ∀ cfg env queue db r, 30 ≤ env.now → Guarded cfg env queue db r := by
  intro h
  have hcast : 1_000_000_000 ≤ Word.unsigned 64 (-1) := by decide
  have hpasses := Scenario.passes_claimRequest hcast
  have hclaim := (postClaim_of_passes hpasses).trans
    (claimOrWait_of_not_crashes (Scenario.not_crashes_claimTables _ _))
  obtain hsame | ⟨minerPubkey, receiverPubkey, -, hpayable⟩ :=
    h _ _ _ _ _ (by decide) _ _ hclaim
  · refine absurd ?_ hpasses.notQueued
    rw [← hsame]
    exact AList.mem_insert _ |>.mpr (.inl rfl)
  · obtain ⟨minerRewards, hrewards, hcovered, -⟩ := hpayable.covered
    obtain rfl := Option.some.inj (hpayable.miner.symm.trans hpasses.verified.miner)
    obtain rfl := Except.ok.inj (hrewards.symm.trans hpasses.rewards)
    revert hcovered
    decide

end Hashpoo.Claims
