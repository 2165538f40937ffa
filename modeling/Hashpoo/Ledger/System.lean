import Hashpoo.Claims.Booking
import Hashpoo.Foundation.Transition
import Hashpoo.Ledger.Tables

/-!
# The tasks that write the ledger

Every landed transaction has a task that books its commission and then sends the message
of the mine success. One `pool_mine_success_processor` takes up the messages in turn, and
`claim_processor` books one confirmed payout at a time. There is no transaction around
the calls of a task, so the calls of all tasks interleave.

A loop `while let Err(_) = call` stays at its call while that fails. What a task has
still to do is therefore the list of its calls.
-/

namespace Hashpoo

open Foundation Claims

namespace MessageInternalMineSuccess

variable (cfg : MineConfig) (msg : MessageInternalMineSuccess)

/-! ## What a mine success writes -/

def insertEarning (c : InternalMessageContribution) : InsertEarning where
  minerId := c.minerId
  poolId := cfg.poolId
  challengeId := msg.challengeId
  amount := msg.earned c

/-- `supplied_diff as i16`. -/
def insertContribution (c : InternalMessageContribution) : InsertContribution where
  minerId := c.minerId
  challengeId := msg.challengeId
  nonce := c.suppliedNonce
  digest := c.suppliedDigest
  difficulty := Word.signed 16 c.suppliedDiff

def updateReward (c : InternalMessageContribution) : UpdateReward where
  minerId := c.minerId
  balance := msg.earned c

def batchSize : Nat := 200

/-- The calls of `pool_mine_success_processor`, batch by batch. -/
def calls : List Call :=
  let iEarnings := msg.contributions.values.map (msg.insertEarning cfg)
  let iRewards := msg.contributions.values.map msg.updateReward
  let iContributions := msg.contributions.values.map msg.insertContribution
  (chunks batchSize iEarnings).map .addNewEarningsBatch ++
    (chunks batchSize iRewards).map .updateRewards ++
    (chunks batchSize iContributions).map .addNewContributionsBatch ++
    [.updatePoolRewards msg.rewards]

/-- The earnings are computed before the first call. -/
def process : Except Panic (List Call) :=
  match msg.earnings with
  | .ok _ => .ok (msg.calls cfg)
  | .error p => .error p

variable {cfg msg} in
theorem process_eq_ok {calls : List Call} (h : msg.process cfg = .ok calls) :
    calls = msg.calls cfg := by
  rw [process] at h
  split at h
  · exact (Except.ok.inj h).symm
  · cases h

def commissionsEarning : InsertEarning where
  minerId := cfg.commissionsMinerId
  poolId := cfg.poolId
  challengeId := msg.challengeId
  amount := msg.commissions

/-- The calls of the landed-tx task. -/
def commissionCalls : List Call :=
  [.addNewEarningsBatch [msg.commissionsEarning cfg],
    .updateRewards [⟨cfg.commissionsMinerId, msg.commissions⟩]]

/-- The rows of `earnings` for a mine success: the commission and the share of each miner. -/
def earningRows : List InsertEarning :=
  { minerId := cfg.commissionsMinerId, poolId := cfg.poolId, challengeId := msg.challengeId,
    amount := msg.commissions } ::
  msg.contributions.values.map fun c =>
    { minerId := c.minerId, poolId := cfg.poolId, challengeId := msg.challengeId,
      amount := msg.earned c }

theorem earningRows_eq : msg.earningRows cfg =
    msg.commissionsEarning cfg :: msg.contributions.values.map (msg.insertEarning cfg) :=
  rfl

/-- The updates of `rewards` for a mine success. -/
def rewardUpdates : List UpdateReward :=
  ⟨cfg.commissionsMinerId, msg.commissions⟩ :: msg.contributions.values.map msg.updateReward

/-- The rows of `contributions` for a mine success: what each miner has supplied. -/
def contributionRows : List Contribution :=
  msg.contributions.values.map fun c =>
    { minerId := c.minerId, challengeId := msg.challengeId,
      nonce := Word.signed 64 c.suppliedNonce, digest := c.suppliedDigest,
      difficulty := Word.signed 16 c.suppliedDiff }

theorem contributionRows_eq : msg.contributionRows =
    msg.contributions.values.map fun c => (msg.insertContribution c).row := by
  simp only [contributionRows, insertContribution, InsertContribution.row]

end MessageInternalMineSuccess

namespace Ledger

/-! ## Calls and their repetition -/

/-- What becomes of a call besides the answer of the tables. -/
inductive Attempt where
  | answered
  /-- An error, with the tables unchanged. -/
  | failed
  /-- A failure that is unwrapped. Nothing of a begun batch stays. -/
  | unwrapped
  deriving DecidableEq

/-- `while let Err(_) = call`, followed by the calls behind it. -/
def attempt (wallet : Pubkey) (ledger : Ledger) (call : Call) (calls : List Call) :
    Attempt → Except Panic (List Call × Ledger)
  | .answered =>
      match call.execute wallet ledger with
      | .ok (.ok _, ledger') => .ok (calls, ledger')
      | .ok (.error _, ledger') => .ok (call :: calls, ledger')
      | .error p => .error p
  | .failed => .ok (call :: calls, ledger)
  | .unwrapped => .error .unwrapOnErr

/-! ## States and events -/

/-- A landed-tx task: the message it is going to send, and the calls before that. -/
structure LandedTask where
  msg : MessageInternalMineSuccess
  calls : List Call

structure State where
  ledger : Ledger
  landed : List LandedTask
  /-- The channel to `pool_mine_success_processor`. -/
  messages : List MessageInternalMineSuccess
  /-- The calls left for the message taken up last. -/
  success : List Call
  /-- The payout that `claim_processor` books. -/
  claim : Option (Receipt × BookingPc)
  aborted : Bool

def State.start (ledger : Ledger) : State where
  ledger := ledger
  landed := []
  messages := []
  success := []
  claim := none
  aborted := false

inductive Event where
  /-- A landed transaction has earned the rewards of the message. -/
  | land (msg : MessageInternalMineSuccess)
  /-- A call of the task `k`. -/
  | commission (k : Nat) (answer : Attempt)
  | send (k : Nat)
  | receive
  | success (answer : Attempt)
  /-- A payout is confirmed. -/
  | confirm (minerPubkey : Pubkey) (amount : Nat) (signature : Signature)
  /-- A call of the booking, at the time `now`. -/
  | claim (now : Int) (fails : Bool)
  | dequeue
  deriving DecidableEq

namespace Event

/-- The mine success that begins. -/
def landed : Event → Option MessageInternalMineSuccess
  | .land msg => some msg
  | _ => none

/-- The booking that begins. -/
def confirmed (wallet : Pubkey) : Event → Option Receipt
  | .confirm minerPubkey amount signature => some ⟨minerPubkey, wallet, amount, signature⟩
  | _ => none

end Event

namespace State

/-- Every mine success and every claim that has begun is fully processed. -/
structure Settled (s : State) : Prop where
  landed : s.landed = []
  messages : s.messages = []
  success : s.success = []
  claim : s.claim = none

instance : DecidablePred Settled := fun s =>
  decidable_of_iff (s.landed = [] ∧ s.messages = [] ∧ s.success = [] ∧ s.claim = none)
    ⟨fun ⟨h₁, h₂, h₃, h₄⟩ => ⟨h₁, h₂, h₃, h₄⟩, fun ⟨h₁, h₂, h₃, h₄⟩ => ⟨h₁, h₂, h₃, h₄⟩⟩

def step (cfg : MineConfig) (wallet : Pubkey) (s : State) (e : Event) : Option State :=
  if s.aborted then none
  else match e with
  | .land msg => some { s with landed := ⟨msg, msg.commissionCalls cfg⟩ :: s.landed }
  | .commission k answer =>
      match s.landed[k]? with
      | some ⟨msg, call :: calls⟩ =>
          match attempt wallet s.ledger call calls answer with
          | .ok (calls', ledger) =>
              some { s with ledger := ledger, landed := s.landed.set k ⟨msg, calls'⟩ }
          | .error _ => some { s with aborted := true }
      | _ => none
  | .send k =>
      match s.landed[k]? with
      | some ⟨msg, []⟩ =>
          some { s with landed := s.landed.eraseIdx k, messages := s.messages ++ [msg] }
      | _ => none
  | .receive =>
      match s.success, s.messages with
      | [], msg :: messages =>
          match msg.process cfg with
          | .ok calls => some { s with messages := messages, success := calls }
          | .error _ => some { s with aborted := true }
      | _, _ => none
  | .success answer =>
      match s.success with
      | call :: calls =>
          match attempt wallet s.ledger call calls answer with
          | .ok (calls', ledger) => some { s with ledger := ledger, success := calls' }
          | .error _ => some { s with aborted := true }
      | [] => none
  | .confirm minerPubkey amount signature =>
      match s.claim with
      | none =>
          some { s with claim := some (⟨minerPubkey, wallet, amount, signature⟩, .getMiner) }
      | some _ => none
  | .claim now fails =>
      match s.claim with
      | some (rc, pc) =>
          match rc.step now fails s.ledger.db pc with
          | (.ok pc', db) =>
              some { s with ledger := { s.ledger with db := db }, claim := some (rc, pc') }
          | (.error _, _) => some { s with aborted := true }
      | none => none
  | .dequeue =>
      match s.claim with
      | some (_, .booked) => some { s with claim := none }
      | _ => none

/-- The steps, one constructor for each kind. -/
inductive Steps (cfg : MineConfig) (wallet : Pubkey) (s : State) : Event → State → Prop
  | land (msg : MessageInternalMineSuccess) :
      Steps cfg wallet s (.land msg)
        { s with landed := ⟨msg, msg.commissionCalls cfg⟩ :: s.landed }
  | commission (k : Nat) (answer : Attempt) (msg : MessageInternalMineSuccess) (call : Call)
      (calls calls' : List Call) (ledger : Ledger) : s.landed[k]? = some ⟨msg, call :: calls⟩ →
      attempt wallet s.ledger call calls answer = .ok (calls', ledger) →
      Steps cfg wallet s (.commission k answer)
        { s with ledger := ledger, landed := s.landed.set k ⟨msg, calls'⟩ }
  | send (k : Nat) (msg : MessageInternalMineSuccess) : s.landed[k]? = some ⟨msg, []⟩ →
      Steps cfg wallet s (.send k)
        { s with landed := s.landed.eraseIdx k, messages := s.messages ++ [msg] }
  | receive (msg : MessageInternalMineSuccess) (messages : List MessageInternalMineSuccess) :
      s.success = [] → s.messages = msg :: messages →
      Steps cfg wallet s .receive { s with messages := messages, success := msg.calls cfg }
  | success (answer : Attempt) (call : Call) (calls calls' : List Call) (ledger : Ledger) :
      s.success = call :: calls →
      attempt wallet s.ledger call calls answer = .ok (calls', ledger) →
      Steps cfg wallet s (.success answer) { s with ledger := ledger, success := calls' }
  | confirm (minerPubkey : Pubkey) (amount : Nat) (signature : Signature) : s.claim = none →
      Steps cfg wallet s (.confirm minerPubkey amount signature)
        { s with claim := some (⟨minerPubkey, wallet, amount, signature⟩, .getMiner) }
  | claim (now : Int) (fails : Bool) (rc : Receipt) (pc pc' : BookingPc) (db : Database) :
      s.claim = some (rc, pc) → rc.step now fails s.ledger.db pc = (.ok pc', db) →
      Steps cfg wallet s (.claim now fails)
        { s with ledger := { s.ledger with db := db }, claim := some (rc, pc') }
  | dequeue (rc : Receipt) : s.claim = some (rc, .booked) →
      Steps cfg wallet s .dequeue { s with claim := none }
  | abort (e : Event) : e.landed = none → e.confirmed wallet = none →
      Steps cfg wallet s e { s with aborted := true }

variable {cfg : MineConfig} {wallet : Pubkey} {s t : State} {e : Event}

theorem step_steps (h : s.step cfg wallet e = some t) : s.Steps cfg wallet e t := by
  simp only [step, Option.ite_none_left_eq_some] at h
  obtain ⟨-, h⟩ := h
  cases e with
  | land msg =>
      cases h
      exact .land msg
  | commission k answer =>
      simp only at h
      split at h
      · next msg call calls hk =>
        split at h
        · next calls' ledger hattempt =>
          cases h
          exact .commission k answer msg call calls calls' ledger hk hattempt
        · cases h
          exact .abort _ rfl rfl
      · cases h
  | send k =>
      simp only at h
      split at h
      · next msg hk =>
        cases h
        exact .send k msg hk
      · cases h
  | receive =>
      simp only at h
      split at h
      · next msg messages hsuccess hmessages =>
        split at h
        · next calls hprocess =>
          cases h
          obtain rfl := MessageInternalMineSuccess.process_eq_ok hprocess
          exact .receive msg messages hsuccess hmessages
        · cases h
          exact .abort _ rfl rfl
      · cases h
  | success answer =>
      simp only at h
      split at h
      · next call calls hsuccess =>
        split at h
        · next calls' ledger hattempt =>
          cases h
          exact .success answer call calls calls' ledger hsuccess hattempt
        · cases h
          exact .abort _ rfl rfl
      · cases h
  | confirm minerPubkey amount signature =>
      simp only at h
      split at h
      · next hclaim =>
        cases h
        exact .confirm minerPubkey amount signature hclaim
      · cases h
  | claim now fails =>
      simp only at h
      split at h
      · next rc pc hclaim =>
        split at h
        · next pc' db hstep =>
          cases h
          exact .claim now fails rc pc pc' db hclaim hstep
        · cases h
          exact .abort _ rfl rfl
      · cases h
  | dequeue =>
      simp only at h
      split at h
      · next rc hclaim =>
        cases h
        exact .dequeue rc hclaim
      · cases h

end State

end Ledger

end Hashpoo
