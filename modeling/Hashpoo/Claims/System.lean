import Hashpoo.Claims.Booking
import Hashpoo.Foundation.Transition

/-!
# Claims: requests, queue, processor and chain

Any number of `post_claim` requests run beside the one `claim_processor`. A request
checks the queue, the token account, the balance and the last claim at four awaits and
inserts at a fifth; the processor pays, waits for the confirmation and books in steps of
its own. The lock of the queue is held within single steps only.

Every insertion into the queue gets a number, and the payouts carry the number of the
claim they were made for. The program does not see these numbers.
-/

namespace Hashpoo.Claims

open Foundation

/-! ## The chain -/

inductive TransactionConfirmationStatus where
  | processed
  | confirmed
  | finalized
  deriving DecidableEq

/-- The status only advances. -/
def TransactionConfirmationStatus.advance :
    TransactionConfirmationStatus → TransactionConfirmationStatus
  | .processed => .confirmed
  | .confirmed | .finalized => .finalized

def TransactionConfirmationStatus.rank : TransactionConfirmationStatus → Nat
  | .processed => 0
  | .confirmed => 1
  | .finalized => 2

/-- A signed claim transaction and the number of its claim. -/
structure PayoutTx where
  signature : Signature
  claim : Nat
  receiverPubkey : Pubkey
  amount : Nat
  deriving DecidableEq

/-- A transaction on the chain. A failed one pays nothing. -/
structure LandedTx where
  tx : PayoutTx
  status : TransactionConfirmationStatus
  failed : Bool
  deriving DecidableEq

structure Chain where
  sent : List PayoutTx
  landed : List LandedTx
  nextSignature : Signature
  deriving DecidableEq

namespace Chain

def find (c : Chain) (tx : PayoutTx) : Option LandedTx := c.landed.find? fun l => l.tx = tx

/-- The transaction has paid. -/
def Paid (c : Chain) (tx : PayoutTx) : Prop := ∃ l ∈ c.landed, l.tx = tx ∧ l.failed = false

instance (c : Chain) (tx : PayoutTx) : Decidable (c.Paid tx) :=
  inferInstanceAs (Decidable (∃ l ∈ _, _))

def advance (c : Chain) (signature : Signature) : Chain :=
  { c with landed := c.landed.map fun l =>
      if l.tx.signature = signature then { l with status := l.status.advance } else l }

end Chain

/-! ## The tasks -/

/-- An item of the queue with its number. -/
structure Queued where
  item : ClaimsQueueItem
  number : Nat
  deriving DecidableEq

/-- The claim that the processor has taken up. -/
structure Job where
  minerPubkey : Pubkey
  item : ClaimsQueueItem
  number : Nat
  deriving DecidableEq

inductive ClaimPc where
  | idle
  | checkAta (job : Job)
  | blockhash (job : Job) (claimAmount : Nat)
  | send (job : Job) (tx : PayoutTx) (timer : Nat)
  | poll (job : Job) (tx : PayoutTx) (timer : Nat)
  | book (job : Job) (tx : PayoutTx) (pc : BookingPc)
  deriving DecidableEq

namespace ClaimPc

def job : ClaimPc → Option Job
  | .idle => none
  | .checkAta job | .blockhash job _ | .send job _ _ | .poll job _ _ | .book job _ _ => some job

/-- The transaction the processor has signed and not yet let go. -/
def tx : ClaimPc → Option PayoutTx
  | .idle | .checkAta _ | .blockhash _ _ => none
  | .send _ tx _ | .poll _ tx _ | .book _ tx _ => some tx

end ClaimPc

/-- What the environment contributes to a step of the processor. -/
inductive ProcessorInput where
  /-- The first entry in the iteration order of the queue. -/
  | pick (minerPubkey : Pubkey)
  /-- Whether `get_token_account_balance` fails. -/
  | ata (missing : Bool)
  | blockhash (ok : Bool)
  | sent (ok : Bool)
  /-- The answer to a status poll, `none` when it fails or knows no status. -/
  | status (answer : Option TransactionConfirmationStatus)
  /-- A database call, which may fail transiently. -/
  | call (fails : Bool)
  | proceed
  deriving DecidableEq

inductive RequestPc where
  | checkQueue
  | checkAta
  | checkBalance
  | checkLastClaim (minerId : Int)
  | insert
  deriving DecidableEq

/-- A `post_claim` request behind the verification of its signature. -/
structure Request where
  minerPubkey : Pubkey
  receiverPubkey : Pubkey
  amount : Nat
  pc : RequestPc
  deriving DecidableEq

inductive RequestInput where
  | proceed
  /-- Whether the receiver has no valid token account yet. -/
  | ata (isCreatingAta : Bool)
  | call (fails : Bool)
  deriving DecidableEq

structure State where
  queue : HashMap Pubkey Queued
  db : Database
  chain : Chain
  pc : ClaimPc
  requests : List Request
  /-- The miners of all insertions, by number. -/
  claimants : List Pubkey
  /-- Seconds on the server's clock. -/
  now : Nat
  aborted : Bool

def State.start (db : Database) : State where
  queue := ∅
  db := db
  chain := ⟨[], [], 0⟩
  pc := .idle
  requests := []
  claimants := []
  now := 0
  aborted := false

inductive Event where
  | processor (input : ProcessorInput)
  /-- A verified request arrives. -/
  | post (minerPubkey receiverPubkey : Pubkey) (amount : Nat)
  | request (k : Nat) (input : RequestInput)
  | land (tx : PayoutTx) (failed : Bool)
  | advance (signature : Signature)
  /-- A mine success credits the miner. -/
  | credit (minerId : Int) (amount : Nat)
  | tick (seconds : Nat)
  deriving DecidableEq

namespace State

/-! ## `claim_processor` -/

/-- `claim_amount`. The subtraction wraps. -/
def claimAmount (job : Job) (isCreatingAta : Bool) : Nat :=
  if isCreatingAta then Word.unsigned 64 ((job.item.amount : Int) - createAtaDeduction)
  else job.item.amount

/-- Sign a new transaction and start the timer. -/
def sign (s : State) (job : Job) (amount : Nat) : State :=
  { s with
    chain := { s.chain with nextSignature := s.chain.nextSignature + 1 }
    pc := .send job ⟨s.chain.nextSignature, job.number, job.item.receiverPubkey, amount⟩ s.now }

/-- A send that reports an error may have delivered the transaction all the same. -/
def deliver (s : State) (tx : PayoutTx) : State :=
  { s with chain := { s.chain with sent := tx :: s.chain.sent } }

def goto (s : State) (pc : ClaimPc) : State := { s with pc := pc }

def receipt (wallet : Pubkey) (job : Job) (tx : PayoutTx) : Receipt :=
  ⟨job.minerPubkey, wallet, job.item.amount, tx.signature⟩

def stepProcessor (wallet : Pubkey) (s : State) (input : ProcessorInput) : Option State :=
  match s.pc, input with
  | .idle, .pick minerPubkey =>
      match s.queue.lookup minerPubkey with
      | some queued => some (s.goto (.checkAta ⟨minerPubkey, queued.item, queued.number⟩))
      | none => none
  | .checkAta job, .ata missing => some (s.goto (.blockhash job (claimAmount job missing)))
  | .blockhash job amount, .blockhash ok =>
      if ok then some (s.sign job amount) else some (s.goto .idle)
  | .send job tx timer, .sent ok =>
      if ok then some ((s.deliver tx).goto (.poll job tx timer)) else some (s.deliver tx)
  | .poll job tx timer, .status answer =>
      if s.now - timer ≥ 200 then
        -- "Transaction Expired"
        some (s.goto .idle)
      else
        match answer, s.chain.find tx with
        | none, _ => some s
        | some seen, some l =>
            -- The answer may lag behind the chain, but does not run ahead of it.
            if seen.rank ≤ l.status.rank then
              if seen = .confirmed then
                if l.failed then some (s.goto .idle) else some (s.goto (.book job tx .getMiner))
              else
                some s
            else
              none
        | some _, none => none
  | .book job _ .booked, .proceed =>
      some { s with queue := s.queue.erase job.minerPubkey, pc := .idle }
  | .book job tx pc, .call fails =>
      match (receipt wallet job tx).step s.now fails s.db pc with
      | (.ok pc', db) => some { s with db := db, pc := .book job tx pc' }
      | (.error _, db) => some { s with db := db, aborted := true }
  | _, _ => none

/-- The transaction whose time has run out at the next poll. -/
def expiring (s : State) : Option PayoutTx :=
  match s.pc with
  | .poll _ tx timer => if s.now - timer ≥ 200 then some tx else none
  | _ => none

/-- The steps of `claim_processor`, one constructor for each. -/
inductive Moves (wallet : Pubkey) (s : State) : ProcessorInput → State → Prop
  | pick (minerPubkey : Pubkey) (queued : Queued) : s.pc = .idle →
      s.queue.lookup minerPubkey = some queued →
      Moves wallet s (.pick minerPubkey)
        (s.goto (.checkAta ⟨minerPubkey, queued.item, queued.number⟩))
  | checkAta (job : Job) (missing : Bool) : s.pc = .checkAta job →
      Moves wallet s (.ata missing) (s.goto (.blockhash job (claimAmount job missing)))
  | noBlockhash (job : Job) (amount : Nat) : s.pc = .blockhash job amount →
      Moves wallet s (.blockhash false) (s.goto .idle)
  | sign (job : Job) (amount : Nat) : s.pc = .blockhash job amount →
      Moves wallet s (.blockhash true) (s.sign job amount)
  | notSent (job : Job) (tx : PayoutTx) (timer : Nat) : s.pc = .send job tx timer →
      Moves wallet s (.sent false) (s.deliver tx)
  | sent (job : Job) (tx : PayoutTx) (timer : Nat) : s.pc = .send job tx timer →
      Moves wallet s (.sent true) ((s.deliver tx).goto (.poll job tx timer))
  | expired (job : Job) (tx : PayoutTx) (timer : Nat)
      (answer : Option TransactionConfirmationStatus) : s.pc = .poll job tx timer →
      s.now - timer ≥ 200 → Moves wallet s (.status answer) (s.goto .idle)
  | waiting (job : Job) (tx : PayoutTx) (timer : Nat)
      (answer : Option TransactionConfirmationStatus) : s.pc = .poll job tx timer →
      Moves wallet s (.status answer) s
  | failed (job : Job) (tx : PayoutTx) (timer : Nat) (l : LandedTx) :
      s.pc = .poll job tx timer → s.chain.find tx = some l → l.failed = true →
      Moves wallet s (.status (some .confirmed)) (s.goto .idle)
  | confirmed (job : Job) (tx : PayoutTx) (timer : Nat) (l : LandedTx) :
      s.pc = .poll job tx timer → s.chain.find tx = some l → l.failed = false →
      Moves wallet s (.status (some .confirmed)) (s.goto (.book job tx .getMiner))
  | call (job : Job) (tx : PayoutTx) (pc pc' : BookingPc) (fails : Bool) (db : Database) :
      s.pc = .book job tx pc →
      (receipt wallet job tx).step s.now fails s.db pc = (.ok pc', db) →
      Moves wallet s (.call fails) (({ s with db := db } : State).goto (.book job tx pc'))
  | panic (job : Job) (tx : PayoutTx) (pc : BookingPc) (fails : Bool) (p : Panic)
      (db : Database) : s.pc = .book job tx pc →
      (receipt wallet job tx).step s.now fails s.db pc = (.error p, db) →
      Moves wallet s (.call fails) { s with db := db, aborted := true }
  | dequeue (job : Job) (tx : PayoutTx) : s.pc = .book job tx .booked →
      Moves wallet s .proceed
        (({ s with queue := s.queue.erase job.minerPubkey } : State).goto .idle)

theorem stepProcessor_moves {wallet : Pubkey} {s t : State} {input : ProcessorInput}
    (h : s.stepProcessor wallet input = some t) : s.Moves wallet input t := by
  simp only [stepProcessor] at h
  split at h
  case h_1 minerPubkey hpc =>
    split at h
    · next queued hqueued =>
      cases h
      exact .pick minerPubkey queued hpc hqueued
    · cases h
  case h_2 job missing hpc =>
    cases h
    exact .checkAta job missing hpc
  case h_3 job amount ok hpc =>
    cases ok with
    | false =>
        cases h
        exact .noBlockhash job amount hpc
    | true =>
        cases h
        exact .sign job amount hpc
  case h_4 job tx timer ok hpc =>
    cases ok with
    | false =>
        cases h
        exact .notSent job tx timer hpc
    | true =>
        cases h
        exact .sent job tx timer hpc
  case h_5 job tx timer answer hpc =>
    split at h
    · next htimer =>
      cases h
      exact .expired job tx timer answer hpc htimer
    · split at h
      · cases h
        exact .waiting job tx timer none hpc
      · next seen l hfind =>
        split at h
        · split at h
          · next hconfirmed =>
            subst hconfirmed
            split at h
            · next hfailed =>
              cases h
              exact .failed job tx timer l hpc hfind hfailed
            · next hfailed =>
              cases h
              exact .confirmed job tx timer l hpc hfind (by simpa using hfailed)
          · cases h
            exact .waiting job tx timer (some seen) hpc
        · cases h
      · cases h
  case h_6 job tx hpc =>
    cases h
    exact .dequeue job tx hpc
  case h_7 job tx pc fails hpc =>
    split at h
    · next pc' db hcall =>
      cases h
      exact .call job tx pc pc' fails db hpc hcall
    · next p db hcall =>
      cases h
      exact .panic job tx pc fails p db hpc hcall
  case h_8 => cases h

/-! ## `post_claim` -/

/-- The request returns its answer. -/
def finish (s : State) (k : Nat) : State := { s with requests := s.requests.eraseIdx k }

def proceed (s : State) (k : Nat) (r : Request) (pc : RequestPc) : State :=
  { s with requests := s.requests.set k { r with pc := pc } }

/-- `writer.insert(miner_pubkey, ClaimsQueueItem { receiver_pubkey, amount })`. -/
def insertClaim (s : State) (k : Nat) (r : Request) : State :=
  { s with
    queue := s.queue.insert r.minerPubkey ⟨⟨r.receiverPubkey, r.amount⟩, s.claimants.length⟩
    claimants := s.claimants ++ [r.minerPubkey]
    requests := s.requests.eraseIdx k }

def stepRequest (s : State) (k : Nat) (r : Request) (input : RequestInput) : Option State :=
  match r.pc, input with
  | .checkQueue, .proceed =>
      some (if r.minerPubkey ∈ s.queue then s.finish k else s.proceed k r .checkAta)
  | .checkAta, .ata isCreatingAta =>
      some (if r.amount < minClaimAmountExistsAta then s.finish k
        else if isCreatingAta ∧ r.amount < minClaimAmountNotExistsAta then s.finish k
        else s.proceed k r .checkBalance)
  | .checkBalance, .call fails =>
      match query fails (s.db.getMinerRewards r.minerPubkey) with
      | .ok minerRewards =>
          some (if r.amount > Word.unsigned 64 minerRewards.balance then s.finish k
            else s.proceed k r (.checkLastClaim minerRewards.minerId))
      | .error _ => some (s.finish k)
  | .checkLastClaim minerId, .call fails =>
      if fails then
        some (s.proceed k r .insert)
      else
        match s.db.getLastClaim minerId with
        | .ok (.ok created) =>
            some (if (s.now : Int) - created ≤ 1800 then s.finish k else s.proceed k r .insert)
        | .ok (.error _) => some (s.proceed k r .insert)
        | .error _ => some { s with aborted := true }
  | .insert, .proceed => some (s.insertClaim k r)
  | _, _ => none

/-- Only the last step of a request touches anything but the requests, unless it panics. -/
theorem stepRequest_cases {s t : State} {k : Nat} {r : Request} {input : RequestInput}
    (h : s.stepRequest k r input = some t) :
    (∃ requests aborted, t = { s with requests := requests, aborted := aborted }) ∨
      (r.pc = .insert ∧ input = .proceed ∧ t = s.insertClaim k r) := by
  have hrest : ∀ requests, { s with requests := requests } = t →
      ∃ requests aborted, t = { s with requests := requests, aborted := aborted } :=
    fun requests ht => ⟨requests, s.aborted, ht.symm⟩
  simp only [stepRequest] at h
  split at h
  case h_5 hpc =>
    cases h
    exact .inr ⟨hpc, rfl, rfl⟩
  case h_6 => cases h
  all_goals left
  case h_1 =>
    split at h <;> exact hrest _ (Option.some.inj h)
  case h_2 =>
    split at h
    · exact hrest _ (Option.some.inj h)
    · split at h <;> exact hrest _ (Option.some.inj h)
  case h_3 =>
    split at h
    · split at h <;> exact hrest _ (Option.some.inj h)
    · exact hrest _ (Option.some.inj h)
  case h_4 =>
    split at h
    · exact hrest _ (Option.some.inj h)
    · split at h
      · split at h <;> exact hrest _ (Option.some.inj h)
      · exact hrest _ (Option.some.inj h)
      · exact ⟨s.requests, true, (Option.some.inj h).symm⟩

/-! ## Steps of the system -/

def stepAlive (wallet : Pubkey) (s : State) : Event → Option State
  | .processor input => s.stepProcessor wallet input
  | .post minerPubkey receiverPubkey amount =>
      if amount < 2 ^ 64 then
        some { s with requests := s.requests ++
          [⟨minerPubkey, receiverPubkey, amount, .checkQueue⟩] }
      else
        none
  | .request k input =>
      match s.requests[k]? with
      | some r => s.stepRequest k r input
      | none => none
  | .land tx failed =>
      -- A transaction lands at most once.
      if tx ∈ s.chain.sent ∧ s.chain.find tx = none then
        some { s with chain := { s.chain with
          landed := ⟨tx, .processed, failed⟩ :: s.chain.landed } }
      else
        none
  | .advance signature => some { s with chain := s.chain.advance signature }
  | .credit minerId amount =>
      if s.db.RewardsFit minerId amount then
        some { s with db := s.db.addToRewards minerId amount }
      else
        none
  | .tick seconds => some { s with now := s.now + seconds }

def step (wallet : Pubkey) (s : State) (e : Event) : Option State :=
  if s.aborted then none else s.stepAlive wallet e

theorem step_eq_some {wallet : Pubkey} {s t : State} {e : Event} :
    s.step wallet e = some t ↔ s.aborted = false ∧ s.stepAlive wallet e = some t := by
  rw [step]
  cases s.aborted <;> simp

/-- The steps of the system. Apart from the processor's and the last one of a request, each
touches one part of the state, or ends the server. -/
inductive Steps (wallet : Pubkey) (s : State) : Event → State → Prop
  | processor (input : ProcessorInput) (t : State) : s.Moves wallet input t →
      Steps wallet s (.processor input) t
  | requests (e : Event) (requests : List Request) (aborted : Bool) :
      Steps wallet s e { s with requests := requests, aborted := aborted }
  | insert (k : Nat) (r : Request) : s.requests[k]? = some r → r.pc = .insert →
      Steps wallet s (.request k .proceed) (s.insertClaim k r)
  | land (tx : PayoutTx) (failed : Bool) : tx ∈ s.chain.sent → s.chain.find tx = none →
      Steps wallet s (.land tx failed) { s with chain := { s.chain with
        landed := ⟨tx, .processed, failed⟩ :: s.chain.landed } }
  | advance (signature : Signature) :
      Steps wallet s (.advance signature) { s with chain := s.chain.advance signature }
  | credit (minerId : Int) (amount : Nat) :
      Steps wallet s (.credit minerId amount) { s with db := s.db.addToRewards minerId amount }
  | tick (seconds : Nat) : Steps wallet s (.tick seconds) { s with now := s.now + seconds }

theorem step_steps {wallet : Pubkey} {s t : State} {e : Event}
    (h : s.step wallet e = some t) : s.Steps wallet e t := by
  obtain ⟨-, hstep⟩ := step_eq_some.mp h
  cases e with
  | processor input => exact .processor input t (stepProcessor_moves hstep)
  | post minerPubkey receiverPubkey amount =>
      simp only [stepAlive] at hstep
      split at hstep
      · cases hstep
        exact .requests _ _ s.aborted
      · cases hstep
  | request k input =>
      simp only [stepAlive] at hstep
      split at hstep
      · next r hr =>
        obtain ⟨requests, aborted, rfl⟩ | ⟨hpc, rfl, rfl⟩ := stepRequest_cases hstep
        · exact .requests _ requests aborted
        · exact .insert k r hr hpc
      · cases hstep
  | land tx failed =>
      simp only [stepAlive] at hstep
      split at hstep
      · next hland =>
        cases hstep
        exact .land tx failed hland.1 hland.2
      · cases hstep
  | advance signature =>
      cases hstep
      exact .advance signature
  | credit minerId amount =>
      simp only [stepAlive] at hstep
      split at hstep
      · cases hstep
        exact .credit minerId amount
      · cases hstep
  | tick seconds =>
      cases hstep
      exact .tick seconds

end State

/-! ## Runs of one miner

Its key holds ones, the receiver's threes and the wallet's nines. -/

namespace Scenario

/-- A request for the whole balance of 0.01 ORE. -/
def post : Event := .post (.fill 32 1) (.fill 32 3) 1_000_000_000

/-- The `k`-th request passes every check. -/
def check (k : Nat) : List Event :=
  [.request k .proceed, .request k (.ata false), .request k (.call false),
    .request k (.call false)]

def insert (k : Nat) : Event := .request k .proceed

/-- The transaction that is signed in the round with the number `signature`. -/
def payoutTx (signature : Signature) (claim : Nat) : PayoutTx :=
  ⟨signature, claim, .fill 32 3, 1_000_000_000⟩

/-- The claim is taken up and its transaction sent. -/
def pay : List Event :=
  [.processor (.pick (.fill 32 1)), .processor (.ata false), .processor (.blockhash true),
    .processor (.sent true)]

/-- The transaction pays, and a poll sees it as confirmed. -/
def confirm (tx : PayoutTx) : List Event :=
  [.land tx false, .advance tx.signature, .processor (.status (some .confirmed))]

/-- The time runs out. -/
def expire : List Event := [.tick 200, .processor (.status none)]

/-- The payout is booked and the claim leaves the queue. -/
def book : List Event :=
  List.replicate 7 (.processor (.call false)) ++ [.processor .proceed]

end Scenario

end Hashpoo.Claims
