import Hashpoo.Server.Database

/-!
# Booking a confirmed payout

After the confirmation `claim_processor` makes seven database calls, one after the other
and without a transaction around them. The first two are unwrapped, so a failure there
ends the server; the others are repeated until they succeed. The claim leaves the queue
in the step behind the last call.

A pattern of failures says for each call, counted from the confirmation on, whether it
fails transiently. `books_iff` gives the exact condition under which the booking is
completed.
-/

namespace Hashpoo.Claims

open Foundation

/-- The confirmed payout that is booked. -/
structure Receipt where
  minerPubkey : Pubkey
  /-- `wallet.pubkey()`. -/
  authority : Pubkey
  amount : Nat
  signature : Signature
  deriving DecidableEq

inductive BookingPc where
  | getMiner
  | getPool (minerId : Int)
  | decrease (minerId poolId : Int)
  | poolClaimed (minerId poolId : Int)
  | addTransaction (minerId poolId : Int)
  | getTransactionId (minerId poolId : Int)
  | addClaim (minerId poolId txnId : Int)
  /-- Every call has succeeded. The next step removes the claim from the queue. -/
  | booked
  deriving DecidableEq

/-- A call that fails transiently leaves the tables unchanged. -/
def query {α : Type} (fails : Bool) (answer : Except DatabaseError α) : Except DatabaseError α :=
  if fails then .error .failedToGetConnectionFromPool else answer

/-- `while let Err(_) = call`: stay on an error, else go on. -/
def retry (fails : Bool) (db : Database) (here next : BookingPc)
    (answer : Except DatabaseError Unit × Database) : Except Panic BookingPc × Database :=
  if fails then (.ok here, db)
  else match answer with
    | (.ok _, db') => (.ok next, db')
    | (.error _, db') => (.ok here, db')

namespace Receipt

/-- `amount as i64`. -/
def amountI64 (rc : Receipt) : Int := Word.signed 64 rc.amount

def insertTransaction (rc : Receipt) (poolId : Int) : InsertTransaction where
  transactionType := .claim
  signature := rc.signature
  priorityFee := 20_000
  poolId := poolId

def insertClaim (rc : Receipt) (minerId poolId txnId : Int) : InsertClaim where
  minerId := minerId
  poolId := poolId
  transactionId := txnId
  amount := rc.amountI64

/-- One database call at the time `now`. -/
def step (rc : Receipt) (now : Int) (fails : Bool) (db : Database) :
    BookingPc → Except Panic BookingPc × Database
  | .getMiner =>
      match query fails (db.getMinerByPubkeyStr rc.minerPubkey) with
      | .ok minerId => (.ok (.getPool minerId), db)
      | .error _ => (.error .unwrapOnErr, db)
  | .getPool minerId =>
      match query fails (db.getPoolByAuthorityPubkey rc.authority) with
      | .ok pool => (.ok (.decrease minerId pool.id), db)
      | .error _ => (.error .unwrapOnErr, db)
  | .decrease minerId poolId =>
      retry fails db (.decrease minerId poolId) (.poolClaimed minerId poolId)
        (db.decreaseMinerReward minerId rc.amountI64)
  | .poolClaimed minerId poolId =>
      retry fails db (.poolClaimed minerId poolId) (.addTransaction minerId poolId)
        (db.updatePoolClaimed rc.authority rc.amountI64)
  | .addTransaction minerId poolId =>
      retry fails db (.addTransaction minerId poolId) (.getTransactionId minerId poolId)
        (db.addNewTransaction (rc.insertTransaction poolId))
  | .getTransactionId minerId poolId =>
      match query fails (db.getTransactionIdBySig rc.signature) with
      | .ok txnId => (.ok (.addClaim minerId poolId txnId), db)
      | .error _ => (.ok (.getTransactionId minerId poolId), db)
  | .addClaim minerId poolId txnId =>
      retry fails db (.addClaim minerId poolId txnId) .booked
        (db.addNewClaim (rc.insertClaim minerId poolId txnId) now)
  | .booked => (.ok .booked, db)

/-! ## Runs of the calls -/

/-- After a panic nothing happens any more. -/
def next (rc : Receipt) (now : Int) (fails : Bool) :
    Except Panic BookingPc × Database → Except Panic BookingPc × Database
  | (.ok pc, db) => rc.step now fails db pc
  | (.error p, db) => (.error p, db)

/-- The state after the first `n` calls. -/
def run (rc : Receipt) (fails : Nat → Bool) (clock : Nat → Int) (db : Database) :
    Nat → Except Panic BookingPc × Database
  | 0 => (.ok .getMiner, db)
  | n + 1 => rc.next (clock n) (fails n) (rc.run fails clock db n)

/-- The tables after the booking: the amount is taken from the balance of the miner and added
to the claimed rewards of the pool, every other row is as before, and there is one claim
more. -/
structure Booked (rc : Receipt) (minerId : Int) (pool : Pool) (db db' : Database) : Prop where
  rewards : db'.rewards = db.rewards.map fun row =>
    if row.minerId = minerId then ⟨row.minerId, row.balance - rc.amount⟩ else row
  claimed : db'.pools.lookup rc.authority = some ⟨pool.id, pool.claimedRewards + rc.amount⟩
  pools : ∀ authority, authority ≠ rc.authority →
    db'.pools.lookup authority = db.pools.lookup authority
  claim : ∃ txnId created,
    db'.claims = (⟨minerId, pool.id, txnId, rc.amount⟩, created) :: db.claims ∧
    db'.transactions = (txnId, rc.insertTransaction pool.id) :: db.transactions
  miners : db'.miners = db.miners

/-- The calls come to their end, and have then booked the payout exactly once. -/
def Books (rc : Receipt) (fails : Nat → Bool) (clock : Nat → Int) (minerId : Int) (pool : Pool)
    (db : Database) : Prop :=
  ∃ n db', rc.run fails clock db n = (.ok .booked, db') ∧ rc.Booked minerId pool db db'

variable {rc : Receipt} {fails : Nat → Bool} {clock : Nat → Int} {db db' : Database}
  {st st' : Except Panic BookingPc × Database} {pc : BookingPc} {n m : Nat}

/-- No call changes the state. -/
def Absorbing (rc : Receipt) (st : Except Panic BookingPc × Database) : Prop :=
  ∀ now fails, rc.next now fails st = st

theorem absorbing_booked (db : Database) : rc.Absorbing (.ok .booked, db) := fun _ _ => rfl

theorem absorbing_panic (p : Panic) (db : Database) : rc.Absorbing (.error p, db) :=
  fun _ _ => rfl

theorem run_of_absorbing (hst : rc.Absorbing st) (hn : rc.run fails clock db n = st)
    (hle : n ≤ m) : rc.run fails clock db m = st := by
  induction m, hle using Nat.le_induction with
  | base => exact hn
  | succ m _ ih => rw [run, ih, hst]

/-- A run ends in at most one absorbing state. -/
theorem absorbing_unique (hst : rc.Absorbing st) (hst' : rc.Absorbing st')
    (hn : rc.run fails clock db n = st) (hm : rc.run fails clock db m = st') : st = st' := by
  rw [← run_of_absorbing hst hn (Nat.le_max_left n m),
    ← run_of_absorbing hst' hm (Nat.le_max_right n m)]

/-! ## What one call does -/

theorem query_eq_ok {α : Type} {fails : Bool} {answer : Except DatabaseError α} {a : α}
    (h : query fails answer = .ok a) : answer = .ok a := by
  cases fails with
  | false => exact h
  | true => cases h

/-- A repeated call goes on when it succeeds, and stays when it or its answer fails. -/
theorem retry_eq_ok {fails : Bool} {here next : BookingPc}
    {answer : Except DatabaseError Unit × Database}
    (h : retry fails db here next answer = (.ok pc, db')) :
    pc = next ∧ answer = (.ok (), db') ∨
      pc = here ∧ (db' = db ∨ ∃ err, answer = (.error err, db')) := by
  cases fails with
  | true =>
      cases h
      exact .inr ⟨rfl, .inl rfl⟩
  | false =>
      obtain ⟨_ | _, _⟩ := answer
      · cases h
        exact .inr ⟨rfl, .inr ⟨_, rfl⟩⟩
      · cases h
        exact .inl ⟨rfl, rfl⟩

/-- The outcomes of a call after which the booking goes on. -/
inductive Outcome (rc : Receipt) (db : Database) : BookingPc → BookingPc → Database → Prop
  | stay (pc : BookingPc) : Outcome rc db pc pc db
  | getMiner (minerId : Int) : db.miners.lookup rc.minerPubkey = some minerId →
      Outcome rc db .getMiner (.getPool minerId) db
  | getPool (minerId poolId : Int) :
      Outcome rc db (.getPool minerId) (.decrease minerId poolId) db
  | decrease (minerId poolId : Int) : (db.rewardsOf minerId).length = 1 →
      Outcome rc db (.decrease minerId poolId) (.poolClaimed minerId poolId)
        (db.addToRewards minerId (-rc.amountI64))
  /-- The error is reported after the update. -/
  | decreaseRows (minerId poolId : Int) : (db.rewardsOf minerId).length ≠ 1 →
      Outcome rc db (.decrease minerId poolId) (.decrease minerId poolId)
        (db.addToRewards minerId (-rc.amountI64))
  | poolClaimed (minerId poolId : Int) (pool : Pool) :
      db.pools.lookup rc.authority = some pool →
      Outcome rc db (.poolClaimed minerId poolId) (.addTransaction minerId poolId)
        { db with pools := db.pools.insert rc.authority (pool.addClaimed rc.amountI64) }
  | addTransaction (minerId poolId : Int) :
      Outcome rc db (.addTransaction minerId poolId) (.getTransactionId minerId poolId)
        (db.addNewTransaction (rc.insertTransaction poolId)).2
  | getTransactionId (minerId poolId txnId : Int) :
      Outcome rc db (.getTransactionId minerId poolId) (.addClaim minerId poolId txnId) db
  | addClaim (minerId poolId txnId created : Int) :
      Outcome rc db (.addClaim minerId poolId txnId) .booked
        (db.addNewClaim (rc.insertClaim minerId poolId txnId) created).2

theorem outcome_decrease {minerId poolId now : Int} {failed : Bool} {pc' : BookingPc}
    (h : rc.step now failed db (.decrease minerId poolId) = (.ok pc', db')) :
    rc.Outcome db (.decrease minerId poolId) pc' db' := by
  simp only [step] at h
  obtain ⟨rfl, hanswer⟩ | ⟨rfl, rfl | ⟨err, hanswer⟩⟩ := retry_eq_ok h
  · rw [Database.decreaseMinerReward] at hanswer
    split at hanswer
    · obtain ⟨hresult, rfl⟩ := Prod.mk.inj hanswer
      exact .decrease minerId poolId (by by_contra hrows; simp [hrows] at hresult)
    · cases hanswer
  · exact .stay _
  · rw [Database.decreaseMinerReward] at hanswer
    split at hanswer
    · obtain ⟨hresult, rfl⟩ := Prod.mk.inj hanswer
      exact .decreaseRows minerId poolId fun hrows => by simp [hrows] at hresult
    · cases hanswer
      exact .stay _

theorem outcome_poolClaimed {minerId poolId now : Int} {failed : Bool} {pc' : BookingPc}
    (h : rc.step now failed db (.poolClaimed minerId poolId) = (.ok pc', db')) :
    rc.Outcome db (.poolClaimed minerId poolId) pc' db' := by
  simp only [step] at h
  obtain ⟨rfl, hanswer⟩ | ⟨rfl, rfl | ⟨err, hanswer⟩⟩ := retry_eq_ok h
  · rw [Database.updatePoolClaimed] at hanswer
    split at hanswer
    · next pool hpool =>
      split at hanswer
      · cases hanswer
        exact .poolClaimed minerId poolId pool hpool
      · cases hanswer
    · cases hanswer
  · exact .stay _
  · rw [Database.updatePoolClaimed] at hanswer
    split at hanswer
    · split at hanswer
      · cases hanswer
      · cases hanswer
        exact .stay _
    · cases hanswer
      exact .stay _

theorem step_outcome {now : Int} {failed : Bool} {pc' : BookingPc}
    (h : rc.step now failed db pc = (.ok pc', db')) : rc.Outcome db pc pc' db' := by
  cases pc with
  | getMiner =>
      simp only [step] at h
      split at h
      · next minerId hquery =>
        cases h
        exact .getMiner minerId (Database.getMinerByPubkeyStr_eq.mp (query_eq_ok hquery))
      · cases h
  | getPool minerId =>
      simp only [step] at h
      split at h
      · next pool hquery =>
        cases h
        exact .getPool minerId pool.id
      · cases h
  | decrease minerId poolId => exact outcome_decrease h
  | poolClaimed minerId poolId => exact outcome_poolClaimed h
  | addTransaction minerId poolId =>
      simp only [step] at h
      obtain ⟨rfl, hanswer⟩ | ⟨rfl, rfl | ⟨err, hanswer⟩⟩ := retry_eq_ok h
      · cases hanswer
        exact .addTransaction minerId poolId
      · exact .stay _
      · cases hanswer
  | getTransactionId minerId poolId =>
      simp only [step] at h
      split at h
      · next txnId hquery =>
        cases h
        exact .getTransactionId minerId poolId txnId
      · cases h
        exact .stay _
  | addClaim minerId poolId txnId =>
      simp only [step] at h
      obtain ⟨rfl, hanswer⟩ | ⟨rfl, rfl | ⟨err, hanswer⟩⟩ := retry_eq_ok h
      · cases hanswer
        exact .addClaim minerId poolId txnId now
      · exact .stay _
      · cases hanswer
  | booked =>
      cases h
      exact .stay _

/-! ## Repeated calls -/

/-- The call fails without consequences. -/
def Repeats (rc : Receipt) (pc : BookingPc) : Prop :=
  ∀ now db, rc.step now true db pc = (.ok pc, db)

/-- A call that is repeated after failures is answered in the end. -/
theorem exists_answer (hfinite : ∃ N, ∀ i ≥ N, fails i = false) (hpc : rc.Repeats pc)
    (hn : rc.run fails clock db n = (.ok pc, db')) :
    ∃ m, rc.run fails clock db (m + 1) = rc.step (clock m) false db' pc := by
  have hanswer : ∃ k, fails (n + k) = false := by
    obtain ⟨N, hN⟩ := hfinite
    exact ⟨N, hN _ (Nat.le_add_left N n)⟩
  -- Until the first call that does not fail, the state stays as it is.
  have hwait : ∀ k ≤ Nat.find hanswer, rc.run fails clock db (n + k) = (.ok pc, db') := by
    intro k hk
    induction k with
    | zero => exact hn
    | succ k ih =>
        have hfails : fails (n + k) = true := by
          have := Nat.find_min hanswer (show k < Nat.find hanswer by omega)
          simpa using this
        rw [← Nat.add_assoc, run, ih (by omega), hfails]
        exact hpc _ _
  refine ⟨n + Nat.find hanswer, ?_⟩
  rw [run, hwait _ le_rfl, Nat.find_spec hanswer]
  rfl

/-- A call whose answer is an error without consequences is repeated for ever. -/
theorem absorbing_of_error (hpc : rc.Repeats pc)
    (hanswer : ∀ now, rc.step now false db pc = (.ok pc, db)) : rc.Absorbing (.ok pc, db) := by
  intro now fails
  cases fails with
  | true => exact hpc now db
  | false => exact hanswer now

/-! ## The way to the booking -/

theorem step_decrease {minerId poolId now : Int} (hsingle : (db.rewardsOf minerId).length = 1)
    (hfit : db.RewardsFit minerId (-rc.amountI64)) :
    rc.step now false db (.decrease minerId poolId) =
      (.ok (.poolClaimed minerId poolId), db.addToRewards minerId (-rc.amountI64)) := by
  simp [step, retry, Database.decreaseMinerReward, hfit, hsingle]

theorem step_decrease_error {minerId poolId now : Int}
    (hfit : ¬ db.RewardsFit minerId (-rc.amountI64)) :
    rc.step now false db (.decrease minerId poolId) = (.ok (.decrease minerId poolId), db) := by
  simp [step, retry, Database.decreaseMinerReward, hfit]

/-- The tables after the update of the pool. -/
def claimedDb (rc : Receipt) (pool : Pool) (db : Database) : Database :=
  { db with pools := db.pools.insert rc.authority (pool.addClaimed rc.amountI64) }

theorem step_poolClaimed {pool : Pool} {minerId poolId now : Int}
    (hpool : db.pools.lookup rc.authority = some pool)
    (hfit : FitsBigint (pool.claimedRewards + rc.amountI64)) :
    rc.step now false db (.poolClaimed minerId poolId) =
      (.ok (.addTransaction minerId poolId), rc.claimedDb pool db) := by
  simp [step, retry, Database.updatePoolClaimed, hpool, hfit, claimedDb]

theorem step_poolClaimed_error {pool : Pool} {minerId poolId now : Int}
    (hpool : db.pools.lookup rc.authority = some pool)
    (hfit : ¬ FitsBigint (pool.claimedRewards + rc.amountI64)) :
    rc.step now false db (.poolClaimed minerId poolId) =
      (.ok (.poolClaimed minerId poolId), db) := by
  simp [step, retry, Database.updatePoolClaimed, hpool, hfit]

/-- The tables after the insertion of the transaction. -/
def recordedDb (rc : Receipt) (poolId : Int) (db : Database) : Database :=
  (db.addNewTransaction (rc.insertTransaction poolId)).2

theorem step_addTransaction {minerId poolId now : Int} :
    rc.step now false db (.addTransaction minerId poolId) =
      (.ok (.getTransactionId minerId poolId), rc.recordedDb poolId db) := rfl

theorem step_getTransactionId {minerId poolId now : Int}
    (hfresh : ∀ row ∈ db.transactions, row.2.signature ≠ rc.signature) :
    rc.step now false (rc.recordedDb poolId db) (.getTransactionId minerId poolId) =
      (.ok (.addClaim minerId poolId db.nextTransaction), rc.recordedDb poolId db) := by
  have hfound := Database.getTransactionIdBySig_addNewTransaction
    (rc.insertTransaction poolId) hfresh
  simp only [insertTransaction] at hfound
  simp [step, query, recordedDb, insertTransaction, hfound]

theorem step_getTransactionId_error {minerId poolId now : Int}
    (hold : ¬ ∀ row ∈ db.transactions, row.2.signature ≠ rc.signature) :
    rc.step now false (rc.recordedDb poolId db) (.getTransactionId minerId poolId) =
      (.ok (.getTransactionId minerId poolId), rc.recordedDb poolId db) := by
  have hlost := Database.getTransactionIdBySig_duplicate
    (rc.insertTransaction poolId) (by simpa [insertTransaction] using hold)
  simp only [insertTransaction] at hlost
  simp [step, query, recordedDb, insertTransaction, hlost]

section Given

variable {minerId : Int} {pool : Pool} (clock : Nat → Int)
  (hminer : db.miners.lookup rc.minerPubkey = some minerId)
  (hpool : db.pools.lookup rc.authority = some pool)
  (hsingle : (db.rewardsOf minerId).length = 1)
  (hfinite : ∃ N, ∀ i ≥ N, fails i = false)
  (hfirst : fails 0 = false ∧ fails 1 = false)

include hminer in
/-- A failure of one of the unwrapped calls ends the server. -/
theorem run_panic (h : ¬ (fails 0 = false ∧ fails 1 = false)) :
    ∃ n, rc.run fails clock db n = (.error .unwrapOnErr, db) := by
  have hquery := Database.getMinerByPubkeyStr_eq.mpr hminer
  cases h0 : fails 0 with
  | true => exact ⟨1, by simp [run, next, step, query, h0]⟩
  | false =>
      have h1 : fails 1 = true := by simpa [h0] using h
      exact ⟨2, by simp [run, next, step, query, h0, h1, hquery]⟩

include hminer hpool hfirst in
theorem run_decrease : rc.run fails clock db 2 = (.ok (.decrease minerId pool.id), db) := by
  simp [run, next, step, query, hfirst, Database.getMinerByPubkeyStr_eq.mpr hminer,
    Database.getPoolByAuthorityPubkey_eq.mpr hpool]

include hminer hpool hsingle hfinite hfirst in
theorem run_poolClaimed (hrewards : db.RewardsFit minerId (-rc.amountI64)) :
    ∃ n, rc.run fails clock db n =
      (.ok (.poolClaimed minerId pool.id), db.addToRewards minerId (-rc.amountI64)) := by
  obtain ⟨m, hm⟩ := exists_answer hfinite (fun _ _ => rfl)
    (run_decrease clock hminer hpool hfirst)
  exact ⟨m + 1, hm.trans (step_decrease hsingle hrewards)⟩

/-- The tables when the transaction has been inserted. -/
def settledDb (rc : Receipt) (minerId : Int) (pool : Pool) (db : Database) : Database :=
  rc.recordedDb pool.id (rc.claimedDb pool (db.addToRewards minerId (-rc.amountI64)))

include hminer hpool hsingle hfinite hfirst in
theorem run_getTransactionId (hrewards : db.RewardsFit minerId (-rc.amountI64))
    (hclaimed : FitsBigint (pool.claimedRewards + rc.amountI64)) :
    ∃ n, rc.run fails clock db n =
      (.ok (.getTransactionId minerId pool.id), rc.settledDb minerId pool db) := by
  obtain ⟨k, hk⟩ := run_poolClaimed clock hminer hpool hsingle hfinite hfirst hrewards
  obtain ⟨l, hl⟩ := exists_answer hfinite (fun _ _ => rfl) hk
  have hadd := hl.trans (step_poolClaimed (by simpa using hpool) hclaimed)
  obtain ⟨m, hm⟩ := exists_answer hfinite (fun _ _ => rfl) hadd
  exact ⟨m + 1, hm.trans step_addTransaction⟩

include hminer hpool hsingle hfinite hfirst in
theorem run_booked (hrewards : db.RewardsFit minerId (-rc.amountI64))
    (hclaimed : FitsBigint (pool.claimedRewards + rc.amountI64))
    (hfresh : ∀ row ∈ db.transactions, row.2.signature ≠ rc.signature) :
    ∃ n created, rc.run fails clock db n = (.ok .booked,
      ((rc.settledDb minerId pool db).addNewClaim
        (rc.insertClaim minerId pool.id db.nextTransaction) created).2) := by
  obtain ⟨k, hk⟩ := run_getTransactionId clock hminer hpool hsingle hfinite hfirst hrewards hclaimed
  obtain ⟨l, hl⟩ := exists_answer hfinite (fun _ _ => by simp [step, query]) hk
  have hfound := hl.trans (step_getTransactionId hfresh)
  obtain ⟨m, hm⟩ := exists_answer hfinite (fun _ _ => rfl) hfound
  exact ⟨m + 1, clock m, hm⟩

/-! ## When the booking is completed -/

/-- The booking is the only end of the run. -/
theorem Books.end_eq {clock : Nat → Int} (h : rc.Books fails clock minerId pool db)
    (hst : rc.Absorbing st) (hn : rc.run fails clock db n = st) :
    ∃ db', st = (.ok .booked, db') ∧ rc.Booked minerId pool db db' := by
  obtain ⟨m, db', hm, hbooked⟩ := h
  exact ⟨db', absorbing_unique hst (absorbing_booked db') hn hm, hbooked⟩

variable {clock} (hbooks : rc.Books fails clock minerId pool db)

include hbooks hminer in
theorem first_of_books : fails 0 = false ∧ fails 1 = false := by
  by_contra hnot
  obtain ⟨n, hn⟩ := run_panic clock hminer hnot
  obtain ⟨db', hend, -⟩ := hbooks.end_eq (absorbing_panic _ _) hn
  cases hend

include hbooks hminer hpool in
theorem rewardsFit_of_books : db.RewardsFit minerId (-rc.amountI64) := by
  by_contra hnot
  obtain ⟨db', hend, -⟩ := hbooks.end_eq
    (absorbing_of_error (fun _ _ => rfl) fun _ => step_decrease_error hnot)
    (run_decrease clock hminer hpool (first_of_books hminer hbooks))
  cases hend

include hbooks hminer hpool hsingle hfinite in
theorem claimedFit_of_books : FitsBigint (pool.claimedRewards + rc.amountI64) := by
  by_contra hnot
  obtain ⟨n, hn⟩ := run_poolClaimed clock hminer hpool hsingle hfinite
    (first_of_books hminer hbooks) (rewardsFit_of_books hminer hpool hbooks)
  obtain ⟨db', hend, -⟩ := hbooks.end_eq (absorbing_of_error (fun _ _ => rfl)
    fun _ => step_poolClaimed_error (by simpa using hpool) hnot) hn
  cases hend

include hbooks hminer hpool hsingle hfinite in
theorem fresh_of_books : ∀ row ∈ db.transactions, row.2.signature ≠ rc.signature := by
  by_contra hnot
  obtain ⟨n, hn⟩ := run_getTransactionId clock hminer hpool hsingle hfinite
    (first_of_books hminer hbooks) (rewardsFit_of_books hminer hpool hbooks)
    (claimedFit_of_books hminer hpool hsingle hfinite hbooks)
  have hrepeat : ∀ now, rc.step now false (rc.settledDb minerId pool db)
      (.getTransactionId minerId pool.id) = _ := fun _ => step_getTransactionId_error hnot
  obtain ⟨db', hend, -⟩ :=
    hbooks.end_eq (absorbing_of_error (fun _ _ => by simp [step, query]) hrepeat) hn
  cases hend

include hbooks hminer hpool hsingle hfinite in
/-- The amount in the row of the claim is the one that was cast. -/
theorem amountI64_of_books : rc.amountI64 = rc.amount := by
  obtain ⟨n, created, hn⟩ := run_booked clock hminer hpool hsingle hfinite
    (first_of_books hminer hbooks) (rewardsFit_of_books hminer hpool hbooks)
    (claimedFit_of_books hminer hpool hsingle hfinite hbooks)
    (fresh_of_books hminer hpool hsingle hfinite hbooks)
  obtain ⟨db', hend, hbooked⟩ := hbooks.end_eq (absorbing_booked _) hn
  cases hend
  obtain ⟨txnId, created', hclaims, -⟩ := hbooked.claim
  simp only [Database.addNewClaim, List.cons.injEq, Prod.mk.injEq, InsertClaim.mk.injEq,
    insertClaim] at hclaims
  exact hclaims.1.1.2.2.2

/-- The tables at the end of the calls are the booked ones. -/
theorem booked_settledDb (created : Int) (hexact : rc.amountI64 = rc.amount) :
    rc.Booked minerId pool db ((rc.settledDb minerId pool db).addNewClaim
      (rc.insertClaim minerId pool.id db.nextTransaction) created).2 where
  rewards := by
    simp [Database.addNewClaim, settledDb, recordedDb, Database.addNewTransaction, claimedDb,
      Database.addToRewards, hexact, sub_eq_add_neg]
  claimed := by
    simp [Database.addNewClaim, settledDb, recordedDb, Database.addNewTransaction, claimedDb,
      Pool.addClaimed, hexact]
  pools authority hother := by
    simp [Database.addNewClaim, settledDb, recordedDb, Database.addNewTransaction, claimedDb,
      AList.lookup_insert_ne hother]
  claim := by
    refine ⟨db.nextTransaction, created, ?_, rfl⟩
    simp only [Database.addNewClaim, insertClaim, hexact]
    rfl
  miners := rfl

end Given

/-- An amount in the range of `i64` is booked as it is, others change. -/
theorem amountI64_eq_iff : rc.amountI64 = rc.amount ↔ rc.amount < 2 ^ 63 := by
  constructor
  · intro h
    have hlt : rc.amountI64 < 2 ^ 63 := Word.signed_lt 63 rc.amount
    omega
  · exact Word.signed_of_nat_lt (w := 63)

theorem rewardsFit_iff {minerId : Int} {reward : Reward} (hrow : db.rewardsOf minerId = [reward])
    (delta : Int) : db.RewardsFit minerId delta ↔ FitsBigint (reward.balance + delta) := by
  simp [Database.RewardsFit, hrow]

/-- For every pattern of finitely many failures, the payout is booked exactly once if and
only if both unwrapped calls succeed at once, the amount and the new balances stay within
`BIGINT`, and the signature is not yet among the transactions. -/
theorem books_iff {minerId : Int} {pool : Pool} {reward : Reward}
    (hminer : db.miners.lookup rc.minerPubkey = some minerId)
    (hpool : db.pools.lookup rc.authority = some pool)
    (hrow : db.rewardsOf minerId = [reward]) (hfinite : ∃ N, ∀ i ≥ N, fails i = false) :
    rc.Books fails clock minerId pool db ↔
      (fails 0 = false ∧ fails 1 = false) ∧ rc.amount < 2 ^ 63 ∧
      FitsBigint (reward.balance - rc.amount) ∧ FitsBigint (pool.claimedRewards + rc.amount) ∧
      ∀ row ∈ db.transactions, row.2.signature ≠ rc.signature := by
  have hsingle : (db.rewardsOf minerId).length = 1 := by rw [hrow]; rfl
  constructor
  · intro hbooks
    have hexact := amountI64_of_books hminer hpool hsingle hfinite hbooks
    have hrewards := rewardsFit_of_books hminer hpool hbooks
    have hclaimed := claimedFit_of_books hminer hpool hsingle hfinite hbooks
    rw [hexact, rewardsFit_iff hrow] at hrewards
    rw [hexact] at hclaimed
    exact ⟨first_of_books hminer hbooks, amountI64_eq_iff.mp hexact, hrewards, hclaimed,
      fresh_of_books hminer hpool hsingle hfinite hbooks⟩
  · rintro ⟨hfirst, hamount, hrewards, hclaimed, hfresh⟩
    have hexact := amountI64_eq_iff.mpr hamount
    obtain ⟨n, created, hn⟩ := run_booked clock hminer hpool hsingle hfinite hfirst
      (by rw [hexact, rewardsFit_iff hrow]; exact hrewards) (by rw [hexact]; exact hclaimed) hfresh
    exact ⟨n, _, hn, booked_settledDb created hexact⟩

/-- One miner with a balance of 0.01 ORE. -/
def sampleDb : Database where
  miners := AList.singleton (.fill 32 1) 1000
  pools := AList.singleton (.fill 32 9) ⟨1000, 0⟩
  rewards := [⟨1000, 1_000_000_000⟩]
  transactions := []
  claims := []
  nextTransaction := 1
  minerIds k k' id h h' := by
    have hk := List.mem_singleton.mp (AList.mem_lookup_iff.mp h)
    have hk' := List.mem_singleton.mp (AList.mem_lookup_iff.mp h')
    exact (congrArg Sigma.fst hk).trans (congrArg Sigma.fst hk').symm

end Receipt

end Hashpoo.Claims
