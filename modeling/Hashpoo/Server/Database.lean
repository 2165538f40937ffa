import Hashpoo.Server.Types

/-!
# The tables behind the claims

The Postgres tables that a claim touches and the statements of `database.rs` on them.
The unique indices on the keys of miners and pools make those two tables maps; nothing
in the schema keeps the rewards of a miner or the signature of a transaction unique.

A statement that fails leaves the tables as they are, with one exception that the source
makes visible: `UPDATE` reports an error after it has changed other than one row.
-/

namespace Hashpoo

open Foundation

/-- A transaction signature. Only equality matters. -/
abbrev Signature := Nat

inductive DatabaseError where
  | failedToGetConnectionFromPool
  | failedToUpdateRow
  | failedToInsertRow
  | queryFailed
  deriving DecidableEq

inductive TransactionType where
  | mine
  | claim
  deriving DecidableEq

structure Pool where
  id : Int
  claimedRewards : Int
  deriving DecidableEq

def Pool.addClaimed (pool : Pool) (amount : Int) : Pool :=
  { pool with claimedRewards := pool.claimedRewards + amount }

/-- A row of `rewards`. -/
structure Reward where
  minerId : Int
  balance : Int
  deriving DecidableEq

structure InsertTransaction where
  transactionType : TransactionType
  signature : Signature
  priorityFee : Int
  poolId : Int
  deriving DecidableEq

structure InsertClaim where
  minerId : Int
  poolId : Int
  transactionId : Int
  amount : Int
  deriving DecidableEq

structure Database where
  /-- Ids by key. -/
  miners : HashMap Pubkey Int
  /-- Pools by the key of their authority. -/
  pools : HashMap Pubkey Pool
  rewards : List Reward
  /-- Transactions with their ids, the last one first. -/
  transactions : List (Int × InsertTransaction)
  /-- Claims with the time of their creation, the last one first. -/
  claims : List (InsertClaim × Int)
  /-- The next id of the identity column of `transactions`. -/
  nextTransaction : Int
  /-- `id` is the primary key of `miners`. -/
  minerIds : ∀ k k' id, miners.lookup k = some id → miners.lookup k' = some id → k = k'

/-- The range of `BIGINT`. A statement whose result leaves it fails. -/
def FitsBigint (x : Int) : Prop := -2 ^ 63 ≤ x ∧ x < 2 ^ 63

instance (x : Int) : Decidable (FitsBigint x) := inferInstanceAs (Decidable (_ ∧ _))

/-- `query_one`: no row and several rows are errors. -/
def queryOne {α : Type} : List α → Except DatabaseError α
  | [row] => .ok row
  | _ => .error .queryFailed

theorem queryOne_eq_ok {α : Type} {rows : List α} {row : α} :
    queryOne rows = .ok row ↔ rows = [row] := by
  match rows with
  | [] => simp [queryOne]
  | [_] => simp [queryOne]
  | _ :: _ :: _ => simp [queryOne]

namespace Database

variable (db : Database)

/-! ## Queries -/

def getMinerByPubkeyStr (pubkey : Pubkey) : Except DatabaseError Int :=
  queryOne (db.miners.lookup pubkey).toList

def getPoolByAuthorityPubkey (authority : Pubkey) : Except DatabaseError Pool :=
  queryOne (db.pools.lookup authority).toList

def getTransactionIdBySig (sig : Signature) : Except DatabaseError Int :=
  queryOne ((db.transactions.filter fun row => row.2.signature = sig).map Prod.fst)

/-- The rows of `rewards` of a miner. -/
def rewardsOf (minerId : Int) : List Reward :=
  db.rewards.filter fun row => row.minerId = minerId

def getMinerRewards (pubkey : Pubkey) : Except DatabaseError Reward :=
  queryOne ((db.miners.lookup pubkey).toList.flatMap db.rewardsOf)

/-- The creation time of the last claim of a miner, as the table has it. -/
def lastClaim (minerId : Int) : Option Int :=
  (db.claims.find? fun row => row.1.minerId = minerId).map Prod.snd

/-- No row is an error. `row.get(0)` reads a `NaiveDateTime` from a column of type
`TIMESTAMP WITH TIME ZONE`, which panics at every row. -/
def getLastClaim (minerId : Int) : Except Panic (Except DatabaseError Int) :=
  match db.lastClaim minerId with
  | some _ => .error .wrongType
  | none => .ok (.error .queryFailed)

/-! ## Updates -/

/-- `UPDATE rewards SET balance = balance + delta WHERE miner_id = minerId`. -/
def addToRewards (minerId delta : Int) : Database :=
  { db with rewards := db.rewards.map fun row =>
      if row.minerId = minerId then { row with balance := row.balance + delta } else row }

/-- No balance of the miner leaves its range under the update. -/
def RewardsFit (minerId delta : Int) : Prop :=
  ∀ row ∈ db.rewardsOf minerId, FitsBigint (row.balance + delta)

instance (minerId delta : Int) : Decidable (db.RewardsFit minerId delta) :=
  inferInstanceAs (Decidable (∀ row ∈ _, _))

def decreaseMinerReward (minerId rewardsToDecrease : Int) :
    Except DatabaseError Unit × Database :=
  if db.RewardsFit minerId (-rewardsToDecrease) then
    (if (db.rewardsOf minerId).length = 1 then .ok () else .error .failedToUpdateRow,
      db.addToRewards minerId (-rewardsToDecrease))
  else
    (.error .queryFailed, db)

def updatePoolClaimed (authority : Pubkey) (claimedRewards : Int) :
    Except DatabaseError Unit × Database :=
  match db.pools.lookup authority with
  | some pool =>
      if FitsBigint (pool.claimedRewards + claimedRewards) then
        (.ok (), { db with pools := db.pools.insert authority (pool.addClaimed claimedRewards) })
      else
        (.error .queryFailed, db)
  | none => (.error .failedToUpdateRow, db)

def addNewTransaction (txn : InsertTransaction) : Except DatabaseError Unit × Database :=
  (.ok (), { db with
    transactions := (db.nextTransaction, txn) :: db.transactions
    nextTransaction := db.nextTransaction + 1 })

/-- `created` is the time at which the row is inserted. -/
def addNewClaim (claim : InsertClaim) (created : Int) : Except DatabaseError Unit × Database :=
  (.ok (), { db with claims := (claim, created) :: db.claims })

variable {db}

@[simp] theorem addToRewards_pools (minerId delta : Int) :
    (db.addToRewards minerId delta).pools = db.pools := rfl

/-- An answered query reports no other error. -/
theorem getPoolByAuthorityPubkey_error {authority : Pubkey} {err : DatabaseError}
    (h : db.getPoolByAuthorityPubkey authority = .error err) : err = .queryFailed := by
  simp only [getPoolByAuthorityPubkey, queryOne] at h
  split at h
  · cases h
  · exact (Except.error.inj h).symm

theorem getMinerByPubkeyStr_eq {pubkey : Pubkey} {minerId : Int} :
    db.getMinerByPubkeyStr pubkey = .ok minerId ↔ db.miners.lookup pubkey = some minerId := by
  rw [getMinerByPubkeyStr]
  cases db.miners.lookup pubkey with
  | none => simp [queryOne]
  | some id => simp [queryOne]

theorem getPoolByAuthorityPubkey_eq {authority : Pubkey} {pool : Pool} :
    db.getPoolByAuthorityPubkey authority = .ok pool ↔ db.pools.lookup authority = some pool := by
  rw [getPoolByAuthorityPubkey]
  cases db.pools.lookup authority with
  | none => simp [queryOne]
  | some p => simp [queryOne]

/-- A row that is inserted under a fresh signature is found again. -/
theorem getTransactionIdBySig_addNewTransaction (txn : InsertTransaction)
    (hfresh : ∀ row ∈ db.transactions, row.2.signature ≠ txn.signature) :
    (db.addNewTransaction txn).2.getTransactionIdBySig txn.signature =
      .ok db.nextTransaction := by
  have hnone : db.transactions.filter (fun row => row.2.signature = txn.signature) = [] := by
    simpa [List.filter_eq_nil_iff] using hfresh
  simp [getTransactionIdBySig, addNewTransaction, hnone, queryOne]

/-- With an older row of the same signature the query fails for ever. -/
theorem getTransactionIdBySig_duplicate (txn : InsertTransaction)
    (hold : ∃ row ∈ db.transactions, row.2.signature = txn.signature) :
    (db.addNewTransaction txn).2.getTransactionIdBySig txn.signature = .error .queryFailed := by
  obtain ⟨row, hrow, hsig⟩ := hold
  have hmem : row ∈ db.transactions.filter fun row => row.2.signature = txn.signature := by
    simp [hrow, hsig]
  obtain ⟨first, rest, hcons⟩ := List.exists_cons_of_ne_nil (List.ne_nil_of_mem hmem)
  simp [getTransactionIdBySig, addNewTransaction, hcons, queryOne]

end Database

end Hashpoo
