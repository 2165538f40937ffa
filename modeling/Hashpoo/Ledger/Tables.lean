import Hashpoo.Foundation.Chunks
import Hashpoo.Server.Database
import Hashpoo.Server.Rewards

/-!
# The tables behind the rewards

A mine success writes four tables, each through calls of its own. The batches of
`database.rs` are transactions whose statements are unwrapped: a statement that fails
ends the server and nothing of the batch stays. The calls are repeated until they
succeed, and an error is answered in three situations: no connection, no affected row,
or, outside the batches, a statement that fails.
-/

namespace Hashpoo

open Foundation

/-- The part of the configuration that goes into the rows. -/
structure MineConfig where
  poolId : Int
  commissionsMinerId : Int
  deriving DecidableEq

structure InsertEarning where
  minerId : Int
  poolId : Int
  challengeId : Int
  amount : Int
  deriving DecidableEq

structure InsertContribution where
  minerId : Int
  challengeId : Int
  nonce : Nat
  digest : Digest
  difficulty : Int
  deriving DecidableEq

/-- A row of `contributions`, where the nonce is a `BIGINT`. -/
structure Contribution where
  minerId : Int
  challengeId : Int
  nonce : Int
  digest : Digest
  difficulty : Int
  deriving DecidableEq

/-- `contribution.nonce as i64`. -/
def InsertContribution.row (c : InsertContribution) : Contribution :=
  ⟨c.minerId, c.challengeId, Word.signed 64 c.nonce, c.digest, c.difficulty⟩

structure UpdateReward where
  minerId : Int
  balance : Int
  deriving DecidableEq

namespace Database

variable {db : Database} {minerId delta : Int}

/-- The sum over the rows of `rewards` of a miner. -/
def balanceOf (db : Database) (minerId : Int) : Int :=
  ((db.rewardsOf minerId).map Reward.balance).sum

@[simp] theorem addToRewards_claims : (db.addToRewards minerId delta).claims = db.claims := rfl

theorem minerIds_addToRewards : (db.addToRewards minerId delta).rewards.map Reward.minerId =
    db.rewards.map Reward.minerId := by
  simp only [addToRewards, List.map_map]
  refine List.map_congr_left fun row _ => ?_
  simp only [Function.comp_apply]
  split <;> rfl

theorem length_rewardsOf :
    (db.rewardsOf minerId).length = (db.rewards.map Reward.minerId).count minerId := by
  rw [rewardsOf, ← List.countP_eq_length_filter, List.count, List.countP_map]
  rfl

theorem rewardsOf_addToRewards_ne {other : Int} (hne : other ≠ minerId) :
    (db.addToRewards minerId delta).rewardsOf other = db.rewardsOf other := by
  simp only [rewardsOf, addToRewards]
  induction db.rewards with
  | nil => rfl
  | cons row rows ih =>
      by_cases hrow : row.minerId = minerId
      · have hother : row.minerId ≠ other := hrow.trans_ne hne.symm
        simpa [hrow, hother, hrow ▸ hother] using ih
      · by_cases hother : row.minerId = other
        · simpa [hrow, hother, hne] using ih
        · simpa [hrow, hother] using ih

theorem rewardsOf_addToRewards_self :
    (db.addToRewards minerId delta).rewardsOf minerId =
      (db.rewardsOf minerId).map fun row => { row with balance := row.balance + delta } := by
  simp only [rewardsOf, addToRewards]
  induction db.rewards with
  | nil => rfl
  | cons row rows ih =>
      by_cases hrow : row.minerId = minerId
      · simpa [hrow] using ih
      · simpa [hrow] using ih

/-- The one row of a miner takes the whole amount, and the rows of others none of it. -/
theorem balanceOf_addToRewards {id : Int} (hsingle : (db.rewardsOf id).length = 1) :
    (db.addToRewards minerId delta).balanceOf id =
      db.balanceOf id + if minerId = id then delta else 0 := by
  by_cases hid : minerId = id
  · subst hid
    obtain ⟨row, hrow⟩ := List.length_eq_one_iff.mp hsingle
    simp [balanceOf, rewardsOf_addToRewards_self, hrow]
  · simp [balanceOf, rewardsOf_addToRewards_ne (Ne.symm hid), hid]

/-- An update that matches no row changes nothing. -/
theorem addToRewards_of_no_row (hnone : db.rewardsOf minerId = []) :
    db.addToRewards minerId delta = db := by
  have hrows : db.rewards.map (fun row => if row.minerId = minerId then
      { row with balance := row.balance + delta } else row) = db.rewards := by
    refine (List.map_congr_left fun row hrow => ?_).trans (List.map_id _)
    have hmiss : row.minerId ≠ minerId := by
      simpa using List.filter_eq_nil_iff.mp hnone row hrow
    rw [if_neg hmiss, id]
  simp only [addToRewards, hrows]

/-- Nothing but balances differs. -/
structure OnlyBalances (db db' : Database) : Prop where
  minerIds : db'.rewards.map Reward.minerId = db.rewards.map Reward.minerId
  miners : db'.miners = db.miners
  pools : db'.pools = db.pools
  claims : db'.claims = db.claims

namespace OnlyBalances

variable {db' db'' : Database}

theorem refl (db : Database) : db.OnlyBalances db := ⟨rfl, rfl, rfl, rfl⟩

theorem trans (h : db.OnlyBalances db') (h' : db'.OnlyBalances db'') : db.OnlyBalances db'' :=
  ⟨h'.minerIds.trans h.minerIds, h'.miners.trans h.miners, h'.pools.trans h.pools,
    h'.claims.trans h.claims⟩

theorem addToRewards (db : Database) (minerId delta : Int) :
    db.OnlyBalances (db.addToRewards minerId delta) :=
  ⟨minerIds_addToRewards, rfl, rfl, rfl⟩

end OnlyBalances

/-- The loop over a batch in `update_rewards`: the affected rows and the tables, or
nothing when a statement fails. -/
def rewardsLoop : List UpdateReward → Nat → Database → Option (Nat × Database)
  | [], rowsAffected, db => some (rowsAffected, db)
  | reward :: rewards, rowsAffected, db =>
      if db.RewardsFit reward.minerId reward.balance then
        rewardsLoop rewards (rowsAffected + (db.rewardsOf reward.minerId).length)
          (db.addToRewards reward.minerId reward.balance)
      else
        none

variable {db' : Database} {rewards : List UpdateReward} {n m : Nat}

theorem rewardsLoop_onlyBalances (h : db.rewardsLoop rewards n = some (m, db')) :
    db.OnlyBalances db' := by
  induction rewards generalizing n db with
  | nil =>
      cases h
      exact .refl _
  | cons reward rewards ih =>
      simp only [rewardsLoop, Option.ite_none_right_eq_some] at h
      exact (OnlyBalances.addToRewards db _ _).trans (ih h.2)

/-- The batch adds up for every miner with one row. -/
theorem rewardsLoop_balanceOf {id : Int} (hsingle : (db.rewardsOf id).length = 1)
    (h : db.rewardsLoop rewards n = some (m, db')) : db'.balanceOf id = db.balanceOf id +
      (rewards.map fun reward => if reward.minerId = id then reward.balance else 0).sum := by
  induction rewards generalizing n db with
  | nil =>
      cases h
      simp
  | cons reward rewards ih =>
      simp only [rewardsLoop, Option.ite_none_right_eq_some] at h
      have hsingle' :
          ((db.addToRewards reward.minerId reward.balance).rewardsOf id).length = 1 := by
        rw [length_rewardsOf, minerIds_addToRewards, ← length_rewardsOf, hsingle]
      rw [ih hsingle' h.2, balanceOf_addToRewards hsingle, List.map_cons, List.sum_cons,
        Int.add_assoc]

theorem rewardsLoop_le (h : db.rewardsLoop rewards n = some (m, db')) : n ≤ m := by
  induction rewards generalizing n db with
  | nil =>
      cases h
      exact Nat.le_refl _
  | cons reward rewards ih =>
      simp only [rewardsLoop, Option.ite_none_right_eq_some] at h
      exact Nat.le_trans (Nat.le_add_right _ _) (ih h.2)

/-- A batch that affects no row leaves the tables as they are. -/
theorem rewardsLoop_of_no_row (h : db.rewardsLoop rewards n = some (n, db')) : db' = db := by
  induction rewards generalizing db with
  | nil =>
      cases h
      rfl
  | cons reward rewards ih =>
      simp only [rewardsLoop, Option.ite_none_right_eq_some] at h
      have hnone : db.rewardsOf reward.minerId = [] := by
        have := rewardsLoop_le h.2
        exact List.length_eq_zero_iff.mp (by omega)
      rw [addToRewards_of_no_row hnone, hnone] at h
      exact ih h.2

end Database

/-- The tables with those that only mine successes write. -/
structure Ledger where
  db : Database
  /-- The column `total_rewards` of `pools`, which starts at zero. -/
  totalRewards : HashMap Pubkey Int
  earnings : List InsertEarning
  contributions : List Contribution

namespace Ledger

variable (ledger : Ledger)

def totalRewardsOf (authority : Pubkey) : Int := (ledger.totalRewards.lookup authority).getD 0

/-- Every `INSERT` of the batch affects one row. -/
def addNewEarningsBatch (earnings : List InsertEarning) : Except DatabaseError Unit × Ledger :=
  let rowsAffected := earnings.length
  (if rowsAffected = 0 then .error .failedToInsertRow else .ok (),
    { ledger with earnings := ledger.earnings ++ earnings })

def addNewContributionsBatch (contributions : List InsertContribution) :
    Except DatabaseError Unit × Ledger :=
  let rowsAffected := contributions.length
  (if rowsAffected = 0 then .error .failedToInsertRow else .ok (),
    { ledger with
      contributions := ledger.contributions ++ contributions.map InsertContribution.row })

def updateRewards (rewards : List UpdateReward) :
    Except Panic (Except DatabaseError Unit × Ledger) :=
  match ledger.db.rewardsLoop rewards 0 with
  | some (rowsAffected, db) =>
      .ok (if rowsAffected = 0 then .error .failedToUpdateRow else .ok (), { ledger with db := db })
  | none => .error .unwrapOnErr

def updatePoolRewards (authority : Pubkey) (earnedRewards : Int) :
    Except DatabaseError Unit × Ledger :=
  match ledger.db.pools.lookup authority with
  | some _ =>
      if FitsBigint (ledger.totalRewardsOf authority + earnedRewards) then
        (.ok (), { ledger with totalRewards :=
          ledger.totalRewards.insert authority (ledger.totalRewardsOf authority + earnedRewards) })
      else
        (.error .queryFailed, ledger)
  | none => (.error .failedToUpdateRow, ledger)

end Ledger

/-- A call that is repeated until it succeeds. -/
inductive Call where
  | addNewEarningsBatch (batch : List InsertEarning)
  | updateRewards (batch : List UpdateReward)
  | addNewContributionsBatch (batch : List InsertContribution)
  | updatePoolRewards (earnedRewards : Int)
  deriving DecidableEq

/-- The answer to a call that reaches the tables. -/
def Call.execute (wallet : Pubkey) (ledger : Ledger) :
    Call → Except Panic (Except DatabaseError Unit × Ledger)
  | .addNewEarningsBatch batch => .ok (ledger.addNewEarningsBatch batch)
  | .updateRewards batch => ledger.updateRewards batch
  | .addNewContributionsBatch batch => .ok (ledger.addNewContributionsBatch batch)
  | .updatePoolRewards earnedRewards => .ok (ledger.updatePoolRewards wallet earnedRewards)

end Hashpoo
