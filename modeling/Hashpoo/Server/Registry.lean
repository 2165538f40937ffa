import Hashpoo.Server.Database

/-!
# The tables behind the enrolment

A miner is enrolled with a row in `miners` and a row in `rewards`. The unique index on
the key makes a second insertion of a miner fail; `rewards` has no such index. A miner is
looked up by the text of its key, and base58 gives a key one text only, so the tables are
looked up by the key itself.
-/

namespace Hashpoo

open Foundation

/-- A row of `miners`, as far as the server reads it. -/
structure Miner where
  id : Int
  enabled : Bool
  deriving DecidableEq

structure InsertReward where
  minerId : Int
  poolId : Int
  deriving DecidableEq

structure Registry where
  db : Database
  /-- The column `enabled` of `miners`, which starts as `false`. -/
  enabled : HashMap Pubkey Bool
  /-- The next ids of the identity columns of `miners` and `pools`. -/
  nextMiner : Int
  nextPool : Int
  /-- Ids are handed out in order. -/
  minerIds_lt : ∀ k id, db.miners.lookup k = some id → id < nextMiner

namespace Registry

variable (reg : Registry)

def isEnabled (pubkey : Pubkey) : Bool := (reg.enabled.lookup pubkey).getD false

def getMinerByPubkeyStr (pubkey : Pubkey) : Except DatabaseError Miner :=
  match reg.db.getMinerByPubkeyStr pubkey with
  | .ok id => .ok ⟨id, reg.isEnabled pubkey⟩
  | .error err => .error err

/-- The row of a new miner. -/
def insertMiner (pubkey : Pubkey) (isEnabled : Bool) : Registry where
  db := { reg.db with
    miners := reg.db.miners.insert pubkey reg.nextMiner
    minerIds := by
      intro k k' id h h'
      obtain ⟨rfl, hid⟩ | ⟨-, hold⟩ := HashMap.lookup_insert_eq_some.mp h <;>
        obtain ⟨rfl, hid'⟩ | ⟨-, hold'⟩ := HashMap.lookup_insert_eq_some.mp h'
      · rfl
      · exact absurd hid (Int.ne_of_gt (reg.minerIds_lt _ _ hold'))
      · exact absurd hid' (Int.ne_of_gt (reg.minerIds_lt _ _ hold))
      · exact reg.db.minerIds k k' id hold hold' }
  enabled := reg.enabled.insert pubkey isEnabled
  nextMiner := reg.nextMiner + 1
  nextPool := reg.nextPool
  minerIds_lt := by
    intro k id h
    obtain ⟨-, rfl⟩ | ⟨-, hold⟩ := HashMap.lookup_insert_eq_some.mp h
    · omega
    · have := reg.minerIds_lt k id hold
      omega

def addNewMiner (minerPubkey : Pubkey) (isEnabled : Bool) : Except DatabaseError Unit × Registry :=
  match reg.db.miners.lookup minerPubkey with
  | some _ => (.error .queryFailed, reg)
  | none => (.ok (), reg.insertMiner minerPubkey isEnabled)

def addNewPool (authority : Pubkey) : Except DatabaseError Unit × Registry :=
  match reg.db.pools.lookup authority with
  | some _ => (.error .queryFailed, reg)
  | none =>
      (.ok (), { reg with
        db := { reg.db with pools := reg.db.pools.insert authority ⟨reg.nextPool, 0⟩ }
        nextPool := reg.nextPool + 1 })

/-- A new row starts with the balance zero. -/
def insertReward (reward : InsertReward) : Registry :=
  { reg with db := { reg.db with rewards := reg.db.rewards ++ [⟨reward.minerId, 0⟩] } }

def addNewReward (reward : InsertReward) : Except DatabaseError Unit × Registry :=
  (.ok (), reg.insertReward reward)

/-- One transaction: on an error of a query it is rolled back, and the failure of an
insertion is unwrapped. -/
def signupEnrollment (userPubkey poolAuthority : Pubkey) :
    Except Panic (Except DatabaseError Unit × Registry) :=
  match reg.addNewMiner userPubkey true with
  | (.error _, _) => .error .unwrapOnErr
  | (.ok _, reg₁) =>
      match reg₁.getMinerByPubkeyStr userPubkey with
      | .error err => .ok (.error err, reg)
      | .ok miner =>
          match reg₁.db.getPoolByAuthorityPubkey poolAuthority with
          | .error err => .ok (.error err, reg)
          | .ok pool => .ok (reg₁.addNewReward ⟨miner.id, pool.id⟩)

/-- The operator changes the flag in the table. -/
def setEnabled (pubkey : Pubkey) (enabled : Bool) : Registry :=
  { reg with enabled := reg.enabled.insert pubkey enabled }

variable {reg}

@[simp] theorem insertMiner_miners (pubkey : Pubkey) (isEnabled : Bool) :
    (reg.insertMiner pubkey isEnabled).db.miners = reg.db.miners.insert pubkey reg.nextMiner := rfl

@[simp] theorem insertMiner_rewardsOf (pubkey : Pubkey) (isEnabled : Bool) (minerId : Int) :
    (reg.insertMiner pubkey isEnabled).db.rewardsOf minerId = reg.db.rewardsOf minerId := rfl

@[simp] theorem insertReward_miners (reward : InsertReward) :
    (reg.insertReward reward).db.miners = reg.db.miners := rfl

@[simp] theorem insertReward_rewardsOf_self (reward : InsertReward) :
    (reg.insertReward reward).db.rewardsOf reward.minerId =
      reg.db.rewardsOf reward.minerId ++ [⟨reward.minerId, 0⟩] := by
  simp [insertReward, Database.rewardsOf]

theorem insertReward_rewardsOf_ne {reward : InsertReward} {minerId : Int}
    (hne : minerId ≠ reward.minerId) :
    (reg.insertReward reward).db.rewardsOf minerId = reg.db.rewardsOf minerId := by
  simp [insertReward, Database.rewardsOf, hne.symm]

theorem getMinerByPubkeyStr_eq {pubkey : Pubkey} {miner : Miner} :
    reg.getMinerByPubkeyStr pubkey = .ok miner ↔
      reg.db.miners.lookup pubkey = some miner.id ∧ miner.enabled = reg.isEnabled pubkey := by
  rw [getMinerByPubkeyStr, ← Database.getMinerByPubkeyStr_eq]
  cases reg.db.getMinerByPubkeyStr pubkey with
  | ok id =>
      simp only [Except.ok.injEq]
      constructor
      · rintro rfl
        exact ⟨rfl, rfl⟩
      · rintro ⟨rfl, henabled⟩
        exact congrArg (Miner.mk miner.id) henabled.symm
  | error err => simp

/-- An insertion of a miner that succeeds inserts a new key. -/
theorem addNewMiner_eq_ok {pubkey : Pubkey} {isEnabled : Bool} {reg' : Registry}
    (h : reg.addNewMiner pubkey isEnabled = (.ok (), reg')) :
    reg.db.miners.lookup pubkey = none ∧ reg' = reg.insertMiner pubkey isEnabled := by
  rw [addNewMiner] at h
  split at h
  · cases h
  · next hnone =>
    cases h
    exact ⟨hnone, rfl⟩

theorem addNewMiner_eq_error {pubkey : Pubkey} {isEnabled : Bool} {err : DatabaseError}
    {reg' : Registry} (h : reg.addNewMiner pubkey isEnabled = (.error err, reg')) :
    reg' = reg := by
  rw [addNewMiner] at h
  split at h
  · cases h
    rfl
  · cases h

theorem addNewPool_eq_error {authority : Pubkey} {err : DatabaseError} {reg' : Registry}
    (h : reg.addNewPool authority = (.error err, reg')) :
    reg.db.pools.lookup authority ≠ none ∧ reg' = reg := by
  rw [addNewPool] at h
  split at h
  · next pool hpool =>
    cases h
    exact ⟨by simp [hpool], rfl⟩
  · cases h

theorem addNewPool_db {authority : Pubkey} {result : Except DatabaseError Unit} {reg' : Registry}
    (h : reg.addNewPool authority = (result, reg')) :
    reg'.db.miners = reg.db.miners ∧ reg'.db.rewards = reg.db.rewards ∧
      reg'.nextMiner = reg.nextMiner := by
  rw [addNewPool] at h
  split at h
  · cases h
    exact ⟨rfl, rfl, rfl⟩
  · cases h
    exact ⟨rfl, rfl, rfl⟩

/-- A transaction that reports an error is rolled back. -/
theorem signupEnrollment_error {pubkey authority : Pubkey} {err : DatabaseError}
    {reg' : Registry} (h : reg.signupEnrollment pubkey authority = .ok (.error err, reg')) :
    reg' = reg := by
  rw [signupEnrollment] at h
  split at h
  · cases h
  · split at h
    · cases h
      rfl
    · split at h
      · cases h
        rfl
      · cases h

/-- The transaction enrols a new miner completely or leaves the tables as they are. -/
theorem signupEnrollment_cases {pubkey authority : Pubkey}
    {result : Except DatabaseError Unit} {reg' : Registry}
    (h : reg.signupEnrollment pubkey authority = .ok (result, reg')) :
    reg' = reg ∨ reg.db.miners.lookup pubkey = none ∧ ∃ poolId,
      reg' = (reg.insertMiner pubkey true).insertReward ⟨reg.nextMiner, poolId⟩ := by
  rw [signupEnrollment] at h
  split at h
  · cases h
  · next reg₁ hadd =>
    obtain ⟨hnone, rfl⟩ := addNewMiner_eq_ok hadd
    split at h
    · cases h
      exact .inl rfl
    · next miner hminer =>
      have hid : reg.nextMiner = miner.id := by
        simpa using (getMinerByPubkeyStr_eq.mp hminer).1
      split at h
      · cases h
        exact .inl rfl
      · next pool _ =>
        cases h
        exact .inr ⟨hnone, pool.id, by rw [hid]⟩

end Registry

end Hashpoo
