import Hashpoo.Server.Types

/-!
# Messages sent by the server

The two binary messages of `message.rs`. Their integers have the widths of the wire, and
a floating-point number is the pattern of its bits, which is all that a transfer sees.
-/

namespace Hashpoo

open Foundation

/-- The bits of an `f64`. -/
abbrev F64 := UInt64

/-! ## Little-endian fields -/

/-- `to_le_bytes` of a `u32`. -/
def u32LeBytes (x : UInt32) : Bytes 4 := ⟨Word.toLeBytes 4 x.toNat, Word.length_toLeBytes 4 _⟩

/-- `to_le_bytes` of a `u64`, and of an `f64`. -/
def u64LeBytes (x : UInt64) : Bytes 8 := ⟨Word.toLeBytes 8 x.toNat, Word.length_toLeBytes 8 _⟩

/-- `to_le_bytes` of an `i64`. -/
def i64LeBytes (x : Int64) : Bytes 8 := u64LeBytes x.toUInt64

/-- `u32::from_le_bytes`. -/
def u32OfLeBytes (bytes : Bytes 4) : UInt32 := UInt32.ofNat (Word.fromLeBytes bytes.val)

/-- `u64::from_le_bytes`, and `f64::from_le_bytes`. -/
def u64OfLeBytes (bytes : Bytes 8) : UInt64 := UInt64.ofNat (Word.fromLeBytes bytes.val)

@[simp] theorem u32OfLeBytes_u32LeBytes (x : UInt32) : u32OfLeBytes (u32LeBytes x) = x := by
  have hx : x.toNat < 256 ^ 4 := x.toNat_lt
  simp only [u32OfLeBytes, u32LeBytes, Word.fromLeBytes_toLeBytes, Nat.mod_eq_of_lt hx,
    UInt32.ofNat_toNat]

@[simp] theorem u64OfLeBytes_u64LeBytes (x : UInt64) : u64OfLeBytes (u64LeBytes x) = x := by
  have hx : x.toNat < 256 ^ 8 := x.toNat_lt
  simp only [u64OfLeBytes, u64LeBytes, Word.fromLeBytes_toLeBytes, Nat.mod_eq_of_lt hx,
    UInt64.ofNat_toNat]

/-- A signed number that is not negative has the bytes of the same unsigned number. -/
theorem toNat_u64OfLeBytes_i64LeBytes {x : Int64} (h : 0 ≤ x.toInt) :
    (u64OfLeBytes (i64LeBytes x)).toNat = x.toInt.toNat := by
  rw [i64LeBytes, u64OfLeBytes_u64LeBytes]
  change x.toBitVec.toNat = x.toBitVec.toInt.toNat
  have hlt := x.toBitVec.isLt
  have hcond := BitVec.toInt_eq_toNat_cond x.toBitVec
  change 0 ≤ x.toBitVec.toInt at h
  split at hcond <;> omega

/-! ## The messages -/

structure ServerMessageStartMining where
  challenge : Challenge
  cutoff : Int64
  nonceRangeStart : UInt64
  nonceRangeEnd : UInt64
  deriving DecidableEq

/-- `ServerMessageStartMining::to_message_binary`. -/
def ServerMessageStartMining.toMessageBinary (m : ServerMessageStartMining) : List UInt8 :=
  0 :: (m.challenge.val ++ ((i64LeBytes m.cutoff).val ++
    ((u64LeBytes m.nonceRangeStart).val ++ (u64LeBytes m.nonceRangeEnd).val)))

/-- The server and both copies in the client declare the same fields. -/
structure ServerMessagePoolSubmissionResult where
  difficulty : UInt32
  totalBalance : F64
  totalRewards : F64
  topStake : F64
  multiplier : F64
  activeMiners : UInt32
  challenge : Challenge
  bestNonce : UInt64
  minerSuppliedDifficulty : UInt32
  minerEarnedRewards : F64
  minerPercentage : F64
  deriving DecidableEq

/-- `ServerMessagePoolSubmissionResult::to_message_binary`. -/
def ServerMessagePoolSubmissionResult.toMessageBinary (m : ServerMessagePoolSubmissionResult) :
    List UInt8 :=
  1 :: ((u32LeBytes m.difficulty).val ++ ((u64LeBytes m.totalBalance).val ++
    ((u64LeBytes m.totalRewards).val ++ ((u64LeBytes m.topStake).val ++
    ((u64LeBytes m.multiplier).val ++ ((u32LeBytes m.activeMiners).val ++
    (m.challenge.val ++ ((u64LeBytes m.bestNonce).val ++
    ((u32LeBytes m.minerSuppliedDifficulty).val ++ ((u64LeBytes m.minerEarnedRewards).val ++
    (u64LeBytes m.minerPercentage).val))))))))))

end Hashpoo
