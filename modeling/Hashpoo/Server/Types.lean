import Hashpoo.Foundation.Word
import Mathlib.Data.List.AList

/-!
# Data of the pool server

The records, message kinds and constants of `main.rs` and of the types it takes from
the ORE and Solana crates. Byte arrays carry their length, hash maps are association
lists without duplicate keys, unsigned integers are natural numbers and signed ones
integers. The order of an association list stands for the iteration order of the hash
map, about which nothing is assumed.

Proof of work and signatures are the two pieces of foreign code that decide what the
server accepts. They enter as the parameters `Drillx` and `SignatureScheme`.
-/

namespace Hashpoo

open Foundation

/-- `[u8; n]`. -/
abbrev Bytes (n : Nat) := { bytes : List UInt8 // bytes.length = n }

namespace Bytes

/-- The array that holds `b` in every place. -/
def fill (n : Nat) (b : UInt8) : Bytes n := ⟨List.replicate n b, List.length_replicate⟩

end Bytes

abbrev Pubkey := Bytes 32
abbrev Challenge := Bytes 32
abbrev Digest := Bytes 16

/-- A peer's address and port. Only equality of addresses matters. -/
abbrev SocketAddr := Nat

/-- `std::collections::HashMap`. -/
abbrev HashMap (K V : Type) [DecidableEq K] := AList fun _ : K => V

namespace HashMap

variable {K V : Type} [DecidableEq K]

/-- `HashMap::len`. -/
def len (m : HashMap K V) : Nat := m.entries.length

/-- `HashMap::values`, in the iteration order of the map. -/
def values (m : HashMap K V) : List V := m.entries.map Sigma.snd

theorem mem_values {m : HashMap K V} {v : V} : v ∈ values m ↔ ∃ k, m.lookup k = some v := by
  constructor
  · intro h
    obtain ⟨⟨k, v'⟩, hmem, rfl⟩ := List.mem_map.mp h
    exact ⟨k, AList.mem_lookup_iff.mpr hmem⟩
  · rintro ⟨k, hk⟩
    exact List.mem_map.mpr ⟨⟨k, v⟩, AList.mem_lookup_iff.mp hk, rfl⟩

/-- What an inserted map holds is the new value or an old one of another key. -/
theorem lookup_insert_eq_some {m : HashMap K V} {k k' : K} {v w : V} :
    (m.insert k v).lookup k' = some w ↔ k' = k ∧ v = w ∨ k' ≠ k ∧ m.lookup k' = some w := by
  by_cases hk : k' = k
  · subst hk
    simp
  · simp [hk]

/-- Removing a key does not bring up other values. -/
theorem lookup_of_erase {m : HashMap K V} {k k' : K} {v : V}
    (h : (m.erase k).lookup k' = some v) : m.lookup k' = some v := by
  by_cases hk : k' = k
  · subst hk
    rw [AList.lookup_erase] at h
    cases h
  · rwa [AList.lookup_erase_ne hk] at h

end HashMap

/-- The panics of the modelled code. The release profile aborts the server on each. -/
inductive Panic where
  | indexOutOfBounds
  | divideByZero
  | unwrapOnErr
  /-- `Row::get` at a column whose type is not the one that is asked for. -/
  | wrongType
  deriving DecidableEq

/-- `std::ops::ControlFlow`, also for the exits of a loop body. -/
inductive ControlFlow where
  | continue
  | break
  deriving DecidableEq

/-- `drillx::Solution`: an equihash digest and the little-endian bytes of a nonce. -/
structure Solution where
  d : Digest
  n : Bytes 8
  deriving DecidableEq

/-- `u64::from_le_bytes(solution.n)`. -/
def Solution.nonce (s : Solution) : Nat := Word.fromLeBytes s.n.val

/-- What the server uses of `drillx`. -/
structure Drillx where
  /-- `solution.to_hash().difficulty()`. -/
  difficulty : Solution → Nat
  /-- `solution.is_valid(&challenge)`. -/
  isValid : Solution → Challenge → Bool

/-- What the server uses of `solana_sdk::signature::Signature`. -/
structure SignatureScheme where
  Signature : Type
  /-- `Signature::from_str`. -/
  fromStr : String → Option Signature
  /-- `signature.verify(pubkey_bytes, message_bytes)`. -/
  verify : Signature → Pubkey → List UInt8 → Bool

/-- `ore_api::state::Proof`, as far as the server reads it. -/
structure Proof where
  challenge : Challenge
  balance : Nat
  lastHashAt : Int
  deriving DecidableEq

/-! ## Constants -/

def minDiff : Nat := 8
def unitHashpower : Nat := 1
def minClaimAmountNotExistsAta : Nat := 500_000_000
def minClaimAmountExistsAta : Nat := 500_000_000
def createAtaDeduction : Nat := 400_000_000
def submitLimit : Nat := 5
def checkLimit : Nat := 30
def nonceRangeSize : Nat := 40_000_000

/-! ## Shared records -/

structure InternalMessageContribution where
  minerId : Int
  suppliedDiff : Nat
  suppliedDigest : Digest
  suppliedNonce : Nat
  hashpower : Nat
  deriving DecidableEq

abbrev Contributions := HashMap Pubkey InternalMessageContribution

structure BestHash where
  solution : Option Solution
  difficulty : Nat
  deriving DecidableEq

structure EpochHashes where
  challenge : Challenge
  bestHash : BestHash
  contributions : Contributions
  deriving DecidableEq

/-- The state `main` starts with. -/
def EpochHashes.fresh (challenge : Challenge) : EpochHashes :=
  ⟨challenge, ⟨none, 0⟩, ∅⟩

/-- The message of the landed-tx task to `pool_mine_success_processor`, without the
fields that are only displayed to the miners. -/
structure MessageInternalMineSuccess where
  difficulty : Nat
  rewards : Int
  commissions : Int
  challengeId : Int
  challenge : Challenge
  bestNonce : Nat
  totalHashpower : Nat
  contributions : Contributions
  deriving DecidableEq

/-- `socket` is the identity of the connection whose sink the entry holds. -/
structure ClientConnection where
  pubkey : Pubkey
  minerId : Int
  socket : Nat
  deriving DecidableEq

inductive ClientMessage where
  | ready (addr : SocketAddr)
  | mining (addr : SocketAddr)
  | pong (addr : SocketAddr)
  | bestSolution (addr : SocketAddr) (solution : Solution) (pubkey : Pubkey)
  deriving DecidableEq

/-- The message between the two client processors. -/
structure ClientBestSolution where
  addr : SocketAddr
  solution : Solution
  pubkey : Pubkey
  deriving DecidableEq

/-- `Range<u64>`. -/
structure NonceRange where
  start : Nat
  stop : Nat
  deriving DecidableEq

namespace NonceRange

/-- `contains`: the end is exclusive. -/
def Contains (range : NonceRange) (nonce : Nat) : Prop :=
  range.start ≤ nonce ∧ nonce < range.stop

instance (range : NonceRange) (nonce : Nat) : Decidable (range.Contains nonce) :=
  inferInstanceAs (Decidable (_ ∧ _))

end NonceRange

structure ClaimsQueueItem where
  receiverPubkey : Pubkey
  amount : Nat
  deriving DecidableEq

/-! ## Hashpower -/

/-- `utils::normalized_hashpower`. The subtraction wraps in `u32`, the power and the
product in `u64`. -/
def normalizedHashpower (unitHashpower base diff : Nat) (powerCap : Option Nat) : Nat :=
  let hashpower := Word.unsigned 64
    (unitHashpower * Word.wrappingPow2 64 (Word.unsigned 32 ((diff : Int) - base)))
  match powerCap with
  | some cap => if hashpower > cap then cap else hashpower
  | none => hashpower

/-- The hashpower of an accepted submission: no cap is configured. -/
def contributionHashpower (diff : Nat) : Nat :=
  normalizedHashpower unitHashpower minDiff diff none

end Hashpoo
