import Mathlib.Tactic.Positivity

/-!
# Fixed-width integers as mathematical integers

An unsigned word is a natural number and a signed word an integer. `unsigned w x`
and `signed w x` are the two's complement readings of the low `w` bits of `x`: they
serve both as the casts between word types and as the normalisation after an
operation that wraps around. The lemmas below say when a reading loses nothing.
-/

namespace Foundation.Word

/-- The low `w` bits of `x`, read without a sign. -/
def unsigned (w : Nat) (x : Int) : Nat := (x % 2 ^ w).toNat

/-- The low `w` bits of `x`, read in two's complement. -/
def signed (w : Nat) (x : Int) : Int := x.bmod (2 ^ w)

/-- Multiplication of unsigned words that stops at the largest word. -/
def saturatingMul (w : Nat) (a b : Nat) : Nat := min (a * b) (2 ^ w - 1)

/-- Addition of unsigned words that stops at the largest word. -/
def saturatingAdd (w : Nat) (a b : Nat) : Nat := min (a + b) (2 ^ w - 1)

/-- `2` to the power `e` in an unsigned word: all bits are shifted out from `w` on. -/
def wrappingPow2 (w e : Nat) : Nat := if e < w then 2 ^ e else 0

/-- Little-endian value of a byte string. -/
def fromLeBytes : List UInt8 → Nat
  | [] => 0
  | b :: bs => b.toNat + 256 * fromLeBytes bs

/-- The `w` lowest bytes of a number, in little-endian order. -/
def toLeBytes : Nat → Nat → List UInt8
  | 0, _ => []
  | w + 1, n => UInt8.ofNat n :: toLeBytes w (n / 256)

theorem unsigned_natCast (w n : Nat) : unsigned w n = n % 2 ^ w := by
  rw [unsigned]
  exact_mod_cast Int.toNat_natCast (n % 2 ^ w)

theorem unsigned_le (w n : Nat) : unsigned w n ≤ n := by
  rw [unsigned_natCast]
  exact Nat.mod_le _ _

/-- A value of the word range is read back unchanged. -/
theorem unsigned_of_lt {w n : Nat} (h : n < 2 ^ w) : unsigned w n = n := by
  rw [unsigned_natCast, Nat.mod_eq_of_lt h]

theorem unsigned_lt (w : Nat) (x : Int) : unsigned w x < 2 ^ w := by
  have hpos : (0 : Int) < 2 ^ w := by positivity
  have hlt := Int.emod_lt_of_pos x hpos
  have hnonneg := Int.emod_nonneg x hpos.ne'
  rw [unsigned, Int.toNat_lt hnonneg]
  exact_mod_cast hlt

/-- Only the last reading of a sum counts. -/
theorem unsigned_add_left (w : Nat) (x y : Int) :
    unsigned w ((unsigned w x : Int) + y) = unsigned w (x + y) := by
  have hpos : (0 : Int) < 2 ^ w := by positivity
  have hcast : (unsigned w x : Int) = x % 2 ^ w := Int.toNat_of_nonneg (Int.emod_nonneg x hpos.ne')
  rw [hcast, unsigned, unsigned, Int.emod_add_emod]

theorem signed_of_bounds {w : Nat} {x : Int} (hlo : -2 ^ w ≤ x) (hhi : x < 2 ^ w) :
    signed (w + 1) x = x := by
  refine Int.bmod_eq_of_le ?_ ?_
  · have : ((2 ^ (w + 1) : Nat) : Int) / 2 = 2 ^ w := by
      rw [pow_succ]
      push_cast
      omega
    rw [this]
    exact hlo
  · have : (((2 ^ (w + 1) : Nat) : Int) + 1) / 2 = 2 ^ w := by
      rw [pow_succ]
      push_cast
      omega
    rw [this]
    exact hhi

theorem signed_lt (w : Nat) (x : Int) : signed (w + 1) x < 2 ^ w := by
  have h := Int.bmod_lt (x := x) (m := 2 ^ (w + 1)) (by positivity)
  have hhalf : (((2 ^ (w + 1) : Nat) : Int) + 1) / 2 = 2 ^ w := by
    rw [pow_succ]
    push_cast
    omega
  rwa [hhalf] at h

/-- A non-negative value below the sign bit is read back unchanged. -/
theorem signed_of_nat_lt {w n : Nat} (h : n < 2 ^ w) : signed (w + 1) n = n := by
  have hhi : (n : Int) < 2 ^ w := by exact_mod_cast h
  have hlo : (0 : Int) < 2 ^ w := by positivity
  exact signed_of_bounds (by omega) hhi

/-- A non-negative value is never read back as a greater one. -/
theorem signed_le (w n : Nat) : signed (w + 1) n ≤ n := by
  by_cases h : n < 2 ^ w
  · exact le_of_eq (signed_of_nat_lt h)
  · have hlt := signed_lt w n
    have hge : (2 : Int) ^ w ≤ n := by exact_mod_cast Nat.le_of_not_lt h
    omega

theorem saturatingMul_eq {w a b : Nat} (h : a * b < 2 ^ w) : saturatingMul w a b = a * b := by
  rw [saturatingMul]
  omega

/-- Scaling by a quotient of at least one loses nothing unless the product hits the largest
word. -/
theorem le_saturatingMul_div_iff {w a k d : Nat} (hd : 0 < d) (hk : d ≤ k) :
    a ≤ saturatingMul w a k / d ↔ a * d < 2 ^ w := by
  have hpos : 0 < 2 ^ w := Nat.two_pow_pos w
  have hscale : a * d ≤ a * k := Nat.mul_le_mul_left a hk
  rw [Nat.le_div_iff_mul_le hd, saturatingMul]
  omega

/-- The power is the mathematical one modulo the word range. -/
theorem wrappingPow2_eq (w e : Nat) : wrappingPow2 w e = 2 ^ e % 2 ^ w := by
  rw [wrappingPow2]
  split
  · next h => rw [Nat.mod_eq_of_lt (Nat.pow_lt_pow_right (by omega) h)]
  · next h => rw [Nat.mod_eq_zero_of_dvd (Nat.pow_dvd_pow 2 (by omega))]

@[simp] theorem length_toLeBytes (w n : Nat) : (toLeBytes w n).length = w := by
  induction w generalizing n with
  | zero => rfl
  | succ w ih => simp [toLeBytes, ih]

/-- A byte string is determined by its length and its value. -/
theorem toLeBytes_fromLeBytes (bs : List UInt8) : toLeBytes bs.length (fromLeBytes bs) = bs := by
  induction bs with
  | nil => rfl
  | cons b bs ih =>
      have hb := b.toNat_lt
      have hlow : UInt8.ofNat (b.toNat + 256 * fromLeBytes bs) = b := by
        apply UInt8.toNat_inj.mp
        simp
      have hhigh : (b.toNat + 256 * fromLeBytes bs) / 256 = fromLeBytes bs := by omega
      simp only [fromLeBytes, List.length_cons, toLeBytes, hlow, hhigh, ih]

/-- A number that fits the bytes it is written to is read back. -/
theorem fromLeBytes_toLeBytes (w n : Nat) : fromLeBytes (toLeBytes w n) = n % 256 ^ w := by
  induction w generalizing n with
  | zero => simp [toLeBytes, fromLeBytes, Nat.mod_one]
  | succ w ih =>
      have hlow : (UInt8.ofNat n).toNat = n % 256 := UInt8.toNat_ofNat'
      rw [toLeBytes, fromLeBytes, ih, hlow, Nat.pow_succ', Nat.mod_mul]

end Foundation.Word
