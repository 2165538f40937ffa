import Mathlib.Algebra.Order.BigOperators.Group.List
import Mathlib.Algebra.Order.Field.Rat
import Mathlib.Tactic.FieldSimp
import Mathlib.Tactic.Linarith
import Mathlib.Tactic.Ring

/-!
# Dividing an amount by weight with two floor divisions

A weight `w` out of a total `T` is first rounded down to a whole number of parts per
`S`, and that number of parts is then taken from the amount `R` and rounded down
again. Nothing is ever paid twice: the shares add up to at most `R`. What is lost to
rounding is bounded by `R / S + 1` for each weight.
-/

namespace Foundation.Apportion

/-- Parts per `S` that the weight `w` holds of the total `T`. -/
def parts (S T w : Nat) : Nat := w * S / T

/-- The share of `R` that belongs to the weight `w`. -/
def share (S T R w : Nat) : Nat := parts S T w * R / S

variable {S T R : Nat}

theorem parts_le {w : Nat} (hT : 0 < T) (hw : w ≤ T) : parts S T w ≤ S := by
  refine (Nat.div_le_div_right (Nat.mul_le_mul_right S hw)).trans ?_
  rw [Nat.mul_div_cancel_left S hT]

theorem share_mono {v w : Nat} (h : v ≤ w) : share S T R v ≤ share S T R w := by
  apply Nat.div_le_div_right
  apply Nat.mul_le_mul_right
  exact Nat.div_le_div_right (Nat.mul_le_mul_right S h)

theorem share_le {w : Nat} (hT : 0 < T) (hw : w ≤ T) : share S T R w ≤ R := by
  rcases Nat.eq_zero_or_pos S with rfl | hS
  · simp [share]
  · refine (Nat.div_le_div_right (Nat.mul_le_mul_right R (parts_le hT hw))).trans ?_
    rw [Nat.mul_div_cancel_left R hS]

/-- Both roundings go down, so a share never exceeds its exact value `w * R / T`. -/
theorem share_mul_le (w : Nat) : share S T R w * T ≤ w * R := by
  rcases Nat.eq_zero_or_pos S with rfl | hS
  · simp [share]
  · have hparts : parts S T w * T ≤ w * S := Nat.div_mul_le_self _ _
    have hshare : share S T R w * S ≤ parts S T w * R := Nat.div_mul_le_self _ _
    refine Nat.le_of_mul_le_mul_right ?_ hS
    calc share S T R w * T * S = share S T R w * S * T := by ring
      _ ≤ parts S T w * R * T := Nat.mul_le_mul_right T hshare
      _ = parts S T w * T * R := by ring
      _ ≤ w * S * R := Nat.mul_le_mul_right R hparts
      _ = w * R * S := by ring

/-- A share misses its exact value by less than `R / S + 1`, with the denominators
cleared. -/
theorem lt_share_mul (hS : 0 < S) (hT : 0 < T) (w : Nat) :
    w * S * R < T * S * (share S T R w + 1) + T * R := by
  have hparts : w * S < T * (parts S T w + 1) := Nat.lt_mul_div_succ _ hT
  have hshare : parts S T w * R < S * (share S T R w + 1) := Nat.lt_mul_div_succ _ hS
  calc w * S * R ≤ T * (parts S T w + 1) * R := Nat.mul_le_mul_right R hparts.le
    _ = T * (parts S T w * R) + T * R := by ring
    _ < T * (S * (share S T R w + 1)) + T * R :=
        Nat.add_lt_add_right (Nat.mul_lt_mul_of_pos_left hshare hT) _
    _ = T * S * (share S T R w + 1) + T * R := by ring

theorem sum_share_mul_le (ws : List Nat) :
    (ws.map (share S T R)).sum * T ≤ ws.sum * R := by
  induction ws with
  | nil => simp
  | cons w ws ih =>
      simp only [List.map_cons, List.sum_cons, Nat.add_mul]
      exact Nat.add_le_add (share_mul_le w) ih

/-- The shares of weights that fit the total add up to at most the amount. -/
theorem sum_share_le {ws : List Nat} (hT : 0 < T) (hws : ws.sum ≤ T) :
    (ws.map (share S T R)).sum ≤ R := by
  refine Nat.le_of_mul_le_mul_right ?_ hT
  calc (ws.map (share S T R)).sum * T ≤ ws.sum * R := sum_share_mul_le ws
    _ ≤ T * R := Nat.mul_le_mul_right R hws
    _ = R * T := Nat.mul_comm T R

theorem sum_mul_le (hS : 0 < S) (hT : 0 < T) (ws : List Nat) :
    ws.sum * S * R ≤ T * S * ((ws.map (share S T R)).sum + ws.length) + ws.length * (T * R) := by
  induction ws with
  | nil => simp
  | cons w ws ih =>
      have hw := (lt_share_mul (R := R) hS hT w).le
      simp only [List.map_cons, List.sum_cons, List.length_cons]
      calc (w + ws.sum) * S * R = w * S * R + ws.sum * S * R := by ring
        _ ≤ (T * S * (share S T R w + 1) + T * R) +
            (T * S * ((ws.map (share S T R)).sum + ws.length) + ws.length * (T * R)) :=
          Nat.add_le_add hw ih
        _ = _ := by ring

/-- What rounding leaves undistributed is less than `R / S + 1` for each weight. -/
theorem dust_lt {ws : List Nat} (hS : 0 < S) (hT : 0 < T) (hws : ws.sum = T) :
    (R : ℚ) - ((ws.map (share S T R)).sum : Nat) < ws.length * ((R : ℚ) / S + 1) := by
  -- The first weight contributes the strict inequality, the others at least the weak one.
  have hstrict : S * R <
      S * ((ws.map (share S T R)).sum + ws.length) + ws.length * R := by
    cases ws with
    | nil => simp only [List.sum_nil] at hws; omega
    | cons w ws =>
        have hw := lt_share_mul (R := R) hS hT w
        have hrest := sum_mul_le (R := R) hS hT ws
        simp only [List.map_cons, List.sum_cons, List.length_cons] at hws ⊢
        refine Nat.lt_of_mul_lt_mul_left (a := T) ?_
        calc T * (S * R) = w * S * R + ws.sum * S * R := by rw [← hws]; ring
          _ < (T * S * (share S T R w + 1) + T * R) +
              (T * S * ((ws.map (share S T R)).sum + ws.length) + ws.length * (T * R)) :=
            Nat.add_lt_add_of_lt_of_le hw hrest
          _ = _ := by ring
  have hS' : (0 : ℚ) < S := by exact_mod_cast hS
  have hcast : (S : ℚ) * R <
      S * (((ws.map (share S T R)).sum : Nat) + ws.length) + ws.length * R := by
    exact_mod_cast hstrict
  have hdiv : (R : ℚ) < ((ws.map (share S T R)).sum : Nat) + ws.length + ws.length * R / S := by
    rw [← mul_lt_mul_iff_right₀ hS']
    field_simp
    linarith
  calc (R : ℚ) - ((ws.map (share S T R)).sum : Nat) < ws.length + ws.length * R / S := by linarith
    _ = ws.length * ((R : ℚ) / S + 1) := by ring

end Foundation.Apportion
