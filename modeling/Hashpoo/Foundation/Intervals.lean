import Mathlib.Data.List.Basic
import Mathlib.Order.Monotone.Basic

/-!
# Cutting an interval into pieces

A list of increasing numbers cuts an interval into consecutive pieces, some of them possibly
empty. Put together in their order the pieces are the interval: nothing is lost and nothing
comes twice.
-/

namespace Foundation

/-- The pieces between the first `n + 1` marks. -/
theorem flatMap_range'_marks {mark : Nat → Nat} (h : Monotone mark) (n : Nat) :
    (List.range n).flatMap (fun i => List.range' (mark i) (mark (i + 1) - mark i)) =
      List.range' (mark 0) (mark n - mark 0) := by
  induction n with
  | zero => simp
  | succ n ih =>
      have hstart : mark 0 ≤ mark n := h (Nat.zero_le n)
      have hpiece : mark n ≤ mark (n + 1) := h (Nat.le_succ n)
      have hlast : List.range' (mark n) (mark (n + 1) - mark n) =
          List.range' (mark 0 + (mark n - mark 0)) (mark (n + 1) - mark n) := by
        rw [Nat.add_sub_cancel' hstart]
      rw [List.range_succ, List.flatMap_append, ih, List.flatMap_singleton, hlast,
        List.range'_append_1]
      congr 1
      omega

/-- The pieces of an interval of length `len` whose marks are `size` apart: `count` pieces, the
last one cut off at the end. -/
theorem flatMap_range'_steps {start len size count : Nat} (hcount : len ≤ count * size) :
    (List.range count).flatMap (fun i => List.range' (min (start + i * size) (start + len))
      (min (start + (i + 1) * size) (start + len) - min (start + i * size) (start + len))) =
      List.range' start len := by
  have hmono : Monotone fun i => min (start + i * size) (start + len) := by
    intro i j hij
    have hmul : i * size ≤ j * size := Nat.mul_le_mul_right size hij
    show min (start + i * size) (start + len) ≤ min (start + j * size) (start + len)
    omega
  rw [flatMap_range'_marks hmono count]
  congr 1
  · simp
  · simp only [Nat.zero_mul, Nat.add_zero]
    omega

end Foundation
