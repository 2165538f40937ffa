import Mathlib.Algebra.BigOperators.Group.List.Basic

/-!
# Batches of a list

`chunks n xs` cuts a list into pieces of `n` elements, the last one possibly shorter, as
`slice::chunks` does. What is done with every piece in turn is done with every element
of the list exactly once.
-/

namespace Foundation

variable {α : Type*}

/-- The pieces of `piece ++ xs` when `piece` has not reached its length yet. -/
def chunksFrom (n : Nat) : List α → List α → List (List α)
  | piece, [] => if piece.isEmpty then [] else [piece]
  | piece, x :: xs =>
      if piece.length + 1 < n then chunksFrom n (piece ++ [x]) xs
      else (piece ++ [x]) :: chunksFrom n [] xs

/-- `slice::chunks`. -/
def chunks (n : Nat) (xs : List α) : List (List α) := chunksFrom n [] xs

theorem flatten_chunksFrom (n : Nat) (piece xs : List α) :
    (chunksFrom n piece xs).flatten = piece ++ xs := by
  induction xs generalizing piece with
  | nil => cases piece <;> simp [chunksFrom]
  | cons x xs ih =>
      rw [chunksFrom]
      split
      · rw [ih, List.append_assoc, List.singleton_append]
      · rw [List.flatten_cons, ih, List.nil_append, List.append_assoc, List.singleton_append]

/-- No element is lost, repeated or moved. -/
@[simp] theorem flatten_chunks (n : Nat) (xs : List α) : (chunks n xs).flatten = xs :=
  flatten_chunksFrom n [] xs

theorem ne_nil_of_mem_chunksFrom {n : Nat} {piece xs c : List α}
    (h : c ∈ chunksFrom n piece xs) : c ≠ [] := by
  induction xs generalizing piece with
  | nil =>
      cases piece with
      | nil => simp [chunksFrom] at h
      | cons y ys =>
          simp only [chunksFrom, List.isEmpty_cons, Bool.false_eq_true, if_false,
            List.mem_singleton] at h
          simp [h]
  | cons x xs ih =>
      rw [chunksFrom] at h
      split at h
      · exact ih h
      · rcases List.mem_cons.mp h with rfl | hrest
        · simp
        · exact ih hrest

theorem ne_nil_of_mem_chunks {n : Nat} {xs c : List α} (h : c ∈ chunks n xs) : c ≠ [] :=
  ne_nil_of_mem_chunksFrom h

/-- A quantity that adds up over lists is the sum of its values on the pieces. -/
theorem sum_map_chunks {M : Type*} [AddCommMonoid M] {f : List α → M} (hnil : f [] = 0)
    (happend : ∀ xs ys, f (xs ++ ys) = f xs + f ys) (n : Nat) (xs : List α) :
    ((chunks n xs).map f).sum = f xs := by
  have hflatten : ∀ pieces : List (List α), (pieces.map f).sum = f pieces.flatten := by
    intro pieces
    induction pieces with
    | nil => simp [hnil]
    | cons piece pieces ih => simp [happend, ih]
  rw [hflatten, flatten_chunks]

end Foundation
