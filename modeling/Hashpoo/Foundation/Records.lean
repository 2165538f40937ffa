import Mathlib.Order.MinMax
import Mathlib.Data.List.Perm.Basic

/-!
# Records of a list

Reading a list from the left, a record is an element whose key exceeds a threshold and the
keys of all elements before it. A scan that keeps the best key so far selects the records.
Filtering by records loses no maximum above the threshold, in whatever order the elements
arrive, so such filters can stand behind each other.
-/

namespace Foundation

variable {α β : Type*} [LinearOrder β] (key : α → β)

/-- The elements whose keys exceed `b` and all keys before. -/
def records (b : β) : List α → List α
  | [] => []
  | x :: l => if b < key x then x :: records (key x) l else records b l

/-- The best key of the list and `b`. -/
def peak (b : β) : List α → β
  | [] => b
  | x :: l => peak (max b (key x)) l

variable {key} {b c : β} {l l' : List α} {x : α}

/-! ## The best key -/

theorem peak_le_iff : peak key b l ≤ c ↔ b ≤ c ∧ ∀ x ∈ l, key x ≤ c := by
  induction l generalizing b with
  | nil => simp [peak]
  | cons x l ih => rw [peak, ih, max_le_iff, List.forall_mem_cons, and_assoc]

theorem le_peak : b ≤ peak key b l := (peak_le_iff.mp le_rfl).1

theorem key_le_peak (h : x ∈ l) : key x ≤ peak key b l := (peak_le_iff.mp le_rfl).2 x h

/-- The best key is the threshold or some element's. -/
theorem peak_eq (b : β) (l : List α) : peak key b l = b ∨ ∃ x ∈ l, key x = peak key b l := by
  induction l generalizing b with
  | nil => exact .inl rfl
  | cons x l ih =>
      rw [peak]
      obtain hsame | ⟨y, hy, hkey⟩ := ih (max b (key x))
      · rw [hsame]
        obtain hle | hle := le_total (key x) b
        · exact .inl (max_eq_left hle)
        · exact .inr ⟨x, List.mem_cons_self, (max_eq_right hle).symm⟩
      · exact .inr ⟨y, List.mem_cons_of_mem _ hy, hkey⟩

theorem exists_of_lt_peak (h : b < peak key b l) : ∃ x ∈ l, key x = peak key b l :=
  (peak_eq b l).resolve_left h.ne'

/-- The order of the elements does not matter. -/
theorem peak_perm (h : l.Perm l') : peak key b l = peak key b l' := by
  refine le_antisymm (peak_le_iff.mpr ⟨le_peak, ?_⟩) (peak_le_iff.mpr ⟨le_peak, ?_⟩)
  · exact fun x hx => key_le_peak (h.mem_iff.mp hx)
  · exact fun x hx => key_le_peak (h.mem_iff.mpr hx)

/-! ## Records -/

theorem records_append (b : β) (l l' : List α) :
    records key b (l ++ l') = records key b l ++ records key (peak key b l) l' := by
  induction l generalizing b with
  | nil => rfl
  | cons x l ih =>
      rw [List.cons_append, records, records, peak]
      split
      · next hlt => rw [ih, max_eq_right hlt.le, List.cons_append]
      · next hle => rw [ih, max_eq_left (not_lt.mp hle)]

/-- A further element is a record when it exceeds the best key. -/
theorem records_concat (b : β) (l : List α) (x : α) :
    records key b (l ++ [x]) =
      if peak key b l < key x then records key b l ++ [x] else records key b l := by
  rw [records_append, records]
  split <;> simp [records]

theorem peak_concat (b : β) (l : List α) (x : α) :
    peak key b (l ++ [x]) = max (peak key b l) (key x) := by
  induction l generalizing b with
  | nil => rfl
  | cons y l ih => rw [List.cons_append, peak, peak, ih]

theorem records_sublist (b : β) (l : List α) : (records key b l).Sublist l := by
  induction l generalizing b with
  | nil => exact .slnil
  | cons x l ih =>
      rw [records]
      split
      · exact (ih (key x)).cons_cons x
      · exact (ih b).cons x

theorem lt_of_mem_records (h : x ∈ records key b l) : b < key x := by
  induction l generalizing b with
  | nil => cases h
  | cons y l ih =>
      rw [records] at h
      split at h
      · next hlt =>
        obtain rfl | hrest := List.mem_cons.mp h
        · exact hlt
        · exact hlt.trans (ih hrest)
      · exact ih h

/-- The keys of the records increase. -/
theorem pairwise_records (b : β) (l : List α) :
    (records key b l).Pairwise fun x y => key x < key y := by
  induction l generalizing b with
  | nil => exact .nil
  | cons x l ih =>
      rw [records]
      split
      · exact List.pairwise_cons.mpr ⟨fun y hy => lt_of_mem_records hy, ih (key x)⟩
      · exact ih b

/-- The last record has the best key. -/
theorem getLast?_records (b : β) (l : List α) :
    records key b l = [] ∧ peak key b l = b ∨
      ∃ x ∈ (records key b l).getLast?, key x = peak key b l := by
  induction l generalizing b with
  | nil => exact .inl ⟨rfl, rfl⟩
  | cons x l ih =>
      rw [records, peak]
      split
      · next hlt =>
        rw [max_eq_right hlt.le]
        obtain ⟨hnil, hpeak⟩ | ⟨y, hy, hkey⟩ := ih (key x)
        · rw [hnil, hpeak]
          exact .inr ⟨x, rfl, rfl⟩
        · refine .inr ⟨y, ?_, hkey⟩
          rw [List.getLast?_cons, Option.mem_def.mp hy]
          rfl
      · next hle =>
        rw [max_eq_left (not_lt.mp hle)]
        exact ih b

/-- What bounds the records bounds every key above the threshold. -/
theorem forall_mem_records : (∀ x ∈ records key b l, key x ≤ c) ↔
    ∀ x ∈ l, b < key x → key x ≤ c := by
  constructor
  · intro h x hx hlt
    obtain ⟨-, hpeak⟩ | ⟨y, hy, hkey⟩ := @getLast?_records _ _ _ key b l
    · exact absurd (hlt.trans_le (key_le_peak hx)) (by rw [hpeak]; exact lt_irrefl b)
    · exact (key_le_peak hx).trans (hkey.symm.trans_le (h y (List.mem_of_getLast? hy)))
  · intro h x hx
    exact h x ((records_sublist b l).subset hx) (lt_of_mem_records hx)

end Foundation
