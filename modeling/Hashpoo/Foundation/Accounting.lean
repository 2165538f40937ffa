import Hashpoo.Foundation.Transition
import Mathlib.Algebra.BigOperators.Group.List.Basic
import Mathlib.Algebra.Order.BigOperators.Group.List
import Mathlib.Algebra.Ring.Nat

/-!
# Accounting over runs

A quantity of a system that every step changes by an amount which its action alone
determines is known at the end of every run: it is the quantity at the start and the
amounts of all actions. Work that has been taken up and is not finished yet counts as
done here. So the quantity of a system is what its data show and what its tasks still
owe, and where no task is at work, the data alone show it.
-/

namespace Foundation

variable {σ α β M : Type*} [AddCommMonoid M]

/-- Every step under the invariant `I` adds the gain of its action to `total`. -/
theorem total_of_run {step : σ → α → Option σ} {I : σ → Prop} {total : σ → M} {gain : α → M}
    (preserves : ∀ s a t, I s → step s a = some t → I t)
    (adds : ∀ s a t, I s → step s a = some t → total t = total s + gain a)
    {s t : σ} {as : List α} (start : I s) (hrun : run step s as = some t) :
    total t = total s + (as.map gain).sum := by
  induction as generalizing s with
  | nil =>
      cases hrun
      simp
  | cons a as ih =>
      obtain ⟨u, hu, hrest⟩ := run_cons_eq_some.mp hrun
      rw [ih (preserves s a u start hu) hrest, adds s a u start hu, List.map_cons, List.sum_cons,
        add_assoc]

/-- The gain of actions of which only some bring an item along. -/
theorem sum_map_filterMap (f : α → Option β) (worth : β → M) (as : List α) :
    ((as.filterMap f).map worth).sum = (as.map fun a => (f a).elim 0 worth).sum := by
  induction as with
  | nil => rfl
  | cons a as ih => cases h : f a <;> simp [h, ih]

/-! ## Shares -/

variable {κ : Type*} [DecidableEq κ]

theorem sum_map_ite_le {keys : List κ} (h : keys.Nodup) (key : κ) (n : Nat) :
    (keys.map fun k => if key = k then n else 0).sum ≤ n := by
  induction keys with
  | nil => exact Nat.zero_le n
  | cons k keys ih =>
      obtain ⟨hk, hrest⟩ := List.nodup_cons.mp h
      rw [List.map_cons, List.sum_cons]
      by_cases hkey : key = k
      · have hothers : (keys.map fun k' => if key = k' then n else 0).sum = 0 := by
          refine List.sum_eq_zero fun x hx => ?_
          obtain ⟨k', hk', rfl⟩ := List.mem_map.mp hx
          exact if_neg fun heq => hk (by rw [← hkey, heq]; exact hk')
        rw [if_pos hkey, hothers, Nat.add_zero]
      · rw [if_neg hkey, Nat.zero_add]
        exact ih hrest

/-- The shares of distinct keys in a total, each item counted for its own key. -/
theorem sum_shares_le {keys : List κ} (h : keys.Nodup) (key : α → κ) (worth : α → Nat)
    (items : List α) :
    (keys.map fun k => ((items.filter fun x => key x = k).map worth).sum).sum ≤
      (items.map worth).sum := by
  induction items with
  | nil => simp
  | cons x items ih =>
      have hsplit : (fun k => (((x :: items).filter fun y => key y = k).map worth).sum) =
          fun k => (if key x = k then worth x else 0) +
            ((items.filter fun y => key y = k).map worth).sum := by
        funext k
        by_cases hkey : key x = k <;> simp [hkey]
      rw [hsplit, List.sum_map_add, List.map_cons, List.sum_cons]
      exact Nat.add_le_add (sum_map_ite_le h (key x) (worth x)) ih

end Foundation
