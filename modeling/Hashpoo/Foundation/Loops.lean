import Mathlib.Data.Nat.Find
import Mathlib.Tactic.ByContra

/-!
# Loops over answers that never run out

A loop that waits for its environment takes one answer in each round, and what comes
after the last one it uses does not matter. `after step s inputs n` is the state after `n`
rounds on an infinite sequence of answers. The loop ends when it reaches a state with the
property it leaves in: a measure that falls shows that it does, a property that it cannot
get rid of shows that it does not.
-/

namespace Foundation

variable {σ α : Type*}

/-- The state after the first `n` answers. -/
def after (step : σ → α → σ) (s : σ) (inputs : Nat → α) : Nat → σ
  | 0 => s
  | n + 1 => step (after step s inputs n) (inputs n)

/-- Some state on the way has the property. -/
def Reaches (step : σ → α → σ) (s : σ) (inputs : Nat → α) (P : σ → Prop) : Prop :=
  ∃ n, P (after step s inputs n)

variable {step : σ → α → σ} {s : σ} {inputs : Nat → α} {P : σ → Prop}

theorem after_succ (n : Nat) :
    after step s inputs (n + 1) = step (after step s inputs n) (inputs n) := rfl

/-- The rounds after the first `m` form a loop over the remaining answers. -/
theorem after_add (m n : Nat) : after step s inputs (m + n) =
    after step (after step s inputs m) (fun i => inputs (m + i)) n := by
  induction n with
  | zero => rfl
  | succ n ih => rw [← Nat.add_assoc, after_succ, after_succ, ih]

/-- The invariant rule. -/
theorem after_invariant (I : σ → Prop) (ok : α → Prop) (answers : ∀ n, ok (inputs n))
    (preserves : ∀ s a, I s → ok a → I (step s a)) (start : I s) (n : Nat) :
    I (after step s inputs n) := by
  induction n with
  | zero => exact start
  | succ n ih => exact preserves _ _ ih (answers n)

/-- A loop without a way out of `I` never reaches what `I` excludes. -/
theorem not_reaches_of_trap (I : σ → Prop) (ok : α → Prop) (answers : ∀ n, ok (inputs n))
    (preserves : ∀ s a, I s → ok a → I (step s a)) (avoids : ∀ s, I s → ¬ P s) (start : I s) :
    ¬ Reaches step s inputs P := by
  rintro ⟨n, hn⟩
  exact avoids _ (after_invariant I ok answers preserves start n) hn

/-- What is reached from a later state is reached. -/
theorem Reaches.of_after {m : Nat}
    (h : Reaches step (after step s inputs m) (fun i => inputs (m + i)) P) :
    Reaches step s inputs P := by
  obtain ⟨n, hn⟩ := h
  exact ⟨m + n, by rwa [after_add]⟩

/-- Either the loop is there, or it gets there after one round. -/
theorem reaches_iff_step : Reaches step s inputs P ↔
    P s ∨ Reaches step (step s (inputs 0)) (fun i => inputs (1 + i)) P := by
  constructor
  · rintro ⟨n, hn⟩
    cases n with
    | zero => exact .inl hn
    | succ n =>
        rw [Nat.add_comm n 1, after_add] at hn
        exact .inr ⟨n, hn⟩
  · rintro (hstart | hrest)
    · exact ⟨0, hstart⟩
    · exact Reaches.of_after (m := 1) hrest

/-- A loop that stays in `I` on some inputs gets to `P` behind the first other one. -/
theorem reaches_iff_exit (I : σ → Prop) (stays : α → Prop) (avoids : ∀ s, I s → ¬ P s)
    (preserves : ∀ s a, I s → stays a → I (step s a)) (start : I s) :
    Reaches step s inputs P ↔ ∃ n, (∀ i < n, stays (inputs i)) ∧ ¬ stays (inputs n) ∧
      Reaches step (after step s inputs (n + 1)) (fun i => inputs (n + 1 + i)) P := by
  classical
  constructor
  · rintro ⟨m, hm⟩
    have hinside : ∀ n, (∀ i < n, stays (inputs i)) → I (after step s inputs n) := by
      intro n hstays
      induction n with
      | zero => exact start
      | succ n ih =>
          exact preserves _ _ (ih fun i hi => hstays i (Nat.lt_succ_of_lt hi))
            (hstays n n.lt_succ_self)
    have hexit : ∃ n, ¬ stays (inputs n) := by
      by_contra hnone
      exact avoids _ (hinside m fun i _ => not_not.mp fun hi => hnone ⟨i, hi⟩) hm
    have hfirst : ∀ i < Nat.find hexit, stays (inputs i) :=
      fun i hi => not_not.mp (Nat.find_min hexit hi)
    have hlt : Nat.find hexit < m := by
      by_contra hle
      exact avoids _ (hinside m fun i hi => hfirst i (lt_of_lt_of_le hi (not_lt.mp hle))) hm
    obtain ⟨k, rfl⟩ := Nat.exists_eq_add_of_le (Nat.succ_le_of_lt hlt)
    exact ⟨_, hfirst, Nat.find_spec hexit, k, by rwa [← after_add]⟩
  · rintro ⟨n, -, -, hreaches⟩
    exact hreaches.of_after

/-- A measure that falls as long as `P` does not hold leads to `P`. -/
theorem reaches_of_measure (I : σ → Prop) (ok : α → Prop) (measure : σ → Nat)
    (answers : ∀ n, ok (inputs n))
    (falls : ∀ s a, I s → ok a → P s ∨ I (step s a) ∧ measure (step s a) < measure s)
    (start : I s) : Reaches step s inputs P := by
  induction hm : measure s using Nat.strongRecOn generalizing s inputs with
  | ind m ih =>
      subst hm
      obtain hdone | ⟨hinv, hlt⟩ := falls s (inputs 0) start (answers 0)
      · exact ⟨0, hdone⟩
      · exact reaches_iff_step.mpr (.inr (ih _ hlt (fun i => answers (1 + i)) hinv rfl))

end Foundation
