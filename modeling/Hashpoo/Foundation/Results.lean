import Mathlib.Logic.Basic

/-!
# Computations that may fail

What holds of every result of a computation is carried through the computations it begins
with.
-/

namespace Foundation

universe u v w

variable {ε : Type u} {α β : Type v} {γ : Type w} {x : Except ε α} {f : α → Except ε β}

theorem bind_eq_ok {b : β} : (x >>= f) = .ok b ↔ ∃ a, x = .ok a ∧ f a = .ok b := by
  cases x with
  | ok a => exact ⟨fun h => ⟨a, rfl, h⟩, fun ⟨_, ha, h⟩ => by cases ha; exact h⟩
  | error e => exact ⟨nofun, nofun⟩

@[simp] theorem pure_eq_ok {a b : α} : (pure a : Except ε α) = .ok b ↔ a = b :=
  ⟨fun h => by cases h; rfl, fun h => by rw [h]; rfl⟩

theorem bind_of_ok {a : α} (h : x = .ok a) : (x >>= f) = f a := by
  rw [h]
  rfl

theorem exists_bind_ok : (∃ b, (x >>= f) = .ok b) ↔ ∃ a, x = .ok a ∧ ∃ b, f a = .ok b := by
  simp only [bind_eq_ok]
  exact exists_comm.trans (exists_congr fun _ => exists_and_left)

/-- A computation for each element of a list succeeds when all of them do. -/
theorem exists_mapM_ok {g : γ → Except ε α} {l : List γ} :
    (∃ r, l.mapM g = .ok r) ↔ ∀ c ∈ l, ∃ a, g c = .ok a := by
  induction l with
  | nil => simp
  | cons c l ih =>
      rw [List.mapM_cons, exists_bind_ok, List.forall_mem_cons, ← ih]
      constructor
      · rintro ⟨a, ha, r, hr⟩
        exact ⟨⟨a, ha⟩, (exists_bind_ok.mp ⟨r, hr⟩).imp fun _ h => h.1⟩
      · rintro ⟨⟨a, ha⟩, r, hr⟩
        exact ⟨a, ha, exists_bind_ok.mpr ⟨r, hr, _, rfl⟩⟩

/-- A loop succeeds when every round does. -/
theorem exists_foldlM_ok {step : α → γ → Except ε α} {l : List γ}
    (h : ∀ a, ∀ c ∈ l, ∃ a', step a c = .ok a') (init : α) :
    ∃ r, l.foldlM step init = .ok r := by
  induction l generalizing init with
  | nil => exact ⟨init, rfl⟩
  | cons c l ih =>
      obtain ⟨a, ha⟩ := h init c List.mem_cons_self
      rw [List.foldlM_cons, exists_bind_ok]
      exact ⟨a, ha, ih (fun a' c' hc' => h a' c' (List.mem_cons_of_mem _ hc')) a⟩

end Foundation
