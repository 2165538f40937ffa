import Mathlib.Init

/-!
# Runs of labelled transition functions

`step s a = some t` means that the action `a` is enabled in `s` and leads to `t`.
Every choice made outside the modelled program (an answer from the network, the
scheduler's pick of a task, the content of a message) is part of the action, so a
list of actions determines one run and every run can be evaluated.

`Meets` restricts a run through the actions it performs and the states it performs
them in. The two invariant rules below are the inductions over runs; the developments on
top of this file supply one step lemma for each.
-/

namespace Foundation

variable {σ α : Type*}

/-- Perform the actions from left to right. `none` means that some action was not
enabled in the state it met. -/
def run (step : σ → α → Option σ) : σ → List α → Option σ
  | s, [] => some s
  | s, a :: as => (step s a).bind fun t => run step t as

theorem run_cons_eq_some {step : σ → α → Option σ} {s u : σ} {a : α} {as : List α} :
    run step s (a :: as) = some u ↔ ∃ t, step s a = some t ∧ run step t as = some u := by
  simp [run, Option.bind_eq_some_iff]

/-- A run is cut into two runs at every point of its list of actions. -/
theorem run_append (step : σ → α → Option σ) (s : σ) (as bs : List α) :
    run step s (as ++ bs) = (run step s as).bind fun t => run step t bs := by
  induction as generalizing s with
  | nil => rfl
  | cons a as ih => simp only [List.cons_append, run, Option.bind_assoc, ih]

theorem run_concat (step : σ → α → Option σ) (s : σ) (as : List α) (a : α) :
    run step s (as ++ [a]) = (run step s as).bind fun t => step t a := by
  simp [run_append, run]

/-- A concrete run is checked by evaluation. -/
theorem exists_run (step : σ → α → Option σ) (s : σ) (as : List α) (P : σ → Prop)
    [DecidablePred P] (h : ((run step s as).any fun t => decide (P t)) = true) :
    ∃ t, run step s as = some t ∧ P t := by
  cases hrun : run step s as with
  | none => simp [hrun] at h
  | some t => exact ⟨t, rfl, by simpa [hrun] using h⟩

/-- Every action of the run satisfies `ok` in the state in which it is performed. -/
def Meets (step : σ → α → Option σ) (ok : σ → α → Prop) : σ → List α → Prop
  | _, [] => True
  | s, a :: as => ok s a ∧ ∀ t ∈ step s a, Meets step ok t as

instance Meets.decidable (step : σ → α → Option σ) (ok : σ → α → Prop)
    [∀ s a, Decidable (ok s a)] : ∀ s as, Decidable (Meets step ok s as)
  | _, [] => .isTrue trivial
  | s, a :: as =>
      have : ∀ t, Decidable (Meets step ok t as) := fun t => Meets.decidable step ok t as
      inferInstanceAs (Decidable (ok s a ∧ ∀ t ∈ step s a, Meets step ok t as))

theorem Meets.head {step : σ → α → Option σ} {ok : σ → α → Prop} {s : σ} {a : α}
    {as : List α} (h : Meets step ok s (a :: as)) : ok s a := h.1

theorem Meets.tail {step : σ → α → Option σ} {ok : σ → α → Prop} {s t : σ} {a : α}
    {as : List α} (h : Meets step ok s (a :: as)) (hs : step s a = some t) :
    Meets step ok t as := h.2 t hs

theorem meets_cons {step : σ → α → Option σ} {ok : σ → α → Prop} {s t : σ} {a : α}
    {as : List α} (hs : step s a = some t) :
    Meets step ok s (a :: as) ↔ ok s a ∧ Meets step ok t as := by
  constructor
  · intro h
    exact ⟨h.head, h.tail hs⟩
  · rintro ⟨hok, hrest⟩
    refine ⟨hok, fun u hu => ?_⟩
    cases hs.symm.trans hu
    exact hrest

theorem meets_append {step : σ → α → Option σ} {ok : σ → α → Prop} {s t : σ} {as bs : List α}
    (h : run step s as = some t) :
    Meets step ok s (as ++ bs) ↔ Meets step ok s as ∧ Meets step ok t bs := by
  induction as generalizing s with
  | nil =>
      cases h
      exact ⟨fun hbs => ⟨trivial, hbs⟩, And.right⟩
  | cons a as ih =>
      obtain ⟨u, hu, hrest⟩ := run_cons_eq_some.mp h
      rw [List.cons_append, meets_cons hu, meets_cons hu, ih hrest, and_assoc]

/-- No restriction. -/
theorem meets_true {step : σ → α → Option σ} {s : σ} (as : List α) :
    Meets step (fun _ _ => True) s as := by
  induction as generalizing s with
  | nil => trivial
  | cons a as ih => exact ⟨trivial, fun t _ => ih⟩

/-- A restriction on the actions alone. -/
theorem meets_of_forall {step : σ → α → Option σ} {ok : α → Prop} {s : σ} {as : List α}
    (h : ∀ a ∈ as, ok a) : Meets step (fun _ a => ok a) s as := by
  induction as generalizing s with
  | nil => trivial
  | cons a as ih =>
      obtain ⟨ha, has⟩ := List.forall_mem_cons.mp h
      exact ⟨ha, fun t _ => ih has⟩

theorem Meets.mono {step : σ → α → Option σ} {ok ok' : σ → α → Prop} {s : σ} {as : List α}
    (h : Meets step ok s as) (himp : ∀ s a, ok s a → ok' s a) : Meets step ok' s as := by
  induction as generalizing s with
  | nil => trivial
  | cons a as ih => exact ⟨himp s a h.head, fun t ht => ih (h.tail ht)⟩

theorem Meets.and {step : σ → α → Option σ} {ok ok' : σ → α → Prop} {s : σ} {as : List α}
    (h : Meets step ok s as) (h' : Meets step ok' s as) :
    Meets step (fun s a => ok s a ∧ ok' s a) s as := by
  induction as generalizing s with
  | nil => trivial
  | cons a as ih => exact ⟨⟨h.head, h'.head⟩, fun t ht => ih (h.tail ht) (h'.tail ht)⟩

/-- What every permitted step preserves holds at the end of every permitted run. -/
theorem invariant_of_meets {step : σ → α → Option σ} {ok : σ → α → Prop} {I : σ → Prop}
    (preserves : ∀ s a t, I s → ok s a → step s a = some t → I t)
    {s t : σ} {as : List α} (start : I s) (meets : Meets step ok s as)
    (hrun : run step s as = some t) : I t := by
  induction as generalizing s with
  | nil =>
      cases hrun
      exact start
  | cons a as ih =>
      obtain ⟨u, hu, hrest⟩ := run_cons_eq_some.mp hrun
      exact ih (preserves s a u start meets.head hu) (meets.tail hu) hrest

/-- The unrestricted rule: every step preserves the invariant. -/
theorem invariant_of_step {step : σ → α → Option σ} {I : σ → Prop}
    (preserves : ∀ s a t, I s → step s a = some t → I t)
    {s t : σ} {as : List α} (start : I s) (hrun : run step s as = some t) : I t := by
  induction as generalizing s with
  | nil =>
      cases hrun
      exact start
  | cons a as ih =>
      obtain ⟨u, hu, hrest⟩ := run_cons_eq_some.mp hrun
      exact ih (preserves s a u start hu) hrest

/-! ## The states of a run -/

/-- The states that the run passes through, its first and its last one included. -/
def states (step : σ → α → Option σ) : σ → List α → List σ
  | s, [] => [s]
  | s, a :: as => s :: (step s a).elim [] fun t => states step t as

theorem mem_states_self {step : σ → α → Option σ} {s : σ} (as : List α) :
    s ∈ states step s as := by
  cases as <;> exact List.mem_cons_self

theorem states_cons {step : σ → α → Option σ} {s t : σ} {a : α} (as : List α)
    (h : step s a = some t) : states step s (a :: as) = s :: states step t as := by
  simp [states, h]

theorem mem_states_of_run {step : σ → α → Option σ} {s t : σ} {as : List α}
    (h : run step s as = some t) : t ∈ states step s as := by
  induction as generalizing s with
  | nil =>
      cases h
      exact mem_states_self []
  | cons a as ih =>
      obtain ⟨u, hu, hrest⟩ := run_cons_eq_some.mp h
      rw [states_cons as hu]
      exact List.mem_cons_of_mem s (ih hrest)

/-- What every permitted step preserves holds in every state of a permitted run. -/
theorem invariant_of_states {step : σ → α → Option σ} {ok : σ → α → Prop} {I : σ → Prop}
    (preserves : ∀ s a t, I s → ok s a → step s a = some t → I t)
    {s t : σ} {as : List α} (start : I s) (meets : Meets step ok s as)
    (h : t ∈ states step s as) : I t := by
  induction as generalizing s with
  | nil =>
      cases List.mem_singleton.mp h
      exact start
  | cons a as ih =>
      obtain rfl | hrest := List.mem_cons.mp h
      · exact start
      · cases hstep : step s a with
        | none => simp [hstep] at hrest
        | some u =>
            rw [hstep] at hrest
            exact ih (preserves s a u start meets.head hstep) (meets.tail hstep) hrest

/-- A run is permitted when each of its steps is, judged by the states around it. -/
theorem meets_of_states {step : σ → α → Option σ} {ok : σ → α → Prop} {I : σ → Prop}
    (judged : ∀ s a t, I s → step s a = some t → I t → ok s a)
    {s u : σ} {as : List α} (hrun : run step s as = some u)
    (hall : ∀ t ∈ states step s as, I t) : Meets step ok s as := by
  induction as generalizing s with
  | nil => trivial
  | cons a as ih =>
      obtain ⟨t, ht, hrest⟩ := run_cons_eq_some.mp hrun
      rw [states_cons as ht, List.forall_mem_cons] at hall
      refine (meets_cons ht).mpr ⟨?_, ih hrest hall.2⟩
      exact judged s a t hall.1 ht (hall.2 t (mem_states_self as))

end Foundation
