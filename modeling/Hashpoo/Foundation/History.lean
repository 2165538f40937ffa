import Hashpoo.Foundation.Transition

/-!
# Runs with a history

Some properties speak about what has happened, which the state no longer shows. A
history variable records it: `observe s a g` is the history after the action `a` in the
state `s` with the history `g` before. It is written and never read, so a system has
the same runs with its history and without.
-/

namespace Foundation

variable {σ α γ : Type*}

/-- The step function of the system with its history. -/
def withHistory (step : σ → α → Option σ) (observe : σ → α → γ → γ) :
    σ × γ → α → Option (σ × γ)
  | (s, g), a => (step s a).map fun t => (t, observe s a g)

theorem withHistory_eq_some {step : σ → α → Option σ} {observe : σ → α → γ → γ}
    {s t : σ} {g g' : γ} {a : α} :
    withHistory step observe (s, g) a = some (t, g') ↔ step s a = some t ∧ g' = observe s a g := by
  simp only [withHistory, Option.map_eq_some_iff, Prod.mk.injEq]
  constructor
  · rintro ⟨u, hu, rfl, rfl⟩
    exact ⟨hu, rfl⟩
  · rintro ⟨hu, rfl⟩
    exact ⟨t, hu, rfl, rfl⟩

/-- The invariant rule for systems with a history. -/
theorem invariant_of_history {step : σ → α → Option σ} {observe : σ → α → γ → γ}
    {ok : σ → α → Prop} {I : σ → γ → Prop}
    (preserves : ∀ s g a t, I s g → ok s a → step s a = some t → I t (observe s a g))
    {s t : σ} {g g' : γ} {as : List α} (start : I s g) (meets : Meets step ok s as)
    (hrun : run (withHistory step observe) (s, g) as = some (t, g')) : I t g' := by
  induction as generalizing s g with
  | nil =>
      cases hrun
      exact start
  | cons a as ih =>
      obtain ⟨⟨u, g₁⟩, hu, hrest⟩ := run_cons_eq_some.mp hrun
      obtain ⟨hstep, rfl⟩ := withHistory_eq_some.mp hu
      exact ih (preserves s g a u start meets.head hstep) (meets.tail hstep) hrest

/-! ## Traces

The trace of a run is the history that forgets nothing. -/

/-- The actions of a run with the states in which they are performed. -/
def trace (step : σ → α → Option σ) : σ → List α → List (σ × α)
  | _, [] => []
  | s, a :: as => (s, a) :: (step s a).elim [] fun t => trace step t as

theorem trace_cons {step : σ → α → Option σ} {s t : σ} {a : α} (as : List α)
    (h : step s a = some t) : trace step s (a :: as) = (s, a) :: trace step t as := by
  simp [trace, h]

theorem mem_of_mem_trace {step : σ → α → Option σ} {s : σ} {as : List α} {x : σ × α}
    (h : x ∈ trace step s as) : x.2 ∈ as := by
  induction as generalizing s with
  | nil => cases h
  | cons a as ih =>
      obtain rfl | hrest := List.mem_cons.mp h
      · exact List.mem_cons_self
      · cases hstep : step s a with
        | none => simp [hstep] at hrest
        | some t =>
            rw [hstep] at hrest
            exact List.mem_cons_of_mem a (ih hrest)

/-- The invariant rule for properties of the state and the trace that leads to it. -/
theorem invariant_of_trace {step : σ → α → Option σ} {I : List (σ × α) → σ → Prop}
    (preserves : ∀ g s a t, I g s → step s a = some t → I (g ++ [(s, a)]) t)
    {s t : σ} {as : List α} (start : I [] s) (hrun : run step s as = some t) :
    I (trace step s as) t := by
  have hgeneral : ∀ (as : List α) (g : List (σ × α)) (s : σ), I g s → run step s as = some t →
      I (g ++ trace step s as) t := by
    intro as
    induction as with
    | nil =>
        intro g s hs h
        cases h
        simpa [trace] using hs
    | cons a as ih =>
        intro g s hs h
        obtain ⟨u, hu, hrest⟩ := run_cons_eq_some.mp h
        have hu' := ih (g ++ [(s, a)]) u (preserves g s a u hs hu) hrest
        rwa [trace_cons as hu, ← List.singleton_append, ← List.append_assoc]
  exact hgeneral as [] s start hrun

/-! ## Sequential histories

An operation on shared data takes several steps, and takes effect in one of them. The
operations in the order of these points are the sequential history of a run. -/

/-- The operations that take effect in a run, when `ops s a` are those of one action. -/
def sequential {ι : Type*} (step : σ → α → Option σ) (ops : σ → α → List ι) (s : σ)
    (as : List α) : List ι :=
  (trace step s as).flatMap fun x => ops x.1 x.2

/-- The data are what the sequential history makes of them. -/
theorem replay_of_run {ι A : Type*} {step : σ → α → Option σ} {I : σ → Prop} {abs : σ → A}
    {perform : A → ι → A} {ops : σ → α → List ι}
    (preserves : ∀ s a t, I s → step s a = some t → I t)
    (simulates : ∀ s a t, I s → step s a = some t → abs t = (ops s a).foldl perform (abs s))
    {s t : σ} {as : List α} (start : I s) (hrun : run step s as = some t) :
    abs t = (sequential step ops s as).foldl perform (abs s) := by
  induction as generalizing s with
  | nil =>
      cases hrun
      rfl
  | cons a as ih =>
      obtain ⟨u, hu, hrest⟩ := run_cons_eq_some.mp hrun
      rw [ih (preserves s a u start hu) hrest, simulates s a u start hu, sequential, sequential,
        trace_cons as hu, List.flatMap_cons, List.foldl_append]

end Foundation
