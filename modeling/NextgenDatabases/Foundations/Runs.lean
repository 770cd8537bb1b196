import Mathlib.Logic.Relation
import Mathlib.Data.Option.Basic

/-!
# Runs of a system driven by inputs

A system is a partial next-state function on inputs. A run is a finite sequence
of steps whose inputs all meet a guard; invariants are proved once for a step
and carried to every run here.
-/
namespace NextgenDatabases.Foundations

variable {σ ε : Type*}

/-- One step on an enabled input that meets the guard. -/
def Next (step : σ → ε → Option σ) (ok : σ → ε → Prop) (s t : σ) : Prop :=
  ∃ e, ok s e ∧ step s e = some t

/-- Finite runs whose steps all meet the guard. -/
abbrev Run (step : σ → ε → Option σ) (ok : σ → ε → Prop) : σ → σ → Prop :=
  Relation.ReflTransGen (Next step ok)

variable {step : σ → ε → Option σ} {ok ok' : σ → ε → Prop}

theorem Run.mono (h : ∀ s e, ok s e → ok' s e) {s t : σ} (r : Run step ok s t) :
    Run step ok' s t := by
  have hle : Next step ok ≤ Next step ok' := fun s t ⟨e, he, hs⟩ => ⟨e, h s e he, hs⟩
  exact Relation.ReflTransGen.mono hle _ _ r

theorem Run.single {s t : σ} {e : ε} (he : ok s e) (hs : step s e = some t) :
    Run step ok s t :=
  Relation.ReflTransGen.single ⟨e, he, hs⟩

/-- What every step preserves holds in every state a run reaches. -/
theorem Run.invariant {I : σ → Prop}
    (hstep : ∀ s e t, I s → ok s e → step s e = some t → I t)
    {s t : σ} (r : Run step ok s t) (hs : I s) : I t := by
  induction r with
  | refl => exact hs
  | tail _ hnext ih =>
    obtain ⟨e, he, hst⟩ := hnext
    exact hstep _ e _ ih he hst

/-- Feed a list of inputs to the system. -/
def exec (step : σ → ε → Option σ) : σ → List ε → Option σ
  | s, [] => some s
  | s, e :: es => (step s e).bind fun t => exec step t es

theorem exec_concat (s : σ) (es : List ε) (e : ε) :
    exec step s (es ++ [e]) = (exec step s es).bind fun t => step t e := by
  induction es generalizing s with
  | nil => simp [exec]
  | cons f es ih => simp [exec, ih, Option.bind_assoc]

/-- Executing the system is a run without a guard. -/
theorem run_of_steps {es : List ε} :
    ∀ {s t : σ}, exec step s es = some t → Run step (fun _ _ => True) s t := by
  induction es with
  | nil =>
    intro s t h
    cases h
    exact .refl
  | cons e es ih =>
    intro s t h
    obtain ⟨u, hu, ht⟩ := Option.bind_eq_some_iff.mp h
    exact (Run.single trivial hu).trans (ih ht)

/-- The system that takes a step only when the guard allows it. -/
def guarded (ok : σ → ε → Prop) [∀ s e, Decidable (ok s e)] (step : σ → ε → Option σ) (s : σ)
    (e : ε) : Option σ :=
  if ok s e then step s e else none

/-- Executing the guarded system is a run. -/
theorem run_of_exec [∀ s e, Decidable (ok s e)] {es : List ε} :
    ∀ {s t : σ}, exec (guarded ok step) s es = some t → Run step ok s t := by
  induction es with
  | nil =>
    intro s t h
    cases h
    exact .refl
  | cons e es ih =>
    intro s t h
    obtain ⟨u, hu, ht⟩ := Option.bind_eq_some_iff.mp h
    by_cases hok : ok s e
    · rw [guarded, if_pos hok] at hu
      exact (Run.single hok hu).trans (ih ht)
    · simp [guarded, hok] at hu

end NextgenDatabases.Foundations
