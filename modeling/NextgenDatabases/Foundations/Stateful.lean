import Mathlib

/-!
# Programs with a state and early ends

Programs that change a state and may end early, with the state as it is then: how sequences
run, which programs keep an invariant or a bound on a position, and programs that agree but where
one of them runs out of steps.
-/
namespace NextgenDatabases.Stateful

variable {ε σ α β : Type}

section run

variable {s s' : σ} {x : EStateM ε σ α} {f : α → EStateM ε σ β}

theorem run_bind_ok {a : α} (h : x.run s = .ok a s') : (x >>= f).run s = (f a).run s' := by
  change EStateM.bind x f s = _
  rw [EStateM.bind, show x s = .ok a s' from h]
  rfl

theorem run_bind_error {e : ε} (h : x.run s = .error e s') :
    (x >>= f).run s = .error e s' := by
  change EStateM.bind x f s = _
  rw [EStateM.bind, show x s = .error e s' from h]

theorem run_discard_ok {a : α} (h : x.run s = .ok a s') : (discard x).run s = .ok () s' := by
  change EStateM.map (fun _ => ()) x s = _
  rw [EStateM.map, show x s = .ok a s' from h]

theorem run_discard_error {e : ε} (h : x.run s = .error e s') :
    (discard x).run s = .error e s' := by
  change EStateM.map (fun _ => ()) x s = _
  rw [EStateM.map, show x s = .error e s' from h]

end run

/-- The program run a number of times. -/
def times (body : EStateM ε σ PUnit) : ℕ → EStateM ε σ PUnit
  | 0 => pure ()
  | n + 1 => do
    body
    times body n

/-! ### Invariants -/

section invariants

/-- The program leaves a state with the property, however it ends. -/
def Keeps (I : σ → Prop) (x : EStateM ε σ α) (s : σ) : Prop :=
  match x.run s with
  | .ok _ s' => I s'
  | .error _ s' => I s'

variable {I : σ → Prop} {s s' : σ} {x : EStateM ε σ α} {f : α → EStateM ε σ β}

theorem Keeps.ok (h : Keeps I x s) {a : α} (hrun : x.run s = .ok a s') : I s' := by
  rwa [Keeps, hrun] at h

theorem Keeps.error (h : Keeps I x s) {e : ε} (hrun : x.run s = .error e s') : I s' := by
  rwa [Keeps, hrun] at h

theorem Keeps.bind (h : Keeps I x s)
    (hf : ∀ a s', x.run s = .ok a s' → I s' → Keeps I (f a) s') : Keeps I (x >>= f) s := by
  cases hx : x.run s with
  | ok a s' =>
    have hrest := hf a s' hx (h.ok hx)
    rwa [Keeps, run_bind_ok hx]
  | error e s' =>
    rw [Keeps, run_bind_error hx]
    exact h.error hx

theorem Keeps.get_bind {f : σ → EStateM ε σ β} (h : Keeps I (f s) s) :
    Keeps I (get >>= f) s := h

theorem Keeps.modify_bind {g : σ → σ} {f : PUnit → EStateM ε σ β} (h : Keeps I (f ()) (g s)) :
    Keeps I (modify g >>= f) s := h

theorem Keeps.discard (h : Keeps I x s) : Keeps I (discard x) s := by
  cases hx : x.run s with
  | ok a s' =>
    rw [Keeps, run_discard_ok hx]
    exact h.ok hx
  | error e s' =>
    rw [Keeps, run_discard_error hx]
    exact h.error hx

end invariants

/-! ### Positions -/

section positions

/-- The program ends at a position between the old one and the bound, and early only for an
admitted reason. -/
def Stays (admitted : ε → Prop) (bound : ℕ) (x : EStateM ε ℕ α) (pos : ℕ) : Prop :=
  match x.run pos with
  | .ok _ pos' => pos ≤ pos' ∧ pos' ≤ bound
  | .error e pos' => admitted e ∧ pos ≤ pos' ∧ pos' ≤ bound

variable {admitted : ε → Prop} {bound pos pos' : ℕ} {x : EStateM ε ℕ α}
  {f : α → EStateM ε ℕ β}

theorem Stays.of_ok {a : α} (h : x.run pos = .ok a pos') (hle : pos ≤ pos') (hbound : pos' ≤ bound) :
    Stays admitted bound x pos := by
  rw [Stays, h]
  exact ⟨hle, hbound⟩

theorem Stays.of_error {e : ε} (h : x.run pos = .error e pos') (he : admitted e)
    (hle : pos ≤ pos') (hbound : pos' ≤ bound) : Stays admitted bound x pos := by
  rw [Stays, h]
  exact ⟨he, hle, hbound⟩

theorem Stays.ok (h : Stays admitted bound x pos) {a : α} (hrun : x.run pos = .ok a pos') :
    pos ≤ pos' ∧ pos' ≤ bound := by
  rwa [Stays, hrun] at h

theorem Stays.error (h : Stays admitted bound x pos) {e : ε} (hrun : x.run pos = .error e pos') :
    admitted e ∧ pos ≤ pos' ∧ pos' ≤ bound := by
  rwa [Stays, hrun] at h

theorem Stays.congr {y : EStateM ε ℕ α} (h : Stays admitted bound y pos)
    (heq : x.run pos = y.run pos) : Stays admitted bound x pos := by
  rwa [Stays, heq]

/-- What follows runs from a position that is no smaller. -/
theorem Stays.bind (h : Stays admitted bound x pos)
    (hf : ∀ a pos', x.run pos = .ok a pos' → Stays admitted bound (f a) pos') :
    Stays admitted bound (x >>= f) pos := by
  cases hx : x.run pos with
  | error e pos' =>
    obtain ⟨he, hle, hbound⟩ := h.error hx
    exact .of_error (run_bind_error hx) he hle hbound
  | ok a pos' =>
    obtain ⟨hle, hbound⟩ := h.ok hx
    have hnext := hf a pos' hx
    cases hrest : (f a).run pos' with
    | error e pos'' =>
      obtain ⟨he, hle', hbound'⟩ := hnext.error hrest
      exact .of_error ((run_bind_ok hx).trans hrest) he (hle.trans hle') hbound'
    | ok b pos'' =>
      obtain ⟨hle', hbound'⟩ := hnext.ok hrest
      exact .of_ok ((run_bind_ok hx).trans hrest) (hle.trans hle') hbound'

theorem Stays.discard (h : Stays admitted bound x pos) :
    Stays admitted bound (discard x) pos := by
  cases hx : x.run pos with
  | error e pos' =>
    obtain ⟨he, hle, hbound⟩ := h.error hx
    exact .of_error (run_discard_error hx) he hle hbound
  | ok a pos' =>
    obtain ⟨hle, hbound⟩ := h.ok hx
    exact .of_ok (run_discard_ok hx) hle hbound

theorem Stays.times {body : EStateM ε ℕ PUnit} (n : ℕ)
    (hbody : ∀ pos', pos ≤ pos' → pos' ≤ bound → Stays admitted bound body pos')
    (hpos : pos ≤ bound) : Stays admitted bound (times body n) pos := by
  induction n generalizing pos with
  | zero => exact .of_ok rfl le_rfl hpos
  | succ n ih =>
    refine (hbody pos le_rfl hpos).bind fun _ pos' hrun => ?_
    obtain ⟨hle, hbound⟩ := (hbody pos le_rfl hpos).ok hrun
    exact ih (fun pos'' hle' => hbody pos'' (hle.trans hle')) hbound

end positions

/-! ### Running out of steps -/

section steps

/-- Where the first program does not end for lack of steps, the second one does the same. -/
def Approximates (lack : ε) (x x' : EStateM ε σ α) : Prop :=
  ∀ s, (∃ s', x.run s = .error lack s') ∨ x'.run s = x.run s

variable {lack : ε} {x x' : EStateM ε σ α} {f f' : α → EStateM ε σ β}

theorem Approximates.refl (x : EStateM ε σ α) : Approximates lack x x := fun _ => .inr rfl

theorem Approximates.trans {x'' : EStateM ε σ α} (h : Approximates lack x x')
    (h' : Approximates lack x' x'') : Approximates lack x x'' := by
  intro s
  rcases h s with hlack | heq
  · exact .inl hlack
  · rcases h' s with ⟨s', hlack⟩ | heq'
    · exact .inl ⟨s', heq ▸ hlack⟩
    · exact .inr (heq'.trans heq)

theorem Approximates.bind (h : Approximates lack x x')
    (hf : ∀ a, Approximates lack (f a) (f' a)) : Approximates lack (x >>= f) (x' >>= f') := by
  intro s
  rcases h s with ⟨s', hlack⟩ | heq
  · exact .inl ⟨s', run_bind_error hlack⟩
  · cases hx : x.run s with
    | error e s' =>
      rw [hx] at heq
      exact .inr ((run_bind_error heq).trans (run_bind_error hx).symm)
    | ok a s' =>
      rw [hx] at heq
      rw [run_bind_ok hx, run_bind_ok heq]
      exact hf a s'

theorem Approximates.times {body body' : EStateM ε σ PUnit} (h : Approximates lack body body')
    (n : ℕ) : Approximates lack (times body n) (times body' n) := by
  induction n with
  | zero => exact .refl _
  | succ n ih => exact h.bind fun _ => ih

end steps

end NextgenDatabases.Stateful
