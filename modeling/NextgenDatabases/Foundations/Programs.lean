import NextgenDatabases.Foundations.Runs
import Mathlib.Logic.Function.Basic

/-!
# Programs over shared operations

A program performs operations on a shared state one at a time and continues with
their results. It can be run alone, or as one of several calls whose operations
interleave. A protocol says which operation a call may perform in which phase; that a
program follows it is proved once, and both kinds of run inherit it.
-/
namespace NextgenDatabases.Foundations

variable {Op : Type} {Res : Op → Type}

/-- A result, or an operation and what follows it. -/
inductive Prog (Res : Op → Type) (α : Type)
  | pure (a : α)
  | call (op : Op) (k : Res op → Prog Res α)

namespace Prog

variable {α β γ σ Φ : Type}

def bind : Prog Res α → (α → Prog Res β) → Prog Res β
  | pure a, f => f a
  | call op k, f => call op fun r => (k r).bind f

instance : Monad (Prog Res) where
  pure := Prog.pure
  bind := Prog.bind

/-- The program that performs one operation. -/
def perform (op : Op) : Prog Res (Res op) := call op Prog.pure

@[simp] theorem pure_bind (a : α) (f : α → Prog Res β) : (Prog.pure a).bind f = f a := rfl

@[simp] theorem call_bind (op : Op) (k : Res op → Prog Res α) (f : α → Prog Res β) :
    (Prog.call op k).bind f = .call op fun r => (k r).bind f := rfl

/-- Run the program with nothing in between. -/
def run (exec : σ → (op : Op) → Res op × σ) : Prog Res α → σ → α × σ
  | pure a, s => (a, s)
  | call op k, s => (k (exec s op).1).run exec (exec s op).2

end Prog

/-- Which operations a call may perform in a phase, and the phase after each result. -/
structure Protocol (Res : Op → Type) (Φ : Type) where
  allow : Φ → Op → Prop
  /-- The results that an operation can have. -/
  possible : (op : Op) → Res op → Prop
  next : Φ → (op : Op) → Res op → Φ

namespace Prog

variable {α β σ Φ : Type} (P : Protocol Res Φ)

/-- Whatever the results, the program keeps to the protocol, and what it returns
meets the postcondition in the phase that it ends in. -/
def Follows : Prog Res α → Φ → (α → Φ → Prop) → Prop
  | pure a, φ, post => post a φ
  | call op k, φ, post =>
    P.allow φ op ∧ ∀ r, P.possible op r → (k r).Follows (P.next φ op r) post

variable {P}

theorem Follows.mono {p : Prog Res α} {φ : Φ} {post post' : α → Φ → Prop}
    (h : p.Follows P φ post) (himp : ∀ a φ, post a φ → post' a φ) : p.Follows P φ post' := by
  induction p generalizing φ with
  | pure a => exact himp a φ h
  | call op k ih => exact ⟨h.1, fun r hr => ih r (h.2 r hr)⟩

theorem Follows.bind {p : Prog Res α} {φ : Φ} {mid : α → Φ → Prop} {f : α → Prog Res β}
    {post : β → Φ → Prop} (h : p.Follows P φ mid)
    (hf : ∀ a ψ, mid a ψ → (f a).Follows P ψ post) : (p.bind f).Follows P φ post := by
  induction p generalizing φ with
  | pure a => exact hf a φ h
  | call op k ih => exact ⟨h.1, fun r hr => ih r (h.2 r hr)⟩

/-- One operation: allowed, and whatever it returns. -/
theorem follows_perform {op : Op} {φ : Φ} {post : Res op → Φ → Prop} (h : P.allow φ op)
    (hpost : ∀ r, P.possible op r → post r (P.next φ op r)) :
    (perform op).Follows P φ post :=
  ⟨h, hpost⟩

/-- What the allowed operations keep holds at the end of a run without interference. -/
theorem Follows.run {exec : σ → (op : Op) → Res op × σ}
    (hexec : ∀ s op, P.possible op (exec s op).1) {J : σ → Φ → Prop}
    (hstep : ∀ s φ op, J s φ → P.allow φ op → J (exec s op).2 (P.next φ op (exec s op).1))
    {p : Prog Res α} {φ : Φ} {post : α → Φ → Prop} (h : p.Follows P φ post) {s : σ} (hs : J s φ) :
    ∃ ψ, post (p.run exec s).1 ψ ∧ J (p.run exec s).2 ψ := by
  induction p generalizing φ s with
  | pure a => exact ⟨φ, h, hs⟩
  | call op k ih => exact ih _ (h.2 _ (hexec s op)) (hstep s φ op hs h.1)

end Prog

/-! ### Interleavings -/

/-- Calls in progress on a shared state, the phase that each has reached, and the
operations performed so far with the calls that performed them. -/
structure Pool (Res : Op → Type) (α σ Φ ι : Type) where
  world : σ
  call : ι → Prog Res α
  phase : ι → Φ
  trace : List (ι × Op)

namespace Pool

variable {α σ Φ ι : Type} [DecidableEq ι]
variable (exec : σ → (op : Op) → Res op × σ) (P : ι → Protocol Res Φ)

/-- The next operation of the call `i`. -/
def step (s : Pool Res α σ Φ ι) (i : ι) : Option (Pool Res α σ Φ ι) :=
  match s.call i with
  | .pure _ => none
  | .call op k =>
    let r := exec s.world op
    some {
      world := r.2
      call := Function.update s.call i (k r.1)
      phase := Function.update s.phase i ((P i).next (s.phase i) op r.1)
      trace := s.trace ++ [(i, op)] }

/-- Every call keeps to its protocol from where it is. -/
def Follows (post : ι → α → Φ → Prop) (s : Pool Res α σ Φ ι) : Prop :=
  ∀ i, (s.call i).Follows (P i) (s.phase i) (post i)

variable {exec P} {post : ι → α → Φ → Prop}

/-- A step performs the next operation of a call, which is allowed. -/
theorem step_cases {s t : Pool Res α σ Φ ι} {i : ι} (hf : s.Follows P post)
    (hexec : ∀ s op, (P i).possible op (exec s op).1) (h : s.step exec P i = some t) :
    ∃ op k, s.call i = .call op k ∧ (P i).allow (s.phase i) op ∧ t.Follows P post ∧
      t.world = (exec s.world op).2 ∧
      t.phase = Function.update s.phase i ((P i).next (s.phase i) op (exec s.world op).1) ∧
      t.trace = s.trace ++ [(i, op)] := by
  have hi := hf i
  unfold step at h
  split at h
  · cases h
  · next op k hcall =>
    rw [hcall] at hi
    cases h
    refine ⟨op, k, hcall, hi.1, fun j => ?_, rfl, rfl, rfl⟩
    by_cases hj : j = i
    · subst hj
      simpa using hi.2 _ (hexec s.world op)
    · simpa [Function.update_of_ne hj] using hf j

/-- What the operations of the calls keep holds in every state that an interleaving reaches. -/
theorem invariant_of_call {ok : Pool Res α σ Φ ι → ι → Prop}
    (hexec : ∀ i s op, (P i).possible op (exec s op).1) {I : σ → (ι → Φ) → List (ι × Op) → Prop}
    (hstep : ∀ (s : Pool Res α σ Φ ι) i op k, s.Follows P post →
      I s.world s.phase s.trace → ok s i → s.call i = .call op k → (P i).allow (s.phase i) op →
      I (exec s.world op).2
        (Function.update s.phase i ((P i).next (s.phase i) op (exec s.world op).1))
        (s.trace ++ [(i, op)]))
    {s t : Pool Res α σ Φ ι} (r : Run (step exec P) ok s t) (hf : s.Follows P post)
    (hs : I s.world s.phase s.trace) : t.Follows P post ∧ I t.world t.phase t.trace := by
  refine r.invariant (I := fun s => s.Follows P post ∧ I s.world s.phase s.trace) ?_ ⟨hf, hs⟩
  rintro s i t ⟨hf, hs⟩ hok ht
  obtain ⟨op, k, hcall, hallow, hft, hw, hp, htr⟩ := step_cases hf (hexec i) ht
  rw [hw, hp, htr]
  exact ⟨hft, hstep s i op k hf hs hok hcall hallow⟩

/-- What the allowed operations keep holds in every state that an interleaving reaches. -/
theorem invariant {ok : Pool Res α σ Φ ι → ι → Prop}
    (hexec : ∀ i s op, (P i).possible op (exec s op).1) {I : σ → (ι → Φ) → List (ι × Op) → Prop}
    (hstep : ∀ (s : Pool Res α σ Φ ι) i op, I s.world s.phase s.trace → ok s i →
      (P i).allow (s.phase i) op →
      I (exec s.world op).2
        (Function.update s.phase i ((P i).next (s.phase i) op (exec s.world op).1))
        (s.trace ++ [(i, op)]))
    {s t : Pool Res α σ Φ ι} (r : Run (step exec P) ok s t) (hf : s.Follows P post)
    (hs : I s.world s.phase s.trace) : t.Follows P post ∧ I t.world t.phase t.trace :=
  invariant_of_call hexec (fun s i op _ _ hs hok _ hallow => hstep s i op hs hok hallow) r hf hs

end Pool

end NextgenDatabases.Foundations
