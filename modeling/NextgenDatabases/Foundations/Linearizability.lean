import NextgenDatabases.Foundations.Runs
import Mathlib.Data.List.Nodup
import Mathlib.Logic.Function.Basic

/-!
# Linearizability

Calls on a shared object begin and return. What their callers see is linearizable if the object
could have performed the calls one after another, each at a moment between its beginning and its
return. A system whose steps follow an object that performs each call at one moment is linearizable
in all of its runs.
-/
namespace NextgenDatabases.Foundations

open Function (update update_of_ne)
open scoped List

variable {ι Op Ans σ : Type}

/-- A call begins, or returns with its answer. -/
inductive CallEvent (ι Op Ans : Type)
  | invoke (i : ι) (op : Op)
  | respond (i : ι) (ans : Ans)
  deriving DecidableEq

structure Performed (ι Op Ans : Type) where
  call : ι
  op : Op
  ans : Ans

/-- The object gives these answers when it performs the calls one after another. -/
def Sequential (act : σ → Op → Ans × σ) : σ → List (Performed ι Op Ans) → Prop
  | _, [] => True
  | s, c :: order => (act s c.op).1 = c.ans ∧ Sequential act (act s c.op).2 order

def afterAll (act : σ → Op → Ans × σ) (s : σ) (order : List (Performed ι Op Ans)) : σ :=
  order.foldl (fun s c => (act s c.op).2) s

/-- An order that explains what the callers have seen. A call that has not returned may be in it. -/
structure Linearization (act : σ → Op → Ans × σ) (s₀ : σ) (seen : List (CallEvent ι Op Ans))
    (order : List (Performed ι Op Ans)) : Prop where
  sequential : Sequential act s₀ order
  nodup : (order.map Performed.call).Nodup
  invoked : ∀ c ∈ order, .invoke c.call c.op ∈ seen
  answered : ∀ i ans, .respond i ans ∈ seen → ∃ op, ⟨i, op, ans⟩ ∈ order
  /-- A call that begins after another has returned comes after it. -/
  realTime : ∀ i ans j op, [.respond i ans, .invoke j op] <+ seen → j ∈ order.map Performed.call →
    [i, j] <+ order.map Performed.call

def Linearizable (act : σ → Op → Ans × σ) (s₀ : σ) (seen : List (CallEvent ι Op Ans)) : Prop :=
  ∃ order, Linearization act s₀ seen order

theorem sequential_concat {act : σ → Op → Ans × σ} {order : List (Performed ι Op Ans)}
    {c : Performed ι Op Ans} : ∀ {s : σ}, Sequential act s (order ++ [c]) ↔
      Sequential act s order ∧ (act (afterAll act s order) c.op).1 = c.ans := by
  induction order with
  | nil => simp [Sequential, afterAll]
  | cons d order ih => simp [Sequential, afterAll, ih, and_assoc]

theorem afterAll_concat {act : σ → Op → Ans × σ} {order : List (Performed ι Op Ans)}
    {c : Performed ι Op Ans} {s : σ} :
    afterAll act s (order ++ [c]) = (act (afterAll act s order) c.op).2 := by
  simp [afterAll]

theorem pair_sublist_concat {α : Type} {x y z : α} {l : List α} (h : [x, y] <+ l ++ [z]) :
    [x, y] <+ l ∨ x ∈ l ∧ y = z := by
  obtain ⟨l₁, l₂, heq, h₁, h₂⟩ := List.sublist_append_iff.mp h
  match l₁, heq with
  | [], heq =>
    obtain rfl : [x, y] = l₂ := heq
    exact absurd h₂.length_le (by simp)
  | [w], heq =>
    obtain ⟨rfl, rfl⟩ := List.cons.inj heq
    refine .inr ⟨List.singleton_sublist.mp h₁, ?_⟩
    simpa using h₂
  | [w, w'], heq =>
    obtain ⟨rfl, hrest⟩ := List.cons.inj heq
    obtain ⟨rfl, -⟩ := List.cons.inj hrest
    exact .inl h₁
  | w :: w' :: w'' :: l, heq => simp at heq

/-! ### The object that performs each call at one moment -/

inductive Progress (Op Ans : Type)
  | pending (op : Op)
  | performed (op : Op) (ans : Ans)
  | returned

structure AtomicObject (ι Op Ans σ : Type) where
  state : σ
  calls : ι → Option (Progress Op Ans)

namespace AtomicObject

def new (s₀ : σ) : AtomicObject ι Op Ans σ := ⟨s₀, fun _ => none⟩

inductive Step [DecidableEq ι] (act : σ → Op → Ans × σ) (a : AtomicObject ι Op Ans σ) :
    Option (CallEvent ι Op Ans) → AtomicObject ι Op Ans σ → Prop
  | idle : Step act a none a
  | invoke (i : ι) (op : Op) (h : a.calls i = none) :
    Step act a (some (.invoke i op)) ⟨a.state, update a.calls i (some (.pending op))⟩
  | perform (i : ι) (op : Op) (h : a.calls i = some (.pending op)) :
    Step act a none ⟨(act a.state op).2,
      update a.calls i (some (.performed op (act a.state op).1))⟩
  | respond (i : ι) (op : Op) (ans : Ans) (h : a.calls i = some (.performed op ans)) :
    Step act a (some (.respond i ans)) ⟨a.state, update a.calls i (some .returned)⟩

section

variable [DecidableEq ι] {act : σ → Op → Ans × σ} {a a' : AtomicObject ι Op Ans σ} {i : ι} {op : Op}
  {ans : Ans}

theorem Step.of_invoke (hi : a.calls i = none) (hstate : a'.state = a.state)
    (hcalls : a'.calls = update a.calls i (some (.pending op))) :
    a.Step act (some (.invoke i op)) a' := by
  obtain ⟨state, calls⟩ := a'
  subst hstate hcalls
  exact .invoke i op hi

theorem Step.of_perform (hi : a.calls i = some (.pending op)) (hact : act a.state op = (ans, a'.state))
    (hcalls : a'.calls = update a.calls i (some (.performed op ans))) : a.Step act none a' := by
  obtain ⟨state, calls⟩ := a'
  obtain ⟨rfl, rfl⟩ := Prod.mk.inj hact
  subst hcalls
  exact .perform i op hi

theorem Step.of_respond (hi : a.calls i = some (.performed op ans)) (hstate : a'.state = a.state)
    (hcalls : a'.calls = update a.calls i (some .returned)) :
    a.Step act (some (.respond i ans)) a' := by
  obtain ⟨state, calls⟩ := a'
  subst hstate hcalls
  exact .respond i op ans hi

end

/-- The order of the calls that the object has performed. -/
structure Explains (act : σ → Op → Ans × σ) (s₀ : σ) (seen : List (CallEvent ι Op Ans))
    (a : AtomicObject ι Op Ans σ) (order : List (Performed ι Op Ans)) : Prop
    extends Linearization act s₀ seen order where
  state : afterAll act s₀ order = a.state
  unseen : ∀ i, a.calls i = none → ∀ op, .invoke i op ∉ seen
  pending : ∀ i op, a.calls i = some (.pending op) →
    .invoke i op ∈ seen ∧ i ∉ order.map Performed.call
  performed : ∀ i op ans, a.calls i = some (.performed op ans) → ⟨i, op, ans⟩ ∈ order

variable {act : σ → Op → Ans × σ} {s₀ : σ} {seen : List (CallEvent ι Op Ans)}
  {a a' : AtomicObject ι Op Ans σ} {order : List (Performed ι Op Ans)} {i : ι} {op : Op} {ans : Ans}

theorem explains_new : Explains act s₀ [] (new s₀ : AtomicObject ι Op Ans σ) [] where
  sequential := trivial
  nodup := List.nodup_nil
  invoked := by simp
  answered := by simp
  realTime := by simp
  state := rfl
  unseen := by simp
  pending := by simp [new]
  performed := by simp [new]

theorem Explains.not_performed (h : Explains act s₀ seen a order) (hi : a.calls i = none) :
    i ∉ order.map Performed.call := by
  rintro hmem
  obtain ⟨c, hc, rfl⟩ := List.mem_map.mp hmem
  exact h.unseen c.call hi c.op (h.invoked c hc)

variable [DecidableEq ι]

theorem Explains.invoke (h : Explains act s₀ seen a order) (hi : a.calls i = none) (op : Op) :
    Explains act s₀ (seen ++ [.invoke i op])
      ⟨a.state, update a.calls i (some (.pending op))⟩ order where
  sequential := h.sequential
  nodup := h.nodup
  invoked := fun c hc => List.mem_append_left _ (h.invoked c hc)
  answered := by
    intro j ans hj
    exact h.answered j ans (by simpa using hj)
  realTime := by
    intro j ans k op' hsub hk
    rcases pair_sublist_concat hsub with hsub | ⟨-, heq⟩
    · exact h.realTime j ans k op' hsub hk
    · cases heq
      exact absurd hk (h.not_performed hi)
  state := h.state
  unseen := by
    intro j hj op' hmem
    rcases eq_or_ne j i with rfl | hne
    · simp at hj
    · simp only [update_of_ne hne] at hj
      rcases List.mem_append.mp hmem with hmem | hmem
      · exact h.unseen j hj op' hmem
      · exact hne (by simp_all)
  pending := by
    intro j op' hj
    rcases eq_or_ne j i with rfl | hne
    · obtain rfl : op = op' := by simpa using hj
      exact ⟨by simp, h.not_performed hi⟩
    · simp only [update_of_ne hne] at hj
      exact ⟨List.mem_append_left _ (h.pending j op' hj).1, (h.pending j op' hj).2⟩
  performed := by
    intro j op' ans hj
    rcases eq_or_ne j i with rfl | hne
    · simp at hj
    · simp only [update_of_ne hne] at hj
      exact h.performed j op' ans hj

theorem Explains.perform (h : Explains act s₀ seen a order)
    (hi : a.calls i = some (.pending op)) :
    Explains act s₀ seen
      ⟨(act a.state op).2, update a.calls i (some (.performed op (act a.state op).1))⟩
      (order ++ [⟨i, op, (act a.state op).1⟩]) where
  sequential := sequential_concat.mpr ⟨h.sequential, by rw [h.state]⟩
  nodup := by
    rw [List.map_append, List.map_singleton]
    exact List.nodup_append.mpr ⟨h.nodup, by simp, by
      rintro j hj k hk rfl
      obtain rfl : j = i := by simpa using hk
      exact (h.pending j op hi).2 hj⟩
  invoked := by
    intro c hc
    rcases List.mem_append.mp hc with hc | hc
    · exact h.invoked c hc
    · obtain rfl := List.mem_singleton.mp hc
      exact (h.pending i op hi).1
  answered := by
    intro j ans hj
    obtain ⟨op', hmem⟩ := h.answered j ans hj
    exact ⟨op', List.mem_append_left _ hmem⟩
  realTime := by
    intro j ans k op' hsub hk
    rw [List.map_append, List.map_singleton] at hk ⊢
    rcases List.mem_append.mp hk with hk | hk
    · exact (h.realTime j ans k op' hsub hk).trans (List.sublist_append_left _ _)
    · -- the call that is performed now comes after all that have returned
      obtain rfl := List.mem_singleton.mp hk
      obtain ⟨op'', hmem⟩ := h.answered j ans (hsub.subset (by simp))
      have hj : j ∈ order.map Performed.call := List.mem_map.mpr ⟨_, hmem, rfl⟩
      exact (List.singleton_sublist.mpr hj).append (List.Sublist.refl [k])
  state := by rw [afterAll_concat, h.state]
  unseen := by
    intro j hj op'
    rcases eq_or_ne j i with rfl | hne
    · simp at hj
    · exact h.unseen j (by simpa [hne] using hj) op'
  pending := by
    intro j op' hj
    rcases eq_or_ne j i with rfl | hne
    · simp at hj
    · simp only [update_of_ne hne] at hj
      refine ⟨(h.pending j op' hj).1, ?_⟩
      simpa [hne] using (h.pending j op' hj).2
  performed := by
    intro j op' ans hj
    rcases eq_or_ne j i with rfl | hne
    · obtain ⟨rfl, rfl⟩ : op = op' ∧ (act a.state op).1 = ans := by simpa using hj
      simp
    · simp only [update_of_ne hne] at hj
      exact List.mem_append_left _ (h.performed j op' ans hj)

theorem Explains.respond (h : Explains act s₀ seen a order)
    (hi : a.calls i = some (.performed op ans)) :
    Explains act s₀ (seen ++ [.respond i ans])
      ⟨a.state, update a.calls i (some .returned)⟩ order where
  sequential := h.sequential
  nodup := h.nodup
  invoked := fun c hc => List.mem_append_left _ (h.invoked c hc)
  answered := by
    intro j ans' hj
    rcases List.mem_append.mp hj with hj | hj
    · exact h.answered j ans' hj
    · cases List.mem_singleton.mp hj
      exact ⟨op, h.performed i op ans hi⟩
  realTime := by
    intro j ans' k op' hsub hk
    rcases pair_sublist_concat hsub with hsub | ⟨-, heq⟩
    · exact h.realTime j ans' k op' hsub hk
    · cases heq
  state := h.state
  unseen := by
    intro j hj op' hmem
    rcases eq_or_ne j i with rfl | hne
    · simp at hj
    · exact h.unseen j (by simpa [hne] using hj) op' (by simpa using hmem)
  pending := by
    intro j op' hj
    rcases eq_or_ne j i with rfl | hne
    · simp at hj
    · simp only [update_of_ne hne] at hj
      exact ⟨List.mem_append_left _ (h.pending j op' hj).1, (h.pending j op' hj).2⟩
  performed := by
    intro j op' ans' hj
    rcases eq_or_ne j i with rfl | hne
    · simp at hj
    · simp only [update_of_ne hne] at hj
      exact h.performed j op' ans' hj

theorem Explains.step {event : Option (CallEvent ι Op Ans)} (h : Explains act s₀ seen a order)
    (hstep : Step act a event a') :
    ∃ order', Explains act s₀ (seen ++ event.toList) a' order' := by
  cases hstep with
  | idle => exact ⟨order, by simpa using h⟩
  | invoke i op hi => exact ⟨order, h.invoke hi op⟩
  | perform i op hi => exact ⟨_, by simpa using h.perform hi⟩
  | respond i op ans hi => exact ⟨order, h.respond hi⟩

end AtomicObject

/-- A system is linearizable in all of its runs if each of its steps follows the object in what the
callers see of it. -/
theorem Run.linearizable [DecidableEq ι] {γ ε : Type} {step : γ → ε → Option γ} {ok : γ → ε → Prop}
    {act : σ → Op → Ans × σ} {s₀ : σ} {seen : γ → List (CallEvent ι Op Ans)}
    {follows : γ → AtomicObject ι Op Ans σ → Prop}
    (hstep : ∀ s e t a, follows s a → ok s e → step s e = some t →
      ∃ event a', a.Step act event a' ∧ follows t a' ∧ seen t = seen s ++ event.toList)
    {s t : γ} (r : Run step ok s t) (hseen : seen s = []) (hs : follows s (.new s₀)) :
    Linearizable act s₀ (seen t) := by
  have hinv := r.invariant
    (I := fun s => ∃ a order, follows s a ∧ AtomicObject.Explains act s₀ (seen s) a order)
    (fun s e t ⟨a, order, hfollows, hexplains⟩ he hst => by
      obtain ⟨event, a', hact, hfollows', hseen'⟩ := hstep s e t a hfollows he hst
      obtain ⟨order', hexplains'⟩ := hexplains.step hact
      exact ⟨a', order', hfollows', hseen' ▸ hexplains'⟩)
    ⟨.new s₀, [], hs, hseen ▸ AtomicObject.explains_new⟩
  obtain ⟨a, order, -, hexplains⟩ := hinv
  exact ⟨order, hexplains.toLinearization⟩

end NextgenDatabases.Foundations
