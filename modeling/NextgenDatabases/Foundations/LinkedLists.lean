import Mathlib

/-!
# Lists linked through their cells

A cell names the next one, and a null ends the list. Which cells are reached, when a list stays as
it is, and what it is after a cell is put in front.
-/
namespace NextgenDatabases.Foundations.LinkedLists

variable {α : Type*} {null : α} {next next' : α → α} {head a b : α} {cells cells' : List α}

/-- The cells from one on, each the next of the one before it. -/
inductive Follows (null : α) (next : α → α) : α → List α → Prop
  | done : Follows null next null []
  | visit {a : α} {cells : List α} (ha : a ≠ null) (hrest : Follows null next (next a) cells) :
    Follows null next a (a :: cells)

/-- The cell is reached, whether or not the list ends. -/
inductive Reaches (null : α) (next : α → α) : α → α → Prop
  | here {a : α} (ha : a ≠ null) : Reaches null next a a
  | later {a b : α} (ha : a ≠ null) (hrest : Reaches null next (next a) b) :
    Reaches null next a b

theorem Follows.unique (h : Follows null next head cells) (h' : Follows null next head cells') :
    cells = cells' := by
  induction h generalizing cells' with
  | done =>
    cases h' with
    | done => rfl
    | visit ha => exact absurd rfl ha
  | visit ha _ ih =>
    cases h' with
    | done => exact absurd rfl ha
    | visit _ hrest => rw [ih hrest]

theorem Follows.ne_null (h : Follows null next head cells) (ha : a ∈ cells) : a ≠ null := by
  induction h with
  | done => cases ha
  | visit hb _ ih =>
    rcases List.mem_cons.mp ha with rfl | ha
    · exact hb
    · exact ih ha

theorem Reaches.ne_null (h : Reaches null next head a) : a ≠ null := by
  induction h with
  | here ha => exact ha
  | later _ _ ih => exact ih

/-- A list that ends visits the cells that are reached. -/
theorem Follows.mem_iff (h : Follows null next head cells) :
    a ∈ cells ↔ Reaches null next head a := by
  induction h with
  | done =>
    refine iff_of_false List.not_mem_nil fun hreach => ?_
    cases hreach with
    | here ha => exact ha rfl
    | later ha => exact ha rfl
  | @visit b cells hb _ ih =>
    rw [List.mem_cons, ih]
    constructor
    · rintro (rfl | hreach)
      · exact .here hb
      · exact .later hb hreach
    · intro hreach
      cases hreach with
      | here => exact .inl rfl
      | later _ hrest => exact .inr hrest

/-- The list does not depend on the other cells. -/
theorem Follows.congr (h : Follows null next head cells) (hsame : ∀ a ∈ cells, next' a = next a) :
    Follows null next' head cells := by
  induction h with
  | done => exact .done
  | visit ha _ ih =>
    refine .visit ha ?_
    rw [hsame _ List.mem_cons_self]
    exact ih fun a ha => hsame a (List.mem_cons_of_mem _ ha)

theorem Reaches.congr (h : Reaches null next head a)
    (hsame : ∀ b, Reaches null next head b → next' b = next b) : Reaches null next' head a := by
  induction h with
  | here ha => exact .here ha
  | later ha _ ih =>
    refine .later ha ?_
    rw [hsame _ (.here ha)]
    exact ih fun b hb => hsame b (.later ha hb)

theorem reaches_congr (hsame : ∀ b, Reaches null next head b → next' b = next b) :
    Reaches null next' head a ↔ Reaches null next head a := by
  refine ⟨fun h => ?_, fun h => h.congr hsame⟩
  induction h with
  | here ha => exact .here ha
  | later ha _ ih =>
    rw [hsame _ (.here ha)] at ih
    exact .later ha (ih fun b hb => hsame b (.later ha hb))

theorem Reaches.succ (h : Reaches null next head a) (hne : next a ≠ null) :
    Reaches null next head (next a) := by
  induction h with
  | here ha => exact .later ha (.here hne)
  | later ha _ ih => exact .later ha (ih hne)

/-- What holds of the first cell and goes on to the next holds of all that are reached. -/
theorem Reaches.induction {P : α → Prop} (h : Reaches null next head a)
    (hhead : head ≠ null → P head) (hnext : ∀ b, P b → next b ≠ null → P (next b)) : P a := by
  induction h with
  | here ha => exact hhead ha
  | later ha _ ih => exact ih fun hne => hnext _ (hhead ha) hne

/-- A new cell in front. -/
theorem Follows.push [DecidableEq α] (h : Follows null next head cells) (ha : a ≠ null)
    (hnew : a ∉ cells) : Follows null (Function.update next a head) a (a :: cells) := by
  refine .visit ha ?_
  rw [Function.update_self]
  refine h.congr fun b hb => Function.update_of_ne ?_ _ _
  rintro rfl
  exact hnew hb

/-- A cell that names itself is the end of no list. -/
theorem Follows.next_ne (h : Follows null next head cells) (ha : a ∈ cells) : next a ≠ a := by
  intro hself
  have hnone (b : α) (cells : List α) (hb : Follows null next b cells) : b ≠ a := by
    induction hb with
    | done =>
      rintro rfl
      exact h.ne_null ha rfl
    | @visit b cells _ _ ih =>
      rintro rfl
      exact ih hself
  induction h with
  | done => cases ha
  | @visit b cells hb hrest ih =>
    rcases List.mem_cons.mp ha with rfl | ha
    · exact hnone _ _ hrest hself
    · exact ih ha

end NextgenDatabases.Foundations.LinkedLists
