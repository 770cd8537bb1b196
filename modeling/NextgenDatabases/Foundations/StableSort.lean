import Mathlib.Data.List.Basic
import Mathlib.Data.List.DropRight
import Mathlib.Data.Int.Notation

/-!
# Stable sorting with any comparison

A merge sort with insertion sort for at most five elements, for a comparison that need not be an
order. Its result says which element comes first where some elements win against all others, and
where one of the others is not beaten by them.
-/
namespace NextgenDatabases.Foundations

variable {α : Type*} (cmp : α → α → ℤ)

namespace StableSort

/-- An element moves to the front past those that compare greater. -/
def insert (sorted : List α) (e : α) : List α :=
  (sorted.rdropWhile fun x => 0 < cmp x e) ++ e :: sorted.rtakeWhile fun x => 0 < cmp x e

def insertionSort (l : List α) : List α := l.foldl (insert cmp) []

def merge : List α → List α → List α
  | [], ys => ys
  | x :: xs, [] => x :: xs
  | x :: xs, y :: ys => if cmp x y ≤ 0 then x :: merge xs (y :: ys) else y :: merge (x :: xs) ys

end StableSort

/-- `Belt.SortArray.stableSortBy` -/
def stableSortBy (l : List α) : List α :=
  if l.length ≤ 5 then StableSort.insertionSort cmp l
  else
    StableSort.merge cmp (stableSortBy (l.take (l.length / 2)))
      (stableSortBy (l.drop (l.length / 2)))
termination_by l.length
decreasing_by
  · rw [List.length_take]
    omega
  · rw [List.length_drop]
    omega

namespace StableSort

variable {cmp}

/-! ### The elements -/

theorem insert_perm (sorted : List α) (e : α) : (insert cmp sorted e).Perm (e :: sorted) := by
  have hsplit : (sorted.rdropWhile fun x => 0 < cmp x e) ++
      (sorted.rtakeWhile fun x => 0 < cmp x e) = sorted := List.rdropWhile_append_rtakeWhile ..
  have hmiddle : (insert cmp sorted e).Perm (e :: ((sorted.rdropWhile fun x => 0 < cmp x e) ++
      sorted.rtakeWhile fun x => 0 < cmp x e)) := List.perm_middle
  rwa [hsplit] at hmiddle

theorem insertionSort_perm (l : List α) : (insertionSort cmp l).Perm l := by
  induction l using List.reverseRecOn with
  | nil => exact .nil
  | append_singleton l e ih =>
    rw [insertionSort, List.foldl_concat]
    exact (insert_perm _ e).trans ((ih.cons e).trans (List.perm_append_singleton e l).symm)

theorem merge_perm (xs ys : List α) : (merge cmp xs ys).Perm (xs ++ ys) := by
  induction xs generalizing ys with
  | nil => rw [merge, List.nil_append]
  | cons x xs ihx =>
    induction ys with
    | nil => rw [merge, List.append_nil]
    | cons y ys ihy =>
      rw [merge]
      split_ifs
      · exact (ihx (y :: ys)).cons x
      · exact (ihy.cons y).trans List.perm_middle.symm

end StableSort

open StableSort

variable {cmp}

theorem stableSortBy_perm (l : List α) : (stableSortBy cmp l).Perm l := by
  induction l using stableSortBy.induct with
  | case1 l h =>
    rw [stableSortBy, if_pos h]
    exact insertionSort_perm l
  | case2 l h ih1 ih2 =>
    rw [stableSortBy, if_neg h]
    refine (merge_perm _ _).trans ((ih1.append ih2).trans ?_)
    rw [List.take_append_drop]

theorem exists_head?_stableSortBy {l : List α} (h : l ≠ []) :
    ∃ x ∈ l, (stableSortBy cmp l).head? = some x := by
  have hperm := @stableSortBy_perm _ cmp l
  cases hsorted : stableSortBy cmp l with
  | nil =>
    rw [hsorted] at hperm
    exact absurd hperm.nil_eq.symm h
  | cons x xs =>
    rw [hsorted] at hperm
    exact ⟨x, hperm.mem_iff.mp List.mem_cons_self, rfl⟩

namespace StableSort

/-! ### The first element -/

/-- An element comes first when it beats all others. -/
theorem head?_insert (sorted : List α) (e : α) :
    (insert cmp sorted e).head? = some e ∧ (∀ x ∈ sorted, 0 < cmp x e) ∨
      (insert cmp sorted e).head? = sorted.head? ∧ ∃ x ∈ sorted, ¬ 0 < cmp x e := by
  have hnil : (sorted.rdropWhile fun x => 0 < cmp x e) = [] ↔ ∀ x ∈ sorted, 0 < cmp x e := by
    simp [List.rdropWhile_eq_nil_iff]
  unfold insert
  by_cases hall : ∀ x ∈ sorted, 0 < cmp x e
  · left
    rw [hnil.mpr hall]
    exact ⟨rfl, hall⟩
  · right
    refine ⟨?_, by simpa using hall⟩
    obtain ⟨rest, hrest⟩ := List.rdropWhile_prefix (fun x => decide (0 < cmp x e)) (l := sorted)
    cases hdrop : sorted.rdropWhile fun x => 0 < cmp x e with
    | nil => exact absurd (hnil.mp hdrop) hall
    | cons y ys =>
      rw [← hrest, hdrop]
      rfl

theorem head?_merge {xs ys : List α} {x y : α} (hx : xs.head? = some x) (hy : ys.head? = some y) :
    (merge cmp xs ys).head? = some (if 0 < cmp x y then y else x) := by
  cases xs with
  | nil => cases hx
  | cons x' xs =>
    cases ys with
    | nil => cases hy
    | cons y' ys =>
      cases hx
      cases hy
      rw [merge]
      split_ifs with h1 h2 <;> first | rfl | omega

/-! ### Winners -/

section winners

variable {B : α → Prop}

/-- The winners of a list beat all others, and none of these beats a winner. -/
def Wins (cmp : α → α → ℤ) (B : α → Prop) (l : List α) : Prop :=
  ∀ b ∈ l, ∀ x ∈ l, B b → ¬ B x → 0 < cmp x b ∧ ¬ 0 < cmp b x

theorem Wins.mono {l l' : List α} (h : Wins cmp B l) (hsub : ∀ x ∈ l', x ∈ l) : Wins cmp B l' :=
  fun b hb x hx => h b (hsub b hb) x (hsub x hx)

/-- One of the winners comes first, if there is any. -/
def Led (B : α → Prop) (l sorted : List α) : Prop :=
  (∃ b ∈ l, B b) → ∃ b, sorted.head? = some b ∧ B b

theorem led_insert {l sorted : List α} {e : α} (hwins : Wins cmp B (l ++ [e]))
    (hperm : sorted.Perm l) (h : Led B l sorted) : Led B (l ++ [e]) (insert cmp sorted e) := by
  have hmem (x : α) (hx : x ∈ l) : x ∈ l ++ [e] := List.mem_append_left _ hx
  have he : e ∈ l ++ [e] := by simp
  rintro ⟨b, hb, hB⟩
  rcases @head?_insert _ cmp sorted e with ⟨hhead, hall⟩ | ⟨hhead, x, hx, hnot⟩
  · by_cases heB : B e
    · exact ⟨e, hhead, heB⟩
    · rcases List.mem_append.mp hb with hb | hb
      · exact absurd (hall b (hperm.mem_iff.mpr hb)) (hwins b (hmem b hb) e he hB heB).2
      · obtain rfl := List.mem_singleton.mp hb
        exact absurd hB heB
  · rw [hhead]
    by_cases hl : ∃ b ∈ l, B b
    · exact h hl
    · have hx := hperm.mem_iff.mp hx
      have hxB : ¬ B x := fun hxB => hl ⟨x, hx, hxB⟩
      rcases List.mem_append.mp hb with hb | hb
      · exact absurd ⟨b, hb, hB⟩ hl
      · obtain rfl := List.mem_singleton.mp hb
        exact absurd (hwins b he x (hmem x hx) hB hxB).1 hnot

theorem led_insertionSort {l : List α} (hwins : Wins cmp B l) :
    Led B l (insertionSort cmp l) := by
  induction l using List.reverseRecOn with
  | nil => simp [Led]
  | append_singleton l e ih =>
    rw [insertionSort, List.foldl_concat]
    exact led_insert hwins (insertionSort_perm l)
      (ih (hwins.mono fun x hx => List.mem_append_left _ hx))

theorem led_stableSortBy {l : List α} (hwins : Wins cmp B l) : Led B l (stableSortBy cmp l) := by
  induction l using stableSortBy.induct with
  | case1 l h =>
    rw [stableSortBy, if_pos h]
    exact led_insertionSort hwins
  | case2 l h ih1 ih2 =>
    rintro ⟨b, hb, hbB⟩
    obtain ⟨x, hx, hheadx⟩ := @exists_head?_stableSortBy _ cmp (l.take (l.length / 2)) (by
      rw [ne_eq, ← List.length_eq_zero_iff, List.length_take]
      omega)
    obtain ⟨y, hy, hheady⟩ := @exists_head?_stableSortBy _ cmp (l.drop (l.length / 2)) (by
      rw [ne_eq, ← List.length_eq_zero_iff, List.length_drop]
      omega)
    have hx := List.mem_of_mem_take hx
    have hy := List.mem_of_mem_drop hy
    have hled1 := ih1 (hwins.mono fun z hz => List.mem_of_mem_take hz)
    have hled2 := ih2 (hwins.mono fun z hz => List.mem_of_mem_drop hz)
    rw [stableSortBy, if_neg h, head?_merge hheadx hheady]
    refine ⟨_, rfl, ?_⟩
    -- a winner is in one of the halves, and one comes first there
    by_cases hxB : B x
    · split_ifs with hless
      · by_contra hyB
        exact (hwins x hx y hy hxB hyB).2 hless
      · exact hxB
    · have hyB : B y := by
        rw [← List.take_append_drop (l.length / 2) l] at hb
        rcases List.mem_append.mp hb with hb | hb
        · obtain ⟨b', hb', hb'B⟩ := hled1 ⟨b, hb, hbB⟩
          rw [hheadx] at hb'
          cases hb'
          exact absurd hb'B hxB
        · obtain ⟨b', hb', hb'B⟩ := hled2 ⟨b, hb, hbB⟩
          rw [hheady] at hb'
          cases hb'
          exact hb'B
      rw [if_pos (hwins y hy x hx hyB hxB).1]
      exact hyB

/-! ### A first element that the winners do not beat -/

theorem head?_foldl_insert {t : α} {bs sorted : List α} (h : sorted.head? = some t)
    (hbs : ∀ b ∈ bs, ¬ 0 < cmp t b) : (bs.foldl (insert cmp) sorted).head? = some t := by
  induction bs generalizing sorted with
  | nil => exact h
  | cons b bs ih =>
    apply ih _ fun b' hb' => hbs b' (List.mem_cons_of_mem b hb')
    rcases @head?_insert _ cmp sorted b with ⟨-, hall⟩ | ⟨hhead, -⟩
    · exact absurd (hall t (List.mem_of_mem_head? h)) (hbs b List.mem_cons_self)
    · exact hhead.trans h

theorem head?_foldl_insert_rest {rest sorted : List α} (h : ∃ x, sorted.head? = some x ∧ ¬ B x)
    (hrest : ∀ r ∈ rest, ¬ B r) : ∃ x, (rest.foldl (insert cmp) sorted).head? = some x ∧ ¬ B x := by
  induction rest generalizing sorted with
  | nil => exact h
  | cons r rest ih =>
    apply ih _ fun r' hr' => hrest r' (List.mem_cons_of_mem r hr')
    rcases @head?_insert _ cmp sorted r with ⟨hhead, -⟩ | ⟨hhead, -⟩
    · exact ⟨r, hhead, hrest r List.mem_cons_self⟩
    · exact hhead ▸ h

/-- No winner comes first when they all stand behind an element that none of them beats, and
before the others. -/
theorem head?_stableSortBy_blocked {t : α} (htB : ¬ B t) : ∀ {l bs rest : List α},
    l = t :: (bs ++ rest) → (∀ b ∈ bs, B b ∧ ¬ 0 < cmp t b) → (∀ r ∈ rest, ¬ B r) →
    ∃ x, (stableSortBy cmp l).head? = some x ∧ ¬ B x ∧ (rest = [] → x = t) := by
  intro l
  induction l using stableSortBy.induct with
  | case1 l h =>
    rintro bs rest rfl hbs hrest
    rw [stableSortBy, if_pos h, insertionSort, List.foldl_cons, List.foldl_append]
    have hfirst : (bs.foldl (insert cmp) (insert cmp [] t)).head? = some t :=
      head?_foldl_insert rfl fun b hb => (hbs b hb).2
    by_cases hnil : rest = []
    · rw [hnil]
      exact ⟨t, hfirst, htB, fun _ => rfl⟩
    · obtain ⟨x, hx, hxB⟩ := head?_foldl_insert_rest ⟨t, hfirst, htB⟩ hrest
      exact ⟨x, hx, hxB, fun h => absurd h hnil⟩
  | case2 l h ih1 ih2 =>
    rintro bs rest rfl hbs hrest
    obtain ⟨k, hk⟩ : ∃ k, (t :: (bs ++ rest)).length / 2 = k + 1 :=
      ⟨(t :: (bs ++ rest)).length / 2 - 1, by omega⟩
    obtain ⟨x, hheadx, hxB, hxt⟩ := @ih1 (bs.take k) (rest.take (k - bs.length))
      (by rw [hk, List.take_succ_cons, List.take_append])
      (fun b hb => hbs b (List.mem_of_mem_take hb)) fun r hr => hrest r (List.mem_of_mem_take hr)
    obtain ⟨y, hy, hheady⟩ := @exists_head?_stableSortBy _ cmp
      ((t :: (bs ++ rest)).drop ((t :: (bs ++ rest)).length / 2)) (by
        rw [ne_eq, ← List.length_eq_zero_iff, List.length_drop]
        omega)
    rw [stableSortBy, if_neg h, head?_merge hheadx hheady]
    refine ⟨_, rfl, ?_⟩
    rw [hk, List.drop_succ_cons, List.drop_append] at hy
    -- a winner in the second half leaves no others in the first
    rcases List.mem_append.mp hy with hy | hy
    · have hyt := hbs y (List.mem_of_mem_drop hy)
      have hlt : k < bs.length := by
        have hpos := List.length_pos_of_mem hy
        rw [List.length_drop] at hpos
        omega
      obtain rfl : x = t := hxt (by rw [Nat.sub_eq_zero_of_le hlt.le, List.take_zero])
      rw [if_neg hyt.2]
      exact ⟨htB, fun _ => rfl⟩
    · have hyB := hrest y (List.mem_of_mem_drop hy)
      refine ⟨by split_ifs <;> assumption, fun hnil => ?_⟩
      rw [hnil, List.drop_nil] at hy
      cases hy

end winners

end StableSort

end NextgenDatabases.Foundations
