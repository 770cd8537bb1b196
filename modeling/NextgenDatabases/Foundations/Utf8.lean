import Mathlib

/-!
# Texts as UTF-8

Texts are lists of characters, and positions in them are counted in bytes. A slice exists when its
ends are boundaries of characters.
-/
namespace NextgenDatabases.Foundations.Utf8

def size (s : List Char) : ℕ := (s.map Char.utf8Size).sum

/-- `&s[n..]` -/
def dropBytes : List Char → ℕ → Option (List Char)
  | [], n => if n = 0 then some [] else none
  | c :: s, n =>
    if n = 0 then some (c :: s)
    else if c.utf8Size ≤ n then dropBytes s (n - c.utf8Size)
    else none

/-- `&s[..n]` -/
def takeBytes : List Char → ℕ → Option (List Char)
  | [], n => if n = 0 then some [] else none
  | c :: s, n =>
    if n = 0 then some []
    else if c.utf8Size ≤ n then (takeBytes s (n - c.utf8Size)).map (c :: ·)
    else none

/-- `&s[a..b]` -/
def slice (s : List Char) (a b : ℕ) : Option (List Char) :=
  if a ≤ b then (takeBytes s b).bind fun t => dropBytes t a else none

/-- The position of the first occurrence of a pattern. -/
def find (pattern : List Char) : List Char → Option ℕ
  | [] => if pattern.isPrefixOf [] then some 0 else none
  | c :: s =>
    if pattern.isPrefixOf (c :: s) then some 0 else (find pattern s).map (· + c.utf8Size)

def trim (p : Char → Bool) (s : List Char) : List Char := (s.dropWhile p).rdropWhile p

def replace (c d : Char) (s : List Char) : List Char := s.map fun e => if e = c then d else e

/-! ### Slices -/

@[simp] theorem size_nil : size [] = 0 := rfl

@[simp] theorem size_cons (c : Char) (s : List Char) : size (c :: s) = c.utf8Size + size s := by
  rw [size, List.map_cons, List.sum_cons, size]

@[simp] theorem size_append (s t : List Char) : size (s ++ t) = size s + size t := by
  rw [size, List.map_append, List.sum_append, size, size]

@[simp] theorem dropBytes_zero (s : List Char) : dropBytes s 0 = some s := by
  cases s <;> rfl

@[simp] theorem takeBytes_zero (s : List Char) : takeBytes s 0 = some [] := by
  cases s <;> rfl

theorem dropBytes_append (s t : List Char) : dropBytes (s ++ t) (size s) = some t := by
  induction s with
  | nil => exact dropBytes_zero t
  | cons c s ih =>
    have hpos := c.utf8Size_pos
    rw [List.cons_append, dropBytes, size_cons, if_neg (by omega), if_pos (by omega),
      Nat.add_sub_cancel_left, ih]

theorem takeBytes_append (s t : List Char) : takeBytes (s ++ t) (size s) = some s := by
  induction s with
  | nil => exact takeBytes_zero t
  | cons c s ih =>
    have hpos := c.utf8Size_pos
    rw [List.cons_append, takeBytes, size_cons, if_neg (by omega), if_pos (by omega),
      Nat.add_sub_cancel_left, ih, Option.map_some]

/-- A rest exists from each boundary of characters on, and from there only. -/
theorem dropBytes_eq_some_iff {s t : List Char} {n : ℕ} :
    dropBytes s n = some t ↔ ∃ p, s = p ++ t ∧ size p = n := by
  constructor
  · intro h
    induction s generalizing n with
    | nil =>
      rw [dropBytes] at h
      split_ifs at h with hn
      cases h
      exact ⟨[], rfl, hn.symm⟩
    | cons c s ih =>
      rw [dropBytes] at h
      split_ifs at h with hn hle
      · cases h
        exact ⟨[], rfl, hn.symm⟩
      · obtain ⟨p, hp, hsize⟩ := ih h
        refine ⟨c :: p, by rw [hp, List.cons_append], ?_⟩
        rw [size_cons]
        omega
  · intro h
    obtain ⟨p, hs, hsize⟩ := h
    rw [hs, ← hsize]
    exact dropBytes_append p t

/-- The middle of a text. -/
theorem slice_append (a b c : List Char) :
    slice (a ++ b ++ c) (size a) (size (a ++ b)) = some b := by
  rw [slice, if_pos (by rw [size_append]; omega), takeBytes_append, Option.bind_some,
    dropBytes_append]

/-! ### Searches and trims -/

theorem forall_of_all {P : Char → Prop} [DecidablePred P] {s : List Char}
    (h : (s.all fun c => decide (P c)) = true) : ∀ c ∈ s, P c := by
  intro c hc
  exact of_decide_eq_true (List.all_eq_true.mp h c hc)

theorem replace_eq_self_iff {c d : Char} (h : d ≠ c) (s : List Char) :
    replace c d s = s ↔ c ∉ s := by
  induction s with
  | nil => simp [replace]
  | cons e s ih =>
    rw [replace, List.map_cons, List.cons.injEq, List.mem_cons, not_or, ← replace, ih]
    apply and_congr_left
    intro _
    by_cases he : e = c
    · simp [he, h]
    · simp [he, Ne.symm he]

theorem find_of_prefix {pattern s : List Char} (h : pattern <+: s) : find pattern s = some 0 := by
  have hprefix := List.isPrefixOf_iff_prefix.mpr h
  cases s with
  | nil => rw [find, if_pos hprefix]
  | cons c s => rw [find, if_pos hprefix]

theorem length_le_of_find {pattern s : List Char} {i : ℕ} (h : find pattern s = some i) :
    pattern.length ≤ s.length := by
  induction s generalizing i with
  | nil =>
    rw [find] at h
    split_ifs at h with hprefix
    exact (List.isPrefixOf_iff_prefix.mp hprefix).length_le
  | cons c s ih =>
    rw [find] at h
    split_ifs at h with hprefix
    · exact (List.isPrefixOf_iff_prefix.mp hprefix).length_le
    · obtain ⟨j, hj, -⟩ := Option.map_eq_some_iff.mp h
      exact (ih hj).trans (Nat.le_succ _)

/-- The first occurrence stays when a text grows. -/
theorem find_append {pattern s : List Char} {i : ℕ} (t : List Char)
    (h : find pattern s = some i) : find pattern (s ++ t) = some i := by
  induction s generalizing i with
  | nil =>
    rw [find] at h
    split_ifs at h with hprefix
    cases h
    exact find_of_prefix ((List.isPrefixOf_iff_prefix.mp hprefix).trans (List.nil_prefix))
  | cons c s ih =>
    rw [find] at h
    split_ifs at h with hprefix
    · cases h
      exact find_of_prefix ((List.isPrefixOf_iff_prefix.mp hprefix).trans (List.prefix_append _ t))
    · obtain ⟨j, hj, rfl⟩ := Option.map_eq_some_iff.mp h
      have hlen := length_le_of_find hj
      have hnot : ¬ pattern.isPrefixOf (c :: (s ++ t)) = true := by
        intro hp
        have hp' := List.isPrefixOf_iff_prefix.mp hp
        apply hprefix
        rw [List.isPrefixOf_iff_prefix]
        refine List.prefix_of_prefix_length_le hp' (List.prefix_append (c :: s) t) ?_
        rw [List.length_cons]
        omega
      rw [List.cons_append, find, if_neg hnot, ih hj, Option.map_some]

/-- What is trimmed does not begin with a character that is trimmed away. -/
theorem head_trim {p : Char → Bool} {s t : List Char} {c : Char} (h : trim p s = c :: t) :
    p c = false := by
  have hprefix := List.rdropWhile_prefix p (s.dropWhile p)
  rw [← trim, h] at hprefix
  obtain ⟨r, hr⟩ := hprefix
  have hhead := List.head?_dropWhile_not p s
  rw [← hr, List.cons_append, List.head?_cons] at hhead
  exact hhead

theorem trim_cons {p : Char → Bool} {c : Char} (s : List Char) (h : p c = true) :
    trim p (c :: s) = trim p s := by
  rw [trim, List.dropWhile_cons_of_pos h, trim]

/-- Nothing is trimmed between two characters that stay. -/
theorem trim_between {p : Char → Bool} {c d : Char} (s : List Char) (hc : ¬ p c = true)
    (hd : ¬ p d = true) : trim p (c :: s ++ [d]) = c :: s ++ [d] := by
  rw [trim, List.cons_append, List.dropWhile_cons_of_neg hc, ← List.cons_append,
    List.rdropWhile_concat_neg _ _ _ hd]

end NextgenDatabases.Foundations.Utf8
