import Mathlib.Data.List.Basic

/-!
# Hash trees over a row of strings

The strings of a row are hashed, and each pair of neighbours is combined into a string of
the row above, until one string is left. A row of odd length repeats its last entry. The
hash and the way in which two digests are combined are parameters. A path is followed from
a string by combining its digest with a given sibling, again and again.
-/
namespace NextgenDatabases.Foundations.Merkle

variable {σ δ α β : Type*}

/-! ### Collisions -/

/-- Two different strings of the list have one digest. -/
def Collides (hash : σ → δ) (strings : List σ) : Prop :=
  ∃ x ∈ strings, ∃ y ∈ strings, x ≠ y ∧ hash x = hash y

instance [DecidableEq σ] [DecidableEq δ] (hash : σ → δ) (strings : List σ) :
    Decidable (Collides hash strings) :=
  inferInstanceAs (Decidable (∃ x ∈ strings, ∃ y ∈ strings, x ≠ y ∧ hash x = hash y))

theorem Collides.mono {hash : σ → δ} {strings strings' : List σ} (h : Collides hash strings)
    (hsub : strings ⊆ strings') : Collides hash strings' := by
  obtain ⟨x, hx, y, hy, hxy⟩ := h
  exact ⟨x, hsub hx, y, hsub hy, hxy⟩

theorem eq_of_not_collides {hash : σ → δ} {strings : List σ} (h : ¬ Collides hash strings)
    {x y : σ} (hx : x ∈ strings) (hy : y ∈ strings) (hxy : hash x = hash y) : x = y := by
  by_contra hne
  exact h ⟨x, hx, y, hy, hne, hxy⟩

/-! ### Rows -/

/-- A row of odd length repeats its last entry. -/
def pad (row : List α) : List α :=
  if row.length % 2 = 1 then row ++ row.getLast?.toList else row

theorem length_pad (row : List α) : (pad row).length = (row.length + 1) / 2 * 2 := by
  unfold pad
  split_ifs with h
  · cases hlast : row.getLast? with
    | none =>
      rw [List.getLast?_eq_none_iff.mp hlast] at h
      simp at h
    | some a =>
      simp only [Option.toList_some, List.length_append, List.length_singleton]
      omega
  · omega

theorem pad_map (f : α → β) (row : List α) : pad (row.map f) = (pad row).map f := by
  unfold pad
  rw [List.length_map]
  split_ifs with h
  · cases hlast : row.getLast? <;> simp [hlast]
  · rfl

theorem mem_of_mem_pad {row : List α} {a : α} (h : a ∈ pad row) : a ∈ row := by
  unfold pad at h
  split_ifs at h with hodd
  · rcases List.mem_append.mp h with h | h
    · exact h
    · exact List.mem_of_getLast? (Option.mem_toList.mp h)
  · exact h

theorem pad_getElem? {row : List α} {i : ℕ} (h : i < row.length) : (pad row)[i]? = row[i]? := by
  unfold pad
  split_ifs with hodd
  · exact List.getElem?_append_left h
  · rfl

/-- Neighbours are combined two by two. -/
def pairs (cat : δ → δ → σ) : List δ → List σ
  | a :: b :: rest => cat a b :: pairs cat rest
  | [_] => []
  | [] => []

theorem length_pairs (cat : δ → δ → σ) (row : List δ) :
    (pairs cat row).length = row.length / 2 := by
  induction row using pairs.induct with
  | case1 a b rest ih =>
    rw [pairs, List.length_cons, ih, List.length_cons, List.length_cons]
    omega
  | case2 a => simp [pairs]
  | case3 => simp [pairs]

theorem pairs_getElem? (cat : δ → δ → σ) (row : List δ) (i : ℕ) (s : σ) :
    (pairs cat row)[i]? = some s ↔
      ∃ a b, row[2 * i]? = some a ∧ row[2 * i + 1]? = some b ∧ s = cat a b := by
  induction row using pairs.induct generalizing i with
  | case1 a b rest ih =>
    cases i with
    | zero => simp [pairs, eq_comm]
    | succ i =>
      rw [pairs, List.getElem?_cons_succ, ih]
      rfl
  | case2 a => simp [pairs]
  | case3 => simp [pairs]

/-! ### Trees -/

section tree

variable (hash : σ → δ) (cat : δ → δ → σ)

/-- The strings of the row above. -/
def above (row : List σ) : List σ := pairs cat (pad (row.map hash))

theorem length_above (row : List σ) : (above hash cat row).length = (row.length + 1) / 2 := by
  rw [above, length_pairs, length_pad, List.length_map]
  omega

theorem length_above_lt {row : List σ} (h : 1 < row.length) :
    (above hash cat row).length < row.length := by
  rw [length_above]
  omega

theorem above_getElem? (row : List σ) (i : ℕ) (s : σ) :
    (above hash cat row)[i]? = some s ↔
      ∃ x y, (pad row)[2 * i]? = some x ∧ (pad row)[2 * i + 1]? = some y ∧
        s = cat (hash x) (hash y) := by
  rw [above, pairs_getElem?, pad_map]
  simp only [List.getElem?_map, Option.map_eq_some_iff]
  constructor
  · rintro ⟨_, _, ⟨x, hx, rfl⟩, ⟨y, hy, rfl⟩, hs⟩
    exact ⟨x, y, hx, hy, hs⟩
  · rintro ⟨x, y, hx, hy, hs⟩
    exact ⟨_, _, ⟨x, hx, rfl⟩, ⟨y, hy, rfl⟩, hs⟩

/-- The digest of the string that is left, if there is one. -/
def root (row : List σ) : Option δ :=
  if 1 < row.length then root (above hash cat row) else row.head?.map hash
termination_by row.length
decreasing_by exact length_above_lt hash cat ‹_›

/-- All strings that are hashed on the way to the root. -/
def hashed (row : List σ) : List σ :=
  if 1 < row.length then row ++ hashed (above hash cat row) else row
termination_by row.length
decreasing_by exact length_above_lt hash cat ‹_›

theorem root_of_lt {row : List σ} (h : 1 < row.length) :
    root hash cat row = root hash cat (above hash cat row) := by
  rw [root, if_pos h]

theorem hashed_of_lt {row : List σ} (h : 1 < row.length) :
    hashed hash cat row = row ++ hashed hash cat (above hash cat row) := by
  rw [hashed, if_pos h]

theorem subset_hashed (row : List σ) : row ⊆ hashed hash cat row := by
  intro s hs
  rw [hashed]
  split_ifs
  · exact List.mem_append_left _ hs
  · exact hs

theorem above_ne_nil {row : List σ} (h : 1 < row.length) : above hash cat row ≠ [] := by
  apply List.ne_nil_of_length_pos
  rw [length_above]
  omega

/-! ### Paths -/

/-- A sibling, and whether it stands on the left. -/
structure Step (δ : Type*) where
  sibling : δ
  isLeft : Bool
  deriving DecidableEq

/-- The string above a string and its sibling. -/
def join (s : σ) (e : Step δ) : σ :=
  if e.isLeft then cat e.sibling (hash s) else cat (hash s) e.sibling

/-- The string at which a path ends. -/
def arrive (s : σ) (path : List (Step δ)) : σ := path.foldl (join hash cat) s

/-- All strings on the way. -/
def trail (s : σ) : List (Step δ) → List σ
  | [] => [s]
  | e :: path => s :: trail (join hash cat s e) path

@[simp] theorem arrive_nil (s : σ) : arrive hash cat s [] = s := rfl

@[simp] theorem arrive_cons (s : σ) (e : Step δ) (path : List (Step δ)) :
    arrive hash cat s (e :: path) = arrive hash cat (join hash cat s e) path := rfl

theorem arrive_append (s : σ) (path path' : List (Step δ)) :
    arrive hash cat s (path ++ path') = arrive hash cat (arrive hash cat s path) path' :=
  List.foldl_append ..

theorem arrive_mem_trail (s : σ) (path path' : List (Step δ)) :
    arrive hash cat s path ∈ trail hash cat s (path ++ path') := by
  induction path generalizing s with
  | nil => cases path' <;> exact List.mem_cons_self
  | cons e path ih => exact List.mem_cons_of_mem _ (ih _)

/-- The position of the sibling. -/
def siblingIdx (i : ℕ) : ℕ := if i % 2 = 0 then i + 1 else i - 1

/-- The path from a position of the row to the root. -/
def siblings (row : List σ) (i : ℕ) : List (Step δ) :=
  if 1 < row.length then
    ((pad row)[siblingIdx i]?.map fun s => ⟨hash s, i % 2 ≠ 0⟩).toList ++
      siblings (above hash cat row) (i / 2)
  else []
termination_by row.length
decreasing_by exact length_above_lt hash cat ‹_›

/-- A path from a string of the row to the root, beside siblings of the tree. -/
inductive Climb : List σ → σ → List (Step δ) → Prop
  | top {row : List σ} {s : σ} (hle : ¬ 1 < row.length) (hs : s ∈ row) : Climb row s []
  | step {row : List σ} {i : ℕ} {s t : σ} {path : List (Step δ)} (hlt : 1 < row.length)
      (hs : (pad row)[i]? = some s) (ht : (pad row)[siblingIdx i]? = some t)
      (h : Climb (above hash cat row) (join hash cat s ⟨hash t, i % 2 ≠ 0⟩) path) :
      Climb row s (⟨hash t, i % 2 ≠ 0⟩ :: path)

/-- A string at some height over the row, and a path from there to the root. -/
inductive Node : List σ → ℕ → σ → List (Step δ) → Prop
  | here {row : List σ} {s : σ} {path : List (Step δ)} (h : Climb hash cat row s path) :
      Node row 0 s path
  | up {row : List σ} {height : ℕ} {s : σ} {path : List (Step δ)} (hlt : 1 < row.length)
      (h : Node (above hash cat row) height s path) : Node row (height + 1) s path

variable {hash cat}

theorem siblings_of_lt {row : List σ} {i : ℕ} {s : σ} (h : 1 < row.length)
    (hs : (pad row)[siblingIdx i]? = some s) :
    siblings hash cat row i =
      ⟨hash s, i % 2 ≠ 0⟩ :: siblings hash cat (above hash cat row) (i / 2) := by
  rw [siblings, if_pos h, hs]
  rfl

/-- Both entries of a pair, from one of them. -/
theorem exists_pair {row : List σ} {i : ℕ} {s : σ} (hs : (pad row)[i]? = some s) :
    ∃ t, (pad row)[siblingIdx i]? = some t ∧
      (above hash cat row)[i / 2]? = some (join hash cat s ⟨hash t, i % 2 ≠ 0⟩) := by
  have hlt : i < (pad row).length := (List.getElem?_eq_some_iff.mp hs).1
  rw [length_pad] at hlt
  rcases Nat.mod_two_eq_zero_or_one i with heven | hodd
  · have hnext : i + 1 < (pad row).length := by
      rw [length_pad]
      omega
    have hi : 2 * (i / 2) = i := by omega
    refine ⟨(pad row)[i + 1], ?_, ?_⟩
    · simp [siblingIdx, heven]
    · rw [above_getElem?, hi]
      exact ⟨s, _, hs, List.getElem?_eq_getElem hnext, by simp [join, heven]⟩
  · have hprev : i - 1 < (pad row).length := by
      rw [length_pad]
      omega
    have hi : 2 * (i / 2) = i - 1 := by omega
    have hi' : i - 1 + 1 = i := by omega
    refine ⟨(pad row)[i - 1], ?_, ?_⟩
    · simp [siblingIdx, hodd]
    · rw [above_getElem?, hi, hi']
      exact ⟨_, s, List.getElem?_eq_getElem hprev, hs, by simp [join, hodd]⟩

/-- A row that is left over holds one string. -/
theorem eq_singleton {row : List σ} {s : σ} (h : ¬ 1 < row.length) (hs : s ∈ row) :
    row = [s] := by
  match row, h, hs with
  | [t], _, hs => rw [List.mem_singleton.mp hs]
  | t :: u :: rest, h, _ => simp at h

theorem Climb.mem {row : List σ} {s : σ} {path : List (Step δ)}
    (h : Climb hash cat row s path) : s ∈ row := by
  cases h with
  | top hle hs => exact hs
  | step hlt hs ht h => exact mem_of_mem_pad (List.mem_of_getElem? hs)

theorem Climb.hash_arrive {row : List σ} {s : σ} {path : List (Step δ)}
    (h : Climb hash cat row s path) :
    some (hash (arrive hash cat s path)) = root hash cat row := by
  induction h with
  | top hle hs =>
    rw [eq_singleton hle hs]
    simp [root]
  | step hlt hs ht h ih =>
    rw [root_of_lt hash cat hlt, arrive_cons]
    exact ih

theorem Node.hash_arrive {row : List σ} {height : ℕ} {s : σ} {path : List (Step δ)}
    (h : Node hash cat row height s path) :
    some (hash (arrive hash cat s path)) = root hash cat row := by
  induction h with
  | here h => exact h.hash_arrive
  | up hlt h ih =>
    rw [root_of_lt hash cat hlt]
    exact ih

/-- The path of a position leads to the root. -/
theorem climb_siblings {row : List σ} {i : ℕ} {s : σ} (hs : (pad row)[i]? = some s) :
    Climb hash cat row s (siblings hash cat row i) := by
  induction row using root.induct hash cat generalizing i s with
  | case1 row hlt ih =>
    obtain ⟨t, ht, habove⟩ := exists_pair hs
    have hbound := (List.getElem?_eq_some_iff.mp habove).1
    rw [siblings_of_lt hlt ht]
    apply Climb.step hlt hs ht
    apply ih
    rw [pad_getElem? hbound]
    exact habove
  | case2 row hle =>
    rw [siblings, if_neg hle]
    exact .top hle (mem_of_mem_pad (List.mem_of_getElem? hs))

/-- A step to a string above the row starts from a string of the row. -/
theorem Climb.extend (hcat : ∀ {a b c d : δ}, cat a b = cat c d → a = c ∧ b = d)
    {row strings : List σ} {s : σ} {e : Step δ} {path : List (Step δ)} (hlt : 1 < row.length)
    (h : Climb hash cat (above hash cat row) (join hash cat s e) path)
    (hinj : ¬ Collides hash strings) (hrow : row ⊆ strings) (hs : s ∈ strings) :
    Climb hash cat row s (e :: path) := by
  obtain ⟨i, hi⟩ := List.mem_iff_getElem?.mp h.mem
  obtain ⟨x, y, hx, hy, hjoin⟩ := (above_getElem? hash cat row i _).mp hi
  have hmem {z : σ} {j : ℕ} (hz : (pad row)[j]? = some z) (heq : hash s = hash z) : s = z :=
    eq_of_not_collides hinj hs (hrow (mem_of_mem_pad (List.mem_of_getElem? hz))) heq
  obtain ⟨sibling, isLeft⟩ := e
  cases isLeft with
  | true =>
    have hodd : (2 * i + 1) % 2 ≠ 0 := by omega
    obtain ⟨rfl, hdigest⟩ := hcat (show cat sibling (hash s) = cat (hash x) (hash y) from hjoin)
    obtain rfl := hmem hy hdigest
    have hstep := @Climb.step σ δ hash cat row (2 * i + 1) s x path hlt hy
    simp only [siblingIdx, hodd, if_false, ne_eq, not_false_eq_true, decide_true] at hstep
    exact hstep hx h
  | false =>
    have heven : (2 * i) % 2 = 0 := by omega
    obtain ⟨hdigest, rfl⟩ := hcat (show cat (hash s) sibling = cat (hash x) (hash y) from hjoin)
    obtain rfl := hmem hx hdigest
    have hstep := @Climb.step σ δ hash cat row (2 * i) s y path hlt hx
    simp only [siblingIdx, heven, if_true, ne_eq, not_true_eq_false, decide_false] at hstep
    exact hstep hy h

/-- A path that leads to the root joins the tree, unless two strings collide: at a string of
the row after some steps, or where it starts, at a string above the row. -/
theorem joins_of_root (hcat : ∀ {a b c d : δ}, cat a b = cat c d → a = c ∧ b = d)
    {row : List σ} {s : σ} {path : List (Step δ)}
    (hroot : some (hash (arrive hash cat s path)) = root hash cat row)
    (hinj : ¬ Collides hash (hashed hash cat row ++ trail hash cat s path)) :
    ∃ height first rest, path = first ++ rest ∧ (height = 0 ∨ first = []) ∧
      Node hash cat row height (arrive hash cat s first) rest := by
  induction row using root.induct hash cat with
  | case1 row hlt ih =>
    rw [root_of_lt hash cat hlt] at hroot
    have habove : hashed hash cat (above hash cat row) ⊆ hashed hash cat row := by
      rw [hashed_of_lt hash cat hlt]
      exact List.subset_append_right _ _
    obtain ⟨height, first, rest, rfl, hjoin, hnode⟩ := ih hroot fun hcollides =>
      hinj (hcollides.mono (List.append_subset.mpr
        ⟨List.subset_append_of_subset_left _ habove, List.subset_append_right _ _⟩))
    rcases List.eq_nil_or_concat first with rfl | ⟨init, e, rfl⟩
    · exact ⟨height + 1, [], rest, rfl, .inr rfl, .up hlt hnode⟩
    · -- the last step before the row above starts from a string of the row
      obtain rfl := hjoin.resolve_right (by simp)
      rw [List.concat_eq_append, arrive_append] at hnode
      rw [List.concat_eq_append, List.append_assoc] at hinj ⊢
      cases hnode with
      | here hclimb =>
        refine ⟨0, init, e :: rest, rfl, .inl rfl, .here (Climb.extend hcat hlt hclimb hinj ?_ ?_)⟩
        · exact List.subset_append_of_subset_left _ (subset_hashed hash cat row)
        · exact List.mem_append_right _ (arrive_mem_trail hash cat s init _)
  | case2 row hle =>
    rw [root, if_neg hle] at hroot
    obtain ⟨t, ht, hdigest⟩ := Option.map_eq_some_iff.mp hroot.symm
    have hmem : t ∈ row := List.mem_of_mem_head? ht
    have harrive : arrive hash cat s path ∈ trail hash cat s path := by
      simpa using arrive_mem_trail hash cat s path []
    have heq : arrive hash cat s path = t :=
      eq_of_not_collides hinj (List.mem_append_right _ harrive)
        (List.mem_append_left _ (subset_hashed hash cat row hmem)) hdigest.symm
    exact ⟨0, path, [], by simp, .inl rfl, .here (.top hle (heq ▸ hmem))⟩

end tree

end NextgenDatabases.Foundations.Merkle
