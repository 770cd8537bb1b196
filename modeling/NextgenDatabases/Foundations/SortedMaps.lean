import Mathlib.Data.List.Lex
import Mathlib.Data.List.Sort

/-!
# Sorted maps

Maps from a linear order as lists of entries in the order of their keys, and the scan of the keys
that start with a prefix, where keys are strings in lexicographic order.
-/
namespace NextgenDatabases.Foundations

/-- Entries with increasing keys. -/
structure SortedMap (K V : Type*) [LinearOrder K] where
  entries : List (K × V)
  sorted : entries.Pairwise fun a b => a.1 < b.1

namespace SortedMap

section Maps

variable {K V : Type*} [LinearOrder K]

def empty : SortedMap K V := ⟨[], .nil⟩

def get (m : SortedMap K V) (k : K) : Option V := (m.entries.find? (·.1 = k)).map (·.2)

theorem sorted_insert (m : SortedMap K V) (k : K) (v : V) :
    (m.entries.filter (·.1 < k) ++ (k, v) :: m.entries.filter (k < ·.1)).Pairwise
      fun a b => a.1 < b.1 := by
  have hlow : ∀ a ∈ m.entries.filter (·.1 < k), a.1 < k := by simp
  have hhigh : ∀ b ∈ m.entries.filter (k < ·.1), k < b.1 := by simp
  refine List.pairwise_append.mpr ⟨m.sorted.filter _, List.pairwise_cons.mpr
    ⟨hhigh, m.sorted.filter _⟩, fun a ha b hb => ?_⟩
  rcases List.mem_cons.mp hb with rfl | hb
  · exact hlow a ha
  · exact (hlow a ha).trans (hhigh b hb)

def insert (m : SortedMap K V) (k : K) (v : V) : SortedMap K V where
  entries := m.entries.filter (·.1 < k) ++ (k, v) :: m.entries.filter (k < ·.1)
  sorted := m.sorted_insert k v

def remove (m : SortedMap K V) (k : K) : SortedMap K V where
  entries := m.entries.filter (·.1 ≠ k)
  sorted := m.sorted.filter _

/-- The entries from a key on. -/
def range (m : SortedMap K V) (k : K) : List (K × V) := m.entries.filter (k ≤ ·.1)

variable {m : SortedMap K V} {k : K} {v : V}

theorem eq_of_key_eq {a b : K × V} (ha : a ∈ m.entries) (hb : b ∈ m.entries) (h : a.1 = b.1) :
    a = b := by
  have hne : m.entries.Pairwise fun a b => a.1 ≠ b.1 := m.sorted.imp ne_of_lt
  exact List.inj_on_of_nodup_map (List.pairwise_map.mpr hne) ha hb h

theorem get_eq_some : m.get k = some v ↔ (k, v) ∈ m.entries := by
  rw [get, Option.map_eq_some_iff]
  constructor
  · rintro ⟨⟨k', w⟩, hfind, rfl⟩
    have hkey := List.find?_some hfind
    rw [decide_eq_true_eq] at hkey
    exact hkey ▸ List.mem_of_find?_eq_some hfind
  · intro hmem
    cases hfind : m.entries.find? (·.1 = k) with
    | none =>
      have hkey := List.find?_eq_none.mp hfind _ hmem
      rw [decide_eq_true_eq] at hkey
      exact absurd rfl hkey
    | some a =>
      have hkey := List.find?_some hfind
      rw [decide_eq_true_eq] at hkey
      exact ⟨a, rfl, by rw [eq_of_key_eq (List.mem_of_find?_eq_some hfind) hmem hkey]⟩

theorem mem_insert {a : K × V} :
    a ∈ (m.insert k v).entries ↔ a = (k, v) ∨ a ∈ m.entries ∧ a.1 ≠ k := by
  simp only [insert, List.mem_append, List.mem_cons, List.mem_filter, decide_eq_true_eq]
  constructor
  · rintro (⟨hmem, hlt⟩ | rfl | ⟨hmem, hlt⟩)
    · exact .inr ⟨hmem, hlt.ne⟩
    · exact .inl rfl
    · exact .inr ⟨hmem, hlt.ne'⟩
  · rintro (rfl | ⟨hmem, hne⟩)
    · exact .inr (.inl rfl)
    · rcases lt_or_gt_of_ne hne with hlt | hlt
      · exact .inl ⟨hmem, hlt⟩
      · exact .inr (.inr ⟨hmem, hlt⟩)

theorem mem_remove {a : K × V} : a ∈ (m.remove k).entries ↔ a ∈ m.entries ∧ a.1 ≠ k := by
  simp [remove]

theorem get_empty : (empty : SortedMap K V).get k = none := rfl

theorem get_insert {k' : K} : (m.insert k v).get k' = if k' = k then some v else m.get k' := by
  ext w
  rw [get_eq_some, mem_insert]
  split_ifs with h
  · simp [h, eq_comm]
  · simp [h, get_eq_some]

theorem get_remove {k' : K} : (m.remove k).get k' = if k' = k then none else m.get k' := by
  ext w
  rw [get_eq_some, mem_remove]
  split_ifs with h
  · simp [h]
  · simp [h, get_eq_some]

/-- Increasing lists of entries with the same entries are the same. -/
theorem eq_of_mem_iff {l l' : List (K × V)} (h : l.Pairwise fun a b => a.1 < b.1)
    (h' : l'.Pairwise fun a b => a.1 < b.1) (hmem : ∀ a, a ∈ l ↔ a ∈ l') : l = l' := by
  have : Std.Antisymm fun a b : K × V => a.1 < b.1 := ⟨fun _ _ hab hba => absurd hba hab.asymm⟩
  have : Std.Irrefl fun a b : K × V => a.1 < b.1 := ⟨fun _ => lt_irrefl _⟩
  exact h.eq_of_mem_iff h' hmem

theorem insert_eq_self (h : m.get k = some v) : (m.insert k v).entries = m.entries := by
  refine eq_of_mem_iff (m.insert k v).sorted m.sorted fun a => ?_
  rw [mem_insert]
  constructor
  · rintro (rfl | ⟨hmem, -⟩)
    · exact get_eq_some.mp h
    · exact hmem
  · intro hmem
    by_cases hkey : a.1 = k
    · exact .inl (eq_of_key_eq hmem (get_eq_some.mp h) hkey)
    · exact .inr ⟨hmem, hkey⟩

theorem length_insert : (m.insert k v).entries.length = (m.remove k).entries.length + 1 := by
  have hsplit : m.entries.countP (·.1 < k) + m.entries.countP (k < ·.1) = m.entries.countP (·.1 ≠ k) := by
    induction m.entries with
    | nil => rfl
    | cons a l ih =>
      simp only [List.countP_cons, ne_eq] at ih ⊢
      rcases lt_trichotomy a.1 k with hlt | heq | hlt
      · simp [hlt, hlt.ne, hlt.asymm] at ih ⊢
        omega
      · simp [heq] at ih ⊢
        omega
      · simp [hlt, hlt.ne', hlt.asymm] at ih ⊢
        omega
  simp only [insert, remove, List.length_append, List.length_cons, ← List.countP_eq_length_filter]
  omega

theorem length_remove (h : (m.get k).isSome) :
    (m.remove k).entries.length + 1 = m.entries.length := by
  obtain ⟨v, hv⟩ := Option.isSome_iff_exists.mp h
  rw [← length_insert (v := v), insert_eq_self hv]

theorem length_insert_of_mem (h : (m.get k).isSome) :
    (m.insert k v).entries.length = m.entries.length := by
  rw [length_insert, length_remove h]

theorem length_remove_le : (m.remove k).entries.length ≤ m.entries.length := List.length_filter_le ..

/-- The first entries are those with a property exactly when each entry without it comes after as
many entries with it. -/
theorem take_eq_take_filter_iff {α : Type*} {r : α → α → Prop} [DecidableRel r] [Std.Asymm r]
    {l : List α} (h : l.Pairwise r) (p : α → Bool) (n : ℕ) :
    l.take n = (l.filter p).take n ↔
      ∀ a ∈ l, p a = false → n ≤ (l.filter p).countP (r · a) := by
  induction l generalizing n with
  | nil => simp
  | cons x l ih =>
    rw [List.pairwise_cons] at h
    cases n with
    | zero => simp
    | succ n =>
      cases hx : p x with
      | true =>
        rw [List.filter_cons_of_pos hx, List.take_succ_cons, List.take_succ_cons, List.cons.injEq,
          ih h.2, List.forall_mem_cons]
        have hcount : ∀ a ∈ l, (x :: l.filter p).countP (r · a) = (l.filter p).countP (r · a) + 1 :=
          fun a ha => List.countP_cons_of_pos (by simpa using h.1 a ha)
        constructor
        · rintro ⟨-, hle⟩
          refine ⟨fun hfalse => absurd (hx.symm.trans hfalse) (by simp), fun a ha hpa => ?_⟩
          have hn := hle a ha hpa
          rw [hcount a ha]
          omega
        · rintro ⟨-, hle⟩
          refine ⟨rfl, fun a ha hpa => ?_⟩
          have hn := hle a ha hpa
          rw [hcount a ha] at hn
          omega
      | false =>
        rw [List.filter_cons_of_neg (by simp [hx])]
        constructor
        · intro htake
          have hmem : x ∈ (l.filter p).take (n + 1) := by
            rw [← htake, List.take_succ_cons]
            exact List.mem_cons_self
          have htrue := (List.mem_filter.mp (List.mem_of_mem_take hmem)).2
          exact absurd (htrue.symm.trans hx) (by simp)
        · intro hle
          have hzero : (l.filter p).countP (r · x) = 0 := by
            rw [List.countP_eq_zero]
            intro a ha
            have hxa := h.1 a (List.mem_of_mem_filter ha)
            simpa using Std.Asymm.asymm _ _ hxa
          have hn := hle x List.mem_cons_self hx
          omega

end Maps

/-! ### Prefixes -/

section Prefixes

variable {α V : Type*} [LinearOrder α]

theorem nil_le (k : List α) : [] ≤ k := by
  cases k with
  | nil => exact le_rfl
  | cons a k => exact le_of_lt (List.nil_lt_cons a k)

theorem le_of_prefix {p k : List α} (h : p <+: k) : p ≤ k := by
  obtain ⟨t, rfl⟩ := h
  induction p with
  | nil => exact nil_le _
  | cons a p ih => exact List.cons_le_cons a ih

/-- Between a prefix and a string that starts with it there are only strings that start with it. -/
theorem prefix_of_le_of_lt {p k k' : List α} (hle : p ≤ k) (hlt : k < k') (h : p <+: k') :
    p <+: k := by
  induction p generalizing k k' with
  | nil => exact List.nil_prefix
  | cons a p ih =>
    obtain ⟨t, rfl⟩ := h
    cases k with
    | nil => exact absurd (List.nil_lt_cons a p) (not_lt.mpr hle)
    | cons b k =>
      have hle' : ¬ (b < a ∨ b = a ∧ k < p) := fun hlt' =>
        not_lt.mpr hle (List.cons_lt_cons_iff.mpr hlt')
      rw [List.cons_append, List.cons_lt_cons_iff] at hlt
      rcases hlt with hba | ⟨rfl, hlt⟩
      · exact absurd (.inl hba) hle'
      · have hpk : p ≤ k := not_lt.mp fun hlt' => hle' (.inr ⟨rfl, hlt'⟩)
        exact List.cons_prefix_cons.mpr ⟨rfl, ih hpk hlt (List.prefix_append _ _)⟩

/-- The entries from a prefix on, while they start with it. -/
def scanPrefix (m : SortedMap (List α) V) (p : List α) : List (List α × V) :=
  (m.range p).takeWhile fun a => p.isPrefixOf a.1

theorem takeWhile_filter_le {p : List α} {l : List (List α × V)}
    (h : l.Pairwise fun a b => a.1 < b.1) :
    ((l.filter (p ≤ ·.1)).takeWhile fun a => p.isPrefixOf a.1) =
      l.filter fun a => p.isPrefixOf a.1 := by
  induction l with
  | nil => rfl
  | cons a l ih =>
    rw [List.pairwise_cons] at h
    by_cases hp : p <+: a.1
    · rw [List.filter_cons_of_pos (by simpa using le_of_prefix hp),
        List.takeWhile_cons_of_pos (by simpa using hp), ih h.2,
        List.filter_cons_of_pos (by simpa using hp)]
    · rw [List.filter_cons_of_neg (p := fun a : List α × V => p.isPrefixOf a.1) (by simpa using hp)]
      by_cases hle : p ≤ a.1
      · rw [List.filter_cons_of_pos (by simpa using hle),
          List.takeWhile_cons_of_neg (by simpa using hp), eq_comm, List.filter_eq_nil_iff]
        intro b hb hpb
        exact hp (prefix_of_le_of_lt hle (h.1 b hb) (by simpa using hpb))
      · rw [List.filter_cons_of_neg (by simpa using hle), ih h.2]

/-- A scan finds all the keys that start with the prefix. -/
theorem scanPrefix_eq (m : SortedMap (List α) V) (p : List α) :
    m.scanPrefix p = m.entries.filter fun a => p.isPrefixOf a.1 :=
  takeWhile_filter_le m.sorted

end Prefixes

end SortedMap

/-! ### Serialised values -/

/-- A serialisation that loses nothing. -/
structure Codec (α W : Type*) where
  serialise : α → W
  deserialise : W → Option α
  deserialise_serialise : ∀ a, deserialise (serialise a) = some a

namespace Codec

variable {α W : Type*} (codec : Codec α W)

theorem mapM_deserialise (as : List α) :
    (as.map codec.serialise).mapM codec.deserialise = some as := by
  induction as with
  | nil => rfl
  | cons a as ih => simp [codec.deserialise_serialise, ih]

theorem serialise_inj {a b : α} : codec.serialise a = codec.serialise b ↔ a = b := by
  constructor
  · intro h
    have hsome := congrArg codec.deserialise h
    rw [codec.deserialise_serialise, codec.deserialise_serialise] at hsome
    exact Option.some.inj hsome
  · rintro rfl
    rfl

/-- Values serialised as themselves. -/
def verbatim (α : Type*) : Codec α α := ⟨id, some, fun _ => rfl⟩

end Codec

end NextgenDatabases.Foundations
