import Mathlib
import NextgenDatabases.Foundations.Rounding
import NextgenDatabases.Normalizer.Discovery

/-!
# Confidence of functional dependencies

The rows that contradict a dependency, counted group by group, and exactly for which tables
the count does not depend on the order of the rows.
-/
namespace NextgenDatabases.Normalizer

open Rounding

variable {V F : Type*} [DecidableEq V] {X : List String} {A : String}

/-! ### One group -/

/-- The contradictions in a group whose slot of the table holds the given value. -/
def misses : Option V → List (Option V) → ℕ
  | _, [] => 0
  | none, v :: group => misses v group
  | some e, v :: group => (if v = some e then 0 else 1) + misses (some e) group

theorem misses_some (e : V) (group : List (Option V)) :
    misses (some e) group + group.count (some e) = group.length := by
  induction group with
  | nil => rfl
  | cons v group ih =>
    by_cases h : v = some e
    · subst v
      rw [misses, if_pos rfl, List.count_cons_self, List.length_cons]
      omega
    · rw [misses, if_neg h, List.count_cons_of_ne h, List.length_cons]
      omega

theorem misses_absent {group : List (Option V)} (h : ∀ v ∈ group, v = none) :
    misses none group = 0 := by
  induction group with
  | nil => rfl
  | cons v group ih =>
    obtain ⟨rfl, hrest⟩ := List.forall_mem_cons.mp h
    rw [misses]
    exact ih hrest

theorem misses_present {group : List (Option V)} (h : none ∉ group) (hne : group ≠ []) :
    ∃ e, some e ∈ group ∧ misses none group + group.count (some e) = group.length := by
  cases group with
  | nil => exact absurd rfl hne
  | cons v group =>
    cases v with
    | none => exact absurd List.mem_cons_self h
    | some e =>
      refine ⟨e, List.mem_cons_self, ?_⟩
      have hrest := misses_some e group
      rw [misses, List.count_cons_self, List.length_cons]
      omega

/-- The values of a group occur equally often, and absent ones only alone. -/
structure Evenly (group : List (Option V)) : Prop where
  alone : none ∈ group → ∀ v ∈ group, v = none
  equal : ∀ u v, some u ∈ group → some v ∈ group → group.count (some u) = group.count (some v)

theorem Evenly.misses_perm {group group' : List (Option V)} (h : Evenly group)
    (hperm : group'.Perm group) : misses none group' = misses none group := by
  by_cases habsent : none ∈ group
  · have hall := h.alone habsent
    rw [misses_absent hall, misses_absent fun v hv => hall v (hperm.subset hv)]
  · rcases eq_or_ne group [] with rfl | hne
    · rw [hperm.eq_nil]
    · have habsent' : none ∉ group' := fun hmem => habsent (hperm.subset hmem)
      have hne' : group' ≠ [] := fun hnil => hne (hnil ▸ hperm).symm.eq_nil
      obtain ⟨e, he, hcount⟩ := misses_present habsent hne
      obtain ⟨e', he', hcount'⟩ := misses_present habsent' hne'
      have hequal := h.equal e' e (hperm.subset he') he
      rw [hperm.count_eq, hperm.length_eq] at hcount'
      omega

/-- A group without contradictions has one value. -/
theorem Evenly.misses_eq_zero {group : List (Option V)} (h : Evenly group) :
    misses none group = 0 ↔ ∀ u ∈ group, ∀ v ∈ group, u = v := by
  by_cases habsent : none ∈ group
  · have hall := h.alone habsent
    refine iff_of_true (misses_absent hall) fun u hu v hv => ?_
    rw [hall u hu, hall v hv]
  · rcases eq_or_ne group [] with rfl | hne
    · simp [misses]
    · obtain ⟨e, he, hcount⟩ := misses_present habsent hne
      have hzero : misses none group = 0 ↔ group.count (some e) = group.length := by omega
      rw [hzero, List.count_eq_length]
      constructor
      · intro hsame u hu v hv
        rw [← hsame u hu, ← hsame v hv]
      · intro hsame v hv
        exact hsame _ he _ hv

/-! ### All groups -/

/-- The values of the right side in the rows with the given left side. -/
def groupOf (X : List String) (A : String) (data : List (Row V)) (key : List (Option V)) :
    List (Option V) :=
  (data.filter fun row => X.map row.at = key).map fun row => row.at A

/-- The slot of the table for a left side. -/
def Scan.slot (s : Scan V) (key : List (Option V)) : Option V := (s.lhsToRhs.lookup key).join

theorem scanRow_vacant {s : Scan V} {row : Row V} (h : s.slot (X.map row.at) = none) :
    scanRow X A s row = { s with lhsToRhs := (X.map row.at, row.at A) :: s.lhsToRhs } := by
  unfold Scan.slot at h
  simp only [scanRow, h]

theorem scanRow_taken {s : Scan V} {row : Row V} {e : V}
    (h : s.slot (X.map row.at) = some e) :
    scanRow X A s row =
      { s with violations := s.violations + if row.at A = some e then 0 else 1 } := by
  unfold Scan.slot at h
  simp only [scanRow, h, beq_iff_eq, eq_comm (a := some e)]
  split_ifs <;> rfl

/-- One row adds to its own group only. -/
theorem scanRow_spec (s : Scan V) (row : Row V) (group : List (Option V)) :
    (scanRow X A s row).violations + misses ((scanRow X A s row).slot (X.map row.at)) group =
      s.violations + misses (s.slot (X.map row.at)) (row.at A :: group) ∧
    ∀ key ≠ X.map row.at, (scanRow X A s row).slot key = s.slot key := by
  cases hslot : s.slot (X.map row.at) with
  | none =>
    rw [scanRow_vacant hslot]
    refine ⟨?_, fun key hkey => ?_⟩
    · simp [Scan.slot, misses]
    · have hbeq : (key == X.map row.at) = false := by simpa using hkey
      simp [Scan.slot, List.lookup_cons, hbeq]
  | some e =>
    rw [scanRow_taken hslot]
    refine ⟨?_, fun _ _ => rfl⟩
    change _ + misses (s.slot (X.map row.at)) group = _
    rw [hslot, misses, add_assoc]

theorem groupOf_cons_self (row : Row V) (data : List (Row V)) :
    groupOf X A (row :: data) (X.map row.at) = row.at A :: groupOf X A data (X.map row.at) := by
  simp [groupOf]

theorem groupOf_cons_of_ne {row : Row V} {data : List (Row V)} {key : List (Option V)}
    (h : key ≠ X.map row.at) : groupOf X A (row :: data) key = groupOf X A data key := by
  simp [groupOf, h.symm]

/-- The contradictions of a run are those of its groups. -/
theorem violations_foldl {data : List (Row V)} {keys : Finset (List (Option V))}
    (hkeys : ∀ row ∈ data, X.map row.at ∈ keys) (s : Scan V) :
    (data.foldl (scanRow X A) s).violations =
      s.violations + ∑ key ∈ keys, misses (s.slot key) (groupOf X A data key) := by
  induction data generalizing s with
  | nil => simp [groupOf, misses]
  | cons row data ih =>
    obtain ⟨hkey, hrest⟩ := List.forall_mem_cons.mp hkeys
    obtain ⟨hself, hother⟩ := scanRow_spec (X := X) (A := A) s row
      (groupOf X A data (X.map row.at))
    have hsame : ∑ key ∈ keys.erase (X.map row.at),
          misses ((scanRow X A s row).slot key) (groupOf X A data key) =
        ∑ key ∈ keys.erase (X.map row.at), misses (s.slot key) (groupOf X A (row :: data) key) := by
      refine Finset.sum_congr rfl fun key hmem => ?_
      have hne := Finset.ne_of_mem_erase hmem
      rw [hother key hne, groupOf_cons_of_ne hne]
    rw [List.foldl_cons, ih hrest, ← Finset.add_sum_erase _ _ hkey, ← Finset.add_sum_erase _ _ hkey,
      hsame, groupOf_cons_self, ← add_assoc, ← add_assoc, hself]

/-- The rows of a table that contradict the dependency. -/
def contradictions (X : List String) (A : String) (data : List (Row V)) : ℕ :=
  (data.foldl (scanRow X A) ⟨[], 0⟩).violations

theorem contradictions_eq {data : List (Row V)} {keys : Finset (List (Option V))}
    (hkeys : ∀ row ∈ data, X.map row.at ∈ keys) :
    contradictions X A data = ∑ key ∈ keys, misses none (groupOf X A data key) := by
  have h := violations_foldl (A := A) hkeys ⟨[], 0⟩
  rw [zero_add] at h
  exact h

/-- The left sides of a table. -/
def keysOf (X : List String) (data : List (Row V)) : Finset (List (Option V)) :=
  (data.map fun row => X.map row.at).toFinset

theorem mem_keysOf {data : List (Row V)} {row : Row V} (h : row ∈ data) :
    X.map row.at ∈ keysOf X data := by
  rw [keysOf, List.mem_toFinset]
  exact List.mem_map_of_mem h

theorem contradictions_le (data : List (Row V)) : contradictions X A data ≤ data.length := by
  suffices h : ∀ s : Scan V,
      (data.foldl (scanRow X A) s).violations ≤ s.violations + data.length by
    have hstart := h ⟨[], 0⟩
    rwa [zero_add] at hstart
  intro s
  induction data generalizing s with
  | nil => exact le_rfl
  | cons row data ih =>
    have hrow : (scanRow X A s row).violations ≤ s.violations + 1 := by
      cases hslot : s.slot (X.map row.at) with
      | none =>
        rw [scanRow_vacant hslot]
        exact Nat.le_succ _
      | some e =>
        rw [scanRow_taken hslot]
        dsimp only
        split_ifs <;> omega
    have hrest := ih (scanRow X A s row)
    rw [List.foldl_cons, List.length_cons]
    omega

/-! ### The order of the rows -/

/-- Different fractions of the number of rows are different floating point numbers. -/
def Separates (toFloat : ℚ → F) (n : ℕ) : Prop :=
  ∀ i j : ℕ, i ≤ n → j ≤ n → toFloat (i / n) = toFloat (j / n) → i = j

theorem separates_toDouble {n : ℕ} (hn : n < 2 ^ 52) : Separates toDouble n :=
  fun _ _ hi hj h => toDouble_injOn hn hi hj h

/-- The rows that agree on the left side agree on the right side. -/
def Dependent (data : List (Row V)) (X : List String) (A : String) : Prop :=
  ∀ row ∈ data, ∀ row' ∈ data, X.map row.at = X.map row'.at → row.at A = row'.at A

/-- The confidence does not depend on the order of the rows, and it is 1.0 exactly where the
dependency holds. -/
structure Measures (toFloat : ℚ → F) (data : List (Row V)) (X : List String) (A : String) :
    Prop where
  perm : ∀ data', data'.Perm data →
    checkFdHolds toFloat data' X A = checkFdHolds toFloat data X A
  exact : checkFdHolds toFloat data X A = toFloat 1 ↔ Dependent data X A

theorem checkFdHolds_eq (toFloat : ℚ → F) {data : List (Row V)} (hdata : data ≠ []) :
    checkFdHolds toFloat data X A =
      toFloat ((data.length - contradictions X A data : ℕ) / data.length) := by
  have hlen : data.length ≠ 0 := fun h => hdata (List.length_eq_zero_iff.mp h)
  rw [Nat.cast_sub (contradictions_le data)]
  simp only [checkFdHolds, hlen, if_false, contradictions]

theorem checkFdHolds_eq_iff {toFloat : ℚ → F} {data data' : List (Row V)}
    (hfloat : Separates toFloat data.length) (hlen : data'.length = data.length) :
    checkFdHolds toFloat data' X A = checkFdHolds toFloat data X A ↔
      contradictions X A data' = contradictions X A data := by
  rcases eq_or_ne data [] with rfl | hdata
  · rw [List.length_eq_zero_iff.mp hlen]
    exact iff_of_true rfl rfl
  · have hdata' : data' ≠ [] := by
      rintro rfl
      exact hdata (List.length_eq_zero_iff.mp hlen.symm)
    have hle := contradictions_le (X := X) (A := A) data
    have hle' := contradictions_le (X := X) (A := A) data'
    rw [checkFdHolds_eq toFloat hdata, checkFdHolds_eq toFloat hdata', hlen]
    refine ⟨fun h => ?_, fun h => by rw [h]⟩
    have hsub := hfloat _ _ (Nat.sub_le _ _) (Nat.sub_le _ _) h
    omega

theorem checkFdHolds_eq_one {toFloat : ℚ → F} {data : List (Row V)}
    (hfloat : Separates toFloat data.length) :
    checkFdHolds toFloat data X A = toFloat 1 ↔ contradictions X A data = 0 := by
  rcases eq_or_ne data [] with rfl | hdata
  · exact iff_of_true rfl rfl
  · have hlen : data.length ≠ 0 := fun h => hdata (List.length_eq_zero_iff.mp h)
    have hle := contradictions_le (X := X) (A := A) data
    rw [checkFdHolds_eq toFloat hdata]
    constructor
    · intro h
      rw [← div_self (Nat.cast_ne_zero.mpr hlen : (data.length : ℚ) ≠ 0)] at h
      have hsub := hfloat _ _ (Nat.sub_le _ _) le_rfl h
      omega
    · intro h
      rw [h, Nat.sub_zero, div_self (Nat.cast_ne_zero.mpr hlen)]

/-- Every group of the table is even. -/
def Balanced (data : List (Row V)) (X : List String) (A : String) : Prop :=
  ∀ key, Evenly (groupOf X A data key)

theorem mem_groupOf {data : List (Row V)} {key : List (Option V)} {v : Option V} :
    v ∈ groupOf X A data key ↔ ∃ row ∈ data, X.map row.at = key ∧ row.at A = v := by
  simp [groupOf, and_assoc]

theorem groupOf_perm {data data' : List (Row V)} (h : data'.Perm data) (key : List (Option V)) :
    (groupOf X A data' key).Perm (groupOf X A data key) :=
  (h.filter _).map _

theorem Balanced.measures {toFloat : ℚ → F} {data : List (Row V)} (h : Balanced data X A)
    (hfloat : Separates toFloat data.length) : Measures toFloat data X A := by
  constructor
  · intro data' hperm
    rw [checkFdHolds_eq_iff hfloat hperm.length_eq,
      contradictions_eq fun row hrow => mem_keysOf (hperm.subset hrow),
      contradictions_eq fun row hrow => mem_keysOf hrow]
    exact Finset.sum_congr rfl fun key _ => (h key).misses_perm (groupOf_perm hperm key)
  · rw [checkFdHolds_eq_one hfloat, contradictions_eq fun row hrow => mem_keysOf hrow,
      Finset.sum_eq_zero_iff]
    constructor
    · intro hzero row hrow row' hrow' hkey
      exact (h _).misses_eq_zero.mp (hzero _ (mem_keysOf hrow)) _
        (mem_groupOf.mpr ⟨row, hrow, rfl, rfl⟩) _ (mem_groupOf.mpr ⟨row', hrow', hkey.symm, rfl⟩)
    · intro hholds key _
      refine (h key).misses_eq_zero.mpr fun u hu v hv => ?_
      obtain ⟨row, hrow, hkey, rfl⟩ := mem_groupOf.mp hu
      obtain ⟨row', hrow', hkey', rfl⟩ := mem_groupOf.mp hv
      exact hholds row hrow row' hrow' (hkey.trans hkey'.symm)

/-- Two rows of a group may come first in either order. -/
theorem Measures.swap {toFloat : ℚ → F} {data : List (Row V)} (h : Measures toFloat data X A)
    (hfloat : Separates toFloat data.length) {row row' : Row V} (hrow : row ∈ data)
    (hrow' : row' ∈ data) (hne : row ≠ row') (hkey : X.map row'.at = X.map row.at) :
    ∃ rest, (groupOf X A data (X.map row.at)).Perm (row.at A :: row'.at A :: rest) ∧
      misses none (row.at A :: row'.at A :: rest) =
        misses none (row'.at A :: row.at A :: rest) := by
  obtain ⟨rest, hrest⟩ : ∃ rest, data.Perm (row :: row' :: rest) := by
    refine ⟨(data.erase row).erase row', (List.perm_cons_erase hrow).trans ?_⟩
    exact (List.perm_cons_erase ((List.mem_erase_of_ne hne.symm).mpr hrow')).cons row
  have hswap : (row' :: row :: rest).Perm data := (List.Perm.swap ..).trans hrest.symm
  have hfirst (first second : Row V) (hfirst : X.map first.at = X.map row.at)
      (hsecond : X.map second.at = X.map row.at) :
      groupOf X A (first :: second :: rest) (X.map row.at) =
        first.at A :: second.at A :: groupOf X A rest (X.map row.at) := by
    rw [← hfirst, groupOf_cons_self, hfirst, ← hsecond, groupOf_cons_self]
  refine ⟨groupOf X A rest (X.map row.at), ?_, ?_⟩
  · rw [← hfirst row row' rfl hkey]
    exact groupOf_perm hrest _
  · have hsame := (checkFdHolds_eq_iff hfloat hrest.symm.length_eq).mp (h.perm _ hrest.symm)
    rw [← (checkFdHolds_eq_iff hfloat hswap.length_eq).mp (h.perm _ hswap),
      contradictions_eq fun r hr => mem_keysOf (hrest.symm.subset hr),
      contradictions_eq fun r hr => mem_keysOf (hswap.subset hr),
      ← Finset.add_sum_erase _ _ (mem_keysOf hrow), ← Finset.add_sum_erase _ _ (mem_keysOf hrow),
      hfirst row row' rfl hkey, hfirst row' row hkey rfl] at hsame
    have hothers : ∑ key ∈ (keysOf X data).erase (X.map row.at),
          misses none (groupOf X A (row :: row' :: rest) key) =
        ∑ key ∈ (keysOf X data).erase (X.map row.at),
          misses none (groupOf X A (row' :: row :: rest) key) := by
      refine Finset.sum_congr rfl fun key hmem => ?_
      have hother := Finset.ne_of_mem_erase hmem
      rw [groupOf_cons_of_ne hother, groupOf_cons_of_ne (hkey ▸ hother),
        groupOf_cons_of_ne (hkey ▸ hother), groupOf_cons_of_ne hother]
    omega

theorem Measures.balanced {toFloat : ℚ → F} {data : List (Row V)}
    (h : Measures toFloat data X A) (hfloat : Separates toFloat data.length) :
    Balanced data X A := by
  intro key
  constructor
  · intro habsent v hv
    by_contra hne
    obtain ⟨e, rfl⟩ := Option.ne_none_iff_exists'.mp hne
    obtain ⟨row, hrow, rfl, hrowA⟩ := mem_groupOf.mp habsent
    obtain ⟨row', hrow', hkey, hrowA'⟩ := mem_groupOf.mp hv
    have hrows : row ≠ row' := by
      rintro rfl
      rw [hrowA] at hrowA'
      cases hrowA'
    obtain ⟨rest, -, hmisses⟩ := h.swap hfloat hrow hrow' hrows hkey
    rw [hrowA, hrowA'] at hmisses
    simp [misses] at hmisses
  · intro u v hu hv
    rcases eq_or_ne u v with rfl | hne
    · rfl
    · obtain ⟨row, hrow, rfl, hrowA⟩ := mem_groupOf.mp hu
      obtain ⟨row', hrow', hkey, hrowA'⟩ := mem_groupOf.mp hv
      have hrows : row ≠ row' := by
        rintro rfl
        rw [hrowA] at hrowA'
        exact hne (Option.some.inj hrowA')
      obtain ⟨rest, hperm, hmisses⟩ := h.swap hfloat hrow hrow' hrows hkey
      rw [hrowA, hrowA'] at hperm hmisses
      rw [hperm.count_eq, hperm.count_eq, (List.Perm.swap (some v) (some u) rest).count_eq (some v)]
      have hleft := misses_some u (some v :: rest)
      have hright := misses_some v (some u :: rest)
      rw [misses, misses] at hmisses
      rw [List.count_cons_self, List.count_cons_self]
      rw [List.length_cons] at hleft hright
      omega

/-- The confidence measures the dependency exactly for the balanced tables. -/
theorem measures_iff_balanced {toFloat : ℚ → F} {data : List (Row V)}
    (hfloat : Separates toFloat data.length) :
    Measures toFloat data X A ↔ Balanced data X A :=
  ⟨fun h => h.balanced hfloat, fun h => h.measures hfloat⟩

/-- Two sensors with two readings each, the second one also without a reading. -/
def sensors : List (Row ℕ) :=
  [.of [("sensor", 1), ("room", 4)], .of [("sensor", 1), ("room", 5)], .of [("sensor", 2)],
    .of [("sensor", 2)]]

theorem measures_iff_balanced_sensors :
    Measures toDouble sensors ["sensor"] "room" ↔ Balanced sensors ["sensor"] "room" :=
  measures_iff_balanced (separates_toDouble (by decide))

/-- One reading out of four differs from the others. -/
def outlier : List (Row ℕ) :=
  [.of [("sensor", 1), ("room", 4)], .of [("sensor", 1), ("room", 4)],
    .of [("sensor", 1), ("room", 4)], .of [("sensor", 1), ("room", 5)]]

/-- The first of two rows has no reading. -/
def unread : List (Row ℕ) := [.of [("sensor", 1)], .of [("sensor", 1), ("room", 4)]]

/-- Read backwards the same rows have a confidence of one quarter, and a reading that is missing
from the first row counts as the same. -/
theorem confidence_of_order :
    checkFdHolds id outlier ["sensor"] "room" = 3 / 4 ∧
      checkFdHolds id outlier.reverse ["sensor"] "room" = 1 / 4 ∧
      ¬ Measures id outlier ["sensor"] "room" ∧
      checkFdHolds id unread ["sensor"] "room" = 1 ∧ ¬ Dependent unread ["sensor"] "room" := by
  have hforward : checkFdHolds id outlier ["sensor"] "room" = 3 / 4 := by decide +kernel
  have hbackward : checkFdHolds id outlier.reverse ["sensor"] "room" = 1 / 4 := by decide +kernel
  refine ⟨hforward, hbackward, fun h => ?_, by decide +kernel, fun h => ?_⟩
  · have hsame := h.perm _ outlier.reverse_perm
    rw [hforward, hbackward] at hsame
    norm_num at hsame
  · have hrooms := h (.of [("sensor", 1)]) (by simp [unread]) (.of [("sensor", 1), ("room", 4)])
      (by simp [unread]) (by decide +kernel)
    exact absurd hrooms (by decide +kernel)

end NextgenDatabases.Normalizer
