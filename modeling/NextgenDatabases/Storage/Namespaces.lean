import NextgenDatabases.Storage.Typed
import Mathlib.Data.Set.List

/-!
# Namespaces over one backend

Typed stores that share a backend answer as sorted maps of their own do, as long as their calls
keep to their own keys.
-/
namespace NextgenDatabases.Storage

open Foundations

variable {V W : Type} {codec : Codec V W}

/-! ### Keys -/

theorem prefixedKey_inj {ns k k' : Str} :
    TypedStore.prefixedKey ns k = TypedStore.prefixedKey ns k' ↔ k = k' := by
  simp [TypedStore.prefixedKey]

theorem logicalKey_prefixedKey (ns k : Str) :
    TypedStore.logicalKey ns (TypedStore.prefixedKey ns k) = k := by
  have hlength : (TypedStore.prefixBytes ns).length ≤ (TypedStore.prefixedKey ns k).length := by
    simp [TypedStore.prefixBytes, TypedStore.prefixedKey]
  have hsplit : TypedStore.prefixedKey ns k = TypedStore.prefixBytes ns ++ k := by
    simp [TypedStore.prefixBytes, TypedStore.prefixedKey]
  rw [TypedStore.logicalKey, if_pos hlength, hsplit, List.drop_left]

theorem prefixedKey_prefix {ns p k : Str} :
    TypedStore.prefixedKey ns p <+: TypedStore.prefixedKey ns k ↔ p <+: k := by
  rw [TypedStore.prefixedKey, TypedStore.prefixedKey, List.prefix_append_right_inj,
    List.cons_prefix_cons, and_iff_right rfl]

/-- Within a namespace keys are ordered as they are under it. -/
theorem prefixedKey_lt {ns k k' : Str} :
    TypedStore.prefixedKey ns k < TypedStore.prefixedKey ns k' ↔ k < k' := by
  induction ns with
  | nil => simp [TypedStore.prefixedKey]
  | cons c ns ih =>
    rw [TypedStore.prefixedKey, TypedStore.prefixedKey] at ih ⊢
    rw [List.cons_append, List.cons_append, List.cons_lt_cons_iff, ih]
    simp

/-! ### Scans -/

/-- The scan of redb looks at its limit after the first entry only. -/
theorem scanEntries_eq {p : Str} {limit : ℕ} {iter results : List (Str × W)}
    (h : results.length < max limit 1) :
    Backend.scanEntries p limit iter results =
      results ++ (iter.takeWhile fun a => p.isPrefixOf a.1).take (max limit 1 - results.length) := by
  induction iter generalizing results with
  | nil => simp [Backend.scanEntries]
  | cons a iter ih =>
    obtain ⟨k, v⟩ := a
    rw [Backend.scanEntries]
    split_ifs with hprefix hlimit
    · rw [List.takeWhile_cons_of_pos (by simpa using hprefix)]
      have hone : max limit 1 - results.length = 1 := by
        rw [List.length_append, List.length_singleton] at hlimit
        omega
      rw [hone]
      rfl
    · have hlength : (results ++ [(k, v)]).length < max limit 1 := by omega
      have hsucc : max limit 1 - results.length =
          max limit 1 - (results ++ [(k, v)]).length + 1 := by
        rw [List.length_append, List.length_singleton] at hlength ⊢
        omega
      rw [ih hlength, List.takeWhile_cons_of_pos (by simpa using hprefix), hsucc,
        List.take_succ_cons, List.append_assoc, List.singleton_append]
    · rw [List.takeWhile_cons_of_neg (by simpa using hprefix)]
      simp

/-- The number of entries that a scan may return. -/
def Backend.atMost (b : Backend) (limit : ℕ) : ℕ :=
  match b with
  | .inMemory => limit
  | .redb => max limit 1

theorem scanPrefix_eq (b : Backend) (data : SortedMap Str W) (p : Str) (limit : ℕ) :
    b.scanPrefix data p limit =
      (data.entries.filter fun a => p.isPrefixOf a.1).take (b.atMost limit) := by
  rw [← SortedMap.scanPrefix_eq]
  cases b with
  | inMemory => rfl
  | redb =>
    rw [Backend.scanPrefix, scanEntries_eq (by simp)]
    rfl

/-! ### What the backend holds -/

/-- The backend holds the entries of all stores, no two stores under one key. -/
structure Shares (codec : Codec V W) (data : SortedMap Str W) (own : Own V) : Prop where
  entries : ∀ a, a ∈ data.entries ↔ ∃ ns k v, (own ns).get k = some v ∧
    a = (TypedStore.prefixedKey ns k, codec.serialise v)
  apart : ∀ ns k, ((own ns).get k).isSome → ¬ HeldElsewhere own ns (TypedStore.prefixedKey ns k)

namespace Shares

variable {data : SortedMap Str W} {own : Own V} {ns k : Str}

theorem empty : Shares codec .empty (fun _ => .empty) where
  entries a := by simp [SortedMap.empty, SortedMap.get]
  apart ns k h := by simp [SortedMap.get_empty] at h

theorem get_eq (h : Shares codec data own)
    (hfree : ¬ HeldElsewhere own ns (TypedStore.prefixedKey ns k)) :
    data.get (TypedStore.prefixedKey ns k) = ((own ns).get k).map codec.serialise := by
  ext w
  rw [SortedMap.get_eq_some, h.entries, Option.map_eq_some_iff]
  constructor
  · rintro ⟨ns', k', v, hget, heq⟩
    obtain ⟨hkey, rfl⟩ := Prod.mk.inj heq
    obtain rfl : ns' = ns := by
      by_contra hne
      exact hfree ⟨ns', k', hne, by rw [hget]; rfl, hkey.symm⟩
    exact ⟨v, (prefixedKey_inj.mp hkey) ▸ hget, rfl⟩
  · rintro ⟨v, hget, rfl⟩
    exact ⟨ns, k, v, hget, rfl⟩

/-- A key held elsewhere is not the store's own, but the backend has an entry under it. -/
theorem held (h : Shares codec data own)
    (hheld : HeldElsewhere own ns (TypedStore.prefixedKey ns k)) :
    (own ns).get k = none ∧
      ∃ v, data.get (TypedStore.prefixedKey ns k) = some (codec.serialise v) := by
  constructor
  · by_contra hsome
    exact h.apart ns k (Option.isSome_iff_ne_none.mpr hsome) hheld
  · obtain ⟨ns', k', -, hget, hkey⟩ := hheld
    obtain ⟨v, hv⟩ := Option.isSome_iff_exists.mp hget
    exact ⟨v, SortedMap.get_eq_some.mpr ((h.entries _).mpr ⟨ns', k', v, hv, by rw [hkey]⟩)⟩

theorem put (h : Shares codec data own)
    (hfree : ¬ HeldElsewhere own ns (TypedStore.prefixedKey ns k)) (v : V) :
    Shares codec (TypedStore.put codec data ns k v)
      (Function.update own ns ((own ns).insert k v)) := by
  have hget : ∀ ns' k', (Function.update own ns ((own ns).insert k v) ns').get k' =
      if ns' = ns ∧ k' = k then some v else (own ns').get k' := by
    intro ns' k'
    by_cases hns : ns' = ns
    · subst hns
      simp [SortedMap.get_insert]
    · simp [hns]
  have hiff : ∀ ns' fullKey, HeldElsewhere (Function.update own ns ((own ns).insert k v)) ns' fullKey ↔
      HeldElsewhere own ns' fullKey ∨ ns ≠ ns' ∧ TypedStore.prefixedKey ns k = fullKey := by
    intro ns' fullKey
    constructor
    · rintro ⟨ns₁, k₁, hne, hsome, hkey⟩
      rw [hget] at hsome
      split_ifs at hsome with heq
      · obtain ⟨rfl, rfl⟩ := heq
        exact .inr ⟨hne, hkey⟩
      · exact .inl ⟨ns₁, k₁, hne, hsome, hkey⟩
    · rintro (⟨ns₁, k₁, hne, hsome, hkey⟩ | ⟨hne, hkey⟩)
      · refine ⟨ns₁, k₁, hne, ?_, hkey⟩
        rw [hget]
        split_ifs
        · rfl
        · exact hsome
      · exact ⟨ns, k, hne, by rw [hget, if_pos ⟨rfl, rfl⟩]; rfl, hkey⟩
  constructor
  · intro a
    rw [TypedStore.put, SortedMap.mem_insert, h.entries]
    constructor
    · rintro (rfl | ⟨⟨ns', k', w, hw, rfl⟩, hne⟩)
      · exact ⟨ns, k, v, by rw [hget, if_pos ⟨rfl, rfl⟩], rfl⟩
      · refine ⟨ns', k', w, ?_, rfl⟩
        rw [hget, if_neg, hw]
        rintro ⟨rfl, rfl⟩
        exact hne rfl
    · rintro ⟨ns', k', w, hw, rfl⟩
      rw [hget] at hw
      split_ifs at hw with heq
      · obtain ⟨rfl, rfl⟩ := heq
        obtain rfl := Option.some.inj hw
        exact .inl rfl
      · refine .inr ⟨⟨ns', k', w, hw, rfl⟩, fun hkey => ?_⟩
        by_cases hns : ns' = ns
        · subst hns
          exact heq ⟨rfl, prefixedKey_inj.mp hkey⟩
        · exact hfree ⟨ns', k', hns, by rw [hw]; rfl, hkey⟩
  · intro ns' k' hsome hheld
    rw [hget] at hsome
    rw [hiff] at hheld
    split_ifs at hsome with heq
    · obtain ⟨rfl, rfl⟩ := heq
      rcases hheld with hheld | ⟨hne, -⟩
      · exact hfree hheld
      · exact hne rfl
    · rcases hheld with hheld | ⟨hne, hkey⟩
      · exact h.apart ns' k' hsome hheld
      · exact hfree ⟨ns', k', hne.symm, hsome, hkey.symm⟩

theorem delete (h : Shares codec data own)
    (hfree : ¬ HeldElsewhere own ns (TypedStore.prefixedKey ns k)) :
    Shares codec (TypedStore.delete data ns k).2
      (Function.update own ns ((own ns).remove k)) := by
  have hget : ∀ ns' k', (Function.update own ns ((own ns).remove k) ns').get k' =
      if ns' = ns ∧ k' = k then none else (own ns').get k' := by
    intro ns' k'
    by_cases hns : ns' = ns
    · subst hns
      simp [SortedMap.get_remove]
    · simp [hns]
  constructor
  · intro a
    rw [TypedStore.delete, SortedMap.mem_remove, h.entries]
    constructor
    · rintro ⟨⟨ns', k', w, hw, rfl⟩, hne⟩
      refine ⟨ns', k', w, ?_, rfl⟩
      rw [hget, if_neg, hw]
      rintro ⟨rfl, rfl⟩
      exact hne rfl
    · rintro ⟨ns', k', w, hw, rfl⟩
      rw [hget] at hw
      split_ifs at hw with heq
      refine ⟨⟨ns', k', w, hw, rfl⟩, fun hkey => ?_⟩
      by_cases hns : ns' = ns
      · subst hns
        exact heq ⟨rfl, prefixedKey_inj.mp hkey⟩
      · exact hfree ⟨ns', k', hns, by rw [hw]; rfl, hkey⟩
  · rintro ns' k' hsome ⟨ns₁, k₁, hne, hsome₁, hkey⟩
    have hleft : ∀ {ns' k'}, ((Function.update own ns ((own ns).remove k) ns').get k').isSome →
        ((own ns').get k').isSome := by
      intro ns' k' hsome
      rw [hget] at hsome
      split_ifs at hsome
      · simp at hsome
      · exact hsome
    exact h.apart ns' k' (hleft hsome) ⟨ns₁, k₁, hne, hleft hsome₁, hkey⟩

/-! ### Answers -/

theorem get_answer (h : Shares codec data own) :
    TypedStore.get codec data ns k = .value ((own ns).get k) ↔
      ¬ HeldElsewhere own ns (TypedStore.prefixedKey ns k) := by
  constructor
  · intro hanswer hheld
    obtain ⟨hnone, v, hv⟩ := h.held hheld
    simp [TypedStore.get, hv, codec.deserialise_serialise, hnone] at hanswer
  · intro hfree
    rw [TypedStore.get, h.get_eq hfree]
    cases (own ns).get k with
    | none => rfl
    | some v => simp [codec.deserialise_serialise]

theorem delete_answer (h : Shares codec data own) :
    (TypedStore.delete data ns k).1 = ((own ns).get k).isSome ↔
      ¬ HeldElsewhere own ns (TypedStore.prefixedKey ns k) := by
  constructor
  · intro hanswer hheld
    obtain ⟨hnone, v, hv⟩ := h.held hheld
    simp [TypedStore.delete, hv, hnone] at hanswer
  · intro hfree
    rw [TypedStore.delete, h.get_eq hfree, Option.isSome_map]

end Shares

/-! ### Answers to scans -/

/-- What the backend holds for an entry of a store. -/
def stored (codec : Codec V W) (ns : Str) (a : Str × V) : Str × W :=
  (TypedStore.prefixedKey ns a.1, codec.serialise a.2)

theorem stored_injective (codec : Codec V W) (ns : Str) : Function.Injective (stored codec ns) := by
  intro a a' h
  obtain ⟨hkey, hvalue⟩ := Prod.mk.inj h
  exact Prod.ext (prefixedKey_inj.mp hkey) (codec.serialise_inj.mp hvalue)

theorem typedEntries_stored (codec : Codec V W) (ns : Str) (l : List (Str × V)) :
    TypedStore.typedEntries codec ns (l.map (stored codec ns)) = .ok l := by
  induction l with
  | nil => rfl
  | cons a l ih =>
    rw [List.map_cons, stored, TypedStore.typedEntries, codec.deserialise_serialise, ih,
      logicalKey_prefixedKey]
    rfl

namespace Shares

variable {data : SortedMap Str W} {own : Own V} {ns p : Str}

/-- The entries that start with a prefix in a namespace. -/
def under (data : SortedMap Str W) (ns p : Str) : List (Str × W) :=
  data.entries.filter fun a => (TypedStore.prefixedKey ns p).isPrefixOf a.1

/-- The store of the namespace has the entry. -/
def isOwn (own : Own V) (ns : Str) (a : Str × W) : Bool :=
  ((own ns).get (TypedStore.logicalKey ns a.1)).isSome

theorem mem_under {a : Str × W} :
    a ∈ under data ns p ↔ a ∈ data.entries ∧ TypedStore.prefixedKey ns p <+: a.1 := by
  simp [under]

theorem exists_stored (h : Shares codec data own) :
    ∃ l, under data ns p = List.map (stored codec ns) l := by
  have hrange : under data ns p ∈ Set.range (List.map (stored codec ns)) := by
    rw [Set.range_list_map]
    intro a ha
    obtain ⟨hmem, t, ht⟩ := mem_under.mp ha
    obtain ⟨ns', k', v, -, rfl⟩ := (h.entries a).mp hmem
    refine ⟨(p ++ t, v), Prod.ext ?_ rfl⟩
    simpa [stored, TypedStore.prefixedKey] using ht
  obtain ⟨l, hl⟩ := hrange
  exact ⟨l, hl.symm⟩

theorem isOwn_eq_false (h : Shares codec data own) {a : Str × W} (ha : a ∈ under data ns p) :
    isOwn own ns a = false ↔ HeldElsewhere own ns a.1 := by
  obtain ⟨hmem, t, ht⟩ := mem_under.mp ha
  have hkey : a.1 = TypedStore.prefixedKey ns (p ++ t) := by
    simpa [TypedStore.prefixedKey] using ht.symm
  rw [isOwn, hkey, logicalKey_prefixedKey]
  constructor
  · intro hnone
    obtain ⟨ns', k', v, hget, rfl⟩ := (h.entries a).mp hmem
    refine ⟨ns', k', ?_, by rw [hget]; rfl, hkey⟩
    rintro rfl
    rw [← prefixedKey_inj.mp hkey, hget] at hnone
    simp at hnone
  · intro hheld
    rw [(h.held hheld).1]
    rfl

theorem filter_isOwn (h : Shares codec data own) :
    (under data ns p).filter (isOwn own ns) = (ownScan own ns p).map (stored codec ns) := by
  refine SortedMap.eq_of_mem_iff ((data.sorted.filter _).filter _) ?_ fun a => ?_
  · rw [List.pairwise_map]
    exact ((own ns).sorted.filter _).imp fun hlt => prefixedKey_lt.mpr hlt
  · rw [List.mem_filter, mem_under, List.mem_map]
    constructor
    · rintro ⟨⟨hmem, hprefix⟩, hown⟩
      obtain ⟨ns', k', v, hget, rfl⟩ := (h.entries a).mp hmem
      have hmem' : (TypedStore.prefixedKey ns' k', codec.serialise v) ∈ under data ns p :=
        mem_under.mpr ⟨hmem, hprefix⟩
      obtain rfl : ns' = ns := by
        by_contra hne
        have hheld : HeldElsewhere own ns (TypedStore.prefixedKey ns' k') :=
          ⟨ns', k', hne, by rw [hget]; rfl, rfl⟩
        rw [(h.isOwn_eq_false hmem').mpr hheld] at hown
        exact absurd hown (by simp)
      refine ⟨(k', v), List.mem_filter.mpr ⟨SortedMap.get_eq_some.mp hget, ?_⟩, rfl⟩
      simpa using prefixedKey_prefix.mp hprefix
    · rintro ⟨⟨k, v⟩, hscan, rfl⟩
      obtain ⟨hmem, hprefix⟩ := List.mem_filter.mp hscan
      have hget := SortedMap.get_eq_some.mpr hmem
      refine ⟨⟨(h.entries _).mpr ⟨ns, k, v, hget, rfl⟩, prefixedKey_prefix.mpr (by simpa using hprefix)⟩,
        ?_⟩
      rw [isOwn, stored, logicalKey_prefixedKey, hget]
      rfl

/-- A scan returns the first of the entries that are there. -/
theorem scanPrefix_answer (h : Shares codec data own) (b : Backend) (limit : ℕ)
    (results : List (Str × V)) :
    TypedStore.scanPrefix codec b data ns p limit = .entries results ↔
      (under data ns p).take (b.atMost limit) = results.map (stored codec ns) := by
  obtain ⟨l, hl⟩ := @exists_stored _ _ _ _ _ ns p h
  have hscan : b.scanPrefix data (TypedStore.prefixedKey ns p) limit =
      (l.take (b.atMost limit)).map (stored codec ns) := by
    rw [scanPrefix_eq, List.map_take, ← hl]
    rfl
  rw [TypedStore.scanPrefix, hscan, hl, ← List.map_take, typedEntries_stored,
    (stored_injective codec ns).list_map.eq_iff]
  simp

theorem take_under (h : Shares codec data own) (limit : ℕ) :
    (under data ns p).take limit = ((ownScan own ns p).take limit).map (stored codec ns) ↔
      ∀ fullKey, HeldElsewhere own ns fullKey → TypedStore.prefixedKey ns p <+: fullKey →
        limit ≤ (ownScan own ns p).countP (TypedStore.prefixedKey ns ·.1 < fullKey) := by
  have hasymm : Std.Asymm fun a b : Str × W => a.1 < b.1 := ⟨fun _ _ => lt_asymm⟩
  have hsorted : (under data ns p).Pairwise fun a b => a.1 < b.1 := data.sorted.filter _
  rw [List.map_take, ← h.filter_isOwn,
    SortedMap.take_eq_take_filter_iff hsorted (isOwn own ns) limit, h.filter_isOwn]
  have hcount : ∀ a : Str × W,
      ((ownScan own ns p).map (stored codec ns)).countP (fun c => c.1 < a.1) =
        (ownScan own ns p).countP (TypedStore.prefixedKey ns ·.1 < a.1) := by
    intro a
    rw [List.countP_map]
    rfl
  constructor
  · rintro hle fullKey ⟨ns', k', hne, hsome, rfl⟩ hprefix
    obtain ⟨v, hv⟩ := Option.isSome_iff_exists.mp hsome
    have hmem := mem_under.mpr ⟨(h.entries _).mpr ⟨ns', k', v, hv, rfl⟩, hprefix⟩
    have hn := hle _ hmem ((h.isOwn_eq_false hmem).mpr ⟨ns', k', hne, hsome, rfl⟩)
    rwa [hcount] at hn
  · intro hle a ha hown
    rw [hcount]
    exact hle a.1 ((h.isOwn_eq_false ha).mp hown) (mem_under.mp ha).2

theorem under_eq_nil (h : Shares codec data own) :
    under data ns p = [] ↔ ownScan own ns p = [] ∧
      ∀ fullKey, HeldElsewhere own ns fullKey → ¬ TypedStore.prefixedKey ns p <+: fullKey := by
  constructor
  · intro hnil
    constructor
    · have hfilter := @filter_isOwn _ _ _ _ _ ns p h
      rw [hnil, List.filter_nil, eq_comm, List.map_eq_nil_iff] at hfilter
      exact hfilter
    · rintro fullKey ⟨ns', k', -, hsome, rfl⟩ hprefix
      obtain ⟨v, hv⟩ := Option.isSome_iff_exists.mp hsome
      have hmem := mem_under.mpr ⟨(h.entries _).mpr ⟨ns', k', v, hv, rfl⟩, hprefix⟩
      rw [hnil] at hmem
      exact List.not_mem_nil hmem
  · rintro ⟨hown, hheld⟩
    have hfilter := @filter_isOwn _ _ _ _ _ ns p h
    rw [hown, List.map_nil, List.filter_eq_nil_iff] at hfilter
    rw [List.eq_nil_iff_forall_not_mem]
    intro a ha
    have hfalse := (h.isOwn_eq_false ha).mp (by simpa using hfilter a ha)
    exact hheld a.1 hfalse (mem_under.mp ha).2

theorem scan_answer (h : Shares codec data own) (b : Backend) (limit : ℕ) :
    TypedStore.scanPrefix codec b data ns p limit = .entries ((ownScan own ns p).take limit) ↔
      ReadApart b own (.scanPrefix ns p limit) := by
  rw [h.scanPrefix_answer, ReadApart]
  by_cases hzero : b = .redb ∧ limit = 0
  · obtain ⟨rfl, rfl⟩ := hzero
    have htake : (under data ns p).take (Backend.redb.atMost 0) = [] ↔ under data ns p = [] := by
      rw [List.take_eq_nil_iff]
      simp [Backend.atMost]
    rw [List.take_zero, List.map_nil, htake, h.under_eq_nil]
    constructor
    · exact fun hnil => ⟨fun _ _ _ => Nat.zero_le _, fun _ _ => hnil⟩
    · exact fun hand => hand.2 rfl rfl
  · have hlimit : b.atMost limit = limit := by
      cases b with
      | inMemory => rfl
      | redb =>
        have hpos : limit ≠ 0 := fun h0 => hzero ⟨rfl, h0⟩
        rw [Backend.atMost]
        omega
    rw [hlimit, h.take_under]
    constructor
    · exact fun hle => ⟨hle, fun hb h0 => absurd ⟨hb, h0⟩ hzero⟩
    · exact fun hand => hand.1

end Shares

/-! ### Runs -/

theorem step_answer {data : SortedMap Str W} {own : Own V} (h : Shares codec data own) (b : Backend)
    (c : Call V) : (step b codec data c).1 = (ownStep own c).1 ↔ ReadApart b own c := by
  cases c with
  | put ns key value => simp [step, ownStep, ReadApart]
  | get ns key => exact h.get_answer
  | delete ns key =>
    rw [step, ownStep, Answer.deleted.injEq]
    exact h.delete_answer
  | scanPrefix ns keyPrefix limit => exact h.scan_answer b limit

theorem step_shares {data : SortedMap Str W} {own : Own V} (h : Shares codec data own) {b : Backend}
    {c : Call V} (hput : PutApart own c) (hread : ReadApart b own c) :
    Shares codec (step b codec data c).2 (ownStep own c).2 := by
  cases c with
  | put ns key value => exact h.put hput value
  | get ns key => exact h
  | delete ns key => exact h.delete hread
  | scanPrefix ns keyPrefix limit => exact h

theorem answers_eq {data : SortedMap Str W} {own : Own V} (h : Shares codec data own) (b : Backend)
    {calls : List (Call V)} (hputs : Throughout PutApart own calls) :
    answers (step b codec) data calls = answers ownStep own calls ↔
      Throughout (ReadApart b) own calls := by
  induction calls generalizing data own with
  | nil => simp [answers, Throughout]
  | cons c calls ih =>
    rw [answers, answers, List.cons.injEq, step_answer h, Throughout]
    exact and_congr_right fun hread => ih (step_shares h hputs.1 hread) hputs.2

/-- The stores answer as sorted maps of their own do exactly when no call reads an entry of another
store and no scan in redb asks for nothing where there is an entry, in every run whose puts
overwrite no entry of another store. -/
theorem answers_eq_own_iff (b : Backend) (codec : Codec V W) (calls : List (Call V))
    (hputs : Throughout PutApart (fun _ => .empty) calls) :
    answers (step b codec) .empty calls = answers ownStep (fun _ => .empty) calls ↔
      Throughout (ReadApart b) (fun _ => .empty) calls :=
  answers_eq .empty b hputs

theorem two_namespaces_answer : answers (step .redb (.verbatim ℕ)) .empty
    [.put ['a'] ['k'] 1, .put ['b'] ['k'] 2, .scanPrefix ['a'] [] 1] =
      answers ownStep (fun _ => .empty)
        [.put ['a'] ['k'] 1, .put ['b'] ['k'] 2, .scanPrefix ['a'] [] 1] := by
  refine (answers_eq_own_iff .redb (.verbatim ℕ) _ ?_).mpr ?_
  · refine ⟨?_, ?_, trivial, trivial⟩
    · rintro ⟨ns, k, -, hsome, -⟩
      simp [SortedMap.get_empty] at hsome
    · rintro ⟨ns, k, -, hsome, hkey⟩
      by_cases hns : ns = ['a']
      · subst hns
        simp [TypedStore.prefixedKey] at hkey
      · simp [ownStep, hns, SortedMap.get_empty] at hsome
  · refine ⟨trivial, trivial, ⟨?_, fun _ h => absurd h (by simp)⟩, trivial⟩
    rintro fullKey ⟨ns, k, hne, hsome, rfl⟩ hprefix
    by_cases hns : ns = ['b']
    · subst hns
      simp [TypedStore.prefixedKey] at hprefix
    · simp [ownStep, hns, hne, SortedMap.get_empty] at hsome

/-- What was put under `a` is got under `a:b`. -/
theorem other_namespace_answers : answers (step .inMemory (.verbatim ℕ)) .empty
    [.put ['a'] ['b', ':', 'k'] 1, .get ['a', ':', 'b'] ['k']] ≠
      answers ownStep (fun _ => .empty)
        [.put ['a'] ['b', ':', 'k'] 1, .get ['a', ':', 'b'] ['k']] := by
  decide

end NextgenDatabases.Storage
