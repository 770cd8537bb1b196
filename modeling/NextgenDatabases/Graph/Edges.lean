import NextgenDatabases.Graph.Stores
import Mathlib.Data.Finset.Preimage
import Mathlib.Data.List.Induction
import Mathlib.Data.Set.Finite.Basic

/-!
# Graph stores as sets of edges

The two stores give the same answers, and those of a set of edges as long as no edge looks like
another under its key.
-/
namespace NextgenDatabases.Graph

open Foundations

/-! ### Keys -/

theorem append_sep_inj {a b x y : Str} (ha : 0 ∉ a) (hb : 0 ∉ b) :
    a ++ 0 :: x = b ++ 0 :: y ↔ a = b ∧ x = y := by
  induction a generalizing b with
  | nil =>
    cases b with
    | nil => simp
    | cons c b =>
      have hc : (0 : Fin 256) ≠ c := fun h => hb (h ▸ List.mem_cons_self ..)
      simp [hc]
  | cons d a ih =>
    cases b with
    | nil =>
      have hd : d ≠ 0 := fun h => ha (h ▸ List.mem_cons_self ..)
      simp [hd]
    | cons c b =>
      have hmain := ih (b := b) (fun h => ha (List.mem_cons_of_mem _ h))
        (fun h => hb (List.mem_cons_of_mem _ h))
      rw [List.cons_append, List.cons_append, List.cons.injEq, List.cons.injEq, hmain, and_assoc]

structure TripleKey.Clean (key : TripleKey) : Prop where
  subject : 0 ∉ key.subject
  predicate : 0 ∉ key.predicate

theorem flat_inj {k k' : TripleKey} (hk : k.Clean) (hk' : k'.Clean) : k.flat = k'.flat ↔ k = k' := by
  rw [TripleKey.flat, TripleKey.flat, append_sep_inj hk.subject hk'.subject,
    append_sep_inj hk.predicate hk'.predicate]
  cases k
  cases k'
  simp

theorem tripleKey_eq (e : GraphEdge) : tripleKey e = (TripleKey.fromEdge e).flat := rfl

theorem GraphEdge.Clean.key {e : GraphEdge} (h : e.Clean) : (TripleKey.fromEdge e).Clean :=
  ⟨h.subject, h.predicate⟩

/-- An index key starts with the prefix of its IRI alone. -/
theorem prefix_iff {iri i t : Str} (hiri : 0 ∉ iri) (hi : 0 ∉ i) :
    iriPrefix iri <+: i ++ 0 :: t ↔ iri = i := by
  constructor
  · rintro ⟨u, hu⟩
    rw [iriPrefix, List.append_assoc, List.singleton_append, append_sep_inj hiri hi] at hu
    exact hu.1
  · rintro rfl
    exact ⟨t, by rw [iriPrefix, List.append_assoc, List.singleton_append]⟩

/-! ### redb does what the store in memory does -/

theorem mem_indexInsert {idx : Str → Finset TripleKey} {i j : Str} {k k' : TripleKey} :
    k' ∈ SimpleGraphStore.indexInsert idx i k j ↔ j = i ∧ k' = k ∨ k' ∈ idx j := by
  unfold SimpleGraphStore.indexInsert Function.update
  split_ifs with hj
  · subst hj
    simp
  · simp [hj]

theorem mem_indexRemove {idx : Str → Finset TripleKey} {i j : Str} {k k' : TripleKey} :
    k' ∈ SimpleGraphStore.indexRemove idx i k j ↔ k' ∈ idx j ∧ ¬ (j = i ∧ k' = k) := by
  unfold SimpleGraphStore.indexRemove Function.update
  split_ifs with hj
  · subst hj
    simp [and_comm]
  · simp [hj]

/-- The entries of an index table are those of the index. -/
structure IndexSimulates (table : Table Unit) (idx : Str → Finset TripleKey) : Prop where
  clean : ∀ i, ∀ k ∈ idx i, 0 ∉ i ∧ k.Clean
  entries : ∀ key, (key, ()) ∈ table.entries ↔ ∃ i, ∃ k ∈ idx i, key = i ++ 0 :: k.flat

namespace IndexSimulates

variable {table : Table Unit} {idx : Str → Finset TripleKey} {i : Str} {k : TripleKey}

theorem insert (h : IndexSimulates table idx) (hi : 0 ∉ i) (hk : k.Clean) :
    IndexSimulates (table.insert (i ++ 0 :: k.flat) ()) (SimpleGraphStore.indexInsert idx i k) := by
  constructor
  · intro j k' hk'
    rcases mem_indexInsert.mp hk' with ⟨rfl, rfl⟩ | hk'
    · exact ⟨hi, hk⟩
    · exact h.clean j k' hk'
  · intro key
    rw [SortedMap.mem_insert]
    constructor
    · rintro (heq | ⟨hkey, -⟩)
      · exact ⟨i, k, mem_indexInsert.mpr (.inl ⟨rfl, rfl⟩), congrArg Prod.fst heq⟩
      · obtain ⟨j, k', hk', rfl⟩ := (h.entries key).mp hkey
        exact ⟨j, k', mem_indexInsert.mpr (.inr hk'), rfl⟩
    · rintro ⟨j, k', hk', rfl⟩
      by_cases heq : j ++ 0 :: k'.flat = i ++ 0 :: k.flat
      · exact .inl (by rw [heq])
      · refine .inr ⟨(h.entries _).mpr ⟨j, k', ?_, rfl⟩, heq⟩
        rcases mem_indexInsert.mp hk' with ⟨rfl, rfl⟩ | hk'
        · exact absurd rfl heq
        · exact hk'

theorem remove (h : IndexSimulates table idx) (hi : 0 ∉ i) (hk : k.Clean) :
    IndexSimulates (table.remove (i ++ 0 :: k.flat)) (SimpleGraphStore.indexRemove idx i k) := by
  constructor
  · exact fun j k' hk' => h.clean j k' (mem_indexRemove.mp hk').1
  · intro key
    rw [SortedMap.mem_remove]
    constructor
    · rintro ⟨hkey, hne⟩
      obtain ⟨j, k', hk', rfl⟩ := (h.entries key).mp hkey
      refine ⟨j, k', mem_indexRemove.mpr ⟨hk', ?_⟩, rfl⟩
      rintro ⟨rfl, rfl⟩
      exact hne rfl
    · rintro ⟨j, k', hk', rfl⟩
      obtain ⟨hk', hne⟩ := mem_indexRemove.mp hk'
      obtain ⟨hj, hclean⟩ := h.clean j k' hk'
      refine ⟨(h.entries _).mpr ⟨j, k', hk', rfl⟩, fun heq => hne ?_⟩
      obtain ⟨rfl, hflat⟩ := (append_sep_inj hj hi).mp heq
      exact ⟨rfl, (flat_inj hclean hk).mp hflat⟩

theorem mem_scan (h : IndexSimulates table idx) {iri : Str} (hiri : 0 ∉ iri) {entry : Str × Unit} :
    entry ∈ table.scanPrefix (iriPrefix iri) ↔ ∃ k ∈ idx iri, entry.1 = iriPrefix iri ++ k.flat := by
  rw [SortedMap.scanPrefix_eq, List.mem_filter, List.isPrefixOf_iff_prefix, h.entries entry.1]
  constructor
  · rintro ⟨⟨i, k, hk, hkey⟩, hprefix⟩
    rw [hkey, prefix_iff hiri (h.clean i k hk).1] at hprefix
    obtain rfl := hprefix
    exact ⟨k, hk, hkey.trans (by rw [iriPrefix, List.append_assoc, List.singleton_append])⟩
  · rintro ⟨k, hk, hkey⟩
    refine ⟨⟨iri, k, hk, hkey.trans ?_⟩, ⟨k.flat, hkey.symm⟩⟩
    rw [iriPrefix, List.append_assoc, List.singleton_append]

/-- The keys that a scan finds, in their order. -/
theorem scan (h : IndexSimulates table idx) {iri : Str} (hiri : 0 ∉ iri) :
    ∃ ks : List TripleKey, (ks : Multiset TripleKey) = (idx iri).val ∧
      (table.scanPrefix (iriPrefix iri)).map (·.1) = ks.map (iriPrefix iri ++ ·.flat) := by
  have hrange : (table.scanPrefix (iriPrefix iri)).map (·.1) ∈
      Set.range (List.map fun k : {k // k ∈ idx iri} => iriPrefix iri ++ k.1.flat) := by
    rw [Set.range_list_map]
    intro key hkey
    obtain ⟨entry, hentry, rfl⟩ := List.mem_map.mp hkey
    obtain ⟨k, hk, heq⟩ := (h.mem_scan hiri).mp hentry
    exact ⟨⟨k, hk⟩, heq.symm⟩
  obtain ⟨ks, hks⟩ := hrange
  have hmap : (table.scanPrefix (iriPrefix iri)).map (·.1) =
      (ks.map (·.1)).map (iriPrefix iri ++ ·.flat) := by
    rw [List.map_map]
    exact hks.symm
  have hnodup : (ks.map (·.1)).Nodup := by
    refine List.Nodup.of_map (iriPrefix iri ++ ·.flat) (hmap ▸ ?_)
    rw [SortedMap.scanPrefix_eq]
    exact List.pairwise_map.mpr ((table.sorted.filter _).imp ne_of_lt)
  refine ⟨ks.map (·.1), Multiset.Nodup.ext (Multiset.coe_nodup.mpr hnodup) (idx iri).nodup |>.mpr
    fun k => ?_, hmap⟩
  rw [Multiset.mem_coe, Finset.mem_val]
  constructor
  · intro hk
    obtain ⟨k', -, rfl⟩ := List.mem_map.mp hk
    exact k'.2
  · intro hk
    have hmem : iriPrefix iri ++ k.flat ∈ (table.scanPrefix (iriPrefix iri)).map (·.1) :=
      List.mem_map.mpr ⟨(iriPrefix iri ++ k.flat, ()), (h.mem_scan hiri).mpr ⟨k, hk, rfl⟩, rfl⟩
    rw [hmap] at hmem
    obtain ⟨k', hk', heq⟩ := List.mem_map.mp hmem
    have hidx : k' ∈ idx iri := by
      obtain ⟨k'', -, rfl⟩ := List.mem_map.mp hk'
      exact k''.2
    rw [List.append_cancel_left_eq, flat_inj (h.clean iri k' hidx).2 (h.clean iri k hk).2] at heq
    exact heq ▸ hk'

end IndexSimulates

variable {W : Type} {codec : Codec GraphEdge W}

/-- redb holds what the store in memory holds. -/
structure Simulates (codec : Codec GraphEdge W) (r : RedbGraphStore W) (s : SimpleGraphStore) :
    Prop where
  triples : ∀ k : TripleKey, k.Clean → r.triples.get k.flat = (s.edges k).map codec.serialise
  subjectIdx : IndexSimulates r.subjectIdx s.subjectIdx
  objectIdx : IndexSimulates r.objectIdx s.objectIdx

/-- A scan of an index gives the edges of the keys. -/
theorem scanIndexForEdges_eq {triples : Table W} {edges : TripleKey → Option GraphEdge}
    {table : Table Unit} {idx : Str → Finset TripleKey}
    (htriples : ∀ k : TripleKey, k.Clean → triples.get k.flat = (edges k).map codec.serialise)
    (h : IndexSimulates table idx) {iri : Str} (hiri : 0 ∉ iri) :
    (RedbGraphStore.scanIndexForEdges codec triples table iri).map (↑) =
      some ((idx iri).val.filterMap edges) := by
  obtain ⟨ks, hks, hmap⟩ := h.scan hiri
  have hfind : ((table.scanPrefix (iriPrefix iri)).filterMap fun entry =>
      triples.get (entry.1.drop (iriPrefix iri).length)) = (ks.filterMap edges).map codec.serialise := by
    have hfst : ((table.scanPrefix (iriPrefix iri)).filterMap fun entry =>
        triples.get (entry.1.drop (iriPrefix iri).length)) =
          ((table.scanPrefix (iriPrefix iri)).map (·.1)).filterMap fun key =>
            triples.get (key.drop (iriPrefix iri).length) := by
      rw [List.filterMap_map]
      rfl
    rw [hfst, hmap, List.filterMap_map, List.map_filterMap]
    refine List.filterMap_congr fun k hk => ?_
    have hmem : k ∈ idx iri := Finset.mem_val.mp (hks ▸ Multiset.mem_coe.mpr hk)
    rw [Function.comp_apply, List.drop_left, htriples k (h.clean iri k hmem).2]
  rw [RedbGraphStore.scanIndexForEdges, hfind, codec.mapM_deserialise, ← hks]
  rfl

theorem Simulates.empty : Simulates codec .empty .new where
  triples _ _ := rfl
  subjectIdx := ⟨fun _ _ h => absurd h (Finset.notMem_empty _),
    fun _ => ⟨fun h => absurd h (List.not_mem_nil), fun ⟨_, _, h, _⟩ => absurd h (Finset.notMem_empty _)⟩⟩
  objectIdx := ⟨fun _ _ h => absurd h (Finset.notMem_empty _),
    fun _ => ⟨fun h => absurd h (List.not_mem_nil), fun ⟨_, _, h, _⟩ => absurd h (Finset.notMem_empty _)⟩⟩

theorem Simulates.insert {r : RedbGraphStore W} {s : SimpleGraphStore} (h : Simulates codec r s)
    {e : GraphEdge} (he : e.Clean) : Simulates codec (r.insert codec e) (s.insert e) where
  triples k hk := by
    simp only [RedbGraphStore.insert, SimpleGraphStore.insert, tripleKey_eq, SortedMap.get_insert,
      flat_inj hk he.key, Function.update_apply]
    split_ifs
    · rfl
    · exact h.triples k hk
  subjectIdx := h.subjectIdx.insert he.subject he.key
  objectIdx := by
    simp only [RedbGraphStore.insert, SimpleGraphStore.insert]
    cases hobject : e.object with
    | node n =>
      have hclean : n.Clean := by
        have hobj := he.object
        rwa [hobject] at hobj
      exact h.objectIdx.insert hclean he.key
    | literal value datatype => exact h.objectIdx

theorem Simulates.delete {r : RedbGraphStore W} {s : SimpleGraphStore} (h : Simulates codec r s)
    {e : GraphEdge} (he : e.Clean) : Simulates codec (r.delete e) (s.delete e) where
  triples k hk := by
    simp only [RedbGraphStore.delete, SimpleGraphStore.delete, tripleKey_eq, SortedMap.get_remove,
      flat_inj hk he.key, Function.update_apply]
    split_ifs
    · rfl
    · exact h.triples k hk
  subjectIdx := h.subjectIdx.remove he.subject he.key
  objectIdx := by
    simp only [RedbGraphStore.delete, SimpleGraphStore.delete]
    cases hobject : e.object with
    | node n =>
      have hclean : n.Clean := by
        have hobj := he.object
        rwa [hobject] at hobj
      exact h.objectIdx.remove hclean he.key
    | literal value datatype => exact h.objectIdx

/-- The two stores hold the same after the same calls. -/
theorem simulates {calls : List Call} (hclean : ∀ c ∈ calls, c.Clean) :
    Simulates codec (redb codec calls) (simple calls) := by
  induction calls using List.reverseRecOn with
  | nil => exact .empty
  | append_singleton calls c ih =>
    have hsim := ih fun d hd => hclean d (List.mem_append_left _ hd)
    have hc := hclean c (by simp)
    rw [redb, simple, List.foldl_concat, List.foldl_concat]
    cases c with
    | insert e => exact hsim.insert hc
    | delete e => exact hsim.delete hc
    | reopen => exact hsim

/-! ### Edges whose keys tell them apart -/

theorem key_of_id {e e' : GraphEdge} (h : e.id = e'.id) :
    TripleKey.fromEdge e = TripleKey.fromEdge e' := by
  obtain ⟨s, p, o⟩ := e
  obtain ⟨s', p', o'⟩ := e'
  simp only [GraphEdge.id, EdgeId.mk.injEq] at h
  obtain ⟨hs, hp, ho⟩ := h
  have hobject : objectKey o = objectKey o' := by
    cases o <;> cases o' <;> simp_all [GraphObject.id, objectKey]
  simp only [TripleKey.fromEdge, hs, hp, hobject]

/-- An edge with the key of a plain one is that edge. -/
theorem id_of_key {e e' : GraphEdge} (hplain : e.object.Plain)
    (h : TripleKey.fromEdge e = TripleKey.fromEdge e') : e.id = e'.id := by
  obtain ⟨s, p, o⟩ := e
  obtain ⟨s', p', o'⟩ := e'
  simp only [TripleKey.fromEdge, TripleKey.mk.injEq] at h
  obtain ⟨hs, hp, ho⟩ := h
  cases o with
  | literal value datatype => exact hplain.elim
  | node n =>
    cases o' with
    | node n' =>
      simp only [objectKey] at ho
      simp [GraphEdge.id, GraphObject.id, hs, hp, ho]
    | literal value datatype => exact absurd ⟨value, ho.symm⟩ hplain

theorem isSome_update {f : TripleKey → Option GraphEdge} {e : GraphEdge} {k k' : TripleKey} :
    (Function.update f k (some e) k').isSome ↔ k' = k ∨ (f k').isSome := by
  rw [Function.update_apply]
  split_ifs with h <;> simp [h]

theorem isSome_update_none {f : TripleKey → Option GraphEdge} {k k' : TripleKey} :
    (Function.update f k none k').isSome ↔ k' ≠ k ∧ (f k').isSome := by
  rw [Function.update_apply]
  split_ifs with h <;> simp [h]

/-- The keys of the edges, under their subjects. -/
def SubjectIndexed (s : SimpleGraphStore) : Prop :=
  ∀ i k, k ∈ s.subjectIdx i ↔ i = k.subject ∧ (s.edges k).isSome

theorem SubjectIndexed.new : SubjectIndexed .new :=
  fun i k => by simp [SimpleGraphStore.new]

theorem SubjectIndexed.insert {s : SimpleGraphStore} (h : SubjectIndexed s) (e : GraphEdge) :
    SubjectIndexed (s.insert e) := by
  intro i k
  simp only [SimpleGraphStore.insert]
  rw [mem_indexInsert, h, isSome_update]
  constructor
  · rintro (⟨rfl, rfl⟩ | ⟨hi, hk⟩)
    · exact ⟨rfl, .inl rfl⟩
    · exact ⟨hi, .inr hk⟩
  · rintro ⟨hi, rfl | hk⟩
    · exact .inl ⟨hi, rfl⟩
    · exact .inr ⟨hi, hk⟩

theorem SubjectIndexed.delete {s : SimpleGraphStore} (h : SubjectIndexed s) (e : GraphEdge) :
    SubjectIndexed (s.delete e) := by
  intro i k
  simp only [SimpleGraphStore.delete]
  rw [mem_indexRemove, h, isSome_update_none]
  constructor
  · rintro ⟨⟨hi, hk⟩, hne⟩
    refine ⟨hi, fun heq => hne ⟨?_, heq⟩, hk⟩
    rw [hi, heq]
    rfl
  · rintro ⟨hi, hne, hk⟩
    exact ⟨⟨hi, hk⟩, fun hand => hne hand.2⟩

/-- The store holds these edges, all of them plain, each under its key and in both indexes. -/
structure Holds (s : SimpleGraphStore) (edges : Finset EdgeId) : Prop where
  own : ∀ k e, s.edges k = some e → TripleKey.fromEdge e = k ∧ e.object.Plain
  mem : ∀ id, id ∈ edges ↔ ∃ k e, s.edges k = some e ∧ e.id = id
  subjectIdx : ∀ i k, k ∈ s.subjectIdx i ↔ i = k.subject ∧ (s.edges k).isSome
  objectIdx : ∀ i k, k ∈ s.objectIdx i ↔ i = k.object ∧ (s.edges k).isSome

namespace Holds

variable {s : SimpleGraphStore} {edges : Finset EdgeId} {e : GraphEdge}

theorem empty : Holds .new ∅ where
  own k e h := absurd h (by simp [SimpleGraphStore.new])
  mem id := by simp [SimpleGraphStore.new]
  subjectIdx i k := by simp [SimpleGraphStore.new]
  objectIdx i k := by simp [SimpleGraphStore.new]

theorem mem_iff (h : Holds s edges) :
    e.id ∈ edges ↔ (s.edges (TripleKey.fromEdge e)).isSome := by
  rw [h.mem, Option.isSome_iff_exists]
  constructor
  · rintro ⟨k, e', he', hid⟩
    exact ⟨e', by rw [← key_of_id hid, (h.own k e' he').1, he']⟩
  · rintro ⟨e', he'⟩
    obtain ⟨hkey, hplain⟩ := h.own _ _ he'
    exact ⟨_, e', he', id_of_key hplain hkey⟩

theorem insert (h : Holds s edges) (hplain : e.object.Plain) :
    Holds (s.insert e) (Insert.insert e.id edges) where
  own k e' he' := by
    simp only [SimpleGraphStore.insert, Function.update_apply] at he'
    split_ifs at he' with hk
    · obtain rfl := Option.some.inj he'
      exact ⟨hk.symm, hplain⟩
    · exact h.own k e' he'
  mem id := by
    rw [Finset.mem_insert]
    constructor
    · rintro (rfl | hid)
      · exact ⟨TripleKey.fromEdge e, e, by simp [SimpleGraphStore.insert], rfl⟩
      · obtain ⟨k, e', he', rfl⟩ := (h.mem id).mp hid
        by_cases hk : k = TripleKey.fromEdge e
        · have hkey := (h.own k e' he').1
          exact ⟨TripleKey.fromEdge e, e, by simp [SimpleGraphStore.insert],
            id_of_key hplain (hk.symm.trans hkey.symm)⟩
        · exact ⟨k, e', by simp [SimpleGraphStore.insert, hk, he'], rfl⟩
    · rintro ⟨k, e', he', rfl⟩
      simp only [SimpleGraphStore.insert, Function.update_apply] at he'
      split_ifs at he' with hk
      · obtain rfl := Option.some.inj he'
        exact .inl rfl
      · exact .inr ((h.mem _).mpr ⟨k, e', he', rfl⟩)
  subjectIdx := SubjectIndexed.insert h.subjectIdx e
  objectIdx i k := by
    cases hobject : e.object with
    | literal value datatype =>
      rw [hobject] at hplain
      exact hplain.elim
    | node n =>
      have hkey : (TripleKey.fromEdge e).object = n.iri := by simp [TripleKey.fromEdge, hobject, objectKey]
      simp only [SimpleGraphStore.insert, hobject]
      rw [mem_indexInsert, h.objectIdx, isSome_update]
      constructor
      · rintro (⟨rfl, rfl⟩ | ⟨hi, hk⟩)
        · exact ⟨hkey.symm, .inl rfl⟩
        · exact ⟨hi, .inr hk⟩
      · rintro ⟨hi, rfl | hk⟩
        · exact .inl ⟨hi.trans hkey, rfl⟩
        · exact .inr ⟨hi, hk⟩

theorem delete (h : Holds s edges) : Holds (s.delete e) (edges.erase e.id) where
  own k e' he' := by
    simp only [SimpleGraphStore.delete, Function.update_apply] at he'
    split_ifs at he' with hk
    exact h.own k e' he'
  mem id := by
    rw [Finset.mem_erase, h.mem]
    constructor
    · rintro ⟨hne, k, e', he', rfl⟩
      refine ⟨k, e', ?_, rfl⟩
      obtain ⟨hkey, hplain⟩ := h.own k e' he'
      have hk : k ≠ TripleKey.fromEdge e := fun heq => hne (id_of_key hplain (hkey.trans heq))
      simp [SimpleGraphStore.delete, hk, he']
    · rintro ⟨k, e', he', rfl⟩
      simp only [SimpleGraphStore.delete, Function.update_apply] at he'
      split_ifs at he' with hk
      refine ⟨fun hid => hk ?_, k, e', he', rfl⟩
      rw [← (h.own k e' he').1, key_of_id hid]
  subjectIdx := SubjectIndexed.delete h.subjectIdx e
  objectIdx i k := by
    cases hobject : e.object with
    | literal value datatype =>
      simp only [SimpleGraphStore.delete, hobject]
      rw [h.objectIdx, isSome_update_none]
      refine and_congr_right fun hi => ⟨fun hk => ⟨?_, hk⟩, fun hand => hand.2⟩
      rintro rfl
      obtain ⟨e', he'⟩ := Option.isSome_iff_exists.mp hk
      obtain ⟨hkey, hplain⟩ := h.own _ e' he'
      have hid := congrArg EdgeId.object (id_of_key hplain hkey)
      simp only [GraphEdge.id, hobject] at hid
      cases hobject' : e'.object with
      | node n => simp [hobject', GraphObject.id] at hid
      | literal value' datatype' =>
        rw [hobject'] at hplain
        exact hplain
    | node n =>
      have hkey : (TripleKey.fromEdge e).object = n.iri := by
        simp [TripleKey.fromEdge, hobject, objectKey]
      simp only [SimpleGraphStore.delete, hobject]
      rw [mem_indexRemove, h.objectIdx, isSome_update_none]
      constructor
      · rintro ⟨⟨hi, hk⟩, hne⟩
        refine ⟨hi, fun heq => hne ⟨?_, heq⟩, hk⟩
        rw [hi, heq, hkey]
      · rintro ⟨hi, hne, hk⟩
        exact ⟨⟨hi, hk⟩, fun hand => hne hand.2⟩

theorem nodup_filterMap (h : Holds s edges) (ks : Finset TripleKey) :
    ((ks.val.filterMap s.edges).map GraphEdge.id).Nodup := by
  rw [Multiset.map_filterMap]
  refine ks.nodup.filterMap _ fun k k' id hid hid' => ?_
  obtain ⟨e, he, heq⟩ := Option.map_eq_some_iff.mp (Option.mem_def.mp hid)
  obtain ⟨e', he', heq'⟩ := Option.map_eq_some_iff.mp (Option.mem_def.mp hid')
  rw [← (h.own k e he).1, ← (h.own k' e' he').1]
  exact key_of_id (heq.trans heq'.symm)

/-- The edges under the keys of an index. -/
theorem map_filterMap (h : Holds s edges) {ks : Finset TripleKey} {p : EdgeId → Prop}
    [DecidablePred p]
    (hks : ∀ k e, s.edges k = some e → (k ∈ ks ↔ p e.id)) :
    (ks.val.filterMap s.edges).map GraphEdge.id = (edges.filter p).val := by
  refine (Multiset.Nodup.ext (h.nodup_filterMap ks) (edges.filter p).nodup).mpr fun id => ?_
  rw [Multiset.mem_map, Finset.mem_val, Finset.mem_filter, h.mem]
  constructor
  · rintro ⟨e, he, rfl⟩
    obtain ⟨k, hk, hke⟩ := (Multiset.mem_filterMap s.edges _).mp he
    exact ⟨⟨k, e, hke, rfl⟩, (hks k e hke).mp (Finset.mem_val.mp hk)⟩
  · rintro ⟨⟨k, e, hke, rfl⟩, hp⟩
    exact ⟨e, (Multiset.mem_filterMap s.edges _).mpr
      ⟨k, Finset.mem_val.mpr ((hks k e hke).mpr hp), hke⟩, rfl⟩

theorem outgoing (h : Holds s edges) (n : GraphNode) :
    (s.outgoing n).map GraphEdge.id = (edges.filter (·.subject = n.iri)).val := by
  refine h.map_filterMap fun k e hke => ?_
  rw [h.subjectIdx, hke, ← (h.own k e hke).1]
  simp [TripleKey.fromEdge, GraphEdge.id, eq_comm]

theorem incoming (h : Holds s edges) (n : GraphNode) :
    (s.incoming n).map GraphEdge.id = (edges.filter (·.object = .node n.iri)).val := by
  refine h.map_filterMap fun k e hke => ?_
  obtain ⟨rfl, hplain⟩ := h.own k e hke
  rw [h.objectIdx, hke]
  cases hobject : e.object with
  | literal value datatype =>
    rw [hobject] at hplain
    exact hplain.elim
  | node n' => simp [TripleKey.fromEdge, GraphEdge.id, GraphObject.id, objectKey, hobject, eq_comm]

/-- Such a store answers as the set of its edges does. -/
theorem correct (h : Holds s edges) :
    Correct edges s.exists_ (fun n => some (s.outgoing n)) (fun n => some (s.incoming n)) where
  exists_ _ _ := h.mem_iff.symm
  outgoing n _ := congrArg some (h.outgoing n)
  incoming n _ := congrArg some (h.incoming n)

end Holds

theorem holds {calls : List Call} (hplain : ∀ e, .insert e ∈ calls → e.object.Plain) :
    Holds (simple calls) (present calls) := by
  induction calls using List.reverseRecOn with
  | nil => exact .empty
  | append_singleton calls c ih =>
    have hholds := ih fun e he => hplain e (List.mem_append_left _ he)
    rw [simple, present, List.foldl_concat, List.foldl_concat]
    cases c with
    | insert e => exact hholds.insert (hplain e (by simp))
    | delete e => exact hholds.delete
    | reopen => exact hholds

/-! ### The answers -/

/-- Both stores give the same answers, whatever their edges are. -/
structure Same (codec : Codec GraphEdge W) (r : RedbGraphStore W) (s : SimpleGraphStore) : Prop where
  exists_ : ∀ e : GraphEdge, e.Clean → r.exists_ e = s.exists_ e
  outgoing : ∀ n : GraphNode, n.Clean → (r.outgoing codec n).map (↑) = some (s.outgoing n)
  incoming : ∀ n : GraphNode, n.Clean → (r.incoming codec n).map (↑) = some (s.incoming n)

theorem Simulates.same {r : RedbGraphStore W} {s : SimpleGraphStore} (h : Simulates codec r s) :
    Same codec r s where
  exists_ e he := by
    rw [RedbGraphStore.exists_, SimpleGraphStore.exists_, tripleKey_eq, h.triples _ he.key,
      Option.isSome_map]
  outgoing n hn := scanIndexForEdges_eq h.triples h.subjectIdx hn
  incoming n hn := scanIndexForEdges_eq h.triples h.objectIdx hn

theorem Same.correct {r : RedbGraphStore W} {s : SimpleGraphStore} {edges : Finset EdgeId}
    (h : Same codec r s)
    (hs : Correct edges s.exists_ (fun n => some (s.outgoing n)) (fun n => some (s.incoming n))) :
    Correct edges r.exists_ (fun n => (r.outgoing codec n).map (↑))
      (fun n => (r.incoming codec n).map (↑)) where
  exists_ e he := by
    rw [h.exists_ e he]
    exact hs.exists_ e he
  outgoing n hn := by
    rw [h.outgoing n hn]
    exact hs.outgoing n hn
  incoming n hn := by
    rw [h.incoming n hn]
    exact hs.incoming n hn

/-- A literal of no datatype seen so far has the key of the edge that is not plain. -/
theorem exists_collision {e : GraphEdge} (hclean : e.Clean) (hplain : ¬ e.object.Plain)
    (edges : Finset EdgeId) :
    ∃ e' : GraphEdge, e'.Clean ∧ TripleKey.fromEdge e' = TripleKey.fromEdge e ∧ e'.id ∉ edges := by
  have hvalue : ∃ value, objectKey e.object = literalPrefix ++ value := by
    cases hobject : e.object with
    | literal value datatype => exact ⟨value, rfl⟩
    | node n =>
      rw [hobject, GraphObject.Plain, not_not] at hplain
      exact hplain.imp fun value h => h.symm
  obtain ⟨value, hvalue⟩ := hvalue
  have hinj : Function.Injective fun datatype : Option Str =>
      GraphEdge.id ⟨e.subject, e.predicate, .literal value datatype⟩ := by
    intro d d' h
    simpa [GraphEdge.id, GraphObject.id] using h
  obtain ⟨datatype, hfresh⟩ := Infinite.exists_notMem_finset (edges.preimage _ hinj.injOn)
  refine ⟨⟨e.subject, e.predicate, .literal value datatype⟩,
    ⟨hclean.subject, hclean.predicate, trivial⟩, ?_, fun h => hfresh (Finset.mem_preimage.mpr h)⟩
  rw [TripleKey.fromEdge, TripleKey.fromEdge, hvalue, objectKey]

/-- The stores are sets of edges exactly when every object inserted is a node whose IRI does not
look like the key of a literal. -/
theorem setOfEdges_iff (codec : Codec GraphEdge W) (calls : List Call)
    (hclean : ∀ c ∈ calls, c.Clean) :
    SetOfEdges codec calls ↔ ∀ e, .insert e ∈ calls → e.object.Plain := by
  constructor
  · intro hset e he
    by_contra hplain
    obtain ⟨past, future, rfl⟩ := List.append_of_mem he
    obtain ⟨e', he', hkey, hfresh⟩ :=
      exists_collision (hclean _ he) hplain (present (past ++ [.insert e]))
    have hexists : (simple (past ++ [.insert e])).exists_ e' = true := by
      rw [simple, List.foldl_concat]
      simp [SimpleGraphStore.exists_, SimpleGraphStore.insert, hkey]
    obtain ⟨hcorrect, -⟩ := hset (past ++ [.insert e]) future (by simp)
    exact hfresh ((hcorrect.exists_ e' he').mp hexists)
  · rintro hplain past future rfl
    have hsame : Same codec (redb codec past) (simple past) :=
      (simulates fun c hc => hclean c (List.mem_append_left _ hc)).same
    have hcorrect := (holds fun e he => hplain e (List.mem_append_left _ he)).correct
    exact ⟨hcorrect, hsame.correct hcorrect, hsame.exists_, fun n hn =>
      ⟨hsame.outgoing n hn, hsame.incoming n hn⟩⟩

/-- An edge whose names have the IRI alone. -/
def link (subject predicate : Str) (object : GraphObject) : GraphEdge :=
  ⟨⟨subject, subject⟩, ⟨predicate, predicate⟩, object⟩

theorem link_clean {object : GraphObject} (h : object.Clean) : (link [97] [107] object).Clean :=
  ⟨by simp [GraphNode.Clean, link], by simp [GraphNode.Clean, link], h⟩

theorem plain_setOfEdges : SetOfEdges (.verbatim GraphEdge)
    [.insert (link [97] [107] (.node ⟨[98], [98]⟩)), .reopen, .delete (link [97] [107] (.node ⟨[99], [99]⟩))] := by
  have hb : GraphObject.Clean (.node ⟨[98], [98]⟩) := by simp [GraphObject.Clean, GraphNode.Clean]
  have hc : GraphObject.Clean (.node ⟨[99], [99]⟩) := by simp [GraphObject.Clean, GraphNode.Clean]
  refine (setOfEdges_iff (.verbatim GraphEdge) _ ?_).mpr ?_
  · simp only [List.forall_mem_cons, Call.Clean]
    exact ⟨link_clean hb, trivial, link_clean hc, by simp⟩
  · intro e he
    obtain rfl : e = link [97] [107] (.node ⟨[98], [98]⟩) := by simpa using he
    simp [link, GraphObject.Plain, literalPrefix]

/-- After `"b"` was inserted, `"b"^^c` exists. -/
theorem other_datatype_exists : ¬ SetOfEdges (.verbatim GraphEdge)
    [.insert (link [97] [107] (.literal [98] none))] := by
  intro hset
  have hcorrect := (hset [.insert (link [97] [107] (.literal [98] none))] [] rfl).1
  have hclean : (link [97] [107] (.literal [98] (some [99]))).Clean := link_clean trivial
  have hmem := (hcorrect.exists_ _ hclean).mp (by decide)
  exact absurd hmem (by decide)

end NextgenDatabases.Graph
