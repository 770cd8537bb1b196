import NextgenDatabases.Lithoglyph.DocumentBlocks

/-!
# Interchanging the backends

For which calls a client finds the same documents in memory and behind the bridge.
-/
namespace NextgenDatabases.Lithoglyph.Backends

open Foundations (Bytes)

variable {V : Type} {json : Json V}

/-! ### Replacing in a list -/

/-- What is replaced in a list, as a multiset. -/
theorem map_replace {α β : Type} (p : α → Bool) (x : α) (g : α → β) (l : List α) :
    (((l.map fun a => if p a then x else a).map g : List β) : Multiset β) =
      ((l.filter fun a => !p a).map g : List β) +
        Multiset.replicate ((l.filter p).map g).length (g x) := by
  induction l with
  | nil => rfl
  | cons a l ih =>
    cases h : p a with
    | true => simpa [h, Multiset.replicate_succ, ← Multiset.cons_coe] using ih
    | false => simpa [h, ← Multiset.cons_coe] using ih

theorem map_filter_add {α β : Type} (p : α → Bool) (g : α → β) (l : List α) :
    ((l.map g : List β) : Multiset β) =
      ((l.filter fun a => !p a).map g : List β) + ((l.filter p).map g : List β) := by
  induction l with
  | nil => rfl
  | cons a l ih => cases h : p a <;> simpa [h, ← Multiset.cons_coe] using ih

/-- Two splits of one multiset whose second parts are replaced. -/
theorem exchange {α : Type} {kept old kept' old' new new' : Multiset α}
    (h : kept + old = kept' + old') : kept + new = kept' + new' ↔ old' + new = old + new' := by
  constructor
  · intro heq
    refine add_left_cancel (a := kept) ?_
    calc kept + (old' + new) = old' + (kept + new) := by ac_rfl
      _ = (kept' + old') + new' := by rw [heq]; ac_rfl
      _ = kept + (old + new') := by rw [← h]; ac_rfl
  · intro heq
    refine add_left_cancel (a := old') ?_
    calc old' + (kept + new) = kept + (old' + new) := by ac_rfl
      _ = (kept + old) + new' := by rw [heq]; ac_rfl
      _ = old' + (kept' + new') := by rw [h]; ac_rfl

/-! ### The blocks of a run -/

/-- The calls write documents that blocks hold and give back. -/
def Sendable (json : Json V) (calls : List (Call V)) : Prop :=
  ∀ c ∈ calls, ∀ doc ∈ c.documents, Storable json doc

def bridge (json : Json V) (calls : List (Call V)) : DbState × List ℕ :=
  Call.runAll (BridgeBackend.backend json) (.create, []) calls

theorem bridge_concat (calls : List (Call V)) (c : Call V) :
    bridge json (calls ++ [c]) = Call.run (BridgeBackend.backend json) (bridge json calls) c :=
  Call.runAll_concat ..

/-- The database counts every block that an insert was answered. -/
structure Answered (run : DbState × List ℕ) : Prop where
  wf : run.1.Wf
  ids : ∀ id ∈ run.2, 1 ≤ id ∧ id < run.1.storage.superblock.blockCount

theorem Answered.mono {db db' : DbState} {ids : List ℕ} (h : Answered (db, ids)) (hwf : db'.Wf)
    (hcount : db.storage.superblock.blockCount ≤ db'.storage.superblock.blockCount) :
    Answered (db', ids) where
  wf := hwf
  ids id hid := ⟨(h.ids id hid).1, (h.ids id hid).2.trans_le hcount⟩

theorem setCollection_spec {db : DbState} {data : List (Document V)} (hwf : db.Wf)
    (hdata : ∀ doc ∈ data, Storable json doc) (name : String) :
    (BridgeBackend.setCollection json data name db).Wf ∧
      db.storage.superblock.blockCount ≤
        (BridgeBackend.setCollection json data name db).storage.superblock.blockCount ∧
      stored json (BridgeBackend.setCollection json data name db) =
        stored json db + (data.map fromBlock : List (Document V)) := by
  induction data generalizing db with
  | nil => exact ⟨hwf, le_rfl, (add_zero _).symm⟩
  | cons doc data ih =>
    obtain ⟨hdoc, hdata⟩ := List.forall_mem_cons.mp hdata
    obtain ⟨-, hput⟩ := withBridgeTxn_put hwf hdoc.fits
    obtain ⟨hwf', hcount, hstored⟩ := ih hput.wf hdata
    refine ⟨hwf', hput.counted.trans hcount, hstored.trans ?_⟩
    rw [hput.stored_new hwf (BlockStorage.docs_of_le le_rfl), inBlock_write hdoc, List.map_cons,
      ← Multiset.cons_coe, ← Multiset.singleton_add, add_assoc]

theorem Answered.run {run : DbState × List ℕ} (h : Answered run) {c : Call V}
    (hc : ∀ doc ∈ c.documents, Storable json doc) :
    Answered (Call.run (BridgeBackend.backend json) run c) := by
  obtain ⟨db, ids⟩ := run
  cases c with
  | getCollection => exact h
  | setCollection data name =>
    obtain ⟨hwf, hcount, -⟩ := setCollection_spec h.wf hc name
    exact h.mono hwf hcount
  | deleteCollection => exact h
  | insert doc name =>
    have hdoc := hc doc (List.mem_singleton.mpr rfl)
    obtain ⟨hid, hput⟩ := withBridgeTxn_put h.wf hdoc.fits
    have hold := h.mono hput.wf hput.counted
    refine ⟨hput.wf, fun id hmem => ?_⟩
    rcases List.mem_append.mp hmem with hmem | hmem
    · exact hold.ids id hmem
    · rw [List.mem_singleton.mp hmem]
      exact hid ▸ hput.block
  | update doc nth name =>
    simp only [Call.run]
    cases hnth : ids[nth]? with
    | none => exact h
    | some id =>
      obtain ⟨h1, hid⟩ := h.ids id (List.mem_of_getElem? hnth)
      have hput := update_put h.wf (hc doc (List.mem_singleton.mpr rfl)) h1 hid name
      exact h.mono hput.wf hput.counted
  | delete nth name =>
    simp only [Call.run]
    cases hnth : ids[nth]? with
    | none => exact h
    | some id =>
      obtain ⟨h1, hid⟩ := h.ids id (List.mem_of_getElem? hnth)
      have hput := @delete_put _ _ h.wf h1 hid name
      exact h.mono hput.wf hput.counted

theorem answered_bridge {calls : List (Call V)} (h : Sendable json calls) :
    Answered (bridge json calls) := by
  induction calls using List.reverseRecOn with
  | nil => exact ⟨DbState.create_wf, fun id hid => by cases hid⟩
  | append_singleton calls c ih =>
    rw [bridge_concat]
    exact (ih fun d hd => h d (List.mem_append_left _ hd)).run (h c (by simp))

/-- The documents of the blocks, whatever the collection. -/
def pool (json : Json V) (calls : List (Call V)) : Multiset (Document V) :=
  stored json (bridge json calls).1

def inBridge (json : Json V) (calls : List (Call V)) (name : String) : Multiset (Document V) :=
  (BridgeBackend.getCollection json name (bridge json calls).1).map fromBlock

theorem inBridge_eq (calls : List (Call V)) (name : String) :
    inBridge json calls name = pool json calls := by
  rw [inBridge, BridgeBackend.getCollection, List.map_map]
  rfl

theorem pool_eq_zero {calls : List (Call V)} :
    pool json calls = 0 ↔ (bridge json calls).1.readBlocks .document = [] :=
  stored_eq_zero

section Pool

variable {past : List (Call V)} {name : String} (h : Answered (bridge json past))

include h

theorem pool_insert {doc : Document V} (hdoc : Storable json doc) :
    pool json (past ++ [.insert doc name]) = pool json past + {fromBlock doc} := by
  obtain ⟨-, hput⟩ := withBridgeTxn_put h.wf hdoc.fits
  have hnew := @Put.stored_new _ json _ _ _ _ hput h.wf (BlockStorage.docs_of_le le_rfl)
  rw [inBlock_write hdoc] at hnew
  rw [pool, bridge_concat]
  exact hnew

theorem pool_setCollection {data : List (Document V)} (hdata : ∀ doc ∈ data, Storable json doc) :
    pool json (past ++ [.setCollection data name]) =
      pool json past + (data.map fromBlock : List (Document V)) := by
  rw [pool, bridge_concat]
  exact (setCollection_spec h.wf hdata name).2.2

variable {nth block : ℕ} (hid : (bridge json past).2[nth]? = some block)

include hid

theorem pool_split : pool json past = otherBlocks json (bridge json past).1 block +
    inBlock json block ((bridge json past).1.storage.docs block) := by
  obtain ⟨h1, hlt⟩ := h.ids block (List.mem_of_getElem? hid)
  exact stored_split h.wf.owned h1 hlt

theorem pool_update {doc : Document V} (hdoc : Storable json doc) :
    pool json (past ++ [.update doc nth name]) =
      otherBlocks json (bridge json past).1 block + {fromBlock doc} := by
  obtain ⟨h1, hlt⟩ := h.ids block (List.mem_of_getElem? hid)
  rw [pool, bridge_concat, Call.run]
  simp only [hid]
  rw [← @inBlock_write _ json block doc hdoc]
  exact (update_put h.wf hdoc h1 hlt name).stored h.wf

theorem pool_delete : pool json (past ++ [.delete nth name]) =
    otherBlocks json (bridge json past).1 block := by
  obtain ⟨h1, hlt⟩ := h.ids block (List.mem_of_getElem? hid)
  rw [pool, bridge_concat, Call.run]
  simp only [hid]
  exact ((@delete_put _ _ h.wf h1 hlt name).stored h.wf).trans (add_zero _)

end Pool

/-! ### The collections in memory -/

theorem getCollection_setCollection {m : MemoryBackend V} {data : List (Document V)}
    {name other : String} :
    (m.setCollection data name).getCollection other =
      if other = name then data else m.getCollection other := by
  unfold MemoryBackend.getCollection MemoryBackend.setCollection Function.update
  split_ifs with h <;> simp [h]

theorem getCollection_deleteCollection {m : MemoryBackend V} {name other : String} :
    (m.deleteCollection name).getCollection other =
      if other = name then [] else m.getCollection other := by
  unfold MemoryBackend.getCollection MemoryBackend.deleteCollection Function.update
  split_ifs with h <;> simp [h]

/-- The collections of the calls so far. -/
def used (calls : List (Call V)) : List String := calls.map (·.collection)

/-- No other collection was used. -/
def Only (past : List (Call V)) (name : String) : Prop := ∀ other ∈ used past, other = name

/-- The collection was used or there are no documents. -/
def Settled (json : Json V) (past : List (Call V)) (name : String) : Prop :=
  name ∈ used past ∨ (bridge json past).1.readBlocks .document = []

theorem mem_used_concat {past : List (Call V)} {c : Call V} {name : String} :
    name ∈ used (past ++ [c]) ↔ name ∈ used past ∨ name = c.collection := by
  rw [used, List.map_append, List.mem_append, List.map_singleton, List.mem_singleton]
  rfl

theorem Only.settled {past : List (Call V)} {name : String} (h : Only past name) :
    Settled json past name := by
  cases past with
  | nil => exact .inr rfl
  | cons d past =>
    have hmem : d.collection ∈ used (d :: past) := List.mem_cons_self ..
    exact .inl (h _ hmem ▸ hmem)

variable [DecidableEq V]

def memory (json : Json V) (calls : List (Call V)) : MemoryBackend V × List ℕ :=
  Call.runAll (MemoryBackend.backend json) (.empty, []) calls

theorem memory_concat (calls : List (Call V)) (c : Call V) :
    memory json (calls ++ [c]) = Call.run (MemoryBackend.backend json) (memory json calls) c :=
  Call.runAll_concat ..

/-- A call leaves the other collections alone. -/
theorem run_other {m : MemoryBackend V × List ℕ} {c : Call V} {name : String}
    (h : name ≠ c.collection) :
    (Call.run (MemoryBackend.backend json) m c).1.getCollection name = m.1.getCollection name := by
  cases c with
  | getCollection => rfl
  | setCollection data other => exact getCollection_setCollection.trans (if_neg h)
  | deleteCollection other => exact getCollection_deleteCollection.trans (if_neg h)
  | insert doc other => exact getCollection_setCollection.trans (if_neg h)
  | update doc nth other =>
    simp only [Call.run]
    cases m.2[nth]? with
    | none => rfl
    | some id => exact getCollection_setCollection.trans (if_neg h)
  | delete nth other =>
    simp only [Call.run]
    cases m.2[nth]? with
    | none => rfl
    | some id => exact getCollection_setCollection.trans (if_neg h)

theorem getCollection_of_notMem {calls : List (Call V)} {name : String} (h : name ∉ used calls) :
    (memory json calls).1.getCollection name = [] := by
  induction calls using List.reverseRecOn with
  | nil => rfl
  | append_singleton calls c ih =>
    rw [used, List.map_append, List.mem_append, not_or] at h
    rw [memory_concat, run_other (fun heq => h.2 (by simp [heq]))]
    exact ih h.1

/-! ### What a client finds -/

def inMemory (json : Json V) (calls : List (Call V)) (name : String) :
    Multiset (Document V) :=
  ((memory json calls).1.getCollection name).map withoutId

/-- Both backends return the same documents for every collection. -/
def Agree (json : Json V) (calls : List (Call V)) : Prop :=
  ∀ name ∈ used calls, inMemory json calls name = inBridge json calls name

/-- They do so at every point of the run. -/
def Interchangeable (json : Json V) (calls : List (Call V)) :
    Prop :=
  ∀ past future, calls = past ++ future → Agree json past

/-! ### The calls that keep them alike -/

/-- The documents with an id in memory. -/
def identified (json : Json V) (past : List (Call V)) (id : ℕ) (name : String) :
    Multiset (Document V) :=
  (((memory json past).1.getCollection name).filter (MemoryBackend.hasId json id)).map withoutId

/-- How an update by `doc` replaces alike the documents with the id in memory and the document
`listed` of the block. -/
inductive Replaces (listed doc : Document V) (identified : Multiset (Document V)) : Prop
  /-- All of them are the new document already. -/
  | same (hlisted : listed = fromBlock doc) (hall : ∀ d ∈ identified, d = withoutId doc)
  /-- One has the id, and the others with it are the new document already. -/
  | one (k : ℕ) (hdata : "data" ∉ doc)
    (hidentified : identified = listed ::ₘ Multiset.replicate k (withoutId doc))

/-- What a call must meet so that the backends still agree after it. -/
def Keeps (json : Json V) (past : List (Call V)) : Call V → Prop
  | .getCollection name => Settled json past name
  | .setCollection data name => (bridge json past).1.readBlocks .document = [] ∧
      (data = [] ∨ Only past name ∧ ∀ doc ∈ data, "data" ∉ doc)
  | .deleteCollection _ => (bridge json past).1.readBlocks .document = []
  | .insert doc name => Only past name ∧ "data" ∉ doc
  | .update doc nth name => Settled json past name ∧
      ∀ id block, (memory json past).2[nth]? = some id → (bridge json past).2[nth]? = some block →
        ∃ c, (bridge json past).1.storage.docs block = some c ∧
          (Only past name ∨ content json (block, c) = fromBlock doc) ∧
          Replaces (content json (block, c)) doc (identified json past id name)
  | .delete nth name => Settled json past name ∧
      ∀ id block, (memory json past).2[nth]? = some id → (bridge json past).2[nth]? = some block →
        match (bridge json past).1.storage.docs block with
        | some c => Only past name ∧ identified json past id name = {content json (block, c)}
        | none => identified json past id name = 0

theorem replaces_iff {listed doc : Document V} {identified : Multiset (Document V)} :
    {listed} + Multiset.replicate identified.card (withoutId doc) = identified + {fromBlock doc} ↔
      Replaces listed doc identified := by
  constructor
  · intro heq
    by_cases hlisted : listed = fromBlock doc
    · rw [hlisted, add_comm, add_left_inj] at heq
      refine .same hlisted fun d hd => ?_
      rw [← heq] at hd
      exact Multiset.eq_of_mem_replicate hd
    · have hmem : listed ∈ identified := by
        have hin : listed ∈ identified + {fromBlock doc} := by
          rw [← heq]
          exact Multiset.mem_add.mpr (.inl (Multiset.mem_singleton_self _))
        exact (Multiset.mem_add.mp hin).resolve_right fun h =>
          hlisted (Multiset.mem_singleton.mp h)
      obtain ⟨rest, rfl⟩ := Multiset.exists_cons_of_mem hmem
      rw [Multiset.singleton_add, Multiset.cons_add, Multiset.cons_inj_right] at heq
      have hnew : fromBlock doc = withoutId doc := by
        have hin : fromBlock doc ∈ rest + {fromBlock doc} := by simp
        rw [← heq] at hin
        exact Multiset.eq_of_mem_replicate hin
      have hrest : ∀ d ∈ rest, d = withoutId doc := fun d hd => by
        have hin : d ∈ rest + {fromBlock doc} := Multiset.mem_add.mpr (.inl hd)
        rw [← heq] at hin
        exact Multiset.eq_of_mem_replicate hin
      exact .one rest.card (withoutId_eq_fromBlock.mp hnew.symm)
        (by rw [← Multiset.eq_replicate_card.mpr hrest])
  · rintro (⟨hlisted, hall⟩ | ⟨k, hdata, rfl⟩)
    · rw [hlisted, add_comm, ← Multiset.eq_replicate_card.mpr hall]
    · rw [← withoutId_eq_fromBlock.mpr hdata, Multiset.card_cons, Multiset.card_replicate,
        Multiset.replicate_succ, Multiset.singleton_add, Multiset.cons_add, add_comm _ {_},
        Multiset.singleton_add]

/-! ### Agreement after one more call -/

section Step

variable {past : List (Call V)} {c : Call V} {name : String}

theorem inMemory_of_notMem (h : name ∉ used past) : inMemory json past name = 0 := by
  rw [inMemory, getCollection_of_notMem h]
  rfl

theorem inMemory_eq {docs : List (Document V)}
    (h : (memory json past).1.getCollection name = docs) :
    inMemory json past name = (docs.map withoutId : List (Document V)) := by
  rw [inMemory, h]

theorem inMemory_other (h : name ≠ c.collection) :
    inMemory json (past ++ [c]) name = inMemory json past name := by
  rw [inMemory, memory_concat, run_other h, inMemory]

theorem agree_concat_iff (h : Agree json past) : Agree json (past ++ [c]) ↔
    (Only past c.collection ∨ pool json (past ++ [c]) = pool json past) ∧
      inMemory json (past ++ [c]) c.collection = pool json (past ++ [c]) := by
  constructor
  · intro hagree
    refine ⟨or_iff_not_imp_left.mpr fun honly => ?_, ?_⟩
    · rw [Only, not_forall₂] at honly
      obtain ⟨other, hother, hne⟩ := honly
      have hafter := hagree other (mem_used_concat.mpr (.inl hother))
      rw [inBridge_eq, inMemory_other hne, h other hother, inBridge_eq] at hafter
      exact hafter.symm
    · rw [hagree _ (mem_used_concat.mpr (.inr rfl)), inBridge_eq]
  · rintro ⟨hor, hself⟩ name hname
    rw [inBridge_eq]
    by_cases heq : name = c.collection
    · rw [heq, hself]
    · have hused := (mem_used_concat.mp hname).resolve_right heq
      rw [inMemory_other heq, h name hused, inBridge_eq]
      exact (hor.resolve_left fun honly => heq (honly name hused)).symm

theorem settled_iff (h : Agree json past) :
    inMemory json past name = pool json past ↔ Settled json past name := by
  rw [Settled, ← pool_eq_zero]
  by_cases hused : name ∈ used past
  · rw [h name hused, inBridge_eq]
    exact iff_of_true rfl (.inl hused)
  · rw [inMemory_of_notMem hused]
    exact ⟨fun heq => .inr heq.symm, fun hor => (hor.resolve_left hused).symm⟩

/-! ### Calls without ids -/

theorem agree_getCollection (h : Agree json past) :
    Agree json (past ++ [.getCollection name]) ↔ Keeps json past (.getCollection name) := by
  have hpool : pool json (past ++ [.getCollection name]) = pool json past := by
    rw [pool, bridge_concat]
    rfl
  have hmemory : inMemory json (past ++ [.getCollection name]) name = inMemory json past name := by
    rw [inMemory, memory_concat]
    rfl
  rw [agree_concat_iff h, hpool]
  exact ⟨fun hand => (settled_iff h).mp (hmemory ▸ hand.2),
    fun hsettled => ⟨.inr rfl, hmemory.trans ((settled_iff h).mpr hsettled)⟩⟩

theorem agree_deleteCollection (h : Agree json past) :
    Agree json (past ++ [.deleteCollection name]) ↔
      Keeps json past (.deleteCollection name) := by
  have hpool : pool json (past ++ [.deleteCollection name]) = pool json past := by
    rw [pool, bridge_concat]
    rfl
  have hmemory : inMemory json (past ++ [.deleteCollection name]) name = 0 := by
    have hempty : (memory json (past ++ [.deleteCollection name])).1.getCollection name = [] := by
      rw [memory_concat]
      exact getCollection_deleteCollection.trans (if_pos rfl)
    exact inMemory_eq hempty
  rw [agree_concat_iff h, hpool, Keeps, ← pool_eq_zero]
  exact ⟨fun hand => (hmemory ▸ hand.2).symm, fun hzero => ⟨.inr rfl, hmemory.trans hzero.symm⟩⟩

theorem agree_insert (hids : Answered (bridge json past)) (h : Agree json past)
    {doc : Document V} (hdoc : Storable json doc) :
    Agree json (past ++ [.insert doc name]) ↔ Keeps json past (.insert doc name) := by
  have hmemory : inMemory json (past ++ [.insert doc name]) name =
      inMemory json past name + {withoutId doc} := by
    rw [inMemory, memory_concat]
    simp only [Call.run, MemoryBackend.backend, MemoryBackend.insert]
    rw [getCollection_setCollection, if_pos rfl, List.map_append, ← Multiset.coe_add,
      List.map_singleton, Multiset.coe_singleton, withoutId, erase_insert]
    rfl
  rw [agree_concat_iff h, pool_insert hids hdoc, Keeps]
  have hne : pool json past + {fromBlock doc} ≠ pool json past := by simp
  constructor
  · rintro ⟨honly, heq⟩
    have honly := honly.resolve_right hne
    have hsettled : inMemory json past name = pool json past :=
      (settled_iff h).mpr honly.settled
    refine ⟨honly, withoutId_eq_fromBlock.mp ?_⟩
    rw [show (Call.insert doc name).collection = name from rfl, hmemory, hsettled, add_right_inj]
      at heq
    exact Multiset.singleton_inj.mp heq
  · rintro ⟨honly, hdata⟩
    refine ⟨.inl honly, ?_⟩
    rw [show (Call.insert doc name).collection = name from rfl, hmemory,
      (settled_iff h).mpr honly.settled, withoutId_eq_fromBlock.mpr hdata]

theorem agree_setCollection (hids : Answered (bridge json past)) (h : Agree json past)
    {data : List (Document V)} (hdata : ∀ doc ∈ data, Storable json doc) :
    Agree json (past ++ [.setCollection data name]) ↔
      Keeps json past (.setCollection data name) := by
  have hmemory : inMemory json (past ++ [.setCollection data name]) name =
      (data.map withoutId : List (Document V)) := by
    refine inMemory_eq ?_
    rw [memory_concat]
    exact getCollection_setCollection.trans (if_pos rfl)
  rw [agree_concat_iff h, pool_setCollection hids hdata, Keeps, ← pool_eq_zero]
  rw [show (Call.setCollection data name).collection = name from rfl, hmemory]
  constructor
  · rintro ⟨hor, heq⟩
    have hzero : pool json past = 0 := by
      have hcard := congrArg Multiset.card heq
      rw [Multiset.card_add, Multiset.coe_card, Multiset.coe_card, List.length_map,
        List.length_map] at hcard
      exact Multiset.card_eq_zero.mp (by omega)
    refine ⟨hzero, ?_⟩
    rcases hor with honly | hsame
    · refine .inr ⟨honly, fun doc hdoc hmem => ?_⟩
      rw [hzero, zero_add] at heq
      have hin : withoutId doc ∈ ((data.map fromBlock : List (Document V)) : Multiset _) :=
        heq ▸ Multiset.mem_coe.mpr (List.mem_map_of_mem hdoc)
      obtain ⟨other, -, hother⟩ := List.mem_map.mp (Multiset.mem_coe.mp hin)
      obtain ⟨v, hv⟩ := Finmap.mem_iff.mp hmem
      have hlookup := congrArg (Finmap.lookup "data") hother
      rw [withoutId, fromBlock, Finmap.lookup_erase_ne (by decide), Finmap.lookup_erase,
        Finmap.lookup_erase_ne (by decide), hv] at hlookup
      exact absurd hlookup (by simp)
    · rw [hzero, zero_add, Multiset.coe_eq_zero, List.map_eq_nil_iff] at hsame
      exact .inl hsame
  · rintro ⟨hzero, rfl | ⟨honly, hdata⟩⟩
    · simp [hzero]
    · refine ⟨.inl honly, ?_⟩
      have hsame : data.map withoutId = data.map fromBlock :=
        List.map_congr_left fun doc hdoc => withoutId_eq_fromBlock.mpr (hdata doc hdoc)
      rw [hzero, zero_add, hsame]

/-! ### Calls with an id -/

/-- The documents of a collection without the id. -/
def others (json : Json V) (past : List (Call V)) (id : ℕ) (name : String) :
    Multiset (Document V) :=
  (((memory json past).1.getCollection name).filter
    fun d => !MemoryBackend.hasId json id d).map withoutId

theorem inMemory_split (id : ℕ) : inMemory json past name =
    others json past id name + identified json past id name :=
  map_filter_add ..

theorem inMemory_update {doc : Document V} {nth id : ℕ}
    (hid : (memory json past).2[nth]? = some id) :
    inMemory json (past ++ [.update doc nth name]) name = others json past id name +
      Multiset.replicate (identified json past id name).card (withoutId doc) := by
  rw [inMemory, memory_concat, Call.run]
  simp only [hid, MemoryBackend.backend, MemoryBackend.update]
  rw [getCollection_setCollection, if_pos rfl]
  exact map_replace ..

theorem inMemory_delete {nth id : ℕ} (hid : (memory json past).2[nth]? = some id) :
    inMemory json (past ++ [.delete nth name]) name = others json past id name := by
  rw [inMemory, memory_concat, Call.run]
  simp only [hid, MemoryBackend.backend, MemoryBackend.delete]
  rw [getCollection_setCollection, if_pos rfl]
  rfl

/-- Both backends have answered as many inserts. -/
theorem length_ids (calls : List (Call V)) :
    (memory json calls).2.length = (bridge json calls).2.length := by
  induction calls using List.reverseRecOn with
  | nil => rfl
  | append_singleton calls c ih =>
    rw [memory_concat, bridge_concat]
    cases c with
    | getCollection | setCollection | deleteCollection => exact ih
    | insert doc name =>
      simp only [Call.run, List.length_append, ih, List.length_singleton]
    | update doc nth name =>
      simp only [Call.run]
      cases (memory json calls).2[nth]? <;> cases (bridge json calls).2[nth]? <;> exact ih
    | delete nth name =>
      simp only [Call.run]
      cases (memory json calls).2[nth]? <;> cases (bridge json calls).2[nth]? <;> exact ih

theorem getElem?_ids (nth : ℕ) :
    (memory json past).2[nth]? = none ∧ (bridge json past).2[nth]? = none ∨
      ∃ id block, (memory json past).2[nth]? = some id ∧
        (bridge json past).2[nth]? = some block := by
  have hlen := @length_ids _ json _ past
  by_cases h : nth < (memory json past).2.length
  · exact .inr ⟨_, _, List.getElem?_eq_getElem h, List.getElem?_eq_getElem (hlen ▸ h)⟩
  · rw [not_lt] at h
    exact .inl ⟨List.getElem?_eq_none h, List.getElem?_eq_none (hlen ▸ h)⟩

/-- A call that reaches neither store. -/
theorem agree_unchanged (h : Agree json past) (hname : c.collection = name)
    (hmemory : inMemory json (past ++ [c]) name = inMemory json past name)
    (hpool : pool json (past ++ [c]) = pool json past) :
    Agree json (past ++ [c]) ↔ Settled json past name := by
  rw [agree_concat_iff h, hpool, hname, hmemory, settled_iff h]
  exact ⟨fun hand => hand.2, fun hsettled => ⟨.inr rfl, hsettled⟩⟩

/-- Without documents in the collection nothing is replaced in it. -/
theorem replaced_eq_zero {id : ℕ} {new : Document V} (h : name ∉ used past) :
    others json past id name = 0 ∧
      Multiset.replicate (identified json past id name).card new = 0 := by
  have hsplit := @inMemory_split _ json _ past name id
  rw [inMemory_of_notMem h] at hsplit
  have hcard := congrArg Multiset.card hsplit
  rw [Multiset.card_zero, Multiset.card_add] at hcard
  rw [show (identified json past id name).card = 0 by omega]
  exact ⟨Multiset.card_eq_zero.mp (by omega), rfl⟩

theorem agree_update (hids : Answered (bridge json past)) (h : Agree json past)
    {doc : Document V} (hdoc : Storable json doc) {nth : ℕ} :
    Agree json (past ++ [.update doc nth name]) ↔ Keeps json past (.update doc nth name) := by
  rcases @getElem?_ids _ json _ past nth with ⟨hnone, hnone'⟩ | ⟨id, block, hid, hblock⟩
  · rw [agree_unchanged h rfl, Keeps]
    · exact ⟨fun hsettled => ⟨hsettled, fun id block hid => by simp [hnone] at hid⟩, fun hk => hk.1⟩
    · rw [inMemory, memory_concat, Call.run]
      simp only [hnone]
      rfl
    · rw [pool, bridge_concat, Call.run]
      simp only [hnone']
      rfl
  · have hkeeps : Keeps json past (.update doc nth name) ↔ Settled json past name ∧
        ∃ c, (bridge json past).1.storage.docs block = some c ∧
          (Only past name ∨ content json (block, c) = fromBlock doc) ∧
          Replaces (content json (block, c)) doc (identified json past id name) := by
      rw [Keeps]
      simp [hid, hblock]
    have hsplit := pool_split hids hblock
    have hmemory : Settled json past name →
        others json past id name + identified json past id name = pool json past :=
      fun hsettled => (inMemory_split id).symm.trans ((settled_iff h).mpr hsettled)
    rw [agree_concat_iff h, hkeeps, show (Call.update doc nth name).collection = name from rfl,
      inMemory_update hid, pool_update hids hblock hdoc]
    -- the block is written, so there are documents after the update
    have hsettled_of (heq : others json past id name +
        Multiset.replicate (identified json past id name).card (withoutId doc) =
          otherBlocks json (bridge json past).1 block + {fromBlock doc}) :
        Settled json past name := by
      refine .inl (by_contra fun hused => ?_)
      obtain ⟨hothers, hreplaced⟩ := @replaced_eq_zero _ json _ _ _ id (withoutId doc) hused
      rw [hothers, hreplaced, add_zero] at heq
      simpa using congrArg Multiset.card heq
    cases hdocs : (bridge json past).1.storage.docs block with
    | none =>
      -- the update brings back the document of a freed block
      rw [hdocs, inBlock, Option.elim_none, add_zero] at hsplit
      refine iff_of_false (fun hand => ?_) fun hk => ?_
      · have hcard := congrArg Multiset.card hand.2
        have hcard' := congrArg Multiset.card (hmemory (hsettled_of hand.2))
        rw [hsplit] at hcard'
        simp only [Multiset.card_add, Multiset.card_replicate, Multiset.card_singleton]
          at hcard hcard'
        omega
      · obtain ⟨-, c, hc, -⟩ := hk
        cases hc
    | some c =>
      rw [hdocs, inBlock, Option.elim_some] at hsplit
      rw [hsplit, add_right_inj, Multiset.singleton_inj]
      have hexchange (hsettled : Settled json past name) :
          others json past id name +
              Multiset.replicate (identified json past id name).card (withoutId doc) =
            otherBlocks json (bridge json past).1 block + {fromBlock doc} ↔
          Replaces (content json (block, c)) doc (identified json past id name) :=
        (exchange ((hmemory hsettled).trans hsplit)).trans replaces_iff
      constructor
      · rintro ⟨hor, heq⟩
        have hsettled := hsettled_of heq
        exact ⟨hsettled, c, rfl, hor.imp_right Eq.symm, (hexchange hsettled).mp heq⟩
      · rintro ⟨hsettled, d, hd, hor, hreplaces⟩
        cases hd
        exact ⟨hor.imp_right Eq.symm, (hexchange hsettled).mpr hreplaces⟩

theorem agree_delete (hids : Answered (bridge json past)) (h : Agree json past) {nth : ℕ} :
    Agree json (past ++ [.delete nth name]) ↔ Keeps json past (.delete nth name) := by
  rcases @getElem?_ids _ json _ past nth with ⟨hnone, hnone'⟩ | ⟨id, block, hid, hblock⟩
  · rw [agree_unchanged h rfl, Keeps]
    · exact ⟨fun hsettled => ⟨hsettled, fun id block hid => by simp [hnone] at hid⟩, fun hk => hk.1⟩
    · rw [inMemory, memory_concat, Call.run]
      simp only [hnone]
      rfl
    · rw [pool, bridge_concat, Call.run]
      simp only [hnone']
      rfl
  · have hkeeps : Keeps json past (.delete nth name) ↔ Settled json past name ∧
        match (bridge json past).1.storage.docs block with
        | some c => Only past name ∧ identified json past id name = {content json (block, c)}
        | none => identified json past id name = 0 := by
      rw [Keeps]
      simp [hid, hblock]
    have hsplit := pool_split hids hblock
    have hmemory : Settled json past name →
        others json past id name + identified json past id name = pool json past :=
      fun hsettled => (inMemory_split id).symm.trans ((settled_iff h).mpr hsettled)
    rw [agree_concat_iff h, hkeeps, show (Call.delete nth name).collection = name from rfl,
      inMemory_delete hid, pool_delete hids hblock]
    cases hdocs : (bridge json past).1.storage.docs block with
    | none =>
      rw [hdocs, inBlock, Option.elim_none, add_zero] at hsplit
      rw [← hsplit]
      constructor
      · rintro ⟨-, heq⟩
        have hsettled : Settled json past name := by
          refine or_iff_not_imp_left.mpr fun hused => ?_
          obtain ⟨hothers, -⟩ := @replaced_eq_zero _ json _ _ _ id ∅ hused
          rw [hothers] at heq
          exact pool_eq_zero.mp heq.symm
        refine ⟨hsettled, ?_⟩
        have hsum := hmemory hsettled
        rw [← heq] at hsum
        exact add_eq_left.mp hsum
      · rintro ⟨hsettled, hzero⟩
        refine ⟨.inr rfl, ?_⟩
        rw [← hmemory hsettled, hzero, add_zero]
    | some c =>
      rw [hdocs, inBlock, Option.elim_some] at hsplit
      have hne : otherBlocks json (bridge json past).1 block ≠ pool json past := by
        rw [hsplit]
        simp
      have hcancel (hsettled : Settled json past name) :
          others json past id name = otherBlocks json (bridge json past).1 block ↔
            identified json past id name = {content json (block, c)} := by
        have heq := (hmemory hsettled).trans hsplit
        exact ⟨fun hothers => by rwa [hothers, add_right_inj] at heq,
          fun hidentified => by rwa [hidentified, add_left_inj] at heq⟩
      constructor
      · rintro ⟨hor, heq⟩
        have honly := hor.resolve_right hne
        exact ⟨honly.settled, honly, (hcancel honly.settled).mp heq⟩
      · rintro ⟨hsettled, honly, heq⟩
        exact ⟨.inl honly, (hcancel hsettled).mpr heq⟩

/-! ### Every run -/

/-- The backends agree after one more call just when it keeps them alike. -/
theorem agree_concat (hpast : Sendable json past) (h : Agree json past)
    (hc : ∀ doc ∈ c.documents, Storable json doc) :
    Agree json (past ++ [c]) ↔ Keeps json past c := by
  have hids := answered_bridge hpast
  cases c with
  | getCollection => exact agree_getCollection h
  | setCollection => exact agree_setCollection hids h hc
  | deleteCollection => exact agree_deleteCollection h
  | insert doc => exact agree_insert hids h (hc doc (List.mem_singleton.mpr rfl))
  | update doc => exact agree_update hids h (hc doc (List.mem_singleton.mpr rfl))
  | delete => exact agree_delete hids h

end Step

/-- The backends are interchangeable for just the runs whose calls all keep them alike. -/
theorem interchangeable_iff (calls : List (Call V)) (hsend : Sendable json calls) :
    Interchangeable json calls ↔
      ∀ past c future, calls = past ++ c :: future → Keeps json past c := by
  have hstep {past : List (Call V)} {c : Call V} {future : List (Call V)}
      (hcalls : calls = past ++ c :: future) (h : Agree json past) :
      Agree json (past ++ [c]) ↔ Keeps json past c :=
    agree_concat (fun d hd => hsend d (by simp [hcalls, hd])) h (hsend c (by simp [hcalls]))
  constructor
  · intro h past c future hcalls
    have hnext := h (past ++ [c]) future (by rw [hcalls, List.append_assoc]; rfl)
    exact (hstep hcalls (h past (c :: future) hcalls)).mp hnext
  · intro h past
    induction past using List.reverseRecOn with
    | nil =>
      intro future _ name hname
      simp [used] at hname
    | append_singleton past c ih =>
      intro future hcalls
      rw [List.append_assoc, List.singleton_append] at hcalls
      exact (hstep hcalls (ih (c :: future) hcalls)).mpr (h past c future hcalls)

/-! ### A run -/

theorem forall_split_cons {α : Type} {P : List α → α → Prop} {x : α} {l : List α} :
    (∀ past a future, x :: l = past ++ a :: future → P past a) ↔
      P [] x ∧ ∀ past a future, l = past ++ a :: future → P (x :: past) a := by
  constructor
  · exact fun h => ⟨h [] x l rfl, fun past a future hl => h (x :: past) a future (by rw [hl]; rfl)⟩
  · rintro ⟨hx, hl⟩ past a future heq
    cases past with
    | nil =>
      cases heq
      exact hx
    | cons y past =>
      obtain ⟨rfl, htail⟩ := List.cons.inj heq
      exact hl past a future htail

/-- The text of an object whose only key is `a` with a digit, as JSON has it. -/
def digitText (digit : UInt8) : Bytes := [123, 34, 97, 34, 58, digit, 125]

/-- Values as their JSON texts, for the documents of the run. -/
def sampleJson : Json String where
  write doc :=
    match doc.lookup "a" with
    | some "1" => digitText 49
    | some "2" => digitText 50
    | _ => [123, 125]
  read
    | .data bytes =>
      if bytes = digitText 49 then some (Finmap.singleton "a" "1")
      else if bytes = digitText 50 then some (Finmap.singleton "a" "2")
      else if bytes = [123, 125] then some ∅
      else none
    | _ => none
  string s := "\"" ++ s ++ "\""
  object doc := "\x7b\"block_id\":" ++ (doc.lookup "block_id").getD "null" ++ "\x7d"
  listed block := Finmap.singleton "block_id" (toString block.1)

/-- Two documents, one of which is updated and the other deleted. -/
def sampleRun : List (Call String) :=
  [.insert (Finmap.singleton "a" "1") "c", .insert ∅ "c",
    .update (Finmap.singleton "a" "2") 0 "c", .delete 1 "c", .getCollection "c"]

theorem one_collection_interchangeable : Interchangeable sampleJson sampleRun := by
  refine (interchangeable_iff sampleRun ?_).mpr ?_
  · have hdocs : ∀ doc ∈ sampleRun.flatMap Call.documents, Storable sampleJson doc := by
      simp only [sampleRun, List.flatMap_cons, Call.documents, List.flatMap_nil, List.cons_append,
        List.nil_append, List.forall_mem_cons]
      exact ⟨⟨by decide, rfl⟩, ⟨by decide, rfl⟩, ⟨by decide, rfl⟩, List.forall_mem_nil _⟩
    exact fun c hc doc hdoc => hdocs doc (List.mem_flatMap.mpr ⟨c, hc, hdoc⟩)
  · have hdata {v : String} : "data" ∉ (Finmap.singleton "a" v : Document String) := by
      simp [Finmap.mem_singleton]
    simp only [sampleRun, forall_split_cons]
    refine ⟨⟨by simp [Only, used], hdata⟩, ⟨by simp [Only, used, Call.collection],
      Finmap.notMem_empty⟩, ⟨.inl (by simp [used, Call.collection]), ?_⟩,
      ⟨.inl (by simp [used, Call.collection]), ?_⟩, .inl (by simp [used, Call.collection]), by simp⟩
    · rintro id block hid hblock
      cases hid
      cases hblock
      exact ⟨.data (digitText 49), rfl, .inl (by simp [Only, used, Call.collection]),
        .one 0 hdata (by decide)⟩
    · rintro id block hid hblock
      cases hid
      cases hblock
      exact ⟨by simp [Only, used, Call.collection], by decide⟩

/-- The document of one collection is found in another. -/
theorem document_in_other_collection :
    ¬ Interchangeable sampleJson [.insert ∅ "a", .getCollection "b"] := by
  intro h
  have hagree := h [.insert ∅ "a", .getCollection "b"] [] rfl "b" (by simp [used, Call.collection])
  have hcard := congrArg Multiset.card hagree
  revert hcard
  decide

end NextgenDatabases.Lithoglyph.Backends
