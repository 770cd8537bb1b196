import NextgenDatabases.Lithoglyph.Atomicity
import NextgenDatabases.Lithoglyph.Backends

/-!
# Documents in blocks

What each operation of the bridge does to the documents that the blocks of the database hold.
-/
namespace NextgenDatabases.Lithoglyph.Backends

open Foundations (Bytes putAll eraseAll)
open Function (update)

variable {V : Type} {json : Json V}

/-! ### Documents -/

/-- A document in memory without its id. -/
def withoutId (doc : Document V) : Document V := doc.erase "_id"

/-- A listed document without its block and its id. -/
def fromBlock (doc : Document V) : Document V := (doc.erase "data").erase "_id"

def content (json : Json V) (block : ℕ × Content) : Document V :=
  fromBlock (BridgeBackend.parseBlock json block)

theorem erase_insert {doc : Document V} {key : String} {v : V} :
    (doc.insert key v).erase key = doc.erase key := by
  refine Finmap.ext_lookup fun other => ?_
  by_cases h : other = key
  · rw [h, Finmap.lookup_erase, Finmap.lookup_erase]
  · rw [Finmap.lookup_erase_ne h, Finmap.lookup_erase_ne h, Finmap.lookup_insert_of_ne _ h]

theorem erase_eq_iff {doc : Document V} {key other : String} (h : key ≠ other) :
    doc.erase other = (doc.erase key).erase other ↔ key ∉ doc := by
  constructor
  · intro heq hmem
    have hlookup : (doc.erase other).lookup key = none := by
      rw [heq, Finmap.lookup_erase_ne h, Finmap.lookup_erase]
    rw [Finmap.lookup_erase_ne h, Finmap.lookup_eq_none] at hlookup
    exact hlookup hmem
  · intro hnot
    have hsame : doc.erase key = doc := by
      refine Finmap.ext_lookup fun x => ?_
      by_cases hx : x = key
      · rw [hx, Finmap.lookup_erase, Finmap.lookup_eq_none.mpr hnot]
      · rw [Finmap.lookup_erase_ne hx]
    rw [hsame]

theorem withoutId_eq_fromBlock {doc : Document V} :
    withoutId doc = fromBlock doc ↔ "data" ∉ doc :=
  erase_eq_iff (by decide)

/-- A block holds the text of the document and gives the document back. -/
structure Storable (json : Json V) (doc : Document V) : Prop where
  fits : (json.write doc).length ≤ payloadSize
  read : json.read (.data (json.write doc)) = some doc

theorem content_write {doc : Document V} {id : ℕ} (h : Storable json doc) :
    content json (id, .data (json.write doc)) = fromBlock doc := by
  rw [content, BridgeBackend.parseBlock, h.read, fromBlock, erase_insert, fromBlock]

/-! ### Blocks -/

section Blocks

variable {db db' : DbState} {id : ℕ} {c : Option Content}

/-- The documents of the first `n` blocks. -/
def listed (json : Json V) (docs : ℕ → Option Content) (n : ℕ) : Multiset (Document V) :=
  ((List.range' 1 n).filterMap fun id => (docs id).map fun c => content json (id, c) :
    List (Document V))

/-- The document of one block. -/
def inBlock (json : Json V) (id : ℕ) (c : Option Content) : Multiset (Document V) :=
  c.elim 0 fun c => {content json (id, c)}

/-- The documents of the blocks, whatever the collection. -/
def stored (json : Json V) (db : DbState) : Multiset (Document V) :=
  ((db.readBlocks .document).map (content json) : List (Document V))

/-- The documents of the other blocks. -/
def otherBlocks (json : Json V) (db : DbState) (id : ℕ) : Multiset (Document V) :=
  listed json (update db.storage.docs id none) (db.storage.superblock.blockCount - 1)

theorem inBlock_write {doc : Document V} (h : Storable json doc) :
    inBlock json id (some (.data (json.write doc))) = {fromBlock doc} := by
  rw [inBlock, Option.elim_some, content_write h]

theorem listed_append (docs : ℕ → Option Content) {n k : ℕ} (h : ∀ id, n < id → docs id = none) :
    listed json docs (n + k) = listed json docs n := by
  have hrest : (List.range' (1 + n) k).filterMap
      (fun id => (docs id).map fun c => content json (id, c)) = [] := by
    refine List.filterMap_eq_nil_iff.mpr fun id hid => ?_
    rw [List.mem_range'_1] at hid
    rw [h id (by omega)]
    rfl
  rw [listed, ← List.range'_append_1, List.filterMap_append, hrest, List.append_nil, listed]

theorem listed_update (docs : ℕ → Option Content) {n : ℕ} (h1 : 1 ≤ id) (hn : id ≤ n) :
    listed json (update docs id c) n = listed json (update docs id none) n + inBlock json id c := by
  obtain ⟨k, rfl⟩ := Nat.exists_eq_add_of_le' h1
  obtain ⟨m, rfl⟩ := Nat.exists_eq_add_of_le hn
  have hsplit : List.range' 1 (k + 1 + m) =
      List.range' 1 k ++ (k + 1) :: List.range' (k + 2) m := by
    rw [show k + 1 + m = k + (m + 1) by omega, ← List.range'_append_1, add_comm 1 k,
      List.range'_succ]
  have hsame (c : Option Content) (l : List ℕ) (hl : ∀ j ∈ l, j ≠ k + 1) : l.filterMap
      (fun id => (update docs (k + 1) c id).map fun c => content json (id, c)) =
        l.filterMap fun id => (docs id).map fun c => content json (id, c) :=
    List.filterMap_congr fun j hj => by rw [Function.update_of_ne (hl j hj)]
  have hbefore (j : ℕ) (hj : j ∈ List.range' 1 k) : j ≠ k + 1 := by
    rw [List.mem_range'_1] at hj
    omega
  have hafter (j : ℕ) (hj : j ∈ List.range' (k + 2) m) : j ≠ k + 1 := by
    rw [List.mem_range'_1] at hj
    omega
  rw [listed, listed, hsplit]
  simp only [List.filterMap_append, List.filterMap_cons, Function.update_self, hsame _ _ hbefore,
    hsame _ _ hafter]
  cases c with
  | none => simp [inBlock]
  | some c =>
    simp only [Option.map_some, Option.map_none, inBlock, Option.elim_some, ← Multiset.coe_add,
      ← Multiset.cons_coe, Multiset.add_cons, add_comm _ {content json (k + 1, c)},
      Multiset.singleton_add]

theorem stored_eq (h : db.storage.Owned) : stored json db =
    listed json db.storage.docs (db.storage.superblock.blockCount - 1) := by
  rw [stored, DbState.readBlocks_docs h le_rfl, List.map_filterMap, listed]
  simp only [Option.map_map]
  rfl

theorem stored_eq_zero : stored json db = 0 ↔ db.readBlocks .document = [] := by
  rw [stored, Multiset.coe_eq_zero, List.map_eq_nil_iff]

theorem stored_split (h : db.storage.Owned) (h1 : 1 ≤ id)
    (hid : id < db.storage.superblock.blockCount) :
    stored json db = otherBlocks json db id + inBlock json id (db.storage.docs id) := by
  rw [stored_eq h, otherBlocks, ← listed_update _ h1 (by omega), Function.update_eq_self]

/-- Block `id` was written, or freed. -/
structure Put (db db' : DbState) (id : ℕ) (c : Option Content) : Prop where
  docs : db'.storage.docs = update db.storage.docs id c
  counted : db.storage.superblock.blockCount ≤ db'.storage.superblock.blockCount
  block : 1 ≤ id ∧ id < db'.storage.superblock.blockCount
  wf : db'.Wf

theorem Put.otherBlocks (h : Put db db' id c) (hwf : db.Wf) :
    otherBlocks json db' id = otherBlocks json db id := by
  have hone := hwf.counted
  have hmore := h.counted
  obtain ⟨k, hk⟩ : ∃ k, db'.storage.superblock.blockCount - 1 =
      db.storage.superblock.blockCount - 1 + k := Nat.exists_eq_add_of_le (by omega)
  rw [Backends.otherBlocks, h.docs, Function.update_idem, hk]
  refine listed_append _ fun j hj => ?_
  by_cases heq : j = id
  · rw [heq, Function.update_self]
  · rw [Function.update_of_ne heq, BlockStorage.docs_of_le (by omega)]

theorem Put.stored (h : Put db db' id c) (hwf : db.Wf) :
    stored json db' = Backends.otherBlocks json db id + inBlock json id c := by
  rw [stored_split h.wf.owned h.block.1 h.block.2, h.otherBlocks hwf, h.docs, Function.update_self]

/-- A new block. -/
theorem Put.stored_new (h : Put db db' id c) (hwf : db.Wf) (hnone : db.storage.docs id = none) :
    Backends.stored json db' = Backends.stored json db + inBlock json id c := by
  have hsame : update db.storage.docs id none = db.storage.docs := by
    rw [← hnone, Function.update_eq_self]
  rw [h.stored hwf, Backends.otherBlocks, hsame, stored_eq hwf.owned]

/-! ### Transactions of one operation -/

theorem wf_begin (hwf : db.Wf) (txn : ℕ) (mode : LgTxnMode) : (db.begin txn mode).Wf :=
  hwf.change hwf.counted hwf.owned fun _ hs => by
    cases hs
    exact ⟨rfl, by simp⟩

theorem commit_spec {s : BlockStorage} {registry : ℕ → Option TxnState} {state : TxnState}
    (hwf : DbState.Wf ⟨s, update registry 0 (some state)⟩) :
    BlockStorage.Finished s (BridgeBackend.commit ⟨s, update registry 0 (some state)⟩).storage
        state ∧
      (BridgeBackend.commit ⟨s, update registry 0 (some state)⟩).Wf := by
  have hstate : DbState.txnRegistry ⟨s, update registry 0 (some state)⟩ 0 = some state := rfl
  have husable := hwf.usable 0 state hstate
  obtain ⟨db', hok, hfinished, -⟩ :=
    DbState.commit_none hstate husable.1 hwf.counted husable.2
  have hwf' := hwf.commit .none 0
  rw [BridgeBackend.commit, hok]
  rw [hok] at hwf'
  exact ⟨hfinished, hwf'⟩

theorem docs_finished {s s' : BlockStorage} {state : TxnState}
    (h : BlockStorage.Finished s s' state) (hone : state.journal.length = 1) (id : ℕ) :
    s'.docs id = if 1 ≤ id ∧ id < s.superblock.blockCount + 1 then
      eraseAll (putAll (s.cleared 1) (state.pendingWrites.map PendingWrite.pair))
        state.pendingDeletes id else none := by
  rw [BlockStorage.docs, h.count, hone]
  split
  case isTrue hid =>
    rw [← hone]
    exact h.documents id (by omega)
  case isFalse => rfl

/-- What the next journal entry leaves of the documents. -/
theorem cleared_of_lt {s : BlockStorage} (h1 : 1 ≤ id) (hid : id < s.superblock.blockCount) :
    s.cleared 1 id = s.docs id := by
  rw [BlockStorage.cleared, if_neg (by omega), BlockStorage.docs, if_pos ⟨h1, hid⟩]
  rfl

theorem cleared_self (s : BlockStorage) : s.cleared 1 s.superblock.blockCount = none :=
  if_pos ⟨le_rfl, Nat.lt_succ_self _⟩

theorem docs_zero (s : BlockStorage) : s.docs 0 = none := if_neg (by omega)

/-- The transaction that `begin` opens. -/
def begun (db : DbState) : TxnState where
  mode := .readWrite
  isActive := true
  sequence := db.storage.superblock.journalHead + 1
  pendingWrites := []
  pendingDeletes := []

theorem begin_registry (db : DbState) : (db.begin 0 .readWrite).txnRegistry 0 = some (begun db) :=
  rfl

theorem apply_begun {text : Bytes} (hfits : text.length ≤ payloadSize) :
    (db.begin 0 .readWrite).apply .lasts 0 text =
      .ok (db.storage.superblock.blockCount,
        { storage := db.storage.reserveBlockId.2
          txnRegistry := update (db.begin 0 .readWrite).txnRegistry 0
            (some ((begun db).insertBlock db.storage.superblock.blockCount text)) }) := by
  simp only [DbState.apply, begin_registry]
  rw [if_neg (by simp [begun]), if_neg (by simp [begun]), if_neg (Nat.not_lt.mpr hfits)]
  rfl

/-- A document goes into the next block, and the journal entry into the one after it. -/
theorem withBridgeTxn_put (hwf : db.Wf) {text : Bytes} (hfits : text.length ≤ payloadSize) :
    (BridgeBackend.withBridgeTxn text db).2 = db.storage.superblock.blockCount ∧
      Put db (BridgeBackend.withBridgeTxn text db).1 db.storage.superblock.blockCount
        (some (.data text)) := by
  have hwf' := (wf_begin hwf 0 .readWrite).apply (apply_begun hfits)
  obtain ⟨hfinished, hafter⟩ := commit_spec hwf'
  have hcount : db.storage.reserveBlockId.2.superblock.blockCount =
      db.storage.superblock.blockCount + 1 := rfl
  have hone : ((begun db).insertBlock db.storage.superblock.blockCount text).journal.length = 1 :=
    rfl
  have hmore := hfinished.count
  rw [hcount, hone] at hmore
  rw [BridgeBackend.withBridgeTxn, apply_begun hfits]
  refine ⟨rfl, funext fun id => ?_, by simp only; omega, ⟨hwf.counted, by simp only; omega⟩, hafter⟩
  rw [docs_finished hfinished hone, hcount]
  change (if _ then update (db.storage.reserveBlockId.2.cleared 1) db.storage.superblock.blockCount
    (some (.data text)) id else none) = _
  have hwithin := @BlockStorage.docs_of_le db.storage id
  by_cases hid : id = db.storage.superblock.blockCount
  · rw [hid, Function.update_self, Function.update_self, if_pos ⟨hwf.counted, by omega⟩]
  · rw [Function.update_of_ne hid, Function.update_of_ne hid]
    split
    case isTrue h =>
      by_cases hlast : id = db.storage.superblock.blockCount + 1
      · rw [hwithin (by omega), hlast, ← hcount, cleared_self]
      · rw [cleared_of_lt h.1 (by rw [hcount]; omega), BlockStorage.docs,
          if_pos (by rw [hcount]; omega), BlockStorage.docs, if_pos (by omega)]
        rfl
    case isFalse h =>
      by_cases h0 : id = 0
      · rw [h0, docs_zero]
      · rw [hwithin (by omega)]

/-- A block that the database counts is written or freed. -/
theorem withTxn_put (hwf : db.Wf) {operation : TxnState → Except LgError TxnState}
    {state : TxnState} (hok : operation (begun db) = .ok state) (husable : state.Usable)
    (hone : state.journal.length = 1) (h1 : 1 ≤ id) (hid : id < db.storage.superblock.blockCount)
    (hdocs : ∀ docs, eraseAll (putAll docs (state.pendingWrites.map PendingWrite.pair))
      state.pendingDeletes = update docs id c) :
    Put db (BridgeBackend.withTxn operation db).1 id c := by
  have hwf' : DbState.Wf ⟨db.storage, update (db.begin 0 .readWrite).txnRegistry 0 (some state)⟩ :=
    (wf_begin hwf 0 .readWrite).change hwf.counted hwf.owned fun _ hs => by
      cases hs
      exact husable
  obtain ⟨hfinished, hafter⟩ := commit_spec hwf'
  have hmore := hfinished.count
  rw [hone] at hmore
  have heq : (BridgeBackend.withTxn operation db).1 = BridgeBackend.commit
      ⟨db.storage, update (db.begin 0 .readWrite).txnRegistry 0 (some state)⟩ := by
    simp only [BridgeBackend.withTxn, begin_registry, Option.map_some, hok]
    rfl
  rw [heq]
  refine ⟨funext fun j => ?_, by omega, ⟨h1, by omega⟩, hafter⟩
  rw [docs_finished hfinished hone, hdocs]
  have hwithin := @BlockStorage.docs_of_le db.storage j
  by_cases hj : j = id
  · rw [hj, Function.update_self, Function.update_self, if_pos ⟨h1, by omega⟩]
  · rw [Function.update_of_ne hj, Function.update_of_ne hj]
    split
    case isTrue h =>
      by_cases hlast : j = db.storage.superblock.blockCount
      · rw [hwithin hlast.ge, hlast, cleared_self]
      · exact cleared_of_lt h.1 (by omega)
    case isFalse h =>
      by_cases h0 : j = 0
      · rw [h0, docs_zero]
      · exact (hwithin (by omega)).symm

theorem update_put (hwf : db.Wf) {doc : Document V} (hdoc : Storable json doc) (h1 : 1 ≤ id)
    (hid : id < db.storage.superblock.blockCount) (name : String) :
    Put db (BridgeBackend.update json doc id name db).1 id (some (.data (json.write doc))) := by
  have hok : ∃ msg, (begun db).updateBlock id (json.write doc) =
      .ok ((begun db).withWrite ⟨id, json.write doc, msg, false⟩) := by
    rw [TxnState.updateBlock, if_neg (by simp [begun]), if_neg (Nat.not_lt.mpr hdoc.fits)]
    exact ⟨_, rfl⟩
  obtain ⟨msg, hok⟩ := hok
  have husable : (begun db).Usable := ⟨rfl, by simp [begun]⟩
  exact withTxn_put hwf hok (husable.withWrite hdoc.fits) rfl h1 hid fun _ => rfl

theorem delete_put (hwf : db.Wf) (h1 : 1 ≤ id) (hid : id < db.storage.superblock.blockCount)
    (name : String) : Put db (BridgeBackend.delete id name db).1 id none :=
  have husable : ((begun db).withDelete id).Usable := ⟨rfl, by simp [begun, TxnState.withDelete]⟩
  withTxn_put hwf rfl husable rfl h1 hid fun _ => rfl

end Blocks

end NextgenDatabases.Lithoglyph.Backends
