import NextgenDatabases.Lithoglyph.Counted

/-!
# What one transaction commits

The calls of a transaction are buffered without a look at the blocks they name. The commit is the
program only where every update and deletion names a document.
-/
namespace NextgenDatabases.Lithoglyph

open Foundations
open Function (update)

/-- A call of one transaction. -/
inductive Op
  | apply (data : Bytes)
  | update (blockId : ℕ) (data : Bytes)
  | delete (blockId : ℕ)

def Op.call (txn : ℕ) : Op → Call
  | .apply data => .apply .lasts txn data
  | .update id data => .update txn id data
  | .delete id => .delete txn id

/-- An error, or the id of an inserted block. -/
abbrev Reply := Except LgError (Option ℕ)

def invalidTransaction : LgError := ⟨.errInvalidArgument, "Invalid transaction"⟩

namespace DbState

def perform (self : DbState) (txn : ℕ) : Op → Reply × DbState
  | .apply data =>
    match self.apply .lasts txn data with
    | .ok (id, db) => (.ok (some id), db)
    | .error (e, db) => (.error e, db)
  | .update id data =>
    match self.txnRegistry txn with
    | none => (.error invalidTransaction, self)
    | some state =>
      match state.updateBlock id data with
      | .ok state =>
        (.ok none, { self with txnRegistry := Function.update self.txnRegistry txn (some state) })
      | .error e => (.error e, self)
  | .delete id =>
    match self.txnRegistry txn with
    | none => (.error invalidTransaction, self)
    | some state =>
      match state.deleteBlock id with
      | .ok state =>
        (.ok none, { self with txnRegistry := Function.update self.txnRegistry txn (some state) })
      | .error e => (.error e, self)

def performAll (txn : ℕ) : DbState → List Op → List Reply × DbState
  | self, [] => ([], self)
  | self, op :: ops =>
    let (reply, db) := self.perform txn op
    let (replies, db) := performAll txn db ops
    (reply :: replies, db)

end DbState

/-- What a call should do to the documents: an insert adds a new id, an update or deletion acts on
a document, and what does not fit into a block or names no document is refused. -/
inductive Serves (docs : ℕ → Option Content) : Op → Reply → (ℕ → Option Content) → Prop
  | apply {data id} : data.length ≤ payloadSize → docs id = none →
    Serves docs (.apply data) (.ok (some id)) (update docs id (some (.data data)))
  | applyRefused {data e} : payloadSize < data.length → Serves docs (.apply data) (.error e) docs
  | update {id data} : data.length ≤ payloadSize → (docs id).isSome →
    Serves docs (.update id data) (.ok none) (update docs id (some (.data data)))
  | updateRefused {id data e} : payloadSize < data.length ∨ docs id = none →
    Serves docs (.update id data) (.error e) docs
  | delete {id} : (docs id).isSome → Serves docs (.delete id) (.ok none) (update docs id none)
  | deleteRefused {id e} : docs id = none → Serves docs (.delete id) (.error e) docs

def ServesAll : (ℕ → Option Content) → List Op → List Reply → (ℕ → Option Content) → Prop
  | docs, [], [], docs' => docs' = docs
  | docs, op :: ops, reply :: replies, docs' =>
    ∃ mid, Serves docs op reply mid ∧ ServesAll mid ops replies docs'
  | _, _, _, _ => False

/-- The accepted calls as edits, the inserts numbered from `next` on. -/
def edits : ℕ → List Op → List (Edit ℕ Content)
  | _, [] => []
  | next, .apply data :: ops =>
    if data.length ≤ payloadSize then .insert next (.data data) :: edits (next + 1) ops
    else edits next ops
  | next, .update id data :: ops =>
    if data.length ≤ payloadSize then .update id (.data data) :: edits next ops
    else edits next ops
  | next, .delete id :: ops => .delete id :: edits next ops

theorem edits_cons (next : ℕ) (op : Op) (ops : List Op) :
    edits next (op :: ops) =
      edits next [op] ++ edits (next + (Edit.inserts (edits next [op])).length) ops := by
  cases op with
  | apply data =>
    rw [edits, edits]
    split <;> rfl
  | update id data =>
    rw [edits, edits]
    split <;> rfl
  | delete id => rfl

/-- Inserts take consecutive ids. -/
theorem inserts_edits (next : ℕ) (ops : List Op) :
    Edit.inserts (edits next ops) = List.range' next (Edit.inserts (edits next ops)).length := by
  induction ops generalizing next with
  | nil => rfl
  | cons op ops ih =>
    have hone : Edit.inserts (edits next [op])
        = List.range' next (Edit.inserts (edits next [op])).length := by
      cases op with
      | apply data =>
        rw [edits]
        split <;> rfl
      | update id data =>
        rw [edits]
        split <;> rfl
      | delete id => rfl
    rw [edits_cons, inserts_append, List.length_append]
    rw [← List.range'_append_1, ← hone, ← ih]

namespace DbState

/-- The commit of a transaction made the documents what its calls say and left alone every other
block that is neither a document nor newly given out. -/
def CommitsProgram (self : DbState) (txn : ℕ) (ops : List Op) : Prop :=
  let run := (self.begin txn .readWrite).performAll txn ops
  ∃ db, run.2.commit .none txn = .ok db ∧
    ∃ docs, ServesAll self.storage.docs ops run.1 docs ∧
      (∀ id payload, (id, payload) ∈ db.readBlocks .document ↔ docs id = some payload) ∧
      db.onDisk = some db.storage.superblock ∧
      ∀ id, id ≠ 0 → self.storage.docs id = none →
        id < self.storage.superblock.blockCount ∨ db.storage.superblock.blockCount ≤ id →
        db.storage.file id = self.storage.file id

open BlockStorage

variable {db db' db'' : DbState} {txn : ℕ} {state state' state'' : TxnState}

/-- The edits were buffered by the transaction and nothing was written. -/
structure Buffered (db db' : DbState) (txn : ℕ) (state state' : TxnState)
    (es : List (Edit ℕ Content)) : Prop where
  registered : db'.txnRegistry txn = some state'
  active : state'.isActive = true
  mode : state'.mode = .readWrite
  writes : state'.pendingWrites.map PendingWrite.pair
    = state.pendingWrites.map PendingWrite.pair ++ Edit.writes es
  deletes : state'.pendingDeletes = state.pendingDeletes ++ Edit.deletes es
  file : db'.storage.file = db.storage.file
  count : db'.storage.superblock.blockCount
    = db.storage.superblock.blockCount + (Edit.inserts es).length

theorem Buffered.trans {es fs : List (Edit ℕ Content)} (h : Buffered db db' txn state state' es)
    (h' : Buffered db' db'' txn state' state'' fs) :
    Buffered db db'' txn state state'' (es ++ fs) where
  registered := h'.registered
  active := h'.active
  mode := h'.mode
  writes := by rw [h'.writes, h.writes, writes_append, List.append_assoc]
  deletes := by rw [h'.deletes, h.deletes, deletes_append, List.append_assoc]
  file := h'.file.trans h.file
  count := by rw [h'.count, h.count, inserts_append, List.length_append, Nat.add_assoc]

section Open

variable (hstate : db.txnRegistry txn = some state) (hactive : state.isActive = true)
  (hmode : state.mode = .readWrite)

include hstate hactive hmode

theorem Buffered.refused : Buffered db db txn state state [] where
  registered := hstate
  active := hactive
  mode := hmode
  writes := (List.append_nil _).symm
  deletes := (List.append_nil _).symm
  file := rfl
  count := rfl

theorem perform_apply (data : Bytes) : db.perform txn (.apply data) =
    if data.length ≤ payloadSize then
      (.ok (some db.storage.superblock.blockCount), ⟨db.storage.reserveBlockId.2,
        update db.txnRegistry txn
          (some (state.insertBlock db.storage.superblock.blockCount data))⟩)
    else
      (.error ⟨.errInvalidArgument, "Payload too large for single block"⟩, db) := by
  by_cases hfit : data.length ≤ payloadSize
  · have hlen := Nat.not_lt.mpr hfit
    simp [perform, apply, hstate, hactive, hmode, hfit, hlen, reserveBlockId]
  · have hlen := Nat.lt_of_not_le hfit
    simp [perform, apply, hstate, hactive, hmode, hlen]

theorem perform_update (id : ℕ) (data : Bytes) : db.perform txn (.update id data) =
    if data.length ≤ payloadSize then
      (.ok none, { db with txnRegistry := update db.txnRegistry txn (some (state.withWrite
        ⟨id, data, s!"UPDATE block_id={id} size={data.length}", false⟩)) })
    else
      (.error ⟨.errInvalidArgument, "Payload too large"⟩, db) := by
  by_cases hfit : data.length ≤ payloadSize
  · have hlen := Nat.not_lt.mpr hfit
    simp [perform, TxnState.updateBlock, hstate, hactive, hmode, hfit, hlen, TxnState.withWrite]
  · have hlen := Nat.lt_of_not_le hfit
    simp [perform, TxnState.updateBlock, hstate, hactive, hmode, hlen]

theorem perform_delete (id : ℕ) : db.perform txn (.delete id) =
    (.ok none,
      { db with txnRegistry := update db.txnRegistry txn (some (state.withDelete id)) }) := by
  simp [perform, TxnState.deleteBlock, hstate, hactive, hmode, TxnState.withDelete]

/-- A call buffers its edit. -/
theorem perform_buffered (op : Op) : ∃ state', Buffered db (db.perform txn op).2 txn state state'
    (edits db.storage.superblock.blockCount [op]) := by
  have hrefused := Buffered.refused hstate hactive hmode
  cases op with
  | apply data =>
    rw [perform_apply hstate hactive hmode, edits]
    split
    · exact ⟨_, Function.update_self .., hactive, hmode, List.map_append,
        (List.append_nil _).symm, rfl, rfl⟩
    · exact ⟨state, hrefused⟩
  | update id data =>
    rw [perform_update hstate hactive hmode, edits]
    split
    · exact ⟨_, Function.update_self .., hactive, hmode, List.map_append,
        (List.append_nil _).symm, rfl, rfl⟩
    · exact ⟨state, hrefused⟩
  | delete id =>
    rw [perform_delete hstate hactive hmode, edits]
    exact ⟨_, Function.update_self .., hactive, hmode, (List.append_nil _).symm, rfl, rfl, rfl⟩

/-- A call is served as it should be just when its edit is live. -/
theorem serves_iff (op : Op) {docs mid : ℕ → Option Content}
    (hnext : docs db.storage.superblock.blockCount = none) :
    Serves docs op (db.perform txn op).1 mid ↔
      Live docs (edits db.storage.superblock.blockCount [op]) ∧
        mid = replay docs (edits db.storage.superblock.blockCount [op]) := by
  cases op with
  | apply data =>
    rw [perform_apply hstate hactive hmode, edits]
    by_cases hfit : data.length ≤ payloadSize
    · rw [if_pos hfit, if_pos hfit]
      constructor
      · intro h
        cases h
        exact ⟨⟨trivial, trivial⟩, rfl⟩
      · rintro ⟨-, rfl⟩
        exact .apply hfit hnext
    · rw [if_neg hfit, if_neg hfit]
      constructor
      · intro h
        cases h
        exact ⟨trivial, rfl⟩
      · rintro ⟨-, rfl⟩
        exact .applyRefused (Nat.lt_of_not_le hfit)
  | update id data =>
    rw [perform_update hstate hactive hmode, edits]
    by_cases hfit : data.length ≤ payloadSize
    · rw [if_pos hfit, if_pos hfit]
      constructor
      · intro h
        cases h with
        | update _ hsome => exact ⟨⟨hsome, trivial⟩, rfl⟩
      · rintro ⟨⟨hsome, -⟩, rfl⟩
        exact .update hfit hsome
    · rw [if_neg hfit, if_neg hfit]
      constructor
      · intro h
        cases h
        exact ⟨trivial, rfl⟩
      · rintro ⟨-, rfl⟩
        exact .updateRefused (.inl (Nat.lt_of_not_le hfit))
  | delete id =>
    rw [perform_delete hstate hactive hmode, edits]
    constructor
    · intro h
      cases h with
      | delete hsome => exact ⟨⟨hsome, trivial⟩, rfl⟩
    · rintro ⟨⟨hsome, -⟩, rfl⟩
      exact .delete hsome

end Open

/-- The calls are calls of the database. -/
theorem perform_next (op : Op) (hstate : db.txnRegistry txn = some state) :
    db.next (op.call txn) = some (db.perform txn op).2 := by
  cases op with
  | apply data =>
    simp only [next, perform, Op.call]
    cases db.apply .lasts txn data <;> rfl
  | update id data =>
    simp only [next, perform, Op.call, hstate, Option.map_some]
    cases state.updateBlock id data <;> rfl
  | delete id =>
    simp only [next, perform, Op.call, hstate, Option.map_some]
    cases state.deleteBlock id <;> rfl

theorem performAll_wf (ops : List Op) (h : db.Wf) (hstate : db.txnRegistry txn = some state)
    (hmode : state.mode = .readWrite) : (performAll txn db ops).2.Wf := by
  induction ops generalizing db state with
  | nil => exact h
  | cons op ops ih =>
    obtain ⟨mid, hone⟩ := perform_buffered hstate (h.usable txn state hstate).1 hmode op
    exact ih (h.next (perform_next op hstate)) hone.registered hone.mode

theorem performAll_buffered (ops : List Op) (hstate : db.txnRegistry txn = some state)
    (hactive : state.isActive = true) (hmode : state.mode = .readWrite) :
    ∃ state', Buffered db (performAll txn db ops).2 txn state state'
      (edits db.storage.superblock.blockCount ops) := by
  induction ops generalizing db state with
  | nil => exact ⟨state, Buffered.refused hstate hactive hmode⟩
  | cons op ops ih =>
    obtain ⟨mid, hone⟩ := perform_buffered hstate hactive hmode op
    obtain ⟨state', hrest⟩ := ih hone.registered hone.active hone.mode
    rw [hone.count] at hrest
    rw [edits_cons]
    exact ⟨state', hone.trans hrest⟩

/-- All calls are served as they should be just when all edits are live. -/
theorem servesAll_iff (ops : List Op) {docs docs' : ℕ → Option Content}
    (hstate : db.txnRegistry txn = some state) (hactive : state.isActive = true)
    (hmode : state.mode = .readWrite)
    (hnext : ∀ id, db.storage.superblock.blockCount ≤ id → docs id = none) :
    ServesAll docs ops (performAll txn db ops).1 docs' ↔
      Live docs (edits db.storage.superblock.blockCount ops) ∧
        docs' = replay docs (edits db.storage.superblock.blockCount ops) := by
  induction ops generalizing db state docs with
  | nil => exact (and_iff_right trivial).symm
  | cons op ops ih =>
    obtain ⟨mid, hone⟩ := perform_buffered hstate hactive hmode op
    have hserves (m : ℕ → Option Content) :=
      @serves_iff _ _ _ hstate hactive hmode op _ m (hnext _ le_rfl)
    have hrest (hlive : Live docs (edits db.storage.superblock.blockCount [op])) :=
      @ih _ _ (replay docs (edits db.storage.superblock.blockCount [op])) hone.registered
        hone.active hone.mode fun id hid => by
          rw [hone.count] at hid
          rw [hlive.replay_none (hnext id (by omega)) ?_]
          rw [inserts_edits, List.mem_range'_1]
          omega
    rw [hone.count] at hrest
    rw [edits_cons, live_append, replay_append]
    constructor
    · rintro ⟨m, hm, hall⟩
      obtain ⟨hlive, rfl⟩ := (hserves m).mp hm
      obtain ⟨hlives, hdocs⟩ := (hrest hlive).mp hall
      exact ⟨⟨hlive, hlives⟩, hdocs⟩
    · rintro ⟨⟨hlive, hlives⟩, hdocs⟩
      exact ⟨_, (hserves _).mpr ⟨hlive, rfl⟩, (hrest hlive).mpr ⟨hlives, hdocs⟩⟩

/-- The edits that a commit makes of the calls of a new transaction. -/
structure Fresh (db : DbState) (es : List (Edit ℕ Content)) : Prop where
  live : Live db.storage.docs es
  inserts : Edit.inserts es
    = List.range' db.storage.superblock.blockCount (Edit.inserts es).length

theorem Fresh.notMem {es : List (Edit ℕ Content)} (h : Fresh db es) {id : ℕ}
    (hid : id < db.storage.superblock.blockCount ∨
      db.storage.superblock.blockCount + (Edit.inserts es).length ≤ id) :
    id ∉ Edit.inserts es := by
  rw [h.inserts, List.mem_range'_1]
  omega

theorem Fresh.ordered {es : List (Edit ℕ Content)} (h : Fresh db es) : Ordered es := by
  refine h.live.ordered (fun k hk => docs_of_le ?_) ?_
  · rw [h.inserts, List.mem_range'_1] at hk
    exact hk.1
  · rw [h.inserts]
    exact List.nodup_range'

/-- The documents after the commit are what the edits make of those before. -/
theorem Fresh.docs {es : List (Edit ℕ Content)} (h : Fresh db es)
    (hc : 0 < db.storage.superblock.blockCount)
    (hbuf : Buffered db db' txn state state' es) (hw : state.pendingWrites = [])
    (hd : state.pendingDeletes = []) (hfin : Finished db'.storage db''.storage state') :
    db''.storage.docs = replay db.storage.docs es := by
  have hcount : db''.storage.superblock.blockCount = db.storage.superblock.blockCount
      + (Edit.inserts es).length + state'.journal.length := by
    rw [hfin.count, hbuf.count]
  funext id
  by_cases hid : 1 ≤ id ∧ id < db''.storage.superblock.blockCount
  · have hdoc : db''.storage.docs id
        = replay (db'.storage.cleared state'.journal.length) es id := by
      rw [BlockStorage.docs, if_pos hid, ← eraseAll_putAll h.ordered]
      refine (hfin.documents id (by omega)).trans ?_
      rw [hbuf.writes, hbuf.deletes, hw, hd]
      rfl
    rw [hdoc]
    by_cases hins : id ∈ Edit.inserts es
    · obtain ⟨v, hv⟩ := mem_inserts.mp hins
      exact replay_of_mem hv
    · refine replay_congr es ?_
      rw [cleared, hbuf.count]
      by_cases hlo : id < db.storage.superblock.blockCount
      · rw [if_neg (by omega), BlockStorage.docs, if_pos ⟨hid.1, hlo⟩]
        exact documents_congr (congrFun hbuf.file id)
      · rw [h.inserts, List.mem_range'_1] at hins
        rw [if_pos (by omega), docs_of_le (by omega)]
  · rw [BlockStorage.docs, if_neg hid]
    have hnone : db.storage.docs id = none := by
      rw [BlockStorage.docs, if_neg (by omega)]
    exact (h.live.replay_none hnone (h.notMem (by omega))).symm

/-- Blocks that are neither documents nor given out since are left alone. -/
theorem Fresh.untouched {es : List (Edit ℕ Content)} (h : Fresh db es)
    (hbuf : Buffered db db' txn state state' es) (hw : state.pendingWrites = [])
    (hd : state.pendingDeletes = []) (hfin : Finished db'.storage db''.storage state') {id : ℕ}
    (h0 : id ≠ 0) (hnone : db.storage.docs id = none)
    (hid : id < db.storage.superblock.blockCount ∨ db''.storage.superblock.blockCount ≤ id) :
    db''.storage.file id = db.storage.file id := by
  rw [hfin.count, hbuf.count] at hid
  have hkey := h.live.key_ne hnone (h.notMem (by omega))
  rw [hfin.other id h0 (by rw [hbuf.count]; omega), hbuf.file]
  · intro hmem
    obtain ⟨pw, hpw, rfl⟩ := List.mem_map.mp hmem
    have hpair : pw.pair ∈ Edit.writes es := by
      have hmap := List.mem_map_of_mem (f := PendingWrite.pair) hpw
      rwa [hbuf.writes, hw] at hmap
    obtain ⟨e, he, hek⟩ := mem_writes hpair
    exact hkey e he hek
  · intro hmem
    rw [hbuf.deletes, hd, List.nil_append] at hmem
    exact hkey _ (mem_deletes.mp hmem) rfl

/-- A transaction commits its program just when every update and deletion names a document at its
point of the program. -/
theorem commits_program_iff (hreached : Reached db) (txn : ℕ) (ops : List Op) :
    db.CommitsProgram txn ops ↔
      Live db.storage.docs (edits db.storage.superblock.blockCount ops) := by
  have hwf := hreached.wf
  have hbegin : (db.begin txn .readWrite).Wf := by
    refine hwf.change hwf.counted hwf.owned fun _ hs => ?_
    cases hs
    exact ⟨rfl, by simp⟩
  have hstate : (db.begin txn .readWrite).txnRegistry txn = some _ := Function.update_self ..
  obtain ⟨state', hbuf⟩ := performAll_buffered ops hstate rfl rfl
  have hrun := performAll_wf ops hbegin hstate rfl
  have hserves (docs : ℕ → Option Content) :=
    @servesAll_iff _ _ _ ops _ docs hstate rfl rfl fun _ => docs_of_le
  have hins := inserts_edits db.storage.superblock.blockCount ops
  obtain ⟨db', hcommit, hfin, -⟩ := commit_none hbuf.registered hbuf.active hrun.counted
    (hrun.usable txn state' hbuf.registered).2
  constructor
  · rintro ⟨-, -, docs, hall, -⟩
    exact ((hserves docs).mp hall).1
  · intro hlive
    have hfresh : Fresh (db.begin txn .readWrite) _ := ⟨hlive, hins⟩
    have howned := hfin.owned hrun.owned
    refine ⟨db', hcommit, _, (hserves _).mpr ⟨hlive, rfl⟩, ?_, onDisk_toBlock hfin.disk, ?_⟩
    · intro id payload
      rw [mem_readBlocks howned, hfresh.docs hwf.counted hbuf rfl rfl hfin]
      rfl
    · exact fun id h0 hnone hid => hfresh.untouched hbuf rfl rfl hfin h0 hnone hid

theorem commits_program_sample :
    create.CommitsProgram 0 [.apply [0x2A], .apply [], .update 1 [0x2B], .delete 2] :=
  (commits_program_iff .refl 0 _).mpr ⟨trivial, trivial, rfl, rfl, trivial⟩

/-- An update of the superblock is accepted. -/
theorem superblock_update_accepted : ¬ create.CommitsProgram 0 [.update 0 [0x2A]] := by
  intro ⟨_, _, _, ⟨_, hserves, _⟩, _⟩
  cases hserves with
  | update _ hsome => cases hsome

end DbState

end NextgenDatabases.Lithoglyph
