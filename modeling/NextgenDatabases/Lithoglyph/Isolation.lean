import NextgenDatabases.Lithoglyph.Counted

/-!
# Isolation

Transactions share one counter of block ids and nothing is checked between `begin` and `commit`.
A run is serial in the order of its commits where every transaction that commits names documents
which no other transaction has changed since it began.
-/
namespace NextgenDatabases.Lithoglyph

open Foundations
open Function (update)

/-- What is recorded of a transaction. -/
structure Session where
  /-- The documents when it began. -/
  begun : ℕ → Option Content
  /-- Its accepted calls. -/
  edits : List (Edit ℕ Content)
  /-- The ids that others have changed by a commit since it began. -/
  since : List ℕ

structure Committed where
  begun : ℕ → Option Content
  edits : List (Edit ℕ Content)

/-- A database with a record of its transactions. -/
structure History where
  db : DbState
  sessions : ℕ → Session
  log : List Committed
  /-- The ids that inserts were given. -/
  given : List ℕ

/-- The committed transactions one after another. -/
def serial (log : List Committed) : ℕ → Option Content :=
  log.foldl (fun docs t => replay docs t.edits) fun _ => none

namespace History

def create : History where
  db := .create
  sessions _ := ⟨fun _ => none, [], []⟩
  log := []
  given := []

def record (self : History) (txn : ℕ) (e : Edit ℕ Content) : ℕ → Session :=
  update self.sessions txn
    { self.sessions txn with edits := (self.sessions txn).edits ++ [e] }

/-- A step of the database and what is recorded of it. -/
def step (self : History) (call : Call) : Option History :=
  (self.db.step call).map fun db =>
    match call with
    | .begin txn _ =>
      { self with db, sessions := update self.sessions txn ⟨self.db.storage.docs, [], []⟩ }
    | .apply memory txn op =>
      match self.db.apply memory txn op with
      | .ok (id, _) =>
        { self with
          db
          sessions := self.record txn (.insert id (.data op))
          given := self.given ++ [id] }
      | .error _ => { self with db }
    | .update txn id data =>
      match self.db.txnRegistry txn with
      | none => { self with db }
      | some state =>
        match state.updateBlock id data with
        | .ok _ => { self with db, sessions := self.record txn (.update id (.data data)) }
        | .error _ => { self with db }
    | .delete txn id =>
      match self.db.txnRegistry txn with
      | none => { self with db }
      | some state =>
        match state.deleteBlock id with
        | .ok _ => { self with db, sessions := self.record txn (.delete id) }
        | .error _ => { self with db }
    | .commit faults txn =>
      match self.db.commit faults txn with
      | .ok _ =>
        let session := self.sessions txn
        { self with
          db
          sessions := fun t =>
            { self.sessions t with
              since := (self.sessions t).since ++ session.edits.map Edit.key }
          log := self.log ++ [⟨session.begun, session.edits⟩] }
      | .error _ => { self with db }
    | .read _ | .abort _ => { self with db }

/-- Memory lasts and there are no faults; what a transaction that commits has updated and deleted was
a document when it did, and no other transaction has changed it since this one began. -/
def NoConflict (self : History) : Call → Prop
  | .apply memory _ _ => memory = .lasts
  | .commit faults txn =>
    let session := self.sessions txn
    faults = .none ∧ ((self.db.txnRegistry txn).isSome →
      Live session.begun session.edits ∧ ∀ k ∈ Edit.changes session.edits, k ∉ session.since)
  | _ => True

/-- The documents are those of the committed transactions in the order of their commits, each on
the state in which it began as far as it changes it, and no id is given out twice. -/
structure Serializable (h : History) : Prop where
  documents : ∀ id payload,
    (id, payload) ∈ h.db.readBlocks .document ↔ serial h.log id = some payload
  begun : ∀ pre t post, h.log = pre ++ t :: post →
    Live (serial pre) t.edits ∧ ∀ k ∈ Edit.changes t.edits, serial pre k = t.begun k
  given : h.given.Nodup

/-! ### The invariant -/

/-- What is buffered is what was recorded. -/
structure Recorded (docs : ℕ → Option Content) (blockCount : ℕ) (session : Session)
    (state : TxnState) : Prop where
  writes : state.pendingWrites.map PendingWrite.pair = Edit.writes session.edits
  deletes : state.pendingDeletes = Edit.deletes session.edits
  inserts : ∀ k ∈ Edit.inserts session.edits, k ≠ 0 ∧ k < blockCount ∧ docs k = none
  nodup : (Edit.inserts session.edits).Nodup
  begun : ∀ k, k ∉ session.since → session.begun k = docs k

structure Serial (h : History) : Prop where
  wf : h.db.Wf
  documents : ∀ id, id ≠ 0 → h.db.storage.documents id = serial h.log id
  zero : serial h.log 0 = none
  fresh : ∀ id, h.db.storage.superblock.blockCount ≤ id → serial h.log id = none
  recorded : ∀ txn state, h.db.txnRegistry txn = some state →
    Recorded (serial h.log) h.db.storage.superblock.blockCount (h.sessions txn) state
  disjoint : ∀ txn txn', txn ≠ txn' → (h.db.txnRegistry txn).isSome →
    (h.db.txnRegistry txn').isSome →
    (Edit.inserts (h.sessions txn).edits).Disjoint (Edit.inserts (h.sessions txn').edits)
  given : h.given.Nodup ∧ ∀ k ∈ h.given, k < h.db.storage.superblock.blockCount
  begun : ∀ pre t post, h.log = pre ++ t :: post →
    Live (serial pre) t.edits ∧ ∀ k ∈ Edit.changes t.edits, serial pre k = t.begun k

open BlockStorage DbState

variable {h : History} {txn : ℕ} {state : TxnState} {session : Session}
  {m : ℕ → Option Content} {n : ℕ}

theorem Serial.docs (hs : h.Serial) : h.db.storage.docs = serial h.log := by
  funext id
  by_cases hid : 1 ≤ id ∧ id < h.db.storage.superblock.blockCount
  · rw [BlockStorage.docs, if_pos hid]
    exact hs.documents id (by omega)
  · rw [BlockStorage.docs, if_neg hid]
    by_cases h0 : id = 0
    · rw [h0, hs.zero]
    · rw [hs.fresh id (by omega)]

theorem Serial.isSerializable (hs : h.Serial) : h.Serializable where
  documents id payload := by rw [mem_readBlocks hs.wf.owned, hs.docs]
  begun := hs.begun
  given := hs.given.1

theorem create_serial : create.Serial where
  wf := create_wf
  documents id h0 := by
    have hnone : create.db.storage.file id = none := put_file_of_ne ⟨_, Superblock.init, false⟩ _ h0
    rw [BlockStorage.documents, hnone]
    rfl
  zero := rfl
  fresh _ _ := rfl
  recorded _ _ h := by cases h
  disjoint _ _ _ h := by cases h
  given := ⟨.nil, by simp [create]⟩
  begun pre t post h := by simp [create] at h

theorem Recorded.update (hr : Recorded m n session state) {id : ℕ} {data : Bytes} {msg : String} :
    Recorded m n { session with edits := session.edits ++ [.update id (.data data)] }
      (state.withWrite ⟨id, data, msg, false⟩) where
  writes := by
    rw [writes_append, ← hr.writes]
    exact List.map_append
  deletes := by
    rw [deletes_append, ← hr.deletes]
    exact (List.append_nil _).symm
  inserts := by simpa [inserts_append, Edit.inserts] using hr.inserts
  nodup := by simpa [inserts_append, Edit.inserts] using hr.nodup
  begun := hr.begun

theorem Recorded.delete (hr : Recorded m n session state) {id : ℕ} :
    Recorded m n { session with edits := session.edits ++ [.delete id] }
      (state.withDelete id) where
  writes := by
    rw [writes_append, ← hr.writes]
    exact (List.append_nil _).symm
  deletes := by
    rw [deletes_append, ← hr.deletes]
    rfl
  inserts := by simpa [inserts_append, Edit.inserts] using hr.inserts
  nodup := by simpa [inserts_append, Edit.inserts] using hr.nodup
  begun := hr.begun

theorem Recorded.insert (hr : Recorded m n session state) (h0 : n ≠ 0) (hn : m n = none)
    {data : Bytes} {msg : String} :
    Recorded m (n + 1) { session with edits := session.edits ++ [.insert n (.data data)] }
      (state.withWrite ⟨n, data, msg, true⟩) where
  writes := by
    rw [writes_append, ← hr.writes]
    exact List.map_append
  deletes := by
    rw [deletes_append, ← hr.deletes]
    exact (List.append_nil _).symm
  inserts k hk := by
    rw [inserts_append, List.mem_append] at hk
    rcases hk with hk | hk
    · obtain ⟨hk0, hlt, hnone⟩ := hr.inserts k hk
      exact ⟨hk0, by omega, hnone⟩
    · rw [List.mem_singleton.mp hk]
      exact ⟨h0, by omega, hn⟩
  nodup := by
    rw [inserts_append]
    refine List.nodup_append.mpr ⟨hr.nodup, List.nodup_singleton _, ?_⟩
    intro a ha b hb hab
    rw [hab, List.mem_singleton.mp hb] at ha
    exact absurd (hr.inserts n ha).2.1 (lt_irrefl n)
  begun := hr.begun

/-- A change of one transaction that gives out no id and writes nothing. -/
theorem Serial.change (hs : h.Serial) {next : Option TxnState}
    (husable : ∀ state, next = some state → state.Usable)
    (hrec : ∀ state, next = some state →
      Recorded (serial h.log) h.db.storage.superblock.blockCount session state)
    (hins : ∀ k ∈ Edit.inserts session.edits,
      (h.db.txnRegistry txn).isSome ∧ k ∈ Edit.inserts (h.sessions txn).edits) :
    Serial { h with
      db := ⟨h.db.storage, update h.db.txnRegistry txn next⟩
      sessions := update h.sessions txn session } where
  wf := hs.wf.change hs.wf.counted hs.wf.owned husable
  documents := hs.documents
  zero := hs.zero
  fresh := hs.fresh
  recorded := by
    refine forall_update (fun state hnext => ?_) fun t state ht hstate => ?_
    · dsimp only
      rw [Function.update_self]
      exact hrec state hnext
    · dsimp only
      rw [Function.update_of_ne ht]
      exact hs.recorded t state hstate
  disjoint t t' hne ht ht' := by
    have hold (t : ℕ) (ht : (update h.db.txnRegistry txn next t).isSome) (k : ℕ)
        (hk : k ∈ Edit.inserts (update h.sessions txn session t).edits) :
        (h.db.txnRegistry t).isSome ∧ k ∈ Edit.inserts (h.sessions t).edits := by
      by_cases heq : t = txn
      · subst heq
        rw [Function.update_self] at hk
        exact hins k hk
      · rw [Function.update_of_ne heq] at ht hk
        exact ⟨ht, hk⟩
    intro k hk hk'
    have hone := hold t ht k hk
    have htwo := hold t' ht' k hk'
    exact hs.disjoint t t' hne hone.1 htwo.1 hone.2 htwo.2
  given := hs.given
  begun := hs.begun

/-- An update or a deletion is put on record. -/
theorem Serial.edit (hs : h.Serial) (hstate : h.db.txnRegistry txn = some state)
    {state' : TxnState} {edit : Edit ℕ Content} (hedit : Edit.inserts [edit] = [])
    (husable : state'.Usable)
    (hrec : Recorded (serial h.log) h.db.storage.superblock.blockCount
      { h.sessions txn with edits := (h.sessions txn).edits ++ [edit] } state') :
    Serial { h with
      db := ⟨h.db.storage, update h.db.txnRegistry txn (some state')⟩
      sessions := h.record txn edit } := by
  refine hs.change (fun _ hnext => ?_) (fun _ hnext => ?_) fun k hk => ?_
  · cases hnext
    exact husable
  · cases hnext
    exact hrec
  · rw [inserts_append, hedit, List.append_nil] at hk
    exact ⟨by simp [hstate], hk⟩

theorem Serial.apply (hs : h.Serial) {op : Bytes} {id : ℕ} {db' : DbState}
    (happly : h.db.apply .lasts txn op = .ok (id, db')) :
    Serial { h with
      db := db'
      sessions := h.record txn (.insert id (.data op))
      given := h.given ++ [id] } := by
  have hwf := hs.wf.apply happly
  obtain ⟨-, state, msg, hstate, -, -, rfl, rfl⟩ := apply_ok happly
  have hrec := hs.recorded txn state hstate
  have hc := hs.wf.counted
  refine
    { wf := hwf
      documents := hs.documents
      zero := hs.zero
      fresh := fun id hid => hs.fresh id (Nat.le_of_succ_le hid)
      recorded := ?_
      disjoint := ?_
      given := ?_
      begun := hs.begun }
  · refine forall_update (fun _ hnext => ?_) fun t st ht hst => ?_
    · cases hnext
      dsimp only
      rw [record, Function.update_self]
      exact hrec.insert (by omega) (hs.fresh _ le_rfl)
    · dsimp only
      rw [record, Function.update_of_ne ht]
      have hold := hs.recorded t st hst
      refine ⟨hold.writes, hold.deletes, fun k hk => ?_, hold.nodup, hold.begun⟩
      obtain ⟨hk0, hlt, hnone⟩ := hold.inserts k hk
      exact ⟨hk0, Nat.lt_succ_of_lt hlt, hnone⟩
  · set n := h.db.storage.superblock.blockCount with hn
    have hold {next : TxnState} (t : ℕ) (ht : (update h.db.txnRegistry txn (some next) t).isSome) :
        (h.db.txnRegistry t).isSome ∧
          ∀ k ∈ Edit.inserts (h.record txn (.insert n (.data op)) t).edits,
            k ∈ Edit.inserts (h.sessions t).edits ∨ (t = txn ∧ k = n) := by
      by_cases heq : t = txn
      · subst heq
        rw [record, Function.update_self, inserts_append]
        exact ⟨by simp [hstate], fun k hk => (List.mem_append.mp hk).imp_right fun hk =>
          ⟨rfl, List.mem_singleton.mp hk⟩⟩
      · rw [record, Function.update_of_ne heq]
        rw [Function.update_of_ne heq] at ht
        exact ⟨ht, fun k hk => .inl hk⟩
    have hlt (t : ℕ) (ht : (h.db.txnRegistry t).isSome) :
        n ∉ Edit.inserts (h.sessions t).edits := by
      obtain ⟨st, hst⟩ := Option.isSome_iff_exists.mp ht
      exact fun hk => absurd ((hs.recorded t st hst).inserts _ hk).2.1 (lt_irrefl _)
    intro t t' hne ht ht' k hk hk'
    obtain ⟨hreg, hkeys⟩ := hold t ht
    obtain ⟨hreg', hkeys'⟩ := hold t' ht'
    rcases hkeys k hk with hold | ⟨rfl, hkn⟩ <;> rcases hkeys' k hk' with hold' | ⟨ht', hkn'⟩
    · exact hs.disjoint t t' hne hreg hreg' hold hold'
    · exact hlt t hreg (hkn' ▸ hold)
    · exact hlt t' hreg' (hkn ▸ hold')
    · exact hne ht'.symm
  · refine ⟨List.nodup_append.mpr ⟨hs.given.1, List.nodup_singleton _, ?_⟩, fun k hk => ?_⟩
    · intro a ha b hb hab
      rw [hab, List.mem_singleton.mp hb] at ha
      exact absurd (hs.given.2 _ ha) (lt_irrefl _)
    · rcases List.mem_append.mp hk with hk | hk
      · exact Nat.lt_succ_of_lt (hs.given.2 k hk)
      · rw [List.mem_singleton.mp hk]
        exact Nat.lt_succ_self _

theorem serial_concat (log : List Committed) (t : Committed) :
    serial (log ++ [t]) = replay (serial log) t.edits := by
  rw [serial, List.foldl_append]
  rfl

theorem Serial.commit (hs : h.Serial) (hstate : h.db.txnRegistry txn = some state)
    (hlive : Live (h.sessions txn).begun (h.sessions txn).edits)
    (hsince : ∀ k ∈ Edit.changes (h.sessions txn).edits, k ∉ (h.sessions txn).since)
    {db' : DbState} (hcommit : h.db.commit .none txn = .ok db') :
    Serial { h with
      db := db'
      sessions := fun t =>
        { h.sessions t with
          since := (h.sessions t).since ++ (h.sessions txn).edits.map Edit.key }
      log := h.log ++ [⟨(h.sessions txn).begun, (h.sessions txn).edits⟩] } := by
  obtain ⟨hactive, hfit⟩ := hs.wf.usable txn state hstate
  obtain ⟨db, hdb, hfin, hreg⟩ := commit_none hstate hactive hs.wf.counted hfit
  obtain rfl : db = db' := Except.ok.inj (hdb.symm.trans hcommit)
  have hwf := hs.wf.commit .none txn
  rw [hcommit] at hwf
  have hrec := hs.recorded txn state hstate
  set es := (h.sessions txn).edits with hes
  -- the documents that the transaction changes are as they were when it began
  have hbegun (k : ℕ) (hk : k ∈ Edit.changes es) : serial h.log k = (h.sessions txn).begun k :=
    (hrec.begun k (hsince k hk)).symm
  have hserial : Live (serial h.log) es := hlive.congr fun k hk => (hbegun k hk).symm
  have hordered : Ordered es := hserial.ordered (fun k hk => (hrec.inserts k hk).2.2) hrec.nodup
  have hnone (k : ℕ) (hk : serial h.log k = none) (hins : k ∉ Edit.inserts es) :
      serial (h.log ++ [⟨(h.sessions txn).begun, es⟩]) k = none := by
    rw [serial_concat]
    exact hserial.replay_none hk hins
  have hother {t : ℕ} {st : TxnState} (ht : db.txnRegistry t = some st) :
      t ≠ txn ∧ h.db.txnRegistry t = some st := by
    rw [hreg] at ht
    by_cases heq : t = txn
    · rw [heq, Function.update_self] at ht
      cases ht
    · rw [Function.update_of_ne heq] at ht
      exact ⟨heq, ht⟩
  refine
    { wf := hwf
      documents := fun id h0 => ?_
      zero := hnone 0 hs.zero fun hk => (hrec.inserts 0 hk).1 rfl
      fresh := fun id hid => ?_
      recorded := fun t st ht => ?_
      disjoint := fun t t' hne ht ht' => ?_
      given := ⟨hs.given.1, fun k hk => ?_⟩
      begun := fun pre t post hlog => ?_ }
  · rw [hfin.documents id h0, hrec.writes, hrec.deletes, eraseAll_putAll hordered, serial_concat]
    refine replay_congr es ?_
    rw [cleared]
    split
    case isTrue hid => exact (hs.fresh id hid.1).symm
    case isFalse => exact hs.documents id h0
  · rw [hfin.count] at hid
    refine hnone id (hs.fresh id (by omega)) fun hk => ?_
    have hlt := (hrec.inserts id hk).2.1
    omega
  · obtain ⟨hne, hst⟩ := hother ht
    have hold := hs.recorded t st hst
    have hdisj := hs.disjoint t txn hne (by simp [hst]) (by simp [hstate])
    refine ⟨hold.writes, hold.deletes, fun k hk => ?_, hold.nodup, fun k hk => ?_⟩
    · obtain ⟨hk0, hlt, hk'⟩ := hold.inserts k hk
      exact ⟨hk0, by rw [hfin.count]; omega, hnone k hk' fun hmem => hdisj hk hmem⟩
    · rw [List.mem_append, not_or] at hk
      rw [hold.begun k hk.1, serial_concat]
      refine (replay_of_forall_ne fun e he heq => hk.2 ?_).symm
      exact heq ▸ List.mem_map_of_mem he
  · obtain ⟨st, hst⟩ := Option.isSome_iff_exists.mp ht
    obtain ⟨st', hst'⟩ := Option.isSome_iff_exists.mp ht'
    exact hs.disjoint t t' hne (by simp [(hother hst).2]) (by simp [(hother hst').2])
  · have hlt := hs.given.2 k hk
    rw [hfin.count]
    omega
  · rcases List.eq_nil_or_concat post with rfl | ⟨rest, last, rfl⟩
    · obtain ⟨rfl, ht⟩ := List.append_inj' hlog.symm rfl
      cases ht
      exact ⟨hserial, hbegun⟩
    · have hinit : pre ++ t :: rest = h.log := by
        have heq : (pre ++ t :: rest) ++ [last] = h.log ++ [⟨(h.sessions txn).begun, es⟩] := by
          simpa using hlog.symm
        exact (List.append_inj' heq rfl).1
      exact hs.begun pre t rest hinit.symm

theorem Serial.step {call : Call} {h' : History} (hs : h.Serial) (hok : h.NoConflict call)
    (hstep : h.step call = some h') : h'.Serial := by
  rw [History.step, Option.map_eq_some_iff] at hstep
  obtain ⟨db, hdb, rfl⟩ := hstep
  rw [step_eq_some] at hdb
  obtain ⟨hdb, -⟩ := hdb
  cases call with
  | begin txn mode =>
    rw [DbState.next] at hdb
    split at hdb
    case h_1 =>
      cases hdb
      refine hs.change (fun _ hnext => ?_) (fun _ hnext => ?_) fun k hk => by cases hk
      · cases hnext
        exact ⟨rfl, by simp⟩
      · cases hnext
        exact ⟨rfl, rfl, by simp [Edit.inserts], .nil, fun k _ => congrFun hs.docs k⟩
    case h_2 => cases hdb
  | apply memory txn op =>
    obtain rfl : memory = .lasts := hok
    rw [DbState.next] at hdb
    cases happly : h.db.apply .lasts txn op with
    | error e =>
      obtain ⟨e, db'⟩ := e
      rw [happly] at hdb
      cases hdb
      simp only [happly]
      rcases apply_error happly with rfl | ⟨hmemory, -⟩ | ⟨hmemory, -⟩
      · exact hs
      · cases hmemory
      · cases hmemory
    | ok reply =>
      rw [happly] at hdb
      cases hdb
      simp only [happly]
      exact hs.apply happly
  | update txn id data =>
    simp only [DbState.next, Option.map_eq_some_iff] at hdb
    obtain ⟨state, hstate, hdb⟩ := hdb
    cases hup : state.updateBlock id data with
    | error e =>
      rw [hup] at hdb
      subst hdb
      simp only [hstate, hup]
      exact hs
    | ok state' =>
      rw [hup] at hdb
      obtain ⟨-, hlen, msg, rfl⟩ := TxnState.updateBlock_ok hup
      subst hdb
      simp only [hstate, hup]
      have husable : (state.withWrite ⟨id, data, msg, false⟩).Usable :=
        (hs.wf.usable txn state hstate).withWrite hlen
      exact hs.edit hstate rfl husable (hs.recorded txn state hstate).update
  | delete txn id =>
    simp only [DbState.next, Option.map_eq_some_iff] at hdb
    obtain ⟨state, hstate, hdb⟩ := hdb
    cases hdel : state.deleteBlock id with
    | error e =>
      rw [hdel] at hdb
      subst hdb
      simp only [hstate, hdel]
      exact hs
    | ok state' =>
      rw [hdel] at hdb
      obtain ⟨-, rfl⟩ := TxnState.deleteBlock_ok hdel
      subst hdb
      simp only [hstate, hdel]
      have husable := hs.wf.usable txn state hstate
      exact hs.edit hstate rfl husable (hs.recorded txn state hstate).delete
  | read =>
    cases hdb
    exact hs
  | commit faults txn =>
    obtain ⟨rfl, hconflict⟩ := hok
    cases hdb
    cases hstate : h.db.txnRegistry txn with
    | none =>
      simp only [DbState.commit, hstate]
      exact hs
    | some state =>
      obtain ⟨hactive, hfit⟩ := hs.wf.usable txn state hstate
      obtain ⟨db', hcommit, -⟩ := commit_none hstate hactive hs.wf.counted hfit
      obtain ⟨hlive, hsince⟩ := hconflict (by simp [hstate])
      simp only [hcommit]
      exact hs.commit hstate hlive hsince hcommit
  | abort txn =>
    rw [DbState.next, DbState.abort] at hdb
    split at hdb
    case h_1 =>
      cases hdb
      exact hs
    case h_2 state hstate =>
      cases hdb
      have hchange := @Serial.change h txn (h.sessions txn) hs none
        (fun _ hnext => by cases hnext) (fun _ hnext => by cases hnext)
        fun k hk => ⟨by simp [hstate], hk⟩
      rwa [Function.update_eq_self] at hchange

/-- Runs without conflicts are serial in the order of their commits. -/
theorem serializable (hrun : Run History.step NoConflict create h) : h.Serializable := by
  have hinv : h.Serial :=
    Run.invariant (fun _ _ _ hs hok hstep => hs.step hok hstep) hrun create_serial
  exact hinv.isSerializable

theorem serializable_sample : ∃ h : History, h.Serializable ∧ h.log.length = 3 := by
  have hbegin := @Run.single _ _ step NoConflict create _ (.begin 0 .readWrite)
    trivial rfl
  have happly := hbegin.tail ⟨.apply .lasts 0 [0x2A], rfl, rfl⟩
  have happly' := happly.tail ⟨.apply .lasts 0 [0x2C], rfl, rfl⟩
  have hfirst := happly'.tail ⟨.commit .none 0, ⟨rfl, fun _ =>
    ⟨⟨trivial, trivial, trivial⟩, fun _ hk => absurd hk List.not_mem_nil⟩⟩, rfl⟩
  have hone := hfirst.tail ⟨.begin 1 .readWrite, trivial, rfl⟩
  have htwo := hone.tail ⟨.begin 2 .readWrite, trivial, rfl⟩
  have hupdate := htwo.tail ⟨.update 1 1 [0x2B], trivial, rfl⟩
  have hdelete := hupdate.tail ⟨.delete 2 2, trivial, rfl⟩
  have hcommit := hdelete.tail ⟨.commit .none 1, ⟨rfl, fun _ =>
    ⟨⟨rfl, trivial⟩, fun _ _ => List.not_mem_nil⟩⟩, rfl⟩
  -- the transactions overlap and change different blocks
  have hapart : ∀ k ∈ [2], k ∉ [1] := by decide
  have hcommit' := hcommit.tail ⟨.commit .none 2, ⟨rfl, fun _ => ⟨⟨rfl, trivial⟩, hapart⟩⟩, rfl⟩
  exact ⟨_, serializable hcommit', rfl⟩

/-- An update brings back a document that another transaction has deleted. -/
theorem deleted_document_returns :
    ∃ h, Run step (fun _ call => call.Faultless) create h ∧ ¬ h.Serializable := by
  have hbegin := @Run.single _ _ step (fun _ call => call.Faultless) create _
    (.begin 0 .readWrite) trivial rfl
  have happly := hbegin.tail ⟨.apply .lasts 0 [0x2A], rfl, rfl⟩
  have hcommit := happly.tail ⟨.commit .none 0, rfl, rfl⟩
  have hone := hcommit.tail ⟨.begin 1 .readWrite, trivial, rfl⟩
  have htwo := hone.tail ⟨.begin 2 .readWrite, trivial, rfl⟩
  have hdelete := htwo.tail ⟨.delete 1 1, trivial, rfl⟩
  have hupdate := hdelete.tail ⟨.update 2 1 [0x2B], trivial, rfl⟩
  have hdeleted := hupdate.tail ⟨.commit .none 1, rfl, rfl⟩
  have hupdated := hdeleted.tail ⟨.commit .none 2, rfl, rfl⟩
  refine ⟨_, hupdated, fun h => ?_⟩
  have hlast := (h.begun [_, _] _ [] rfl).1.1
  cases hlast

end History

end NextgenDatabases.Lithoglyph
