import NextgenDatabases.Wal.Reader

/-!
# Writing the log

The writer numbers the entries, appends their frames to the current segment and
starts a new segment when the current one is full. Every file operation may fail;
a failed write leaves the bytes that were already written.
-/
namespace NextgenDatabases.Wal

open Foundations

inductive SyncMode
  | fsync
  | periodic (interval : ℕ)
  | async
  deriving DecidableEq, Repr

structure WalWriter where
  currentSegment : SegmentInfo
  nextSequence : UInt64
  maxSegmentSize : ℕ
  syncMode : SyncMode
  lastSync : ℕ
  deriving DecidableEq

/-- What the file operations of a call do, and the clock they see. -/
structure AppendIo where
  rotateSync : Bool := true
  create : Bool := true
  /-- The number of bytes written before the write fails. -/
  written : Option ℕ := none
  sync : Bool := true
  instant : ℕ := 0

structure OpenIo where
  createDir : Bool := true
  listDir : Bool := true
  createFile : Bool := true
  readLast : Bool := true
  openLast : Bool := true
  instant : ℕ := 0

namespace WalWriter

/-- The loop that looks for the last sequence number; `data` is what is still unread.
It stops only where a frame does not fit, also behind a length of zero. -/
def scanLoop (lastSequence : UInt64) (data : Bytes) : UInt64 :=
  if 4 ≤ data.length then
    let entryLength := ofLe (data.take 4)
    if data.length < 4 + entryLength then lastSequence
    else
      let lastSequence :=
        if 16 ≤ data.length then
          let seq := UInt64.ofNat (ofLe (slice data 8 8))
          if lastSequence ≤ seq then seq else lastSequence
        else lastSequence
      scanLoop lastSequence (data.drop (4 + entryLength))
  else lastSequence
termination_by data.length
decreasing_by simp only [List.length_drop]; omega

def scanLastSequence (dir : Dir) (segment : SegmentInfo) : WalResult UInt64 :=
  if segment.fileSize = 0 then .ok (segment.startSequence + 1)
  else do
    let data ← dir.read segment.path
    return scanLoop segment.startSequence data + 1

/-- Create the first segment. -/
def firstSegment (files : Dir) (op : OpenIo) : WalResult (SegmentInfo × UInt64) × Dir :=
  if op.createFile then
    (.ok (⟨segmentFilename 0, 0, 0⟩, 1), files.create (segmentFilename 0))
  else (.error .io, files)

/-- Resume from the last segment. -/
def resumeSegment (files : Dir) (last : SegmentInfo) (op : OpenIo) :
    WalResult (SegmentInfo × UInt64) × Dir :=
  match if op.readLast then scanLastSequence files last else .error .io with
  | .error error => (.error error, files)
  | .ok nextSeq => if op.openLast then (.ok (last, nextSeq), files) else (.error .io, files)

def openSegment (files : Dir) (op : OpenIo) : WalResult (SegmentInfo × UInt64) × Dir :=
  match if op.listDir then listSegments (some files) else .error .io with
  | .error error => (.error error, files)
  | .ok segments =>
    match segments.getLast? with
    | none => firstSegment files op
    | some last => resumeSegment files last op

/-- `open_with_max_size`, in a directory that is created if it does not exist. -/
def openWithMaxSize (dir : Option Dir) (syncMode : SyncMode) (maxSegmentSize : ℕ) (op : OpenIo) :
    WalResult WalWriter × Option Dir :=
  if dir = none ∧ op.createDir = false then (.error .io, dir)
  else
    let opened := openSegment (dir.getD []) op
    (opened.1.map fun (currentSegment, nextSequence) =>
      { currentSegment, nextSequence, maxSegmentSize, syncMode, lastSync := op.instant },
      some opened.2)

/-- `sync`: force an fsync. -/
def sync (w : WalWriter) (ok : Bool) (instant : ℕ) : WalResult Unit × WalWriter :=
  if ok then (.ok (), { w with lastSync := instant }) else (.error .io, w)

def maybeSync (w : WalWriter) (ok : Bool) (instant : ℕ) : WalResult Unit × WalWriter :=
  match w.syncMode with
  | .fsync => w.sync ok instant
  | .periodic interval =>
    if interval ≤ instant - w.lastSync then w.sync ok instant else (.ok (), w)
  | .async => (.ok (), w)

def rotate (w : WalWriter) (dir : Dir) (op : AppendIo) : WalResult Unit × WalWriter × Dir :=
  match w.sync op.rotateSync op.instant with
  | (.error error, w) => (.error error, w, dir)
  | (.ok (), w) =>
    let newPath := segmentFilename w.nextSequence
    if op.create then
      (.ok (), { w with currentSegment := ⟨newPath, w.nextSequence, 0⟩ }, dir.create newPath)
    else (.error .io, w, dir)

variable (crc : Bytes → UInt32)

/-- The frame does not fit the current segment any more. -/
def Rotates (w : WalWriter) (bytes : Bytes) : Prop :=
  w.maxSegmentSize < w.currentSegment.fileSize + bytes.length

instance (w : WalWriter) (bytes : Bytes) : Decidable (w.Rotates bytes) :=
  inferInstanceAs (Decidable (_ < _))

/-- `write_all` and what follows it. -/
def writeFrame (w : WalWriter) (dir : Dir) (bytes : Bytes) (op : AppendIo) :
    WalResult Unit × WalWriter × Dir :=
  match op.written with
  | some k => (.error .io, w, dir.write w.currentSegment.path (bytes.take k))
  | none =>
    let segment := { w.currentSegment with fileSize := w.currentSegment.fileSize + bytes.length }
    let synced := { w with currentSegment := segment }.maybeSync op.sync op.instant
    (synced.1, synced.2, dir.write segment.path bytes)

/-- Start a new segment if the frame does not fit. -/
def makeRoom (w : WalWriter) (dir : Dir) (bytes : Bytes) (op : AppendIo) :
    WalResult Unit × WalWriter × Dir :=
  if w.Rotates bytes then w.rotate dir op else (.ok (), w, dir)

/-- The entry as `append` numbers it. -/
def assigned (w : WalWriter) (entry : WalEntry) : WalEntry :=
  { entry with sequence := w.nextSequence }

def append (w : WalWriter) (dir : Dir) (entry : WalEntry) (op : AppendIo) :
    WalResult UInt64 × WalWriter × Dir :=
  let bytes := (w.assigned entry).serialize crc
  let room := { w with nextSequence := w.nextSequence + 1 }.makeRoom dir bytes op
  match room.1 with
  | .error error => (.error error, room.2)
  | .ok () =>
    let written := room.2.1.writeFrame room.2.2 bytes op
    (written.1.map fun _ => w.nextSequence, written.2)

/-- The entry that `checkpoint` appends. -/
def checkpointEntry (timestamp : DateTime) : WalEntry where
  sequence := 0
  timestamp := timestamp
  operation := .checkpoint
  modality := .all
  entityId := ""
  payload := []

/-- `checkpoint`: append, then force an fsync. -/
def checkpoint (w : WalWriter) (dir : Dir) (timestamp : DateTime) (op : AppendIo)
    (forced : Bool) : WalResult UInt64 × WalWriter × Dir :=
  let appended := w.append crc dir (checkpointEntry timestamp) op
  match appended.1 with
  | .error error => (.error error, appended.2)
  | .ok sequence =>
    let synced := appended.2.1.sync forced op.instant
    (synced.1.map fun _ => sequence, synced.2, appended.2.2)

/-- An append leaves the whole frame in the log, whether or not it returns `Ok`. -/
def leavesFrame (w : WalWriter) (dir : Dir) (entry : WalEntry) (op : AppendIo) : Bool :=
  let bytes := (w.assigned entry).serialize crc
  ({ w with nextSequence := w.nextSequence + 1 }.makeRoom dir bytes op).1.isOk &&
    decide (bytes.length ≤ op.written.getD bytes.length)

/-! ### What the scan finds -/

/-- The larger of the last sequence number so far and that of an entry. -/
def later (lastSequence : UInt64) (e : WalEntry) : UInt64 :=
  if lastSequence ≤ e.sequence then e.sequence else lastSequence

variable {crc}

theorem scanLoop_torn {torn : Bytes} (ht : Torn stops torn) (lastSequence : UInt64) :
    scanLoop lastSequence torn = lastSequence := by
  rw [scanLoop]
  split
  · next hlen =>
    obtain rfl | ⟨body, hb, hpre, hlt⟩ := ht
    · simp at hlen
    · have hd : ofLe (torn.take 4) = body.length := declared_of_isPrefix hb.1 hpre hlen
      rw [length_frame] at hlt
      simp only [hd, if_pos hlt]
  · rfl

theorem slice_serialize_append (e : WalEntry) (rest : Bytes) :
    slice (e.serialize crc ++ rest) 8 8 = toLe 8 e.sequence.toNat := by
  rw [WalEntry.serialize, List.append_assoc, slice_of_append (by simp), length_toLe,
    List.append_assoc, slice_of_append (by simp), length_toLe, WalEntry.inner, List.append_assoc,
    slice_head rfl (by simp)]

theorem scanLoop_serialize_append {e : WalEntry} (he : (e.body crc).length < 256 ^ 4)
    (lastSequence : UInt64) (rest : Bytes) :
    scanLoop lastSequence (e.serialize crc ++ rest) = scanLoop (later lastSequence e) rest := by
  have hbody : (e.body crc).length = _ := e.length_body
  have hd : ofLe ((e.serialize crc ++ rest).take 4) = (e.body crc).length := by
    rw [e.serialize_eq_frame]
    exact declared_frame_append he rest
  have hlen : (e.serialize crc ++ rest).length = 4 + (e.body crc).length + rest.length := by
    rw [List.length_append, e.length_serialize]
  have hseq : UInt64.ofNat (ofLe (slice (e.serialize crc ++ rest) 8 8)) = e.sequence := by
    rw [slice_serialize_append, ofLe_toLe_of_lt e.sequence.toNat_lt, UInt64.ofNat_toNat]
  have hdrop : (e.serialize crc ++ rest).drop (4 + (e.body crc).length) = rest := by
    rw [e.serialize_eq_frame, drop_frame_append]
  rw [scanLoop, if_pos (by omega)]
  simp only [hd, hseq, hdrop]
  rw [if_neg (by omega), if_pos (by omega), later]

theorem scanLoop_segmentBytes {entries : List WalEntry} {torn : Bytes}
    (he : ∀ e ∈ entries, (e.body crc).length < 256 ^ 4) (ht : Torn stops torn) (lastSequence : UInt64) :
    scanLoop lastSequence (segmentBytes crc entries torn) = entries.foldl later lastSequence := by
  induction entries generalizing lastSequence with
  | nil => exact scanLoop_torn ht lastSequence
  | cons e es ih =>
    have hes : ∀ e ∈ es, (e.body crc).length < 256 ^ 4 :=
      fun e h => he e (List.mem_cons_of_mem _ h)
    have hsplit : segmentBytes crc (e :: es) torn = e.serialize crc ++ segmentBytes crc es torn := by
      simp [segmentBytes]
    rw [hsplit, scanLoop_serialize_append (he e List.mem_cons_self), ih hes, List.foldl_cons]

theorem le_foldl_later (entries : List WalEntry) (n : UInt64) :
    n ≤ entries.foldl later n ∧ ∀ e ∈ entries, e.sequence ≤ entries.foldl later n := by
  induction entries generalizing n with
  | nil => simp
  | cons e es ih =>
    obtain ⟨hn, hes⟩ := ih (later n e)
    have hlater : n ≤ later n e ∧ e.sequence ≤ later n e := by
      unfold later
      split
      · next h => exact ⟨h, UInt64.le_refl _⟩
      · next h => exact ⟨UInt64.le_refl _, UInt64.le_of_lt (UInt64.not_le.mp h)⟩
    refine ⟨UInt64.le_trans hlater.1 hn, fun a ha => ?_⟩
    rcases List.mem_cons.mp ha with rfl | ha
    · exact UInt64.le_trans hlater.2 hn
    · exact hes a ha

/-- The scan finds no number that is not in the segment. -/
theorem foldl_later_lt {entries : List WalEntry} {n bound : UInt64} (hn : n < bound)
    (he : ∀ e ∈ entries, e.sequence < bound) : entries.foldl later n < bound := by
  induction entries generalizing n with
  | nil => exact hn
  | cons e es ih =>
    apply ih _ fun e h => he e (List.mem_cons_of_mem _ h)
    unfold later
    split
    · exact he e List.mem_cons_self
    · exact hn

variable (crc)

/-! ### What an append does -/

@[simp] theorem sync_fields (w : WalWriter) (ok : Bool) (instant : ℕ) :
    (w.sync ok instant).2.currentSegment = w.currentSegment ∧
      (w.sync ok instant).2.nextSequence = w.nextSequence := by
  cases ok <;> exact ⟨rfl, rfl⟩

theorem maybeSync_fields (w : WalWriter) (ok : Bool) (instant : ℕ) :
    (w.maybeSync ok instant).2.currentSegment = w.currentSegment ∧
      (w.maybeSync ok instant).2.nextSequence = w.nextSequence := by
  unfold maybeSync
  split
  · exact w.sync_fields ok instant
  · split
    · exact w.sync_fields ok instant
    · exact ⟨rfl, rfl⟩
  · exact ⟨rfl, rfl⟩

/-- The ways an append can end: whether it returned `Ok`, whether it left the whole frame, the
file it left as the current segment, and the directory. -/
inductive Appended (w : WalWriter) (dir : Dir) (bytes : Bytes) :
    Bool → Bool → String → Dir → Prop
  /-- The new segment could not be started. -/
  | refused : Appended w dir bytes false false w.currentSegment.path dir
  /-- The first `k` bytes of the frame went to a new segment. -/
  | fresh (ok : Bool) (k : ℕ) (hk : ok = true → bytes.length ≤ k) :
      Appended w dir bytes ok (decide (bytes.length ≤ k)) (segmentFilename (w.nextSequence + 1))
        ((dir.create (segmentFilename (w.nextSequence + 1))).write
          (segmentFilename (w.nextSequence + 1)) (bytes.take k))
  /-- The first `k` bytes of the frame went to the current segment. -/
  | same (ok : Bool) (k : ℕ) (hk : ok = true → bytes.length ≤ k) (hsame : ¬ w.Rotates bytes) :
      Appended w dir bytes ok (decide (bytes.length ≤ k)) w.currentSegment.path
        (dir.write w.currentSegment.path (bytes.take k))

theorem Appended.whole_of_ok {w : WalWriter} {dir dir' : Dir} {bytes : Bytes} {ok whole : Bool}
    {path : String} (h : w.Appended dir bytes ok whole path dir') (hok : ok = true) :
    whole = true := by
  cases h with
  | refused => exact hok
  | fresh _ k hk => exact decide_eq_true (hk hok)
  | same _ k hk hsame => exact decide_eq_true (hk hok)

theorem makeRoom_spec (w : WalWriter) (dir : Dir) (bytes : Bytes) (op : AppendIo) :
    (w.makeRoom dir bytes op).2.1.nextSequence = w.nextSequence ∧
    (((w.makeRoom dir bytes op).1 = .error .io ∧
        (w.makeRoom dir bytes op).2.1.currentSegment.path = w.currentSegment.path ∧
        (w.makeRoom dir bytes op).2.2 = dir) ∨
      ((w.makeRoom dir bytes op).1 = .ok () ∧
        (w.makeRoom dir bytes op).2.1.currentSegment.path = segmentFilename w.nextSequence ∧
        (w.makeRoom dir bytes op).2.2 = dir.create (segmentFilename w.nextSequence)) ∨
      (w.makeRoom dir bytes op = (.ok (), w, dir) ∧ ¬ w.Rotates bytes)) := by
  unfold makeRoom
  split
  · unfold rotate sync
    cases op.rotateSync <;> cases op.create <;> simp
  · next hrot => exact ⟨rfl, .inr (.inr ⟨rfl, hrot⟩)⟩

/-- The first bytes of a frame are written, all of them if the call returns `Ok`. -/
theorem writeFrame_spec (w : WalWriter) (dir : Dir) (bytes : Bytes) (op : AppendIo) :
    (w.writeFrame dir bytes op).2.1.nextSequence = w.nextSequence ∧
    (w.writeFrame dir bytes op).2.1.currentSegment.path = w.currentSegment.path ∧
    ((w.writeFrame dir bytes op).1.isOk = true → bytes.length ≤ op.written.getD bytes.length) ∧
      (w.writeFrame dir bytes op).2.2 =
        dir.write w.currentSegment.path (bytes.take (op.written.getD bytes.length)) := by
  unfold writeFrame
  split
  · next k hk => exact ⟨rfl, rfl, by simp [Except.isOk, Except.toBool], by rw [hk]; rfl⟩
  · next hnone =>
    have hfields := maybeSync_fields
      { w with currentSegment :=
        { w.currentSegment with fileSize := w.currentSegment.fileSize + bytes.length } }
      op.sync op.instant
    have hpath := congrArg SegmentInfo.path hfields.1
    rw [hnone]
    exact ⟨hfields.2, hpath, fun _ => le_rfl, by rw [Option.getD_none, List.take_length]⟩

theorem append_spec (w : WalWriter) (dir : Dir) (entry : WalEntry) (op : AppendIo) :
    (w.append crc dir entry op).2.1.nextSequence = w.nextSequence + 1 ∧
      Appended w dir ((w.assigned entry).serialize crc) (w.append crc dir entry op).1.isOk
        (w.leavesFrame crc dir entry op) (w.append crc dir entry op).2.1.currentSegment.path
        (w.append crc dir entry op).2.2 := by
  have hok : ∀ r : WalResult Unit, (r.map fun _ => w.nextSequence).isOk = r.isOk := by
    intro r
    cases r <;> rfl
  dsimp only [append, leavesFrame]
  have hspec := { w with nextSequence := w.nextSequence + 1 }.makeRoom_spec dir
    ((w.assigned entry).serialize crc) op
  revert hspec
  generalize WalWriter.makeRoom { w with nextSequence := w.nextSequence + 1 } dir
    ((w.assigned entry).serialize crc) op = room
  obtain ⟨result, w', dir'⟩ := room
  rintro ⟨hnext, ⟨hr, hpath, hdir⟩ | ⟨hr, hpath, hdir⟩ | ⟨hroom, hrot⟩⟩
  · dsimp only at hnext hr hpath hdir
    subst hr hdir
    dsimp only
    rw [hpath]
    exact ⟨hnext, .refused⟩
  · dsimp only at hnext hr hpath hdir
    subst hr hdir
    obtain ⟨hn, hp, hk, hd⟩ := w'.writeFrame_spec
      (dir.create (segmentFilename (w.nextSequence + 1))) ((w.assigned entry).serialize crc) op
    refine ⟨hn.trans hnext, ?_⟩
    dsimp only
    rw [hok, hp, hd, hpath]
    exact .fresh _ _ hk
  · cases hroom
    obtain ⟨hn, hp, hk, hd⟩ := WalWriter.writeFrame_spec
      { w with nextSequence := w.nextSequence + 1 } dir ((w.assigned entry).serialize crc) op
    refine ⟨hn, ?_⟩
    dsimp only
    rw [hok, hp, hd]
    exact .same _ _ hk hrot

/-- The forced fsync of a checkpoint leaves what the append wrote. -/
theorem checkpoint_spec (w : WalWriter) (dir : Dir) (timestamp : DateTime) (op : AppendIo)
    (forced : Bool) :
    (w.checkpoint crc dir timestamp op forced).2.2 =
        (w.append crc dir (checkpointEntry timestamp) op).2.2 ∧
      (w.checkpoint crc dir timestamp op forced).2.1.currentSegment =
        (w.append crc dir (checkpointEntry timestamp) op).2.1.currentSegment ∧
      (w.checkpoint crc dir timestamp op forced).2.1.nextSequence =
        (w.append crc dir (checkpointEntry timestamp) op).2.1.nextSequence := by
  unfold checkpoint
  dsimp only
  split
  · exact ⟨rfl, rfl, rfl⟩
  · exact ⟨rfl, sync_fields _ forced op.instant⟩

end WalWriter

end NextgenDatabases.Wal
