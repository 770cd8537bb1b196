import NextgenDatabases.Wal.Segment

/-!
# Reading the log

The reader walks over the frames of every segment, keeps the entries that decode
and sorts them by sequence number.
-/
namespace NextgenDatabases.Wal

open Foundations

/-- The declared lengths at which the reader stops. -/
def stops (entryLength : ℕ) : Bool := entryLength == 0 || decide (MAX_ENTRY_SIZE < entryLength)

variable (crc : Bytes → UInt32) (now : DateTime)

/-- The loop over a segment; `data` is what is still unread. -/
def readSegmentEntries (data : Bytes) : List WalEntry :=
  if 4 ≤ data.length then
    let entryLength := ofLe (data.take 4)
    if stops entryLength then []
    else if data.length < 4 + entryLength then []
    else
      let entryData := slice data 4 entryLength
      match WalEntry.deserialize crc now entryData entryLength with
      | .ok entry => entry :: readSegmentEntries (data.drop (4 + entryLength))
      | .error _ => readSegmentEntries (data.drop (4 + entryLength))
  else []
termination_by data.length
decreasing_by all_goals simp only [List.length_drop]; omega

def readSegments (dir : Dir) : List SegmentInfo → WalResult (List WalEntry)
  | [] => .ok []
  | segment :: segments => do
    let data ← dir.read segment.path
    let rest ← readSegments dir segments
    return readSegmentEntries crc now data ++ rest

def replayFrom (dir : Option Dir) (fromSequence : UInt64) : WalResult (List WalEntry) := do
  let segments ← listSegments dir
  let entries ← readSegments crc now (dir.getD []) segments
  return (entries.filter fun e => fromSequence ≤ e.sequence).insertionSort
    fun a b => a.sequence ≤ b.sequence

def replayAll (dir : Option Dir) : WalResult (List WalEntry) := replayFrom crc now dir 0

/-! ### What is replayed -/

/-- What the reader finds in a segment of the directory. -/
def entriesOf (dir : Dir) (segment : SegmentInfo) : List WalEntry :=
  readSegmentEntries crc now ((dir.lookup segment.path).getD [])

theorem readSegments_eq {dir : Dir} {segments : List SegmentInfo}
    (h : ∀ segment ∈ segments, segment.path ∈ dir.map Prod.fst) :
    readSegments crc now dir segments = .ok (segments.flatMap (entriesOf crc now dir)) := by
  induction segments with
  | nil => rfl
  | cons segment segments ih =>
    obtain ⟨data, hdata⟩ := Dir.exists_lookup (h segment List.mem_cons_self)
    have hread : dir.read segment.path = .ok data := by
      rw [Dir.read, hdata]
    rw [readSegments, hread, ih fun s hs => h s (List.mem_cons_of_mem _ hs), List.flatMap_cons,
      entriesOf, hdata]
    rfl

/-- All entries of the segments of a directory. -/
def allEntries (dir : Dir) : List WalEntry := (segmentsOf dir).flatMap (entriesOf crc now dir)

theorem replayFrom_eq (dir : Dir) (fromSequence : UInt64) :
    replayFrom crc now (some dir) fromSequence = .ok
      (((allEntries crc now dir).filter fun e => fromSequence ≤ e.sequence).insertionSort
        fun a b => a.sequence ≤ b.sequence) := by
  have hread : readSegments crc now dir (segmentsOf dir) = .ok (allEntries crc now dir) :=
    readSegments_eq crc now fun s hs => (mem_segmentsOf hs).1
  have hlist : listSegments (some dir) = .ok (segmentsOf dir) := rfl
  simp only [replayFrom, hlist, bind, Except.bind, Option.getD_some, hread, pure, Except.pure]

/-! ### What the loop reads -/

/-- Decode the body of a frame. -/
def decodeBody (body : Bytes) : Option WalEntry :=
  (WalEntry.deserialize crc now body body.length).toOption

/-- The reader decodes the bodies that a walk over the segment finds. -/
theorem readSegmentEntries_eq_walk (data : Bytes) :
    readSegmentEntries crc now data = (walk stops data).1.filterMap (decodeBody crc now) := by
  fun_induction readSegmentEntries crc now data with
  | case1 data hlen entryLength hstop =>
    rw [walk_stop fun _ h => absurd (hstop.symm.trans h) (by decide)]
    rfl
  | case2 data hlen entryLength hstop hshort =>
    rw [walk_stop fun _ _ => hshort]
    rfl
  | case3 data hlen entryLength hstop hfit entryData entry hentry ih =>
    have hdata : entryData.length = entryLength := length_slice (by omega)
    have hbody : decodeBody crc now entryData = some entry := by
      rw [decodeBody, hdata, hentry]
      rfl
    rw [walk_step (eq_false_of_ne_true hstop) (not_lt.mp hfit), ih]
    exact (List.filterMap_cons_some hbody).symm
  | case4 data hlen entryLength hstop hfit entryData error herror ih =>
    have hdata : entryData.length = entryLength := length_slice (by omega)
    have hbody : decodeBody crc now entryData = none := by
      rw [decodeBody, hdata, herror]
      rfl
    rw [walk_step (eq_false_of_ne_true hstop) (not_lt.mp hfit), ih]
    exact (List.filterMap_cons_none hbody).symm
  | case5 data hlen =>
    rw [walk_stop fun h => absurd h hlen]
    rfl

/-! ### Segments as they are written -/

variable {crc}

theorem WalEntry.Fits.framable {e : WalEntry} (h : e.Fits crc) : Framable stops (e.body crc) := by
  have hle := h.length_body_le
  have hpos : (e.body crc).length = _ := e.length_body
  refine ⟨by rw [MAX_ENTRY_SIZE] at hle; omega, ?_⟩
  simp only [stops, Bool.or_eq_false_iff, beq_eq_false_iff_ne, decide_eq_false_iff_not]
  omega

/-- The bytes of entries written one after the other, and a torn frame behind them. -/
def segmentBytes (crc : Bytes → UInt32) (entries : List WalEntry) (torn : Bytes) : Bytes :=
  entries.flatMap (WalEntry.serialize crc) ++ torn

theorem segmentBytes_eq (entries : List WalEntry) (torn : Bytes) :
    segmentBytes crc entries torn = (entries.map (WalEntry.body crc)).flatMap frame ++ torn := by
  rw [segmentBytes, List.flatMap_map]
  congr 2
  funext e
  exact e.serialize_eq_frame

theorem walk_segmentBytes {entries : List WalEntry} {torn : Bytes}
    (he : ∀ e ∈ entries, e.Fits crc) (ht : Torn stops torn) :
    walk stops (segmentBytes crc entries torn) = (entries.map (WalEntry.body crc), torn) := by
  rw [segmentBytes_eq]
  apply walk_frames _ ht
  intro b hb
  obtain ⟨e, hmem, rfl⟩ := List.mem_map.mp hb
  exact (he e hmem).framable

theorem readSegmentEntries_segmentBytes {entries : List WalEntry} {torn : Bytes}
    (he : ∀ e ∈ entries, e.Fits crc) (ht : Torn stops torn) :
    readSegmentEntries crc now (segmentBytes crc entries torn) = entries.map WalEntry.stored := by
  rw [readSegmentEntries_eq_walk, walk_segmentBytes he ht, List.filterMap_map,
    ← List.filterMap_eq_map]
  apply List.filterMap_congr
  intro e hmem
  rw [Function.comp_apply, decodeBody, WalEntry.deserialize_body (he e hmem)]
  rfl

end NextgenDatabases.Wal
