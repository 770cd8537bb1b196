import NextgenDatabases.Wal.Codec
import NextgenDatabases.Wal.Rotation

/-!
# What the reader makes of a frame

A frame that does not decode is passed over. The reader refuses a frame that is too long, but
`append` writes it: the lengths in it are cut to four bytes, and the reader stops there or goes on
inside of the frame.
-/
namespace NextgenDatabases.Wal

open Foundations

open Log (crc32 epoch inserted)

variable (crc : Bytes → UInt32)

/-! ### Altered frames -/

/-- A frame of a segment, and the bytes behind its length if they have been altered. -/
structure Slot where
  entry : WalEntry
  altered : Option Bytes

namespace Slot

def bytes (slot : Slot) : Bytes :=
  match slot.altered with
  | none => slot.entry.serialize crc
  | some body => (slot.entry.serialize crc).take 4 ++ body

/-- What was altered has kept its length and does not decode. -/
def Unreadable (now : DateTime) (slot : Slot) : Prop :=
  ∀ body, slot.altered = some body → body.length = (slot.entry.body crc).length ∧
    ∃ error, WalEntry.deserialize crc now body body.length = .error error

/-- The entry, if its frame has not been altered. -/
def intact (slot : Slot) : Option WalEntry :=
  match slot.altered with
  | none => some slot.entry
  | some _ => none

variable {crc}

/-- What stands behind the length. -/
def contents (crc : Bytes → UInt32) (slot : Slot) : Bytes :=
  slot.altered.getD (slot.entry.body crc)

theorem bytes_eq_frame {now : DateTime} {slot : Slot} (h : slot.Unreadable crc now) :
    slot.bytes crc = frame (slot.contents crc) := by
  obtain ⟨entry, altered⟩ := slot
  cases altered with
  | none => exact entry.serialize_eq_frame
  | some body =>
    obtain ⟨hlen, -⟩ := h body rfl
    have htake : (entry.serialize crc).take 4 = toLe 4 (entry.body crc).length := by
      rw [entry.serialize_eq_frame]
      exact List.take_left' (length_toLe 4 _)
    simp only [bytes, contents, Option.getD_some, frame, htake, hlen]

theorem framable {now : DateTime} {slot : Slot} (hfits : slot.entry.Fits crc)
    (h : slot.Unreadable crc now) : Framable stops (slot.contents crc) := by
  obtain ⟨entry, altered⟩ := slot
  have hentry : Framable stops (entry.body crc) := WalEntry.Fits.framable hfits
  cases altered with
  | none => exact hentry
  | some body =>
    obtain ⟨hlen, -⟩ := h body rfl
    simp only [contents, Option.getD_some, Framable, hlen]
    exact hentry

theorem decodeBody_contents {now : DateTime} {slot : Slot} (hfits : slot.entry.Fits crc)
    (h : slot.Unreadable crc now) :
    decodeBody crc now (slot.contents crc) = slot.intact.map WalEntry.stored := by
  obtain ⟨entry, altered⟩ := slot
  cases altered with
  | none =>
    simp only [contents, Option.getD_none, decodeBody, WalEntry.deserialize_body hfits]
    rfl
  | some body =>
    obtain ⟨-, error, herror⟩ := h body rfl
    simp only [contents, Option.getD_some, decodeBody, herror]
    rfl

end Slot

variable {crc}

/-- The reader returns the entries whose frames have not been altered. -/
theorem altered_skipped {now : DateTime} {slots : List Slot} {torn : Bytes}
    (hfits : ∀ slot ∈ slots, slot.entry.Fits crc)
    (hunreadable : ∀ slot ∈ slots, slot.Unreadable crc now) (htorn : Torn stops torn) :
    readSegmentEntries crc now (slots.flatMap (Slot.bytes crc) ++ torn) =
      (slots.filterMap Slot.intact).map WalEntry.stored := by
  have hframes : slots.flatMap (Slot.bytes crc) =
      (slots.map (Slot.contents crc)).flatMap frame := by
    rw [List.flatMap_map]
    refine List.flatMap_congr fun slot hslot => ?_
    exact Slot.bytes_eq_frame (hunreadable slot hslot)
  have hframable : ∀ body ∈ slots.map (Slot.contents crc), Framable stops body := by
    intro body hbody
    obtain ⟨slot, hslot, rfl⟩ := List.mem_map.mp hbody
    exact Slot.framable (hfits slot hslot) (hunreadable slot hslot)
  rw [readSegmentEntries_eq_walk, hframes, walk_frames hframable htorn, List.filterMap_map,
    List.map_filterMap]
  refine List.filterMap_congr fun slot hslot => ?_
  exact Slot.decodeBody_contents (hfits slot hslot) (hunreadable slot hslot)

/-- Two entries with an altered frame between them, and the first byte of another frame. -/
def damaged : List Slot :=
  [⟨{ inserted with sequence := 1 }, none⟩,
    ⟨{ inserted with sequence := 2 }, some (List.replicate 30 0)⟩,
    ⟨{ inserted with sequence := 3 }, none⟩]

theorem altered_skipped_damaged :
    readSegmentEntries crc32 epoch (damaged.flatMap (Slot.bytes crc32) ++ [30]) =
      [{ inserted with sequence := 1 }, { inserted with sequence := 3 }] := by
  have htorn : Torn stops [30] :=
    .inr ⟨inserted.body crc32, WalEntry.Fits.framable (by decide), ⟨_, rfl⟩, by decide⟩
  refine altered_skipped (by decide) ?_ htorn
  intro slot hslot body hbody
  simp only [damaged, List.mem_cons, List.not_mem_nil, or_false] at hslot
  rcases hslot with rfl | rfl | rfl
  · cases hbody
  · cases hbody
    exact ⟨by decide, .crcMismatch 0 0 (crc32 (List.replicate 26 0)), by decide +kernel⟩
  · cases hbody

/-! ### Frames that are too long -/

/-- What is read ends with the whole frames of the first part and goes on behind them. -/
theorem readSegmentEntries_append {data : Bytes} (h : Framed stops data) (now : DateTime)
    (rest : Bytes) : readSegmentEntries crc now (data ++ rest) =
      readSegmentEntries crc now data ++ readSegmentEntries crc now rest := by
  simp only [readSegmentEntries_eq_walk, walk_append h, List.filterMap_append]

/-- The fields of what is read fit a frame that the reader does not refuse. -/
theorem length_of_mem_readSegmentEntries {now : DateTime} {data : Bytes} {e : WalEntry}
    (h : e ∈ readSegmentEntries crc now data) :
    30 + (asBytes e.entityId).length + e.payload.length ≤ MAX_ENTRY_SIZE := by
  rw [readSegmentEntries_eq_walk] at h
  obtain ⟨body, hbody, hdecode⟩ := List.mem_filterMap.mp h
  have hstop := stop_of_mem_walk hbody
  simp only [stops, Bool.or_eq_false_iff, decide_eq_false_iff_not, not_lt] at hstop
  have hlen : WalEntry.deserialize crc now body body.length = .ok e := by
    unfold decodeBody at hdecode
    cases hresult : WalEntry.deserialize crc now body body.length with
    | error error =>
      rw [hresult] at hdecode
      cases hdecode
    | ok found =>
      rw [hresult] at hdecode
      cases hdecode
      rfl
  exact (WalEntry.length_of_deserialize hlen).trans hstop.2

variable (crc)

/-- The reader finds the entry behind whole frames, and reads on behind it. -/
def Readable (e : WalEntry) : Prop :=
  ∀ now data rest, Framed stops data →
    readSegmentEntries crc now (data ++ (e.serialize crc ++ rest)) =
      readSegmentEntries crc now data ++ e.stored :: readSegmentEntries crc now rest

/-- The lengths in the frame are the real ones, and the reader does not refuse it. -/
structure LengthsAgree (e : WalEntry) : Prop where
  entryLength : 4 + ofLe ((e.serialize crc).take 4) = (e.serialize crc).length
  limit : ofLe ((e.serialize crc).take 4) ≤ MAX_ENTRY_SIZE
  entityIdLen : ofLe (slice (e.serialize crc) 26 4) = (asBytes e.entityId).length
  payloadLen : ofLe (slice (e.serialize crc) (30 + (asBytes e.entityId).length) 4) =
    e.payload.length

variable {crc} {e : WalEntry}

theorem readable_iff : Readable crc e ↔ e.Fits crc := by
  constructor
  · intro h
    have hread := h Log.epoch [] [] (congrArg Prod.snd (walk_torn .nil))
    have hmem : e.stored ∈ readSegmentEntries crc Log.epoch ([] ++ (e.serialize crc ++ [])) := by
      rw [hread]
      simp
    have hlen := length_of_mem_readSegmentEntries hmem
    exact WalEntry.fits_iff.mpr hlen
  · intro h now data rest hframed
    have hone : Framed stops (e.serialize crc) := by
      rw [Framed, e.serialize_eq_frame, ← List.append_nil (frame _), walk_frame_append h.framable,
        walk_torn .nil]
    have hself : readSegmentEntries crc now (e.serialize crc) = [e.stored] := by
      have hsegment := @readSegmentEntries_segmentBytes crc now [e] [] (by simpa using h) .nil
      simpa [segmentBytes] using hsegment
    rw [readSegmentEntries_append hframed, readSegmentEntries_append hone, hself]
    rfl

theorem slice_serialize {off len : ℕ} (h : 8 ≤ off) :
    slice (e.serialize crc) off len = slice e.inner (off - 8) len := by
  have hfour : ∀ n, (toLe 4 n).length = 4 := length_toLe 4
  rw [WalEntry.serialize, slice_of_append (by rw [hfour]; omega),
    slice_of_append (by rw [hfour, hfour]; omega), hfour, hfour, Nat.sub_sub]

theorem lengthsAgree_iff : LengthsAgree crc e ↔ e.Fits crc := by
  constructor
  · intro h
    have hlen := h.entryLength
    have hlimit := h.limit
    rw [WalEntry.Fits]
    omega
  · intro h
    have hmax := WalEntry.fits_iff.mp h
    rw [MAX_ENTRY_SIZE] at hmax
    have htake : ofLe ((e.serialize crc).take 4) = (e.body crc).length := by
      rw [e.serialize_eq_frame, ← List.append_nil (frame _)]
      exact declared_frame_append h.framable.1 []
    obtain ⟨-, -, -, -, hidLen, -, hpayLen, -⟩ := e.slice_inner
    refine ⟨?_, ?_, ?_, ?_⟩
    · rw [htake, e.length_serialize]
    · rw [htake]
      exact h.length_body_le
    · rw [slice_serialize (by omega), hidLen, ofLe_toLe_of_lt (by omega)]
    · have hoff : 30 + (asBytes e.entityId).length - 8 = 22 + (asBytes e.entityId).length := by omega
      rw [slice_serialize (by omega), hoff, hpayLen, ofLe_toLe_of_lt (by omega)]

/-- `append` writes the frame of every entry. It is read, together with what follows it, and its
lengths are the real ones if and only if the entry is short enough. -/
theorem append_agrees_iff {w : WalWriter} {dir : Dir} {entry : WalEntry} {op : AppendIo}
    {sequence : UInt64} (h : (w.append crc dir entry op).1 = .ok sequence) :
    (∃ before path, (before = dir ∨ before = dir.create path) ∧
      (w.append crc dir entry op).2.2 = before.write path ((w.assigned entry).serialize crc)) ∧
    (Readable crc (w.assigned entry) ∧ LengthsAgree crc (w.assigned entry) ↔
      30 + (asBytes entry.entityId).length + entry.payload.length ≤ MAX_ENTRY_SIZE) := by
  constructor
  · obtain ⟨-, happended⟩ := w.append_spec crc dir entry op
    rw [h] at happended
    have hwhole : ∀ {k : ℕ}, ((.ok sequence : WalResult UInt64).isOk = true →
        ((w.assigned entry).serialize crc).length ≤ k) →
        ((w.assigned entry).serialize crc).take k = (w.assigned entry).serialize crc :=
      fun hk => List.take_of_length_le (hk rfl)
    generalize (w.append crc dir entry op).2.2 = dir' at happended ⊢
    generalize (w.append crc dir entry op).2.1.currentSegment.path = path at happended
    generalize w.leavesFrame crc dir entry op = whole at happended
    cases happended with
    | fresh _ k hk => exact ⟨_, _, .inr rfl, by rw [hwhole hk]⟩
    | same _ k hk => exact ⟨_, _, .inl rfl, by rw [hwhole hk]⟩
  · rw [readable_iff, lengthsAgree_iff, and_self]
    exact WalEntry.fits_iff

/-- A writer whose segments have room for frames of 64 MiB. -/
def roomy : WalWriter := ⟨⟨segmentFilename 0, 0, 0⟩, 1, 2 ^ 27, .async, 0⟩

theorem append_agrees_inserted : LengthsAgree crc32 (roomy.assigned inserted) := by
  have hok : (roomy.append crc32 [(segmentFilename 0, [])] inserted {}).1 = .ok 1 := rfl
  exact ((append_agrees_iff hok).2.mpr (by decide)).2

/-- The frame is a byte too long for the reader. -/
def oversized : WalEntry := { inserted with payload := List.replicate (MAX_ENTRY_SIZE - 29) 0 }

theorem oversized_accepted :
    (roomy.append crc32 [(segmentFilename 0, [])] oversized {}).1 = .ok 1 ∧
      ¬ (Readable crc32 (roomy.assigned oversized) ∧ LengthsAgree crc32 (roomy.assigned oversized)) ∧
      ∀ later, readSegmentEntries crc32 epoch
        ((roomy.assigned oversized).serialize crc32 ++ later) = [] := by
  have hlen : ((roomy.assigned oversized).body crc32).length = MAX_ENTRY_SIZE + 1 := by
    have hpayload : (roomy.assigned oversized).payload = List.replicate (MAX_ENTRY_SIZE - 29) 0 :=
      rfl
    have hid : (asBytes (roomy.assigned oversized).entityId).length = 0 := rfl
    rw [WalEntry.length_body, hid, hpayload, List.length_replicate, MAX_ENTRY_SIZE]
  refine ⟨?_, ?_, ?_⟩
  · obtain ⟨w, dir, happend, -⟩ :=
      @Log.append_clean crc32 roomy [(segmentFilename 0, [])] oversized 0
    rw [happend]
    rfl
  · rintro ⟨hreadable, -⟩
    have hle := (readable_iff.mp hreadable).length_body_le
    omega
  · intro later
    have hdeclared : declared (frame ((roomy.assigned oversized).body crc32) ++ later) =
        MAX_ENTRY_SIZE + 1 := by
      rw [declared_frame_append (by rw [hlen, MAX_ENTRY_SIZE]; omega), hlen]
    have hstop : stops (MAX_ENTRY_SIZE + 1) = true := by decide
    rw [readSegmentEntries_eq_walk, WalEntry.serialize_eq_frame, walk_stop]
    · rfl
    · intro _ hread
      rw [hdeclared, hstop] at hread
      cases hread

end NextgenDatabases.Wal
