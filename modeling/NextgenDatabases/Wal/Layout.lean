import NextgenDatabases.Wal.Writer

/-!
# The layout of a log directory

A directory that a writer has written holds its segments behind files that are no
segments. Each segment is a list of whole frames, perhaps with a torn frame behind
them, and the sequence numbers grow from frame to frame and from segment to segment.
-/
namespace NextgenDatabases.Wal

open Foundations

/-- A segment: its first number, the entries in it and the torn frame at its end. -/
structure Seg where
  start : UInt64
  entries : List WalEntry
  torn : Bytes

variable (crc : Bytes → UInt32)

namespace Seg

def bytes (seg : Seg) : Bytes := segmentBytes crc seg.entries seg.torn

def file (seg : Seg) : String × Bytes := (segmentFilename seg.start, seg.bytes crc)

def info (seg : Seg) : SegmentInfo := ⟨segmentFilename seg.start, seg.start, (seg.bytes crc).length⟩

/-- Whole frames, and a torn one behind them. -/
structure WellFormed (seg : Seg) : Prop where
  fits : ∀ e ∈ seg.entries, e.Fits crc
  torn : Torn stops seg.torn

/-- Every frame has the length that its four bytes declare, and a torn one is behind them. -/
structure Declared (seg : Seg) : Prop where
  declared : ∀ e ∈ seg.entries, (e.body crc).length < 256 ^ 4
  torn : Torn stops seg.torn

/-- All numbers of the segment are less than `n`. -/
def Below (n : UInt64) (seg : Seg) : Prop :=
  seg.start < n ∧ ∀ e ∈ seg.entries, e.sequence < n

/-- The segment starts at most at `n`, and its entries have smaller numbers. -/
def UpTo (n : UInt64) (seg : Seg) : Prop :=
  seg.start ≤ n ∧ ∀ e ∈ seg.entries, e.sequence < n

theorem UpTo.below {n m : UInt64} (h : n < m) {seg : Seg} (hseg : seg.UpTo n) : seg.Below m :=
  ⟨UInt64.lt_of_le_of_lt hseg.1 h, fun e he => UInt64.lt_trans (hseg.2 e he) h⟩

/-- Write the first `k` bytes of the frame of `e` at the end of the segment. -/
def put (seg : Seg) (e : WalEntry) (k : ℕ) : Seg :=
  if k < (e.serialize crc).length then { seg with torn := (e.serialize crc).take k }
  else { seg with entries := seg.entries ++ [e] }

variable {crc}

theorem WellFormed.declared {seg : Seg} (h : seg.WellFormed crc) : seg.Declared crc :=
  ⟨fun e he => (WalEntry.Fits.framable (h.fits e he)).1, h.torn⟩

theorem put_start (seg : Seg) (e : WalEntry) (k : ℕ) : (seg.put crc e k).start = seg.start := by
  unfold put
  split <;> rfl

theorem bytes_put {seg : Seg} (ht : seg.torn = []) (e : WalEntry) (k : ℕ) :
    (seg.put crc e k).bytes crc = seg.bytes crc ++ (e.serialize crc).take k := by
  unfold put
  split
  · simp [bytes, segmentBytes, ht]
  · next h => simp [bytes, segmentBytes, ht, List.take_of_length_le (not_lt.mp h)]

theorem WellFormed.put {seg : Seg} (h : seg.WellFormed crc) {e : WalEntry} (he : e.Fits crc)
    (k : ℕ) : (seg.put crc e k).WellFormed crc := by
  unfold Seg.put
  split
  · next hk =>
    refine ⟨h.fits, ?_⟩
    rw [e.serialize_eq_frame] at hk ⊢
    exact .take he.framable hk
  · refine ⟨fun a ha => ?_, h.torn⟩
    rcases List.mem_append.mp ha with ha | ha
    · exact h.fits a ha
    · rwa [List.mem_singleton.mp ha]

theorem UpTo.put {seg : Seg} {n : UInt64} (h : seg.UpTo n) {e : WalEntry}
    (he : e.sequence < n) (k : ℕ) : (seg.put crc e k).UpTo n := by
  unfold Seg.put
  split
  · exact h
  · refine ⟨h.1, fun a ha => ?_⟩
    rcases List.mem_append.mp ha with ha | ha
    · exact h.2 a ha
    · rwa [List.mem_singleton.mp ha]

/-- The numbers stay small when the entry numbered `n` is put behind smaller ones. -/
theorem upTo_grown {init : List Seg} {last : Seg} {n m : UInt64} (hlt : n < m)
    (hup : ∀ seg ∈ init ++ [last], seg.start ≤ m ∧ ∀ b ∈ seg.entries, b.sequence < n)
    {e : WalEntry} (he : e.sequence = n) :
    ∀ seg ∈ init ++ [{ last with entries := last.entries ++ [e] }], seg.UpTo m := by
  have hkept : ∀ seg ∈ init ++ [last], seg.UpTo m :=
    fun seg hseg => ⟨(hup seg hseg).1, fun b hb => UInt64.lt_trans ((hup seg hseg).2 b hb) hlt⟩
  rw [List.forall_mem_append, List.forall_mem_singleton] at hkept ⊢
  refine ⟨hkept.1, hkept.2.1, fun b hb => ?_⟩
  rcases List.mem_append.mp hb with hb | hb
  · exact hkept.2.2 b hb
  · rw [List.mem_singleton.mp hb, he]
    exact hlt

theorem entries_of_bytes_nil {seg : Seg} (h : seg.bytes crc = []) : seg.entries = [] := by
  rw [List.eq_nil_iff_forall_not_mem]
  intro e he
  have hnil : e.serialize crc = [] :=
    List.flatMap_eq_nil_iff.mp (List.append_eq_nil_iff.mp h).1 e he
  have hlen : (e.serialize crc).length = _ := e.length_serialize
  rw [hnil, List.length_nil] at hlen
  omega

/-- A whole frame adds its entry, less adds nothing. -/
theorem put_entries (seg : Seg) (e : WalEntry) (k : ℕ) :
    (seg.put crc e k).entries =
      seg.entries ++ if decide ((e.serialize crc).length ≤ k) then [e] else [] := by
  unfold Seg.put
  split
  · next hk => simp [not_le.mpr hk]
  · next hk => simp [not_lt.mp hk]

end Seg

/-- The segments of a directory, behind the files that are no segments and in the order of their
numbers. -/
structure Placed (dir : Dir) (segs : List Seg) : Prop where
  files : ∃ other : Dir, (∀ f ∈ other, parseSegmentFilename f.1 = none) ∧
    dir = other ++ segs.map (Seg.file crc)
  ordered : segs.Pairwise fun a b => a.Below b.start
  increasing : (segs.flatMap Seg.entries).Pairwise fun a b => a.sequence < b.sequence

namespace Placed

variable {crc} {dir : Dir} {segs : List Seg}

theorem segmentInfo?_file (seg : Seg) : segmentInfo? (seg.file crc) = some (seg.info crc) := by
  simp [segmentInfo?, Seg.file, Seg.info]

theorem listSegments (h : Placed crc dir segs) :
    listSegments (some dir) = .ok (segs.map (Seg.info crc)) := by
  obtain ⟨other, hother, rfl⟩ := h.files
  have hnone : other.filterMap segmentInfo? = [] := by
    rw [List.filterMap_eq_nil_iff]
    intro f hf
    rw [segmentInfo?, hother f hf]
    rfl
  have hinfo : (segs.map (Seg.file crc)).filterMap segmentInfo? = segs.map (Seg.info crc) := by
    rw [List.filterMap_map, ← List.filterMap_eq_map]
    apply List.filterMap_congr
    intro seg _
    rw [Function.comp_apply, segmentInfo?_file, Function.comp_apply]
  have hsorted : (segs.map (Seg.info crc)).Pairwise fun a b => a.startSequence ≤ b.startSequence := by
    rw [List.pairwise_map]
    exact h.ordered.imp fun hab => UInt64.le_of_lt hab.1
  rw [Wal.listSegments, List.filterMap_append, hnone, hinfo, List.nil_append,
    hsorted.insertionSort_eq]

/-- Numbers up to `n` are all below it, unless the last segment starts there. -/
theorem below_of_ne {init : List Seg} {last : Seg} (h : Placed crc dir (init ++ [last]))
    {n : UInt64} (hup : ∀ seg ∈ init ++ [last], seg.UpTo n) (hne : last.start ≠ n) :
    ∀ seg ∈ init ++ [last], seg.Below n := by
  have hlast : last.start < n := UInt64.lt_of_le_of_ne (hup last (by simp)).1 hne
  intro seg hseg
  refine ⟨?_, (hup seg hseg).2⟩
  rcases List.mem_append.mp hseg with hseg | hseg
  · have hordered := (List.pairwise_append.mp h.ordered).2.2 seg hseg last List.mem_cons_self
    exact UInt64.lt_trans hordered.1 hlast
  · rw [List.mem_singleton.mp hseg]
    exact hlast

/-- A name that no earlier segment has is not among the files before it. -/
theorem notMem_files {other : Dir} (hother : ∀ f ∈ other, parseSegmentFilename f.1 = none)
    {n : UInt64} (hn : ∀ seg ∈ segs, seg.start < n) :
    segmentFilename n ∉ (other ++ segs.map (Seg.file crc)).map Prod.fst := by
  intro hmem
  obtain ⟨f, hf, hname⟩ := List.mem_map.mp hmem
  rcases List.mem_append.mp hf with hf | hf
  · have hnone := hother f hf
    rw [hname, parseSegmentFilename_segmentFilename] at hnone
    exact absurd hnone (by simp)
  · obtain ⟨seg, hseg, rfl⟩ := List.mem_map.mp hf
    have heq := segmentFilename_injective hname
    exact absurd (heq ▸ hn seg hseg) (UInt64.lt_irrefl _)

theorem read {init : List Seg} {seg : Seg} {rest : List Seg}
    (h : Placed crc dir (init ++ seg :: rest)) :
    dir.read (segmentFilename seg.start) = .ok (seg.bytes crc) := by
  obtain ⟨other, hother, rfl⟩ := h.files
  have hinit : ∀ a ∈ init, a.start < seg.start := fun a ha =>
    ((List.pairwise_append.mp h.ordered).2.2 a ha seg List.mem_cons_self).1
  rw [List.map_append, List.map_cons, ← List.append_assoc]
  exact Dir.read_append (notMem_files hother hinit) _

/-- A fresh segment behind the others. -/
theorem create (h : Placed crc dir segs) {n : UInt64} (hn : ∀ seg ∈ segs, seg.Below n) :
    Placed crc (dir.create (segmentFilename n)) (segs ++ [⟨n, [], []⟩]) := by
  obtain ⟨other, hother, rfl⟩ := h.files
  constructor
  · refine ⟨other, hother, ?_⟩
    rw [Dir.create_of_notMem (notMem_files hother fun seg hseg => (hn seg hseg).1),
      List.append_assoc, List.map_append]
    rfl
  · rw [List.pairwise_append]
    exact ⟨h.ordered, List.pairwise_singleton _ _, by simpa using hn⟩
  · simpa using h.increasing

/-- Bytes of a frame at the end of the last segment, which has no torn frame. -/
theorem write {init : List Seg} {seg : Seg} (h : Placed crc dir (init ++ [seg]))
    (ht : seg.torn = []) {e : WalEntry}
    (hlater : ∀ a ∈ init ++ [seg], ∀ b ∈ a.entries, b.sequence < e.sequence) (k : ℕ) :
    Placed crc (dir.write (segmentFilename seg.start) ((e.serialize crc).take k))
      (init ++ [seg.put crc e k]) := by
  obtain ⟨other, hother, rfl⟩ := h.files
  obtain ⟨hinit, -, hlast⟩ := List.pairwise_append.mp h.ordered
  have hbefore : ∀ a ∈ init, a.Below seg.start := fun a ha => hlast a ha seg (by simp)
  constructor
  · refine ⟨other, hother, ?_⟩
    rw [List.map_append, ← List.append_assoc, List.map_singleton, Seg.file,
      Dir.write_last (notMem_files hother fun a ha => (hbefore a ha).1), List.map_append,
      ← List.append_assoc, List.map_singleton, Seg.file, Seg.put_start, Seg.bytes_put ht]
  · rw [List.pairwise_append]
    refine ⟨hinit, List.pairwise_singleton _ _, ?_⟩
    simpa [Seg.put_start] using hbefore
  · have hinc := h.increasing
    unfold Seg.put
    split
    · simpa using hinc
    · have hsplit : (init ++ [{ seg with entries := seg.entries ++ [e] }]).flatMap Seg.entries =
          (init ++ [seg]).flatMap Seg.entries ++ [e] := by simp
      rw [hsplit, List.pairwise_append]
      refine ⟨hinc, List.pairwise_singleton _ _, fun b hb c hc => ?_⟩
      obtain ⟨a, ha, hba⟩ := List.mem_flatMap.mp hb
      rw [List.mem_singleton.mp hc]
      exact hlater a ha b hba

/-- The last segment is created again, which cuts it. -/
theorem cut {init : List Seg} {seg : Seg} (h : Placed crc dir (init ++ [seg])) :
    Placed crc (dir.create (segmentFilename seg.start)) (init ++ [⟨seg.start, [], []⟩]) := by
  obtain ⟨other, hother, rfl⟩ := h.files
  obtain ⟨hinit, -, hlast⟩ := List.pairwise_append.mp h.ordered
  have hbefore : ∀ a ∈ init, a.Below seg.start := fun a ha => hlast a ha seg (by simp)
  constructor
  · refine ⟨other, hother, ?_⟩
    rw [List.map_append, ← List.append_assoc, List.map_singleton, Seg.file,
      Dir.create_last (notMem_files hother fun a ha => (hbefore a ha).1), List.map_append,
      ← List.append_assoc]
    rfl
  · rw [List.pairwise_append]
    exact ⟨hinit, List.pairwise_singleton _ _, by simpa using hbefore⟩
  · refine h.increasing.sublist ?_
    simp

end Placed

/-- The segments of a directory, in the order of their numbers. -/
structure Layout (dir : Dir) (segs : List Seg) : Prop where
  files : ∃ other : Dir, (∀ f ∈ other, parseSegmentFilename f.1 = none) ∧
    dir = other ++ segs.map (Seg.file crc)
  wellFormed : ∀ seg ∈ segs, seg.WellFormed crc
  ordered : segs.Pairwise fun a b => a.Below b.start
  increasing : (segs.flatMap Seg.entries).Pairwise fun a b => a.sequence < b.sequence

namespace Layout

variable {crc} {dir : Dir} {segs : List Seg}

theorem placed (h : Layout crc dir segs) : Placed crc dir segs :=
  ⟨h.files, h.ordered, h.increasing⟩

theorem ofPlaced (h : Placed crc dir segs) (hwf : ∀ seg ∈ segs, seg.WellFormed crc) :
    Layout crc dir segs :=
  ⟨h.files, hwf, h.ordered, h.increasing⟩

theorem readSegments (h : Layout crc dir segs) (now : DateTime) (rest : List Seg) :
    ∀ init, segs = init ++ rest → readSegments crc now dir (rest.map (Seg.info crc)) =
      .ok ((rest.flatMap Seg.entries).map WalEntry.stored) := by
  induction rest with
  | nil =>
    intro init _
    rfl
  | cons seg rest ih =>
    intro init hsegs
    have hread : dir.read (seg.info crc).path = .ok (seg.bytes crc) :=
      Placed.read (hsegs ▸ h.placed)
    have hrest := ih (init ++ [seg]) (by simpa using hsegs)
    have hwf := h.wellFormed seg (by simp [hsegs])
    have hentries : readSegmentEntries crc now (seg.bytes crc) = seg.entries.map WalEntry.stored :=
      readSegmentEntries_segmentBytes now hwf.fits hwf.torn
    rw [List.map_cons, Wal.readSegments, hread, hrest, List.flatMap_cons, List.map_append,
      ← hentries]
    rfl

/-- Replaying the log gives the entries of all segments back. -/
theorem replayAll (h : Layout crc dir segs) (now : DateTime) :
    replayAll crc now (some dir) = .ok ((segs.flatMap Seg.entries).map WalEntry.stored) := by
  have hall : ∀ e : WalEntry, decide ((0 : UInt64) ≤ e.sequence) = true := fun e => by simp
  have hsorted : ((segs.flatMap Seg.entries).map WalEntry.stored).Pairwise
      fun a b => a.sequence ≤ b.sequence := by
    rw [List.pairwise_map]
    exact h.increasing.imp fun hab => UInt64.le_of_lt hab
  rw [Wal.replayAll, replayFrom, h.placed.listSegments]
  simp only [bind, Except.bind, Option.getD_some, h.readSegments now segs [] rfl, hall,
    List.filter_true, hsorted.insertionSort_eq, pure, Except.pure]

/-! ### What the operations keep -/

/-- A fresh segment behind the others. -/
theorem create (h : Layout crc dir segs) {n : UInt64} (hn : ∀ seg ∈ segs, seg.Below n) :
    Layout crc (dir.create (segmentFilename n)) (segs ++ [⟨n, [], []⟩]) := by
  refine ofPlaced (h.placed.create hn) fun seg hseg => ?_
  rcases List.mem_append.mp hseg with hseg | hseg
  · exact h.wellFormed seg hseg
  · rw [List.mem_singleton.mp hseg]
    exact ⟨by simp, .nil⟩

/-- Bytes of a frame at the end of the last segment, which has no torn frame. -/
theorem write {init : List Seg} {seg : Seg} (h : Layout crc dir (init ++ [seg]))
    (ht : seg.torn = []) {e : WalEntry} (he : e.Fits crc)
    (hlater : ∀ a ∈ init ++ [seg], ∀ b ∈ a.entries, b.sequence < e.sequence) (k : ℕ) :
    Layout crc (dir.write (segmentFilename seg.start) ((e.serialize crc).take k))
      (init ++ [seg.put crc e k]) := by
  refine ofPlaced (h.placed.write ht hlater k) fun a ha => ?_
  rcases List.mem_append.mp ha with ha | ha
  · exact h.wellFormed a (List.mem_append_left _ ha)
  · rw [List.mem_singleton.mp ha]
    exact (h.wellFormed seg (by simp)).put he k

end Layout

end NextgenDatabases.Wal
