import NextgenDatabases.Wal.Layout
import NextgenDatabases.Foundations.Runs

/-!
# Durability of the write-ahead log

The runs of one writer after another on a directory, with failing file operations
and crashes. A crash inside an append is an append whose write stops somewhere,
followed by the crash. The writer resumes behind a torn frame without cutting it off,
and the reader then looks for frames at the wrong place. As long as every frame
starts where a frame ends, what was acknowledged is replayed.
-/
namespace NextgenDatabases.Wal

open Foundations

/-- A directory, its writer, the entries whose append returned `Ok` and all entries
that were passed to `append`, as they are stored. -/
structure Log where
  dir : Option Dir
  writer : Option WalWriter
  acked : List WalEntry
  passed : List WalEntry

inductive Event
  | openLog (syncMode : SyncMode) (maxSegmentSize : ℕ) (op : OpenIo)
  | append (entry : WalEntry) (op : AppendIo)
  | checkpoint (timestamp : DateTime) (op : AppendIo) (forced : Bool)
  | sync (ok : Bool) (instant : ℕ)
  | crash

variable (crc : Bytes → UInt32)

namespace Log

/-- Record an append of `entry` by the writer `w`. -/
def record (s : Log) (w : WalWriter) (dir : Dir) (entry : WalEntry) (op : AppendIo) : Log :=
  let result := w.append crc dir entry op
  let stored := (w.assigned entry).stored
  { dir := some result.2.2
    writer := some result.2.1
    acked := if result.1.isOk then s.acked ++ [stored] else s.acked
    passed := s.passed ++ [stored] }

def step (s : Log) : Event → Option Log
  | .openLog syncMode maxSegmentSize op =>
    let result := WalWriter.openWithMaxSize s.dir syncMode maxSegmentSize op
    some { s with writer := result.1.toOption, dir := result.2 }
  | .append entry op =>
    s.writer.bind fun w => s.dir.map fun dir => s.record crc w dir entry op
  | .checkpoint timestamp op forced =>
    s.writer.bind fun w => s.dir.map fun dir =>
      let result := w.checkpoint crc dir timestamp op forced
      { s.record crc w dir (WalWriter.checkpointEntry timestamp) op with
        writer := some result.2.1, dir := some result.2.2 }
  | .sync ok instant =>
    s.writer.map fun w => { s with writer := some (w.sync ok instant).2 }
  | .crash => some { s with writer := none }

/-- No segment and no writer yet. -/
structure Initial (s : Log) : Prop where
  dir : ∀ dir, s.dir = some dir → ∀ f ∈ dir, parseSegmentFilename f.1 = none
  writer : s.writer = none
  acked : s.acked = []
  passed : s.passed = []

/-! ### The conditions of a run -/

/-- The frame is small enough for the reader, and the numbers do not run out. -/
def Fitting (w : WalWriter) (entry : WalEntry) : Prop :=
  (w.assigned entry).Fits crc ∧ w.nextSequence.toNat + 2 < 2 ^ 64

/-- The frame starts where a frame ends, or in a new segment. -/
def AtBoundary (dir : Dir) (w : WalWriter) (entry : WalEntry) : Prop :=
  w.Rotates ((w.assigned entry).serialize crc) ∨
    ∀ data, dir.read w.currentSegment.path = .ok data → Framed stops data

/-- What is asked of every append of a run. -/
def Appends (ok : Dir → WalWriter → WalEntry → Prop) (s : Log) : Event → Prop
  | .append entry _ => ∀ dir w, s.dir = some dir → s.writer = some w → ok dir w entry
  | .checkpoint timestamp _ _ => ∀ dir w, s.dir = some dir → s.writer = some w →
      ok dir w (WalWriter.checkpointEntry timestamp)
  | _ => True

/-- Every entry fits. -/
abbrev FitsReader (s : Log) (e : Event) : Prop := s.Appends (fun _ => Fitting crc) e

/-- Every entry fits and is written at a frame boundary. -/
abbrev Sound (s : Log) (e : Event) : Prop :=
  s.Appends (fun dir w entry => Fitting crc w entry ∧ AtBoundary crc dir w entry) e

/-- Replaying returns every acknowledged entry, and only entries that were passed to
`append`, in the order of the calls. -/
def Durable (now : DateTime) (s : Log) : Prop :=
  ∀ dir, s.dir = some dir →
    ∃ entries, replayAll crc now s.dir = .ok entries ∧
      s.acked.Sublist entries ∧ entries.Sublist s.passed

/-! ### What a log keeps -/

/-- The entry of an append that leaves its whole frame. -/
def left (s : Log) (entry : WalEntry) (op : AppendIo) : List WalEntry :=
  match s.dir, s.writer with
  | some dir, some w => if w.leavesFrame crc dir entry op then [entry] else []
  | _, _ => []

def leaves (s : Log) : Event → List WalEntry
  | .append entry op => s.left crc entry op
  | .checkpoint timestamp op _ => s.left crc (WalWriter.checkpointEntry timestamp) op
  | .openLog .. | .sync .. | .crash => []

/-- A step of a log, and of the entries that were left in it. -/
def holdStep (x : Log × List WalEntry) (e : Event) : Option (Log × List WalEntry) :=
  (x.1.step crc e).map fun t => (t, x.2 ++ x.1.leaves crc e)

/-- The directory of a log in which these entries were left, each at a frame boundary and none too
long for the reader. -/
def Holds (dir : Option Dir) (entries : List WalEntry) : Prop :=
  ∃ s₀ s, s₀.Initial ∧
    Run (holdStep crc) (fun x e => Sound crc x.1 e) (s₀, []) (s, entries) ∧ s.dir = dir

/-- What is read of a directory, which may not exist yet. -/
def readLog (now : DateTime) : Option Dir → WalResult (List WalEntry)
  | none => .ok []
  | some dir => replayAll crc now (some dir)

/-! ### The invariant -/

/-- The file is the last segment and the next number is new. -/
def AtEnd (path : String) (next : UInt64) (segs : List Seg) : Prop :=
  (∃ init last, segs = init ++ [last] ∧ path = segmentFilename last.start) ∧
    ∀ seg ∈ segs, seg.UpTo next

/-- The largest number that leaves room for the next one. -/
def maxSequence : UInt64 := 0xFFFFFFFFFFFFFFFF

structure Consistent (s : Log) (kept : List WalEntry) (dir : Dir) (segs : List Seg) :
    Prop where
  layout : Layout crc dir segs
  bounded : ∀ seg ∈ segs, seg.Below maxSequence
  acked : s.acked.Sublist ((segs.flatMap Seg.entries).map WalEntry.stored)
  passed : ((segs.flatMap Seg.entries).map WalEntry.stored).Sublist s.passed
  kept : (segs.flatMap Seg.entries).map WalEntry.content = kept.map WalEntry.content
  writer : ∀ w, s.writer = some w → AtEnd w.currentSegment.path w.nextSequence segs

def Inv (s : Log) (kept : List WalEntry) : Prop :=
  match s.dir with
  | none => s.acked = [] ∧ s.writer = none ∧ kept = []
  | some dir => ∃ segs, s.Consistent crc kept dir segs

variable {crc}

theorem Inv.replays {s : Log} {kept : List WalEntry} (h : s.Inv crc kept) (now : DateTime) :
    s.Durable crc now := by
  intro dir hdir
  rw [Inv, hdir] at h
  obtain ⟨segs, hc⟩ := h
  exact ⟨_, hdir ▸ hc.layout.replayAll now, hc.acked, hc.passed⟩

theorem layout_nil {dir : Dir} (h : ∀ f ∈ dir, parseSegmentFilename f.1 = none) :
    Layout crc dir [] where
  files := ⟨dir, h, by simp⟩
  wellFormed := by simp
  ordered := .nil
  increasing := .nil

theorem Initial.inv {s : Log} (h : s.Initial) : s.Inv crc [] := by
  unfold Inv
  split
  · exact ⟨h.acked, h.writer, rfl⟩
  · next dir hdir =>
    refine ⟨[], layout_nil (h.dir dir hdir), by simp, ?_, by simp, rfl, ?_⟩
    · rw [h.acked]
      exact List.nil_sublist _
    · simp [h.writer]

/-! ### Appending -/

theorem lt_succ {n : UInt64} (h : n.toNat + 2 < 2 ^ 64) : n < n + 1 ∧ n + 1 < maxSequence := by
  have hadd : (n + 1).toNat = n.toNat + 1 := by
    rw [UInt64.toNat_add]
    exact Nat.mod_eq_of_lt (by simpa using by omega)
  have hmax : maxSequence.toNat = 2 ^ 64 - 1 := rfl
  rw [UInt64.lt_iff_toNat_lt, UInt64.lt_iff_toNat_lt, hadd, hmax]
  omega

/-- Some bytes of a frame at the end of the last segment. -/
theorem written_at {dir : Dir} {init : List Seg} {last : Seg}
    (h : Layout crc dir (init ++ [last])) (ht : last.torn = []) {e : WalEntry} (he : e.Fits crc)
    (hold : ∀ seg ∈ init ++ [last], ∀ b ∈ seg.entries, b.sequence < e.sequence)
    {n : UInt64} (hn : e.sequence < n) (hsegs : ∀ seg ∈ init ++ [last], seg.UpTo n) (k : ℕ) :
    ∃ segs, Layout crc (dir.write (segmentFilename last.start) ((e.serialize crc).take k)) segs ∧
      (∃ init' last', segs = init' ++ [last'] ∧ last'.start = last.start) ∧
      (∀ seg ∈ segs, seg.UpTo n) ∧
      segs.flatMap Seg.entries = (init ++ [last]).flatMap Seg.entries ++
        if decide ((e.serialize crc).length ≤ k) then [e] else [] := by
  refine ⟨init ++ [last.put crc e k], h.write ht he hold k, ⟨init, _, rfl, last.put_start e k⟩,
    ?_, ?_⟩
  · intro seg hseg
    rcases List.mem_append.mp hseg with hseg | hseg
    · exact hsegs seg (List.mem_append_left _ hseg)
    · rw [List.mem_singleton.mp hseg]
      exact (hsegs last (by simp)).put hn k
  · rw [List.flatMap_append, List.flatMap_append, List.flatMap_singleton, List.flatMap_singleton,
      Seg.put_entries, List.append_assoc]

/-- Where an append leaves the segments, and what it adds to them. -/
theorem Consistent.appended {s : Log} {kept : List WalEntry} {dir : Dir} {segs : List Seg}
    (h : s.Consistent crc kept dir segs) {w : WalWriter} (hw : s.writer = some w)
    {entry : WalEntry} (hfit : Fitting crc w entry) (hb : AtBoundary crc dir w entry)
    {ok whole : Bool} {path : String} {dir' : Dir}
    (ha : w.Appended dir ((w.assigned entry).serialize crc) ok whole path dir') :
    ∃ segs', Layout crc dir' segs' ∧
      (∃ init last, segs' = init ++ [last] ∧ path = segmentFilename last.start) ∧
      (∀ seg ∈ segs', seg.UpTo (w.nextSequence + 1)) ∧
      segs'.flatMap Seg.entries =
        segs.flatMap Seg.entries ++ if whole then [w.assigned entry] else [] := by
  obtain ⟨⟨init, last, rfl, hpath⟩, hupTo⟩ := h.writer w hw
  have hnext := lt_succ hfit.2
  have hbelow : ∀ seg ∈ init ++ [last], seg.Below (w.nextSequence + 1) :=
    fun seg hseg => (hupTo seg hseg).below hnext.1
  have hold : ∀ seg ∈ init ++ [last], ∀ b ∈ seg.entries, b.sequence < (w.assigned entry).sequence :=
    fun seg hseg => (hupTo seg hseg).2
  have hseq : (w.assigned entry).sequence < w.nextSequence + 1 := hnext.1
  have hkept : ∀ seg ∈ init ++ [last], seg.UpTo (w.nextSequence + 1) :=
    fun seg hseg => ⟨UInt64.le_of_lt (hbelow seg hseg).1, (hbelow seg hseg).2⟩
  cases ha with
  | refused => exact ⟨_, h.layout, ⟨init, last, rfl, hpath⟩, hkept, (List.append_nil _).symm⟩
  | fresh _ k hk =>
    have hfresh : ∀ seg ∈ init ++ [last] ++ [⟨w.nextSequence + 1, [], []⟩],
        seg.UpTo (w.nextSequence + 1) ∧
          ∀ b ∈ seg.entries, b.sequence < (w.assigned entry).sequence := by
      intro seg hseg
      rcases List.mem_append.mp hseg with hseg | hseg
      · exact ⟨hkept seg hseg, hold seg hseg⟩
      · rw [List.mem_singleton.mp hseg]
        exact ⟨⟨UInt64.le_refl _, by simp⟩, by simp⟩
    obtain ⟨segs', hl, ⟨init', last', hsplit, hstart⟩, hup, hentries⟩ :=
      written_at (h.layout.create hbelow) rfl hfit.1 (fun seg hseg => (hfresh seg hseg).2) hseq
        (fun seg hseg => (hfresh seg hseg).1) k
    exact ⟨segs', hl, ⟨init', last', hsplit, by rw [hstart]⟩, hup, by simpa using hentries⟩
  | same _ k hk hsame =>
    -- the segment ends at a frame boundary, so nothing is torn
    have hread : dir.read w.currentSegment.path = .ok (last.bytes crc) :=
      hpath ▸ h.layout.placed.read
    have hwf := h.layout.wellFormed last (by simp)
    have ht : last.torn = [] := by
      have hframed := hb.resolve_left hsame _ hread
      rw [Framed, Seg.bytes, walk_segmentBytes hwf.fits hwf.torn] at hframed
      exact hframed
    obtain ⟨segs', hl, ⟨init', last', hsplit, hstart⟩, hup, hentries⟩ :=
      written_at h.layout ht hfit.1 hold hseq hkept k
    exact ⟨segs', hpath ▸ hl, ⟨init', last', hsplit, by rw [hstart, hpath]⟩, hup, hentries⟩

theorem Consistent.record {s : Log} {kept : List WalEntry} {dir : Dir} {segs : List Seg}
    (h : s.Consistent crc kept dir segs) (hdir : s.dir = some dir) {w : WalWriter}
    (hw : s.writer = some w) {entry : WalEntry} (hfit : Fitting crc w entry)
    (hb : AtBoundary crc dir w entry) (op : AppendIo) :
    ∃ segs', (s.record crc w dir entry op).Consistent crc (kept ++ s.left crc entry op)
      (w.append crc dir entry op).2.2 segs' := by
  obtain ⟨hnext, ha⟩ := w.append_spec crc dir entry op
  have hwhole := ha.whole_of_ok
  obtain ⟨segs', hl, hlast, hup, hentries⟩ := h.appended hw hfit hb ha
  have hbounded : ∀ seg ∈ segs', seg.Below maxSequence :=
    fun seg hseg => (hup seg hseg).below (lt_succ hfit.2).2
  refine ⟨segs', hl, hbounded, ?_, ?_, ?_, ?_⟩
  · rw [hentries, List.map_append]
    unfold Log.record
    dsimp only
    split
    · next hok =>
      rw [hwhole hok]
      exact h.acked.append (.refl _)
    · exact h.acked.trans (List.sublist_append_left _ _)
  · rw [hentries, List.map_append]
    unfold Log.record
    dsimp only
    split
    · exact h.passed.append (.refl _)
    · exact h.passed.append (List.nil_sublist _)
  · rw [hentries, List.map_append, List.map_append, h.kept, left, hdir, hw]
    dsimp only
    split <;> rfl
  · intro w' hw'
    cases hw'
    exact ⟨hlast, fun seg hseg => hnext ▸ hup seg hseg⟩

/-! ### Opening -/

theorem lt_add_one {n : UInt64} (h : n < maxSequence) : n < n + 1 := by
  have hmax : maxSequence.toNat = 2 ^ 64 - 1 := rfl
  rw [UInt64.lt_iff_toNat_lt] at h ⊢
  rw [UInt64.toNat_add]
  simp only [UInt64.toNat_one]
  omega

/-- The scan of the last segment finds a number above all that were given out. -/
theorem scanLastSequence_last {dir : Dir} {init : List Seg} {last : Seg}
    (h : Placed crc dir (init ++ [last])) (hdeclared : last.Declared crc)
    (hb : ∀ seg ∈ init ++ [last], seg.Below maxSequence) :
    ∃ n, WalWriter.scanLastSequence dir (last.info crc) = .ok n ∧
      ∀ seg ∈ init ++ [last], seg.UpTo n := by
  have hlast := hb last (by simp)
  obtain ⟨hstart, hentries⟩ := WalWriter.le_foldl_later last.entries last.start
  have hlt : last.entries.foldl WalWriter.later last.start < maxSequence :=
    WalWriter.foldl_later_lt hlast.1 hlast.2
  refine ⟨last.entries.foldl WalWriter.later last.start + 1, ?_, ?_⟩
  · unfold WalWriter.scanLastSequence
    split
    · next hzero =>
      have hnil : last.entries = [] := Seg.entries_of_bytes_nil (List.length_eq_zero_iff.mp hzero)
      rw [hnil]
      rfl
    · have hread : dir.read (last.info crc).path = .ok (last.bytes crc) := h.read
      have hscan : WalWriter.scanLoop (last.info crc).startSequence (last.bytes crc) =
          last.entries.foldl WalWriter.later last.start :=
        WalWriter.scanLoop_segmentBytes hdeclared.declared hdeclared.torn last.start
      rw [hread, ← hscan]
      rfl
  · intro seg hseg
    have hmem : seg.start ≤ last.entries.foldl WalWriter.later last.start ∧
        ∀ e ∈ seg.entries, e.sequence ≤ last.entries.foldl WalWriter.later last.start := by
      rcases List.mem_append.mp hseg with hseg | hseg
      · have hbelow := (List.pairwise_append.mp h.ordered).2.2 seg hseg last (by simp)
        exact ⟨UInt64.le_trans (UInt64.le_of_lt hbelow.1) hstart,
          fun e he => UInt64.le_trans (UInt64.le_of_lt (hbelow.2 e he)) hstart⟩
      · rw [List.mem_singleton.mp hseg]
        exact ⟨hstart, hentries⟩
    have hsucc := lt_add_one hlt
    exact ⟨UInt64.le_of_lt (UInt64.lt_of_le_of_lt hmem.1 hsucc),
      fun e he => UInt64.lt_of_le_of_lt (hmem.2 e he) hsucc⟩

/-- Opening keeps the segments or creates the first one, and returns the last one. -/
theorem openSegment_placed {dir : Dir} {segs : List Seg} (h : Placed crc dir segs)
    (hdeclared : ∀ seg ∈ segs, seg.Declared crc) (hb : ∀ seg ∈ segs, seg.Below maxSequence)
    (op : OpenIo) :
    ∃ segs', Placed crc (WalWriter.openSegment dir op).2 segs' ∧
      (∀ seg ∈ segs', seg.Below maxSequence) ∧
      ((WalWriter.openSegment dir op).2 = dir ∧ segs' = segs ∨
        (WalWriter.openSegment dir op).2 = dir.create (segmentFilename 0) ∧ segs = [] ∧
          segs' = [⟨0, [], []⟩]) ∧
      ∀ info next, (WalWriter.openSegment dir op).1 = .ok (info, next) →
        (∃ init last, segs' = init ++ [last] ∧ info = last.info crc) ∧
          ∀ seg ∈ segs', seg.UpTo next := by
  -- a failing operation leaves the directory as it is
  have hfail : ∀ error : WalError, ∀ info next,
      (.error error : WalResult (SegmentInfo × UInt64)) = .ok (info, next) →
        (∃ init last, segs = init ++ [last] ∧ info = last.info crc) ∧
          ∀ seg ∈ segs, seg.UpTo next := by
    intro error info next hok
    cases hok
  unfold WalWriter.openSegment
  cases op.listDir with
  | false => exact ⟨segs, h, hb, .inl ⟨rfl, rfl⟩, hfail _⟩
  | true =>
    rw [if_pos rfl, h.listSegments]
    dsimp only
    obtain rfl | ⟨init, last, rfl⟩ := segs.eq_nil_or_concat'
    · rw [List.map_nil, List.getLast?_nil, WalWriter.firstSegment]
      cases op.createFile with
      | false => exact ⟨[], h, hb, .inl ⟨rfl, rfl⟩, hfail _⟩
      | true =>
        have hnew : ∀ seg ∈ ([] : List Seg), seg.Below 0 := by simp
        refine ⟨_, h.create hnew, ?_, .inr ⟨rfl, rfl, rfl⟩, ?_⟩
        · simp [Seg.Below, maxSequence]
        · intro info next hok
          cases hok
          exact ⟨⟨[], ⟨0, [], []⟩, rfl, rfl⟩, by simp [Seg.UpTo]⟩
    · rw [List.map_append, List.map_singleton, List.getLast?_concat]
      obtain ⟨n, hn, hup⟩ := scanLastSequence_last h (hdeclared last (by simp)) hb
      dsimp only [WalWriter.resumeSegment]
      cases op.readLast with
      | false => exact ⟨_, h, hb, .inl ⟨rfl, rfl⟩, hfail _⟩
      | true =>
        rw [if_pos rfl, hn]
        dsimp only
        cases op.openLast with
        | false => exact ⟨_, h, hb, .inl ⟨rfl, rfl⟩, hfail _⟩
        | true =>
          refine ⟨_, h, hb, .inl ⟨rfl, rfl⟩, ?_⟩
          intro info next hok
          cases hok
          exact ⟨⟨init, last, rfl, rfl⟩, hup⟩

theorem openSegment_spec {dir : Dir} {segs : List Seg} (h : Layout crc dir segs)
    (hb : ∀ seg ∈ segs, seg.Below maxSequence) (op : OpenIo) :
    ∃ segs', Layout crc (WalWriter.openSegment dir op).2 segs' ∧
      (∀ seg ∈ segs', seg.Below maxSequence) ∧
      ((WalWriter.openSegment dir op).2 = dir ∧ segs' = segs ∨
        (WalWriter.openSegment dir op).2 = dir.create (segmentFilename 0) ∧ segs = [] ∧
          segs' = [⟨0, [], []⟩]) ∧
      ∀ info next, (WalWriter.openSegment dir op).1 = .ok (info, next) →
        (∃ init last, segs' = init ++ [last] ∧ info = last.info crc) ∧
          ∀ seg ∈ segs', seg.UpTo next := by
  obtain ⟨segs', hplaced, hbelow, hkept, hopened⟩ :=
    openSegment_placed h.placed (fun seg hseg => (h.wellFormed seg hseg).declared) hb op
  refine ⟨segs', .ofPlaced hplaced ?_, hbelow, hkept, hopened⟩
  rcases hkept with ⟨-, rfl⟩ | ⟨-, -, rfl⟩
  · exact h.wellFormed
  · intro seg hseg
    rw [List.mem_singleton.mp hseg]
    exact ⟨by simp, .nil⟩

/-- A missing directory counts as an empty one. -/
theorem Inv.consistent {s : Log} {kept : List WalEntry} (h : s.Inv crc kept) :
    ∃ segs, s.Consistent crc kept (s.dir.getD []) segs := by
  unfold Inv at h
  split at h
  · next hdir =>
    rw [hdir, Option.getD_none]
    refine ⟨[], layout_nil (by simp), by simp, ?_, List.nil_sublist _, ?_, ?_⟩
    · rw [h.1]
      exact List.nil_sublist _
    · rw [h.2.2]
      rfl
    · simp [h.2.1]
  · next dir hdir => rwa [hdir, Option.getD_some]

theorem Inv.openLog {s : Log} {kept : List WalEntry} (h : s.Inv crc kept) (syncMode : SyncMode)
    (maxSegmentSize : ℕ) (op : OpenIo) {t : Log}
    (ht : s.step crc (.openLog syncMode maxSegmentSize op) = some t) : t.Inv crc kept := by
  cases ht
  unfold WalWriter.openWithMaxSize
  split
  · next hnone =>
    rw [Inv, hnone.1] at h
    simp only [hnone.1]
    exact ⟨h.1, rfl, h.2.2⟩
  · obtain ⟨segs, hc⟩ := h.consistent
    obtain ⟨segs', hl, hb, hkept, hopened⟩ := openSegment_spec hc.layout hc.bounded op
    have hentries : segs'.flatMap Seg.entries = segs.flatMap Seg.entries := by
      rcases hkept with ⟨-, rfl⟩ | ⟨-, rfl, rfl⟩
      · rfl
      · rfl
    refine ⟨segs', hl, hb, hentries ▸ hc.acked, hentries ▸ hc.passed, hentries ▸ hc.kept, ?_⟩
    intro w hw
    dsimp only at hw
    cases hres : (WalWriter.openSegment (s.dir.getD []) op).1 with
    | error error => simp [hres, Except.map, Except.toOption] at hw
    | ok opened =>
      simp only [hres, Except.map, Except.toOption, Option.some.injEq] at hw
      subst hw
      obtain ⟨⟨init, last, hsegs, hinfo⟩, hup⟩ := hopened _ _ hres
      exact ⟨⟨init, last, hsegs, congrArg SegmentInfo.path hinfo⟩, hup⟩

/-! ### Runs -/

theorem Inv.record {s : Log} {kept : List WalEntry} (h : s.Inv crc kept) {dir : Dir}
    (hdir : s.dir = some dir) {w : WalWriter} (hw : s.writer = some w) {entry : WalEntry}
    (hfit : Fitting crc w entry) (hb : AtBoundary crc dir w entry) (op : AppendIo) :
    (s.record crc w dir entry op).Inv crc (kept ++ s.left crc entry op) := by
  rw [Inv, hdir] at h
  obtain ⟨segs, hc⟩ := h
  exact hc.record hdir hw hfit hb op

/-- Another writer at the same place may take over. -/
theorem Inv.takeover {s : Log} {kept : List WalEntry} (h : s.Inv crc kept) {w w' : WalWriter}
    (hw : s.writer = some w) (hsegment : w'.currentSegment = w.currentSegment)
    (hnext : w'.nextSequence = w.nextSequence) :
    { s with writer := some w' }.Inv crc kept := by
  cases hdir : s.dir with
  | none =>
    rw [Inv, hdir] at h
    exact absurd (hw.symm.trans h.2.1) (by simp)
  | some dir =>
    rw [Inv, hdir] at h
    obtain ⟨segs, hc⟩ := h
    simp only [Inv]
    refine ⟨segs, hc.layout, hc.bounded, hc.acked, hc.passed, hc.kept, ?_⟩
    intro v hv
    cases hv
    rw [hsegment, hnext]
    exact hc.writer w hw

theorem Inv.step {s t : Log} {kept : List WalEntry} {e : Event} (h : s.Inv crc kept)
    (he : Sound crc s e) (ht : s.step crc e = some t) :
    t.Inv crc (kept ++ s.leaves crc e) := by
  cases e with
  | openLog syncMode maxSegmentSize op =>
    rw [leaves, List.append_nil]
    exact h.openLog syncMode maxSegmentSize op ht
  | append entry op =>
    obtain ⟨w, hw, hmap⟩ := Option.bind_eq_some_iff.mp ht
    obtain ⟨dir, hdir, rfl⟩ := Option.map_eq_some_iff.mp hmap
    obtain ⟨hfit, hb⟩ := he dir w hdir hw
    exact h.record hdir hw hfit hb op
  | checkpoint timestamp op forced =>
    obtain ⟨w, hw, hmap⟩ := Option.bind_eq_some_iff.mp ht
    obtain ⟨dir, hdir, rfl⟩ := Option.map_eq_some_iff.mp hmap
    obtain ⟨hfit, hb⟩ := he dir w hdir hw
    obtain ⟨hd, hsegment, hnext⟩ := w.checkpoint_spec crc dir timestamp op forced
    simp only [hd]
    exact (h.record hdir hw hfit hb op).takeover rfl hsegment hnext
  | sync ok instant =>
    obtain ⟨w, hw, rfl⟩ := Option.map_eq_some_iff.mp ht
    obtain ⟨hsegment, hnext⟩ := w.sync_fields ok instant
    rw [leaves, List.append_nil]
    exact h.takeover hw hsegment hnext
  | crash =>
    cases ht
    rw [leaves, List.append_nil]
    cases hdir : s.dir with
    | none =>
      rw [Inv, hdir] at h
      simp only [Inv]
      exact ⟨h.1, trivial, h.2.2⟩
    | some dir =>
      rw [Inv, hdir] at h
      obtain ⟨segs, hc⟩ := h
      simp only [Inv]
      exact ⟨segs, hc.layout, hc.bounded, hc.acked, hc.passed, hc.kept, by simp⟩

/-- In every run in which each frame that `append` writes starts where a frame ends
or in a new segment, every acknowledged entry is replayed and nothing else than what
was passed to `append`. -/
theorem acked_replayed {s₀ s : Log} (hi : s₀.Initial) (r : Run (Log.step crc) (Sound crc) s₀ s)
    (now : DateTime) : s.Durable crc now := by
  obtain ⟨kept, hinv⟩ := r.invariant (I := fun s => ∃ kept, s.Inv crc kept)
    (fun _ _ _ ⟨kept, h⟩ he ht => ⟨_, h.step he ht⟩) ⟨[], hi.inv⟩
  exact hinv.replays now

/-- The entries that were left in a log are read back, with new numbers and the milliseconds of
their times. -/
theorem Holds.readLog {dir : Option Dir} {entries : List WalEntry} (h : Holds crc dir entries)
    (now : DateTime) : ∃ read, readLog crc now dir = .ok read ∧
      read.map WalEntry.content = entries.map WalEntry.content := by
  obtain ⟨s₀, s, hi, r, rfl⟩ := h
  have hinv := r.invariant (I := fun x => x.1.Inv crc x.2) (by
    intro x e y hx he hstep
    obtain ⟨t, ht, rfl⟩ := Option.map_eq_some_iff.mp hstep
    exact hx.step he ht) hi.inv
  cases hdir : s.dir with
  | none =>
    rw [Inv, hdir] at hinv
    have hnil : entries = [] := hinv.2.2
    exact ⟨[], rfl, by rw [hnil]⟩
  | some dir =>
    rw [Inv, hdir] at hinv
    obtain ⟨segs, hc⟩ := hinv
    exact ⟨_, hc.layout.replayAll now, by rw [List.map_map, ← hc.kept]; rfl⟩

/-! ### Logs that hold given entries -/

/-- A writer that starts a new segment for every frame. -/
structure Tight (w : WalWriter) (count : ℕ) : Prop where
  segments : w.maxSegmentSize = 0
  mode : w.syncMode = .async
  next : w.nextSequence.toNat = count + 1

theorem Tight.append {w : WalWriter} {count : ℕ} (h : Tight w count) (hcount : count + 2 < 2 ^ 64)
    (dir : Dir) (entry : WalEntry) :
    w.Rotates ((w.assigned entry).serialize crc) ∧ w.leavesFrame crc dir entry {} = true ∧
      Tight (w.append crc dir entry {}).2.1 (count + 1) := by
  have hlen : ((w.assigned entry).serialize crc).length = _ := (w.assigned entry).length_serialize
  have hrotates : ∀ n, { w with nextSequence := n }.Rotates ((w.assigned entry).serialize crc) := by
    intro n
    show w.maxSegmentSize < _
    rw [h.segments]
    omega
  have hnext : (w.nextSequence + 1).toNat = count + 1 + 1 := by
    rw [UInt64.toNat_add, h.next]
    exact Nat.mod_eq_of_lt hcount
  have hroom : { w with nextSequence := w.nextSequence + 1 }.makeRoom dir
      ((w.assigned entry).serialize crc) {} = (.ok (),
        { w with
          currentSegment := ⟨segmentFilename (w.nextSequence + 1), w.nextSequence + 1, 0⟩
          nextSequence := w.nextSequence + 1
          lastSync := 0 }, dir.create (segmentFilename (w.nextSequence + 1))) := by
    rw [WalWriter.makeRoom, if_pos (hrotates _)]
    rfl
  refine ⟨hrotates w.nextSequence, ?_, ?_⟩
  · simp [WalWriter.leavesFrame, hroom, Except.isOk, Except.toBool]
  · simp only [WalWriter.append, hroom, WalWriter.writeFrame]
    simp only [WalWriter.maybeSync, h.mode]
    exact ⟨h.segments, rfl, hnext⟩

/-- Some directory holds the entries, if they are short enough for the reader. -/
theorem exists_holds {entries : List WalEntry} (hfits : ∀ e ∈ entries, e.Fits crc)
    (hlen : entries.length + 2 < 2 ^ 64) : ∃ dir, Holds crc (some dir) entries := by
  have hgoal : ∃ s dir w, Run (holdStep crc) (fun x e => Sound crc x.1 e)
      (⟨none, none, [], []⟩, []) (s, entries) ∧ s.dir = some dir ∧ s.writer = some w ∧
        Tight w entries.length := by
    induction entries using List.reverseRecOn with
    | nil =>
      have hopen : holdStep crc (⟨none, none, [], []⟩, []) (.openLog .async 0 {}) = some
        (⟨some [(segmentFilename 0, [])],
          some ⟨⟨segmentFilename 0, 0, 0⟩, 1, 0, .async, 0⟩, [], []⟩, []) := rfl
      refine ⟨_, _, _, Run.single (e := Event.openLog .async 0 {}) trivial hopen, rfl, rfl, ?_⟩
      exact ⟨rfl, rfl, rfl⟩
    | append_singleton entries entry ih =>
      rw [List.length_append, List.length_singleton] at hlen
      obtain ⟨s, dir, w, r, hdir, hw, htight⟩ :=
        ih (fun e he => hfits e (List.mem_append_left _ he)) (by omega)
      obtain ⟨hrotates, hwhole, htight'⟩ := @htight.append crc _ _ (by omega) dir entry
      have hstep : holdStep crc (s, entries) (.append entry {}) =
          some (s.record crc w dir entry {}, entries ++ [entry]) := by
        simp [holdStep, Log.step, leaves, left, hdir, hw, hwhole]
      refine ⟨_, _, _, r.trans (Run.single ?_ hstep), rfl, rfl, ?_⟩
      · intro dir' w' hdir' hw'
        obtain rfl : dir = dir' := Option.some.inj (hdir.symm.trans hdir')
        obtain rfl : w = w' := Option.some.inj (hw.symm.trans hw')
        refine ⟨⟨hfits entry (by simp), ?_⟩, .inl hrotates⟩
        rw [htight.next]
        omega
      · rw [List.length_append, List.length_singleton]
        exact htight'
  obtain ⟨s, dir, w, r, hdir, -⟩ := hgoal
  exact ⟨dir, _, s, ⟨by simp, rfl, rfl, rfl⟩, r, hdir⟩

/-! ### A torn frame -/

/-- CRC-32 with the reflected IEEE polynomial, a byte at a time. -/
def crc32Round (c : UInt32) : UInt32 :=
  if c &&& 1 = 1 then (c >>> 1) ^^^ 0xEDB88320 else c >>> 1

def crc32 (data : Bytes) : UInt32 :=
  ~~~ data.foldl (fun c b => crc32Round^[8] (c ^^^ b.toUInt32)) 0xFFFFFFFF

example : crc32 (asBytes "123456789") = 0xCBF43926 := by decide +kernel

def epoch : DateTime := DateTime.unixEpoch

/-- No directory yet. -/
def unopened : Log := ⟨none, none, [], []⟩

theorem unopened_initial : unopened.Initial := ⟨by simp [unopened], rfl, rfl, rfl⟩

def inserted : WalEntry := ⟨0, epoch, .insert, .graph, "", []⟩

def writerAt (fileSize : ℕ) (next : UInt64) : WalWriter :=
  ⟨⟨segmentFilename 0, 0, fileSize⟩, next, 100, .async, 0⟩

theorem opened_run {ok : Dir → WalWriter → WalEntry → Prop} :
    Run (Log.step crc32) (Appends ok) unopened
      ⟨some [(segmentFilename 0, [])], some (writerAt 0 1), [], []⟩ :=
  Run.single (e := .openLog .async 100 {}) trivial rfl

/-- One entry in the log. -/
def written : Log where
  dir := some [(segmentFilename 0, { inserted with sequence := 1 }.serialize crc32)]
  writer := some (writerAt 34 2)
  acked := [{ inserted with sequence := 1 }]
  passed := [{ inserted with sequence := 1 }]

/-- An entry, and the first byte of another one, whose write was stopped by a crash. -/
def stopped : Log where
  dir := some [(segmentFilename 0, segmentBytes crc32 [{ inserted with sequence := 1 }] [30])]
  writer := none
  acked := [{ inserted with sequence := 1 }]
  passed := [{ inserted with sequence := 1 }, { inserted with sequence := 2 }]

theorem torn_byte : Torn stops [30] :=
  .inr ⟨inserted.body crc32, WalEntry.Fits.framable (by decide), ⟨_, rfl⟩, by decide⟩

theorem stopped_run : Run (Log.step crc32) (Sound crc32) unopened stopped := by
  have hfirst : Log.step crc32 ⟨some [(segmentFilename 0, [])], some (writerAt 0 1), [], []⟩
    (.append inserted {}) = some written := rfl
  have hsecond : written.step crc32 (.append inserted { written := some 1 }) =
    some { stopped with writer := some (writerAt 34 3) } := rfl
  refine opened_run.trans ((Run.single ?_ hfirst).trans ((Run.single ?_ hsecond).trans
    (Run.single (e := .crash) trivial rfl)))
  · intro dir w hdir hw
    cases hdir
    cases hw
    refine ⟨⟨by decide, by decide⟩, .inr fun data hdata => ?_⟩
    cases hdata
    exact congrArg Prod.snd (walk_torn .nil)
  · intro dir w hdir hw
    cases hdir
    cases hw
    refine ⟨⟨by decide, by decide⟩, .inr fun data hdata => ?_⟩
    cases hdata
    have hwalk := @walk_segmentBytes crc32 [{ inserted with sequence := 1 }] [] (by decide) .nil
    exact congrArg Prod.snd (by simpa [segmentBytes] using hwalk)

/-- The log is opened again, and the next frame goes to a new segment. -/
def reopened : Log where
  dir := some [(segmentFilename 0, segmentBytes crc32 [{ inserted with sequence := 1 }] [30]),
    (segmentFilename 3, { inserted with sequence := 2 }.serialize crc32)]
  writer := some ⟨⟨segmentFilename 3, 3, 34⟩, 3, 50, .async, 0⟩
  acked := [{ inserted with sequence := 1 }, { inserted with sequence := 2 }]
  passed := [{ inserted with sequence := 1 }, { inserted with sequence := 2 },
    { inserted with sequence := 2 }]

theorem acked_replayed_reopened : reopened.Durable crc32 epoch := by
  have hread : Dir.read (stopped.dir.getD []) (segmentFilename 0) =
      .ok (segmentBytes crc32 [{ inserted with sequence := 1 }] [30]) := rfl
  have hscan : WalWriter.scanLastSequence (stopped.dir.getD []) ⟨segmentFilename 0, 0, 35⟩ =
      .ok 2 := by
    rw [WalWriter.scanLastSequence, if_neg (by decide), hread]
    have hloop := @WalWriter.scanLoop_segmentBytes crc32 [{ inserted with sequence := 1 }] [30]
      (by decide) torn_byte
    simp only [bind, Except.bind, hloop]
    rfl
  have hopen : stopped.step crc32 (.openLog .async 50 {}) =
      some { stopped with writer := some ⟨⟨segmentFilename 0, 0, 35⟩, 2, 50, .async, 0⟩ } := by
    have hsegment : WalWriter.openSegment (stopped.dir.getD []) {} =
        (.ok (⟨segmentFilename 0, 0, 35⟩, 2), stopped.dir.getD []) := by
      have hlist : listSegments (some (stopped.dir.getD [])) =
          .ok [⟨segmentFilename 0, 0, 35⟩] := rfl
      simp [WalWriter.openSegment, WalWriter.resumeSegment, hlist, hscan]
    rw [Log.step, WalWriter.openWithMaxSize, if_neg (by decide), hsegment]
    rfl
  have happend : Log.step crc32
    { stopped with writer := some ⟨⟨segmentFilename 0, 0, 35⟩, 2, 50, .async, 0⟩ }
    (.append inserted {}) = some reopened := rfl
  refine acked_replayed unopened_initial (stopped_run.trans ((Run.single trivial hopen).trans
    (Run.single ?_ happend))) epoch
  intro dir w _ hw
  cases hw
  exact ⟨⟨by decide, by decide⟩, .inl (by decide)⟩

/-- The first byte of a frame that declares thirty bytes is all that was written. -/
def torn : Log where
  dir := some [(segmentFilename 0, [30])]
  writer := none
  acked := []
  passed := [{ inserted with sequence := 1 }]

theorem torn_run : Run (Log.step crc32) (FitsReader crc32) unopened torn := by
  have happend : Log.step crc32 ⟨some [(segmentFilename 0, [])], some (writerAt 0 1), [], []⟩
    (.append inserted { written := some 1 }) = some { torn with writer := some (writerAt 0 2) } := rfl
  refine opened_run.trans ((Run.single ?_ happend).trans (Run.single (e := .crash) trivial rfl))
  intro dir w _ hw
  cases hw
  exact ⟨by decide, by decide⟩

/-- The segment after the next append. -/
def resumed : Log where
  dir := some [(segmentFilename 0, 30 :: { inserted with sequence := 1 }.serialize crc32)]
  writer := some (writerAt 35 2)
  acked := [{ inserted with sequence := 1 }]
  passed := [{ inserted with sequence := 1 }, { inserted with sequence := 1 }]

theorem resumed_run : Run (Log.step crc32) (FitsReader crc32) torn resumed := by
  have hread : Dir.read (torn.dir.getD []) (segmentFilename 0) = .ok [30] := rfl
  have hscan : WalWriter.scanLastSequence (torn.dir.getD []) ⟨segmentFilename 0, 0, 1⟩ = .ok 1 := by
    rw [WalWriter.scanLastSequence, if_neg (by decide), hread]
    change (.ok (WalWriter.scanLoop 0 [30] + 1) : WalResult UInt64) = .ok 1
    rw [WalWriter.scanLoop]
    rfl
  have hopen : torn.step crc32 (.openLog .async 100 {}) =
      some { torn with writer := some (writerAt 1 1) } := by
    have hsegment : WalWriter.openSegment (torn.dir.getD []) {} =
        (.ok (⟨segmentFilename 0, 0, 1⟩, 1), torn.dir.getD []) := by
      have hlist : listSegments (some (torn.dir.getD [])) = .ok [⟨segmentFilename 0, 0, 1⟩] := rfl
      simp [WalWriter.openSegment, WalWriter.resumeSegment, hlist, hscan]
    rw [Log.step, WalWriter.openWithMaxSize, if_neg (by decide), hsegment]
    rfl
  have happend : Log.step crc32 { torn with writer := some (writerAt 1 1) } (.append inserted {}) =
    some resumed := rfl
  refine (Run.single trivial hopen).trans (Run.single ?_ happend)
  intro dir w _ hw
  cases hw
  exact ⟨by decide, by decide⟩

theorem acked_lost : ¬ ∀ (s₀ s : Log) (now : DateTime), s₀.Initial →
    Run (Log.step crc32) (FitsReader crc32) s₀ s → s.Durable crc32 now := by
  intro hall
  have hdurable := hall unopened resumed epoch unopened_initial (torn_run.trans resumed_run)
  obtain ⟨entries, hreplay, hacked, -⟩ := hdurable _ rfl
  -- the torn byte and the frame behind it declare 7710 bytes
  have hread : readSegmentEntries crc32 epoch
      (30 :: { inserted with sequence := 1 }.serialize crc32) = [] := by
    have hlength : ofLe ((30 :: { inserted with sequence := 1 }.serialize crc32).take 4) = 7710 := rfl
    rw [readSegmentEntries, if_pos (by decide)]
    simp only [hlength]
    rw [if_neg (by decide), if_pos (by decide)]
  have hnil : replayAll crc32 epoch resumed.dir = .ok [] := by
    have hlist : listSegments resumed.dir = .ok [⟨segmentFilename 0, 0, 35⟩] := rfl
    have hfile : Dir.read (resumed.dir.getD []) (segmentFilename 0) =
        .ok (30 :: { inserted with sequence := 1 }.serialize crc32) := rfl
    simp [replayAll, replayFrom, readSegments, hlist, hfile, hread, bind, Except.bind, pure,
      Except.pure]
  rw [hnil] at hreplay
  cases hreplay
  exact absurd hacked (by simp [resumed])

end Log

end NextgenDatabases.Wal
