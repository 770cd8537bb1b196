import NextgenDatabases.Wal.Rotation

/-!
# The last checkpoint

The search for the last checkpoint goes backwards over the segments and backwards in each of them,
and returns the first checkpoint that it meets. Sequence numbers grow along the log as long as each
frame has the length that it declares, also where a segment has been cut or frames are damaged.
-/
namespace NextgenDatabases.Wal

open Foundations

variable (crc : Bytes → UInt32) (now : DateTime)

/-- The loop over the entries of a segment. It returns as soon as it has met a checkpoint. -/
def checkpointIn (lastCheckpoint : Option UInt64) : List WalEntry → Option (Option UInt64)
  | [] => none
  | entry :: entries =>
    if entry.operation = .checkpoint then
      some <| match lastCheckpoint with
        | some existing => if existing < entry.sequence then some entry.sequence else some existing
        | none => some entry.sequence
    else checkpointIn lastCheckpoint entries

/-- The loop over the segments. -/
def checkpointOf (dir : Dir) (lastCheckpoint : Option UInt64) :
    List SegmentInfo → WalResult (Option UInt64)
  | [] => .ok lastCheckpoint
  | segment :: segments => do
    let data ← dir.read segment.path
    match checkpointIn lastCheckpoint (readSegmentEntries crc now data).reverse with
    | some found => return found
    | none => checkpointOf dir lastCheckpoint segments

def findLastCheckpoint (dir : Option Dir) : WalResult (Option UInt64) := do
  let segments ← listSegments dir
  checkpointOf crc now (dir.getD []) none segments.reverse

/-! ### What the search returns -/

/-- The greatest number of a checkpoint, if there is one. -/
def Greatest (entries : List WalEntry) : Option UInt64 → Prop
  | none => ∀ e ∈ entries, e.operation ≠ .checkpoint
  | some n => (∃ e ∈ entries, e.operation = .checkpoint ∧ e.sequence = n) ∧
    ∀ e ∈ entries, e.operation = .checkpoint → e.sequence ≤ n

theorem checkpointIn_eq (entries : List WalEntry) :
    checkpointIn none entries =
      (entries.find? fun e => e.operation = .checkpoint).map fun e => some e.sequence := by
  induction entries with
  | nil => rfl
  | cons e entries ih =>
    rw [checkpointIn, List.find?_cons]
    by_cases he : e.operation = .checkpoint
    · simp [he]
    · simp [he, ih]

variable {crc now}

theorem checkpointOf_eq {dir : Dir} {segments : List SegmentInfo}
    (h : ∀ s ∈ segments, s.path ∈ dir.map Prod.fst) :
    checkpointOf crc now dir none segments =
      .ok (((segments.flatMap fun s => (entriesOf crc now dir s).reverse).find?
        fun e => e.operation = .checkpoint).map WalEntry.sequence) := by
  induction segments with
  | nil => rfl
  | cons s segments ih =>
    obtain ⟨data, hdata⟩ := Dir.exists_lookup (h s List.mem_cons_self)
    have hread : dir.read s.path = .ok data := by
      rw [Dir.read, hdata]
    have hentries : entriesOf crc now dir s = readSegmentEntries crc now data := by
      rw [entriesOf, hdata]
      rfl
    rw [checkpointOf, hread, List.flatMap_cons, List.find?_append, hentries]
    simp only [bind, Except.bind, checkpointIn_eq]
    cases (readSegmentEntries crc now data).reverse.find? fun e => e.operation = .checkpoint with
    | none =>
      simp only [Option.map_none, Option.none_or]
      exact ih fun s hs => h s (List.mem_cons_of_mem _ hs)
    | some e => rfl

/-- The last checkpoint of a list with growing numbers is the greatest. -/
theorem greatest_find? {entries : List WalEntry}
    (h : entries.Pairwise fun a b => a.sequence < b.sequence) :
    Greatest entries
      ((entries.reverse.find? fun e => e.operation = .checkpoint).map WalEntry.sequence) := by
  cases hfind : entries.reverse.find? fun e => e.operation = .checkpoint with
  | none =>
    intro e he hop
    have hnone := List.find?_eq_none.mp hfind e (List.mem_reverse.mpr he)
    exact hnone (by simpa using hop)
  | some e =>
    obtain ⟨hop, before, later, hsplit, hnone⟩ := List.find?_eq_some_iff_append.mp hfind
    have hentries : entries = later.reverse ++ e :: before.reverse := by
      rw [← List.reverse_reverse entries, hsplit]
      simp
    rw [hentries] at h ⊢
    refine ⟨⟨e, by simp, by simpa using hop, rfl⟩, ?_⟩
    intro a ha hacp
    rcases List.mem_append.mp ha with ha | ha
    · exact UInt64.le_of_lt ((List.pairwise_append.mp h).2.2 a ha e List.mem_cons_self)
    · rcases List.mem_cons.mp ha with rfl | ha
      · exact UInt64.le_refl _
      · have hno := hnone a (List.mem_reverse.mp ha)
        simp [hacp] at hno

/-- If the numbers grow along the log, the search finds the greatest checkpoint. -/
theorem findLastCheckpoint_greatest {dir : Dir}
    (h : (allEntries crc now dir).Pairwise fun a b => a.sequence < b.sequence) :
    ∃ entries found, replayAll crc now (some dir) = .ok entries ∧
      findLastCheckpoint crc now (some dir) = .ok found ∧ Greatest entries found := by
  have hlist : listSegments (some dir) = .ok (segmentsOf dir) := rfl
  have hpaths : ∀ s ∈ (segmentsOf dir).reverse, s.path ∈ dir.map Prod.fst :=
    fun s hs => (mem_segmentsOf (List.mem_reverse.mp hs)).1
  have hsorted : (allEntries crc now dir).Pairwise fun a b => a.sequence ≤ b.sequence :=
    h.imp UInt64.le_of_lt
  have hreplay : replayAll crc now (some dir) = .ok (allEntries crc now dir) := by
    rw [replayAll, replayFrom_eq]
    simp [hsorted.insertionSort_eq]
  refine ⟨_, _, hreplay, ?_, greatest_find? h⟩
  simp only [findLastCheckpoint, hlist, bind, Except.bind, Option.getD_some]
  rw [checkpointOf_eq hpaths, allEntries, List.reverse_flatMap]
  rfl

/-! ### Damaged frames -/

variable (crc now)

/-- Bodies of frames have been replaced by others of the same length that do not decode. -/
inductive Damage : Bytes → Bytes → Prop
  | rest (data : Bytes) : Damage data data
  | kept {body rest rest' : Bytes} (hlen : body.length < 256 ^ 4) (h : Damage rest rest') :
      Damage (frame body ++ rest) (frame body ++ rest')
  | broken {body body' rest rest' : Bytes} (hlen : body.length < 256 ^ 4)
      (hsame : body'.length = body.length)
      (hfail : ∃ error, WalEntry.deserialize crc now body' body'.length = .error error)
      (h : Damage rest rest') : Damage (frame body ++ rest) (frame body' ++ rest')

/-- Frames of the files of a directory have been damaged. -/
def Damaged (dir dir' : Dir) : Prop :=
  List.Forall₂ (fun f f' => f'.1 = f.1 ∧ Damage crc now f.2 f'.2) dir dir'

variable {crc now}

theorem Damage.length_eq {data data' : Bytes} (h : Damage crc now data data') :
    data'.length = data.length := by
  induction h with
  | rest => rfl
  | kept _ _ ih => simp [ih]
  | broken _ hsame _ _ ih => simp [ih, hsame]

/-- The reader takes a frame with its rest, or stops there. -/
theorem readSegmentEntries_frame {body : Bytes} (h : body.length < 256 ^ 4) (rest : Bytes) :
    readSegmentEntries crc now (frame body ++ rest) =
      if stops body.length then []
      else (decodeBody crc now body).toList ++ readSegmentEntries crc now rest := by
  cases hstop : stops body.length with
  | true =>
    have hdeclared := declared_frame_append h rest
    rw [readSegmentEntries_eq_walk, walk_stop]
    · rfl
    · intro _ hread
      rw [hdeclared, hstop] at hread
      cases hread
  | false =>
    simp only [readSegmentEntries_eq_walk, walk_frame_append ⟨h, hstop⟩, List.filterMap_cons]
    cases decodeBody crc now body with
    | none => rfl
    | some e => rfl

/-- Nothing is read that was not read before. -/
theorem Damage.sublist {data data' : Bytes} (h : Damage crc now data data') :
    (readSegmentEntries crc now data').Sublist (readSegmentEntries crc now data) := by
  induction h with
  | rest => exact .refl _
  | kept hlen _ ih =>
    rw [readSegmentEntries_frame hlen, readSegmentEntries_frame hlen]
    split
    · exact .refl _
    · exact ih.append_left _
  | @broken body body' rest rest' hlen hsame hfail _ ih =>
    obtain ⟨error, herror⟩ := hfail
    have hnone : decodeBody crc now body' = none := by
      rw [decodeBody, herror]
      rfl
    rw [readSegmentEntries_frame hlen, readSegmentEntries_frame (hsame ▸ hlen), hsame, hnone]
    split
    · exact .refl _
    · exact ih.trans (List.sublist_append_right _ _)

theorem Damaged.segmentsOf_eq {dir dir' : Dir} (h : Damaged crc now dir dir') :
    segmentsOf dir' = segmentsOf dir := by
  have hinfo : dir'.filterMap segmentInfo? = dir.filterMap segmentInfo? := by
    induction h with
    | nil => rfl
    | @cons f f' dir dir' hfile _ ih =>
      have hsame : segmentInfo? f' = segmentInfo? f := by
        rw [segmentInfo?, segmentInfo?, hfile.1, hfile.2.length_eq]
      rw [List.filterMap_cons, List.filterMap_cons, hsame, ih]
  rw [segmentsOf, hinfo, segmentsOf]

theorem Damaged.entriesOf_sublist {dir dir' : Dir} (h : Damaged crc now dir dir')
    (s : SegmentInfo) : (entriesOf crc now dir' s).Sublist (entriesOf crc now dir s) := by
  unfold entriesOf
  induction h with
  | nil => exact .refl _
  | @cons f f' dir dir' hfile _ ih =>
    obtain ⟨name, data⟩ := f
    obtain ⟨name', data'⟩ := f'
    obtain ⟨rfl, hdamage⟩ := hfile
    simp only [List.lookup_cons]
    split
    · exact hdamage.sublist
    · exact ih

theorem Damaged.allEntries_sublist {dir dir' : Dir} (h : Damaged crc now dir dir') :
    (allEntries crc now dir').Sublist (allEntries crc now dir) := by
  rw [allEntries, allEntries, h.segmentsOf_eq]
  exact List.Sublist.flatMap_right _ fun s _ => h.entriesOf_sublist s

/-! ### Segments of whole frames -/

/-- The reader finds entries of the segment, in order. -/
theorem readSegmentEntries_sublist {entries : List WalEntry}
    (h : ∀ e ∈ entries, (e.body crc).length < 256 ^ 4) :
    (readSegmentEntries crc now (segmentBytes crc entries [])).Sublist
      (entries.map WalEntry.stored) := by
  induction entries with
  | nil =>
    rw [readSegmentEntries_segmentBytes now (by simp) .nil]
  | cons e entries ih =>
    have hrest := ih fun a ha => h a (List.mem_cons_of_mem _ ha)
    have hsplit : segmentBytes crc (e :: entries) [] =
        frame (e.body crc) ++ segmentBytes crc entries [] := by
      simp [segmentBytes, e.serialize_eq_frame]
    rw [hsplit, readSegmentEntries_frame (h e List.mem_cons_self), List.map_cons]
    split
    · exact List.nil_sublist _
    · next hstop =>
      have hfits : e.Fits crc := by
        have hle : ¬ MAX_ENTRY_SIZE < (e.body crc).length := by
          intro hlt
          simp [stops, hlt] at hstop
        rw [WalEntry.Fits, e.length_serialize]
        omega
      have hdecode : decodeBody crc now (e.body crc) = some e.stored := by
        rw [decodeBody, WalEntry.deserialize_body hfits]
        rfl
      rw [hdecode]
      exact hrest.cons_cons _

/-- The numbers of what is read grow along the log. -/
theorem Placed.allEntries_increasing {dir : Dir} {segs : List Seg} (h : Placed crc dir segs)
    (hdeclared : ∀ seg ∈ segs, seg.Declared crc) (hwhole : ∀ seg ∈ segs, seg.torn = []) :
    (allEntries crc now dir).Pairwise fun a b => a.sequence < b.sequence := by
  have hsegments : segmentsOf dir = segs.map (Seg.info crc) := Except.ok.inj h.listSegments
  have hread : ∀ seg ∈ segs, (entriesOf crc now dir (seg.info crc)).Sublist
      (seg.entries.map WalEntry.stored) := by
    intro seg hseg
    obtain ⟨init, rest, rfl⟩ := List.append_of_mem hseg
    have hfile : dir.lookup (seg.info crc).path = some (segmentBytes crc seg.entries []) := by
      have hbytes : dir.read (segmentFilename seg.start) = .ok (seg.bytes crc) := h.read
      rw [Seg.bytes, hwhole seg hseg, Dir.read] at hbytes
      split at hbytes
      · next data hdata =>
        cases hbytes
        exact hdata
      · cases hbytes
    rw [entriesOf, hfile]
    exact readSegmentEntries_sublist (hdeclared seg hseg).declared
  have hsublist : (allEntries crc now dir).Sublist
      ((segs.flatMap Seg.entries).map WalEntry.stored) := by
    rw [allEntries, hsegments, List.flatMap_map, List.map_flatMap]
    exact List.Sublist.flatMap_right _ hread
  refine List.Pairwise.sublist hsublist ?_
  rw [List.pairwise_map]
  exact h.increasing

/-! ### Runs -/

namespace Log

variable (crc)

/-- The length of the frame fits its four bytes, and the numbers do not run out. -/
def Declares (w : WalWriter) (entry : WalEntry) : Prop :=
  ((w.assigned entry).body crc).length < 2 ^ 32 ∧ w.nextSequence.toNat + 2 < 2 ^ 64

/-- Every frame has the length that it declares. -/
abbrev Honest (s : Log) (u : Usage) : Prop :=
  s.Uses (Declares crc) (fun w => w.nextSequence.toNat + 2 < 2 ^ 64) u

/-- Whole frames of the length that they declare. -/
def Whole (seg : Seg) : Prop := seg.torn = [] ∧ ∀ e ∈ seg.entries, (e.body crc).length < 256 ^ 4

/-- Whole frames with growing numbers, and a writer behind them. -/
structure Growing (writer : Option WalWriter) (dir : Dir) (segs : List Seg) : Prop where
  placed : Placed crc dir segs
  whole : ∀ seg ∈ segs, Whole crc seg
  bounded : ∀ seg ∈ segs, seg.Below maxSequence
  writer : ∀ w, writer = some w → AtEnd w.currentSegment.path w.nextSequence segs

def Grows (s : Log) : Prop :=
  match s.dir with
  | none => s.writer = none
  | some dir => ∃ segs, Growing crc s.writer dir segs

variable {crc}

theorem Whole.declared {seg : Seg} (h : Whole crc seg) : seg.Declared crc :=
  ⟨h.2, by rw [h.1]; exact .nil⟩

theorem Initial.grows {s : Log} (h : s.Initial) : s.Grows crc := by
  unfold Grows
  split
  · exact h.writer
  · next dir hdir =>
    refine ⟨[], (layout_nil (h.dir dir hdir)).placed, by simp, by simp, ?_⟩
    simp [h.writer]

/-- The segments after a whole frame was written behind the last of them. -/
theorem growing_written {dir : Dir} {init : List Seg} {last : Seg} {w w' : WalWriter}
    {entry : WalEntry} (h : Placed crc dir (init ++ [last]))
    (hwhole : ∀ seg ∈ init ++ [last], Whole crc seg) (hdeclares : Declares crc w entry)
    (hup : ∀ seg ∈ init ++ [last], seg.start ≤ w.nextSequence + 1 ∧
      ∀ b ∈ seg.entries, b.sequence < w.nextSequence)
    (hnext : w'.nextSequence = w.nextSequence + 1)
    (hpath : w'.currentSegment.path = segmentFilename last.start) :
    ∃ segs, Growing crc (some w')
      (dir.write (segmentFilename last.start) ((w.assigned entry).serialize crc)) segs := by
  have hlt := lt_succ hdeclares.2
  have hlast := hwhole last (by simp)
  have hput : last.put crc (w.assigned entry) ((w.assigned entry).serialize crc).length =
      { last with entries := last.entries ++ [w.assigned entry] } := if_neg (lt_irrefl _)
  have hplaced := h.write hlast.1 (e := w.assigned entry) (fun seg hseg => (hup seg hseg).2)
    ((w.assigned entry).serialize crc).length
  rw [List.take_length, hput] at hplaced
  have hupTo := Seg.upTo_grown hlt.1 hup (e := w.assigned entry) rfl
  have hgrown : ∀ seg ∈ init ++ [{ last with entries := last.entries ++ [w.assigned entry] }],
      Whole crc seg := by
    rw [List.forall_mem_append, List.forall_mem_singleton] at hwhole ⊢
    refine ⟨hwhole.1, hlast.1, fun b hb => ?_⟩
    rcases List.mem_append.mp hb with hb | hb
    · exact hlast.2 b hb
    · rw [List.mem_singleton.mp hb]
      exact hdeclares.1.trans_eq (by norm_num)
  refine ⟨_, hplaced, hgrown, fun seg hseg => (hupTo seg hseg).below hlt.2, ?_⟩
  intro v hv
  cases hv
  exact ⟨⟨init, _, rfl, hpath⟩, fun seg hseg => hnext ▸ hupTo seg hseg⟩

theorem Growing.append {dir : Dir} {segs : List Seg} {w : WalWriter}
    (h : Growing crc (some w) dir segs) {entry : WalEntry} (hdeclares : Declares crc w entry)
    (instant : ℕ) :
    ∃ segs', Growing crc (some (w.append crc dir entry { instant := instant }).2.1)
      (w.append crc dir entry { instant := instant }).2.2 segs' := by
  obtain ⟨⟨init, last, rfl, hpath⟩, hup⟩ := h.writer w rfl
  have hlt := lt_succ hdeclares.2
  have hbelow : ∀ seg ∈ init ++ [last], seg.Below (w.nextSequence + 1) :=
    fun seg hseg => (hup seg hseg).below hlt.1
  have hstays : ∀ seg ∈ init ++ [last], seg.start ≤ w.nextSequence + 1 ∧
      ∀ b ∈ seg.entries, b.sequence < w.nextSequence :=
    fun seg hseg => ⟨UInt64.le_of_lt (hbelow seg hseg).1, (hup seg hseg).2⟩
  obtain ⟨w', dir', happend, hnext, ⟨-, hsegment, rfl⟩ | ⟨hsegment, rfl⟩⟩ :=
    @append_clean crc w dir entry instant
  · rw [happend]
    dsimp only
    rw [hpath]
    exact growing_written h.placed h.whole hdeclares hstays hnext (by rw [hsegment]; exact hpath)
  · rw [happend]
    dsimp only
    have hplaced : Placed crc (dir.create (segmentFilename (w.nextSequence + 1)))
        ((init ++ [last]) ++ [⟨w.nextSequence + 1, [], []⟩]) := h.placed.create hbelow
    refine @growing_written crc _ (init ++ [last]) ⟨w.nextSequence + 1, [], []⟩ w w' entry hplaced
      ?_ hdeclares ?_ hnext (by rw [hsegment])
    · intro seg hseg
      rcases List.mem_append.mp hseg with hseg | hseg
      · exact h.whole seg hseg
      · rw [List.mem_singleton.mp hseg]
        exact ⟨rfl, by simp⟩
    · intro seg hseg
      rcases List.mem_append.mp hseg with hseg | hseg
      · exact hstays seg hseg
      · rw [List.mem_singleton.mp hseg]
        exact ⟨UInt64.le_refl _, by simp⟩

/-- A rotation creates a new segment, or the last one again and empty. -/
theorem Growing.rotate {dir : Dir} {segs : List Seg} {w : WalWriter}
    (h : Growing crc (some w) dir segs) (hroom : w.nextSequence.toNat + 2 < 2 ^ 64)
    (instant : ℕ) :
    ∃ segs', Growing crc (some (w.rotate dir { instant := instant }).2.1)
      (w.rotate dir { instant := instant }).2.2 segs' := by
  obtain ⟨⟨init, last, rfl, hpath⟩, hup⟩ := h.writer w rfl
  have hlt := lt_succ hroom
  have hresult : w.rotate dir { instant := instant } =
      (.ok (), { w with
        currentSegment := ⟨segmentFilename w.nextSequence, w.nextSequence, 0⟩
        lastSync := instant }, dir.create (segmentFilename w.nextSequence)) := rfl
  obtain ⟨kept, hplaced, hkept⟩ : ∃ kept,
      Placed crc (dir.create (segmentFilename w.nextSequence))
        (kept ++ [⟨w.nextSequence, [], []⟩]) ∧ ∀ seg ∈ kept, seg ∈ init ++ [last] := by
    by_cases hstart : last.start = w.nextSequence
    · have hcut := h.placed.cut
      rw [hstart] at hcut
      exact ⟨init, hcut, fun seg hseg => List.mem_append_left _ hseg⟩
    · have hbelow := h.placed.below_of_ne hup hstart
      exact ⟨init ++ [last], h.placed.create hbelow, fun seg hseg => hseg⟩
  have hnew : ∀ seg ∈ kept ++ [⟨w.nextSequence, [], []⟩],
      Whole crc seg ∧ seg.Below maxSequence ∧ seg.UpTo w.nextSequence := by
    intro seg hseg
    rcases List.mem_append.mp hseg with hseg | hseg
    · have hmem := hkept seg hseg
      exact ⟨h.whole seg hmem, h.bounded seg hmem, hup seg hmem⟩
    · rw [List.mem_singleton.mp hseg]
      exact ⟨⟨rfl, by simp⟩, ⟨UInt64.lt_trans hlt.1 hlt.2, by simp⟩, UInt64.le_refl _, by simp⟩
  rw [hresult]
  refine ⟨_, hplaced, fun seg hseg => (hnew seg hseg).1, fun seg hseg => (hnew seg hseg).2.1, ?_⟩
  intro v hv
  cases hv
  exact ⟨⟨kept, _, rfl, rfl⟩, fun seg hseg => (hnew seg hseg).2.2⟩

/-- A missing directory counts as an empty one. -/
theorem Grows.growing {s : Log} (h : s.Grows crc) :
    ∃ segs, Growing crc s.writer (s.dir.getD []) segs := by
  unfold Grows at h
  split at h
  · next hdir =>
    rw [hdir, h, Option.getD_none]
    exact ⟨[], (layout_nil (by simp)).placed, by simp, by simp, by simp⟩
  · next dir hdir => rwa [hdir, Option.getD_some]

theorem Grows.openLog {s t : Log} (h : s.Grows crc) (syncMode : SyncMode)
    (maxSegmentSize instant : ℕ)
    (ht : s.step crc (.openLog syncMode maxSegmentSize { instant := instant }) = some t) :
    t.Grows crc := by
  cases ht
  unfold WalWriter.openWithMaxSize
  split
  · next hnone => cases hnone.2
  · obtain ⟨segs, hgrowing⟩ := h.growing
    obtain ⟨segs', hplaced, hbelow, hkept, hopened⟩ :=
      openSegment_placed hgrowing.placed (fun seg hseg => (hgrowing.whole seg hseg).declared)
        hgrowing.bounded { instant := instant }
    refine ⟨segs', hplaced, ?_, hbelow, ?_⟩
    · rcases hkept with ⟨-, rfl⟩ | ⟨-, -, rfl⟩
      · exact hgrowing.whole
      · intro seg hseg
        rw [List.mem_singleton.mp hseg]
        exact ⟨rfl, by simp⟩
    · intro w hw
      dsimp only at hw
      cases hres : (WalWriter.openSegment (s.dir.getD []) { instant := instant }).1 with
      | error error => simp [hres, Except.map, Except.toOption] at hw
      | ok opened =>
        simp only [hres, Except.map, Except.toOption, Option.some.injEq] at hw
        subst hw
        obtain ⟨⟨init, last, hsegs, hinfo⟩, hup⟩ := hopened _ _ hres
        exact ⟨⟨init, last, hsegs, congrArg SegmentInfo.path hinfo⟩, hup⟩

/-- The writer and the directory it works on, if there is a writer. -/
theorem Grows.writer {s : Log} (h : s.Grows crc) {w : WalWriter} (hw : s.writer = some w) :
    ∃ dir segs, s.dir = some dir ∧ Growing crc (some w) dir segs := by
  unfold Grows at h
  split at h
  · rw [hw] at h
    cases h
  · next dir hdir =>
    obtain ⟨segs, hgrowing⟩ := h
    exact ⟨dir, segs, hdir, hw ▸ hgrowing⟩

/-- Another writer at the same place may take over. -/
theorem Growing.takeover {dir : Dir} {segs : List Seg} {w w' : WalWriter}
    (h : Growing crc (some w) dir segs) (hsegment : w'.currentSegment = w.currentSegment)
    (hnext : w'.nextSequence = w.nextSequence) : Growing crc (some w') dir segs := by
  refine ⟨h.placed, h.whole, h.bounded, fun v hv => ?_⟩
  cases hv
  rw [hsegment, hnext]
  exact h.writer w rfl

theorem Grows.step {s t : Log} {u : Usage} (h : s.Grows crc) (hu : Honest crc s u)
    (ht : s.use crc u = some t) : t.Grows crc := by
  cases u with
  | openLog syncMode maxSegmentSize instant =>
    obtain ⟨-, hopen⟩ := Option.ite_none_right_eq_some.mp ht
    exact h.openLog syncMode maxSegmentSize instant hopen
  | append entry instant =>
    obtain ⟨w, hw, hmap⟩ := Option.bind_eq_some_iff.mp ht
    obtain ⟨dir, hdir, rfl⟩ := Option.map_eq_some_iff.mp hmap
    obtain ⟨dir', segs, hdir', hgrowing⟩ := h.writer hw
    cases hdir.symm.trans hdir'
    exact hgrowing.append (hu w hw) instant
  | checkpoint timestamp instant =>
    obtain ⟨w, hw, hmap⟩ := Option.bind_eq_some_iff.mp ht
    obtain ⟨dir, hdir, rfl⟩ := Option.map_eq_some_iff.mp hmap
    obtain ⟨dir', segs, hdir', hgrowing⟩ := h.writer hw
    cases hdir.symm.trans hdir'
    obtain ⟨hd, hsegment, hnext⟩ :=
      w.checkpoint_spec crc dir timestamp { instant := instant } true
    obtain ⟨segs', hgrowing'⟩ := hgrowing.append (hu w hw) instant
    rw [← hd] at hgrowing'
    exact ⟨segs', hgrowing'.takeover hsegment hnext⟩
  | rotate instant =>
    obtain ⟨w, hw, hmap⟩ := Option.bind_eq_some_iff.mp ht
    obtain ⟨dir, hdir, rfl⟩ := Option.map_eq_some_iff.mp hmap
    obtain ⟨dir', segs, hdir', hgrowing⟩ := h.writer hw
    cases hdir.symm.trans hdir'
    exact hgrowing.rotate (hu w hw) instant
  | sync instant =>
    obtain ⟨w, hw, rfl⟩ := Option.map_eq_some_iff.mp ht
    obtain ⟨dir, segs, hdir, hgrowing⟩ := h.writer hw
    obtain ⟨hsegment, hnext⟩ := w.sync_fields true instant
    simp only [Grows, hdir]
    exact ⟨segs, hgrowing.takeover hsegment hnext⟩
  | close =>
    obtain ⟨w, hw, rfl⟩ := Option.map_eq_some_iff.mp ht
    obtain ⟨dir, segs, hdir, hgrowing⟩ := h.writer hw
    simp only [Grows, hdir]
    exact ⟨segs, hgrowing.placed, hgrowing.whole, hgrowing.bounded, by simp⟩

/-- In every run without faults in which each frame has the length that it declares, the search
finds the greatest checkpoint of those that are replayed, whatever frames are damaged then. -/
theorem lastCheckpoint_greatest {s₀ s : Log} (hi : s₀.Initial)
    (r : Run (Log.use crc) (Honest crc) s₀ s) {dir dir' : Dir} (hdir : s.dir = some dir)
    {now : DateTime} (hdamaged : Damaged crc now dir dir') :
    ∃ entries found, replayAll crc now (some dir') = .ok entries ∧
      findLastCheckpoint crc now (some dir') = .ok found ∧ Greatest entries found := by
  have hgrows : s.Grows crc :=
    r.invariant (I := Grows crc) (fun _ _ _ h hu ht => h.step hu ht) hi.grows
  rw [Grows, hdir] at hgrows
  obtain ⟨segs, hgrowing⟩ := hgrows
  have hincreasing : (allEntries crc now dir).Pairwise fun a b => a.sequence < b.sequence :=
    hgrowing.placed.allEntries_increasing (fun seg hseg => (hgrowing.whole seg hseg).declared)
      fun seg hseg => (hgrowing.whole seg hseg).1
  exact findLastCheckpoint_greatest (hincreasing.sublist hdamaged.allEntries_sublist)

/-- The checkpoint with a number of its own. -/
def marker (sequence : UInt64) : WalEntry :=
  { WalWriter.checkpointEntry epoch with sequence := sequence }

/-- An entry and a checkpoint behind it. -/
def marked : Log where
  dir := some [(segmentFilename 0,
    { inserted with sequence := 1 }.serialize crc32 ++ (marker 2).serialize crc32)]
  writer := some ⟨⟨segmentFilename 0, 0, 68⟩, 3, 100, .async, 0⟩
  acked := [{ inserted with sequence := 1 }, marker 2]
  passed := [{ inserted with sequence := 1 }, marker 2]

theorem marked_run : Run (Log.use crc32) (Honest crc32) unopened marked := by
  have hfirst : Run (Log.use crc32) (Honest crc32) unopened
      { written with writer := some ⟨⟨segmentFilename 0, 0, 34⟩, 2, 100, .async, 0⟩ } := by
    refine (Run.single (e := .openLog .async 100 0) trivial rfl).trans
      (Run.single (e := .append inserted 0) ?_ rfl)
    intro w hw
    cases hw
    exact ⟨by decide, by decide⟩
  refine hfirst.trans (Run.single (e := .checkpoint epoch 0) ?_ rfl)
  intro w hw
  cases hw
  exact ⟨by decide, by decide⟩

theorem lastCheckpoint_greatest_marked : ∃ entries found,
    replayAll crc32 epoch (some [(segmentFilename 0,
      frame (List.replicate 30 0) ++ (marker 2).serialize crc32)]) = .ok entries ∧
    findLastCheckpoint crc32 epoch (some [(segmentFilename 0,
      frame (List.replicate 30 0) ++ (marker 2).serialize crc32)]) = .ok found ∧
    Greatest entries found := by
  refine lastCheckpoint_greatest unopened_initial marked_run rfl (.cons ⟨rfl, ?_⟩ .nil)
  have hfail : WalEntry.deserialize crc32 epoch (List.replicate 30 0) 30 =
      .error (.crcMismatch 0 0 (crc32 (List.replicate 26 0))) := by decide +kernel
  dsimp only
  rw [WalEntry.serialize_eq_frame]
  exact .broken (by decide) (by decide) ⟨_, hfail⟩ (.rest _)

/-- A payload that starts with the frame of a checkpoint. -/
def forging (zeros : Bytes) : WalEntry :=
  { inserted with sequence := 1, payload := (marker 1000).serialize crc32 ++ zeros }

theorem length_body_forging (zeros : Bytes) :
    ((forging zeros).body crc32).length = 64 + zeros.length := by
  have hid : (asBytes (forging zeros).entityId).length = 0 := rfl
  have hmarker : ((marker 1000).serialize crc32).length = 34 := rfl
  have hpayload : (forging zeros).payload = (marker 1000).serialize crc32 ++ zeros := rfl
  rw [WalEntry.length_body, hid, hpayload, List.length_append, hmarker]
  omega

/-- The frame of an entry whose payload has 4 GiB declares as many bytes as its other fields have,
and the reader goes on in the payload. -/
theorem mem_readSegmentEntries_forging {zeros : Bytes} (hzeros : zeros.length + 34 = 2 ^ 32) :
    marker 1000 ∈ readSegmentEntries crc32 epoch ((forging zeros).serialize crc32) := by
  have hbody : ((forging zeros).body crc32).length = 2 ^ 32 + 30 := by
    rw [length_body_forging]
    omega
  have hlength : (((forging zeros).body crc32).take 30).length = 30 := by
    rw [List.length_take, hbody]
    omega
  have hpayload : ((forging zeros).body crc32).drop 30 =
      frame ((marker 1000).body crc32) ++ zeros := by
    rw [← WalEntry.serialize_eq_frame]
    exact (forging zeros).drop_body
  have hprefix : toLe 4 (2 ^ 32 + 30) = toLe 4 30 := by decide
  have hsplit : (forging zeros).serialize crc32 =
      frame (((forging zeros).body crc32).take 30) ++
        (frame ((marker 1000).body crc32) ++ zeros) := by
    rw [WalEntry.serialize_eq_frame, frame, frame, hlength, hbody, hprefix, List.append_assoc,
      ← hpayload, List.take_append_drop]
  have hmarker : decodeBody crc32 epoch ((marker 1000).body crc32) = some (marker 1000) := by
    rw [decodeBody, WalEntry.deserialize_body (by decide)]
    rfl
  rw [hsplit, readSegmentEntries_frame (by rw [hlength]; norm_num), hlength,
    readSegmentEntries_frame (by decide), hmarker, if_neg (by decide), if_neg (by decide)]
  exact List.mem_append_right _ List.mem_cons_self

/-- A writer with room for the payload. -/
def roomyWriter (start : UInt64) (fileSize : ℕ) (next : UInt64) : WalWriter :=
  ⟨⟨segmentFilename start, start, fileSize⟩, next, 2 ^ 40, .async, 0⟩

theorem append_roomy {entry : WalEntry} {bytes : Bytes}
    (hbytes : ((roomyWriter 0 0 1).assigned entry).serialize crc32 = bytes)
    (hfit : bytes.length ≤ 2 ^ 40) :
    (roomyWriter 0 0 1).append crc32 [(segmentFilename 0, [])] entry {} =
      (.ok 1, roomyWriter 0 (0 + bytes.length) 2, [(segmentFilename 0, bytes)]) := by
  have hroom : ¬ WalWriter.Rotates
      { roomyWriter 0 0 1 with nextSequence := (roomyWriter 0 0 1).nextSequence + 1 } bytes := by
    unfold WalWriter.Rotates
    dsimp only [roomyWriter]
    omega
  unfold WalWriter.append
  dsimp only
  rw [hbytes, WalWriter.makeRoom, if_neg hroom]
  rfl

theorem later_steps (bytes : Bytes) (size : ℕ) (acked passed : List WalEntry) :
    Run (Log.use crc32) (fun _ _ => True)
      ⟨some [(segmentFilename 0, bytes)], some (roomyWriter 0 size 2), acked, passed⟩
      ⟨some [(segmentFilename 0, bytes), (segmentFilename 2, (marker 2).serialize crc32)],
        some (roomyWriter 2 34 3), acked ++ [marker 2], passed ++ [marker 2]⟩ := by
  have hrotate : Log.use crc32
      ⟨some [(segmentFilename 0, bytes)], some (roomyWriter 0 size 2), acked, passed⟩ (.rotate 0) =
      some ⟨some [(segmentFilename 0, bytes), (segmentFilename 2, [])], some (roomyWriter 2 0 2),
        acked, passed⟩ := rfl
  have hcheckpoint : Log.use crc32
      ⟨some [(segmentFilename 0, bytes), (segmentFilename 2, [])], some (roomyWriter 2 0 2),
        acked, passed⟩ (.checkpoint epoch 0) =
      some ⟨some [(segmentFilename 0, bytes), (segmentFilename 2, (marker 2).serialize crc32)],
        some (roomyWriter 2 34 3), acked ++ [marker 2], passed ++ [marker 2]⟩ := rfl
  exact (Run.single trivial hrotate).trans (Run.single trivial hcheckpoint)

theorem segmentsOf_two (bytes : Bytes) :
    segmentsOf [(segmentFilename 0, bytes), (segmentFilename 2, (marker 2).serialize crc32)] =
      [⟨segmentFilename 0, 0, bytes.length⟩, ⟨segmentFilename 2, 2, 34⟩] := by
  have hsize : ((marker 2).serialize crc32).length = 34 := rfl
  simp [segmentsOf, segmentInfo?, hsize, List.insertionSort_cons]

/-- The last of two segments ends with a checkpoint. -/
theorem findLastCheckpoint_two (bytes : Bytes) :
    findLastCheckpoint crc32 epoch (some [(segmentFilename 0, bytes),
      (segmentFilename 2, (marker 2).serialize crc32)]) = .ok (some 2) := by
  have hlist : listSegments (some [(segmentFilename 0, bytes),
      (segmentFilename 2, (marker 2).serialize crc32)]) =
      .ok [⟨segmentFilename 0, 0, bytes.length⟩, ⟨segmentFilename 2, 2, 34⟩] :=
    congrArg Except.ok (segmentsOf_two bytes)
  have hfile : Dir.read [(segmentFilename 0, bytes),
      (segmentFilename 2, (marker 2).serialize crc32)] (segmentFilename 2) =
      .ok ((marker 2).serialize crc32) := rfl
  have hread : readSegmentEntries crc32 epoch ((marker 2).serialize crc32) = [marker 2] := by
    have hbytes : (marker 2).serialize crc32 = segmentBytes crc32 [marker 2] [] := by
      simp [segmentBytes]
    rw [hbytes, readSegmentEntries_segmentBytes epoch (by decide) .nil]
    rfl
  simp only [findLastCheckpoint, hlist, bind, Except.bind, Option.getD_some, List.reverse_cons,
    List.reverse_nil, List.nil_append, List.cons_append, checkpointOf, hfile, hread]
  rfl

/-- The frame of a checkpoint in a payload of 4 GiB is replayed with its number, which is greater
than that of the last checkpoint. -/
theorem forged_checkpoint : ¬ ∀ (s₀ s : Log) (dir dir' : Dir), s₀.Initial →
    Run (Log.use crc32) (fun _ _ => True) s₀ s → s.dir = some dir →
    Damaged crc32 epoch dir dir' → ∃ entries found, replayAll crc32 epoch (some dir') = .ok entries ∧
      findLastCheckpoint crc32 epoch (some dir') = .ok found ∧ Greatest entries found := by
  intro hall
  obtain ⟨zeros, hzeros⟩ : ∃ zeros : Bytes, zeros.length + 34 = 2 ^ 32 :=
    ⟨List.replicate (2 ^ 32 - 34) 0, by rw [List.length_replicate]; norm_num⟩
  have hbytes : ((roomyWriter 0 0 1).assigned (forging zeros)).serialize crc32 =
      (forging zeros).serialize crc32 := rfl
  have happend := append_roomy hbytes (by
    rw [WalEntry.length_serialize, length_body_forging]
    omega)
  have hforged := mem_readSegmentEntries_forging hzeros
  generalize (forging zeros).serialize crc32 = bytes at hbytes happend hforged
  have hopen : Log.use crc32 unopened (.openLog .async (2 ^ 40) 0) =
      some ⟨some [(segmentFilename 0, [])], some (roomyWriter 0 0 1), [], []⟩ := rfl
  have hwrite : ∃ acked passed, Log.use crc32
      ⟨some [(segmentFilename 0, [])], some (roomyWriter 0 0 1), [], []⟩
      (.append (forging zeros) 0) = some ⟨some [(segmentFilename 0, bytes)],
        some (roomyWriter 0 (0 + bytes.length) 2), acked, passed⟩ := by
    refine ⟨[((roomyWriter 0 0 1).assigned (forging zeros)).stored],
      [((roomyWriter 0 0 1).assigned (forging zeros)).stored], ?_⟩
    simp only [Log.use, Log.step, Log.record, happend, Option.bind_some, Option.map_some]
    rfl
  obtain ⟨acked, passed, hwrite⟩ := hwrite
  have hopened : Run (Log.use crc32) (fun _ _ => True) unopened _ := .single trivial hopen
  have hrun := hopened.trans
    ((Run.single trivial hwrite).trans (later_steps bytes (0 + bytes.length) acked passed))
  obtain ⟨entries, found, hreplay, hfound, hgreatest⟩ := hall _ _ _ _ unopened_initial hrun rfl
    (.cons ⟨rfl, .rest _⟩ (.cons ⟨rfl, .rest _⟩ .nil))
  rw [findLastCheckpoint_two] at hfound
  cases hfound
  rw [replayAll, replayFrom_eq] at hreplay
  cases hreplay
  have hmem : marker 1000 ∈ allEntries crc32 epoch [(segmentFilename 0, bytes),
      (segmentFilename 2, (marker 2).serialize crc32)] :=
    List.mem_flatMap.mpr ⟨⟨segmentFilename 0, 0, bytes.length⟩, by simp [segmentsOf_two], hforged⟩
  have hle := hgreatest.2 (marker 1000)
    (List.mem_insertionSort _ |>.mpr (List.mem_filter.mpr ⟨hmem, by simp⟩)) rfl
  exact absurd hle (by decide)

end Log

end NextgenDatabases.Wal
