import NextgenDatabases.Wal.Rotation
import Mathlib.Data.List.Perm.Subperm

/-!
# Pruning

A segment that starts before the checkpoint is removed as soon as some segment starts at the
checkpoint or later. The checkpoint may lie inside of the last of the segments that are removed.
-/
namespace NextgenDatabases.Wal

open Foundations

/-- `fs::remove_file` of a file that is there. -/
def Dir.remove (dir : Dir) (path : String) : Dir := dir.filter fun f => f.1 ≠ path

/-- The loop over the segments, with the number of files removed so far. -/
def pruneLoop (segments : List SegmentInfo) (checkpointSequence : UInt64) :
    List SegmentInfo → ℕ × Dir → ℕ × Dir
  | [], state => state
  | segment :: rest, (removed, dir) =>
    if segment.startSequence < checkpointSequence then
      let hasLaterSegment := segments.any fun s => checkpointSequence ≤ s.startSequence
      if hasLaterSegment then
        pruneLoop segments checkpointSequence rest (removed + 1, dir.remove segment.path)
      else pruneLoop segments checkpointSequence rest (removed, dir)
    else pruneLoop segments checkpointSequence rest (removed, dir)

/-- The number of segments removed, and the directory without them. -/
def pruneSegmentsBefore (dir : Option Dir) (checkpointSequence : UInt64) :
    WalResult (ℕ × Dir) := do
  let segments ← listSegments dir
  return pruneLoop segments checkpointSequence segments (0, dir.getD [])

/-! ### What is removed -/

variable {dir : Dir} {segments : List SegmentInfo} {checkpointSequence : UInt64}

/-- A segment with this start is removed. -/
def Pruned (segments : List SegmentInfo) (checkpointSequence start : UInt64) : Prop :=
  start < checkpointSequence ∧ ∃ later ∈ segments, checkpointSequence ≤ later.startSequence

instance (start : UInt64) : Decidable (Pruned segments checkpointSequence start) :=
  inferInstanceAs (Decidable (_ ∧ _))

theorem pruneLoop_eq (rest : List SegmentInfo) (removed : ℕ) (dir : Dir) :
    (pruneLoop segments checkpointSequence rest (removed, dir)).2 = dir.filter fun f =>
      f.1 ∉ (rest.filter fun s => Pruned segments checkpointSequence s.startSequence).map
        SegmentInfo.path := by
  induction rest generalizing removed dir with
  | nil => simp [pruneLoop]
  | cons s rest ih =>
    have hlater : (segments.any fun s => checkpointSequence ≤ s.startSequence) = true ↔
        ∃ later ∈ segments, checkpointSequence ≤ later.startSequence := by
      simp
    unfold pruneLoop
    dsimp only
    by_cases hs : Pruned segments checkpointSequence s.startSequence
    · rw [if_pos hs.1, if_pos (hlater.mpr hs.2), ih, Dir.remove, List.filter_filter,
        List.filter_cons_of_pos (by simpa using hs)]
      refine List.filter_congr fun f _ => ?_
      rw [List.map_cons, ← Bool.decide_and, decide_eq_decide, List.mem_cons, not_or, and_comm]
    · rw [List.filter_cons_of_neg (by simpa using hs)]
      split
      · next hbefore =>
        rw [if_neg fun h => hs ⟨hbefore, hlater.mp h⟩, ih]
      · rw [ih]

/-- A file stays if it is no segment or one that is not removed. -/
def Stays (segments : List SegmentInfo) (checkpointSequence : UInt64) (name : String) : Prop :=
  ∀ start, parseSegmentFilename name = some start → ¬ Pruned segments checkpointSequence start

instance (name : String) : Decidable (Stays segments checkpointSequence name) :=
  Option.decidableForallMem (parseSegmentFilename name)

/-- Pruning leaves the files that stay. -/
theorem pruneSegmentsBefore_eq (dir : Dir) (checkpointSequence : UInt64) :
    ∃ removed, pruneSegmentsBefore (some dir) checkpointSequence =
      .ok (removed, dir.filter fun f => Stays (segmentsOf dir) checkpointSequence f.1) := by
  have hloop : (pruneLoop (segmentsOf dir) checkpointSequence (segmentsOf dir) (0, dir)).2 =
      dir.filter fun f => Stays (segmentsOf dir) checkpointSequence f.1 := by
    rw [pruneLoop_eq]
    refine List.filter_congr fun f hf => ?_
    rw [decide_eq_decide, List.mem_map]
    constructor
    · intro hnot start hstart hpruned
      have hmem : ⟨f.1, start, f.2.length⟩ ∈ segmentsOf dir := by
        rw [segmentsOf, List.mem_insertionSort, List.mem_filterMap]
        refine ⟨f, hf, ?_⟩
        rw [segmentInfo?, hstart]
        rfl
      exact hnot ⟨_, List.mem_filter.mpr ⟨hmem, by simpa using hpruned⟩, rfl⟩
    · rintro hstays ⟨s, hs, hpath⟩
      obtain ⟨hmem, hpruned⟩ := List.mem_filter.mp hs
      have hstart := (mem_segmentsOf hmem).2
      rw [hpath] at hstart
      exact hstays _ hstart (by simpa using hpruned)
  exact ⟨_, congrArg (fun left => Except.ok (_, left)) hloop⟩

/-! ### What is kept -/

variable (crc : Bytes → UInt32) (now : DateTime)

/-- The entries from the sequence number on that were replayed are still replayed. -/
def Kept (dir dir' : Dir) (checkpointSequence : UInt64) : Prop :=
  ∃ before left, replayAll crc now (some dir) = .ok before ∧
    replayFrom crc now (some dir') checkpointSequence = .ok left ∧
    (before.filter fun e => checkpointSequence ≤ e.sequence).Subperm left

/-- The entries from a sequence number on in a list of segments. -/
def liveEntries (dir : Dir) (segments : List SegmentInfo) (checkpointSequence : UInt64) :
    List WalEntry :=
  (segments.flatMap (entriesOf crc now dir)).filter fun e => checkpointSequence ≤ e.sequence

/-- No segment starts at the checkpoint or later, or what can be read in the segments that start
before it has smaller numbers. -/
def Covered (dir : Dir) (checkpointSequence : UInt64) : Prop :=
  (∀ s ∈ segmentsOf dir, s.startSequence < checkpointSequence) ∨
    ∀ s ∈ segmentsOf dir, s.startSequence < checkpointSequence →
      ∀ e ∈ entriesOf crc now dir s, e.sequence < checkpointSequence

variable {crc now}

theorem lookup_kept (dir : Dir) (p : String → Bool) {name : String} (h : p name = true) :
    (dir.filter fun f => p f.1).lookup name = dir.lookup name := by
  induction dir with
  | nil => rfl
  | cons f dir ih =>
    obtain ⟨file, data⟩ := f
    rw [List.filter_cons]
    by_cases hname : name = file
    · subst hname
      simp [h]
    · have hne : (name == file) = false := beq_eq_false_iff_ne.mpr hname
      split <;> simp only [List.lookup_cons, hne, ih]

/-- The segments that are left. -/
theorem segmentsOf_filter (dir : Dir) (p : String → Bool) :
    (segmentsOf (dir.filter fun f => p f.1)).Perm ((segmentsOf dir).filter fun s => p s.path) := by
  have hfilter : (dir.filter fun f => p f.1).filterMap segmentInfo? =
      (dir.filterMap segmentInfo?).filter fun s => p s.path := by
    rw [List.filterMap_filter, List.filter_filterMap]
    refine List.filterMap_congr fun f _ => ?_
    cases hinfo : segmentInfo? f with
    | none => simp
    | some s => simp [(segmentInfo?_eq_some hinfo).1, Option.filter_some]
  unfold segmentsOf
  rw [hfilter]
  exact (List.perm_insertionSort _ _).trans ((List.perm_insertionSort _ _).symm.filter _)

/-- What is read in them is what was read before. -/
theorem allEntries_filter (dir : Dir) (p : String → Bool) :
    (allEntries crc now (dir.filter fun f => p f.1)).Perm
      (((segmentsOf dir).filter fun s => p s.path).flatMap (entriesOf crc now dir)) := by
  have hsame : ∀ s ∈ segmentsOf (dir.filter fun f => p f.1),
      entriesOf crc now (dir.filter fun f => p f.1) s = entriesOf crc now dir s := by
    intro s hs
    have hkept : p s.path = true := by
      have hmem := (List.mem_filter.mp ((segmentsOf_filter dir p).mem_iff.mp hs)).2
      exact hmem
    rw [entriesOf, lookup_kept dir p hkept, entriesOf]
  rw [allEntries, List.flatMap_congr hsame]
  exact (segmentsOf_filter dir p).flatMap_right _

theorem replayAll_perm (dir : Dir) (checkpointSequence : UInt64) :
    ∃ before, replayAll crc now (some dir) = .ok before ∧
      (before.filter fun e => checkpointSequence ≤ e.sequence).Perm
        (liveEntries crc now dir (segmentsOf dir) checkpointSequence) := by
  refine ⟨_, replayFrom_eq crc now dir 0, ?_⟩
  refine ((List.perm_insertionSort _ _).filter _).trans ?_
  simp [liveEntries, allEntries]

/-- Nothing is lost by what a filter leaves if and only if the others have nothing to lose. -/
theorem kept_filter_iff (dir : Dir) (p : String → Bool) (checkpointSequence : UInt64) :
    Kept crc now dir (dir.filter fun f => p f.1) checkpointSequence ↔
      liveEntries crc now dir ((segmentsOf dir).filter fun s => ¬ p s.path)
        checkpointSequence = [] := by
  have hsplit : (liveEntries crc now dir (segmentsOf dir) checkpointSequence).Perm
      (liveEntries crc now dir ((segmentsOf dir).filter fun s => p s.path) checkpointSequence ++
        liveEntries crc now dir ((segmentsOf dir).filter fun s => ¬ p s.path)
          checkpointSequence) := by
    unfold liveEntries
    rw [← List.filter_append, ← List.flatMap_append]
    refine List.Perm.filter _ (List.Perm.flatMap_right _ ?_)
    simpa using (List.filter_append_perm (fun s : SegmentInfo => p s.path) (segmentsOf dir)).symm
  obtain ⟨before, hbefore, hall⟩ := @replayAll_perm crc now dir checkpointSequence
  obtain ⟨left, hleft, hkept⟩ : ∃ left, replayFrom crc now (some (dir.filter fun f => p f.1))
      checkpointSequence = .ok left ∧ left.Perm
        (liveEntries crc now dir ((segmentsOf dir).filter fun s => p s.path) checkpointSequence) :=
    ⟨_, replayFrom_eq crc now _ _,
      (List.perm_insertionSort _ _).trans ((allEntries_filter dir p).filter _)⟩
  have hlive : Kept crc now dir (dir.filter fun f => p f.1) checkpointSequence ↔
      (liveEntries crc now dir (segmentsOf dir) checkpointSequence).Subperm
        (liveEntries crc now dir ((segmentsOf dir).filter fun s => p s.path)
          checkpointSequence) := by
    rw [← hkept.subperm_left, ← hall.subperm_right]
    constructor
    · rintro ⟨before', left', hbefore', hleft', hsub⟩
      rw [hbefore] at hbefore'
      rw [hleft] at hleft'
      cases hbefore'
      cases hleft'
      exact hsub
    · intro hsub
      exact ⟨before, left, hbefore, hleft, hsub⟩
  rw [hlive]
  constructor
  · intro hsub
    have hle := hsub.length_le
    rw [hsplit.length_eq, List.length_append] at hle
    exact List.length_eq_zero_iff.mp (by omega)
  · intro hnil
    rw [hnil, List.append_nil] at hsplit
    exact hsplit.subperm

/-- A segment does not stay if its start is pruned. -/
theorem stays_path_iff {s : SegmentInfo} (h : s ∈ segmentsOf dir) :
    Stays segments checkpointSequence s.path ↔
      ¬ Pruned segments checkpointSequence s.startSequence := by
  unfold Stays
  rw [(mem_segmentsOf h).2]
  simp

theorem liveEntries_eq_nil_iff {checkpointSequence : UInt64} :
    liveEntries crc now dir segments checkpointSequence = [] ↔
      ∀ s ∈ segments, ∀ e ∈ entriesOf crc now dir s, e.sequence < checkpointSequence := by
  simp [liveEntries, List.filter_eq_nil_iff]
  grind

theorem kept_stays_iff (dir : Dir) (checkpointSequence : UInt64) :
    Kept crc now dir (dir.filter fun f => Stays (segmentsOf dir) checkpointSequence f.1)
      checkpointSequence ↔ Covered crc now dir checkpointSequence := by
  rw [kept_filter_iff dir (fun name => Stays (segmentsOf dir) checkpointSequence name),
    liveEntries_eq_nil_iff]
  have hremoved : ∀ s, s ∈ (segmentsOf dir).filter
      (fun s => ¬ decide (Stays (segmentsOf dir) checkpointSequence s.path) = true) ↔
        s ∈ segmentsOf dir ∧ Pruned (segmentsOf dir) checkpointSequence s.startSequence := by
    intro s
    rw [List.mem_filter]
    refine and_congr_right fun hs => ?_
    simp [stays_path_iff hs]
  constructor
  · intro hlive
    by_cases hlater : ∃ later ∈ segmentsOf dir, checkpointSequence ≤ later.startSequence
    · exact .inr fun s hs hbefore => hlive s ((hremoved s).mpr ⟨hs, hbefore, hlater⟩)
    · refine .inl fun s hs => ?_
      by_contra hle
      exact hlater ⟨s, hs, UInt64.not_lt.mp hle⟩
  · intro hcovered s hs
    obtain ⟨hmem, hbefore, later, hlater, hle⟩ := (hremoved s).mp hs
    rcases hcovered with hnone | hbelow
    · exact absurd (hnone later hlater) (UInt64.not_lt.mpr hle)
    · exact hbelow s hmem hbefore

/-- Pruning keeps every entry from the checkpoint on if and only if the checkpoint does not lie
inside of a segment that is removed. -/
theorem prune_keeps_iff (crc : Bytes → UInt32) (now : DateTime) (dir : Dir)
    (checkpointSequence : UInt64) :
    ∃ removed dir', pruneSegmentsBefore (some dir) checkpointSequence = .ok (removed, dir') ∧
      (Kept crc now dir dir' checkpointSequence ↔ Covered crc now dir checkpointSequence) := by
  obtain ⟨removed, hprune⟩ := pruneSegmentsBefore_eq dir checkpointSequence
  exact ⟨removed, _, hprune, kept_stays_iff dir checkpointSequence⟩

open Log (crc32 epoch inserted unopened)

/-- Two entries in the first segment and one in the second. -/
def twoSegments : Dir :=
  [(segmentFilename 0, { inserted with sequence := 1 }.serialize crc32 ++
      { inserted with sequence := 2 }.serialize crc32),
    (segmentFilename 4, { inserted with sequence := 3 }.serialize crc32)]

def filled : Log where
  dir := some twoSegments
  writer := some ⟨⟨segmentFilename 4, 4, 34⟩, 4, 70, .async, 0⟩
  acked := [{ inserted with sequence := 1 }, { inserted with sequence := 2 },
    { inserted with sequence := 3 }]
  passed := [{ inserted with sequence := 1 }, { inserted with sequence := 2 },
    { inserted with sequence := 3 }]

/-- The log after the second append. -/
def half : Log where
  dir := some [(segmentFilename 0, { inserted with sequence := 1 }.serialize crc32 ++
    { inserted with sequence := 2 }.serialize crc32)]
  writer := some ⟨⟨segmentFilename 0, 0, 68⟩, 3, 70, .async, 0⟩
  acked := [{ inserted with sequence := 1 }, { inserted with sequence := 2 }]
  passed := [{ inserted with sequence := 1 }, { inserted with sequence := 2 }]

theorem half_run : Run (Log.use crc32) (Log.Orderly crc32) unopened half := by
  have hfirst : Run (Log.use crc32) (Log.Orderly crc32) unopened
      { Log.written with writer := some ⟨⟨segmentFilename 0, 0, 34⟩, 2, 70, .async, 0⟩ } := by
    refine (Run.single (e := .openLog .async 70 0) trivial rfl).trans
      (Run.single (e := .append inserted 0) ?_ rfl)
    intro w hw
    cases hw
    exact ⟨by decide, by decide⟩
  refine hfirst.trans (Run.single (e := .append inserted 0) ?_ rfl)
  intro w hw
  cases hw
  exact ⟨by decide, by decide⟩

theorem filled_run : Run (Log.use crc32) (Log.Orderly crc32) unopened filled := by
  refine half_run.trans (Run.single (e := .append inserted 0) ?_ rfl)
  intro w hw
  cases hw
  exact ⟨by decide, by decide⟩

/-- The checkpoint lies inside of the first segment, which is removed with the second entry. -/
theorem checkpoint_inside : Run (Log.use crc32) (Log.Orderly crc32) unopened filled ∧
    ∃ removed dir', pruneSegmentsBefore filled.dir 2 = .ok (removed, dir') ∧
      ¬ Kept crc32 epoch twoSegments dir' 2 := by
  obtain ⟨removed, hprune⟩ := pruneSegmentsBefore_eq twoSegments 2
  refine ⟨filled_run, removed, _, hprune, ?_⟩
  rw [kept_stays_iff]
  have hsegments : segmentsOf twoSegments =
      [⟨segmentFilename 0, 0, 68⟩, ⟨segmentFilename 4, 4, 34⟩] := rfl
  have hread : entriesOf crc32 epoch twoSegments ⟨segmentFilename 0, 0, 68⟩ =
      [{ inserted with sequence := 1 }, { inserted with sequence := 2 }] := by
    have hbytes := @readSegmentEntries_segmentBytes crc32 epoch
      [{ inserted with sequence := 1 }, { inserted with sequence := 2 }] [] (by decide) .nil
    have hfile : twoSegments.lookup (segmentFilename 0) = some (segmentBytes crc32
        [{ inserted with sequence := 1 }, { inserted with sequence := 2 }] []) := by
      simp [twoSegments, segmentBytes]
    rw [entriesOf, hfile]
    exact hbytes
  rintro (hnone | hbelow)
  · exact absurd (hnone ⟨segmentFilename 4, 4, 34⟩ (by simp [hsegments])) (by decide)
  · have hlost := hbelow ⟨segmentFilename 0, 0, 68⟩ (by simp [hsegments]) (by decide)
      { inserted with sequence := 2 } (by simp [hread])
    exact absurd hlost (by decide)

end NextgenDatabases.Wal
