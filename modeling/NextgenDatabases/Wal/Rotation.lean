import NextgenDatabases.Wal.Recovery

/-!
# Rotation without faults

The runs in which every file operation succeeds and writers are closed between calls. An
append that does not fit names its new segment after the number that follows its own, and
an explicit rotation that comes next names its segment after the same number.
-/
namespace NextgenDatabases.Wal

open Foundations

namespace Dir

/-- Every file is still there, and at most longer. -/
def Keeps (dir dir' : Dir) : Prop :=
  ∀ name data, dir.read name = .ok data → ∃ more, dir'.read name = .ok (data ++ more)

theorem Keeps.refl (dir : Dir) : dir.Keeps dir :=
  fun _ data h => ⟨[], by rw [List.append_nil]; exact h⟩

theorem Keeps.trans {a b c : Dir} (hab : a.Keeps b) (hbc : b.Keeps c) : a.Keeps c := by
  intro name data h
  obtain ⟨more, hb⟩ := hab name data h
  obtain ⟨rest, hc⟩ := hbc name _ hb
  exact ⟨more ++ rest, by rw [← List.append_assoc]; exact hc⟩

theorem lookup_write (dir : Dir) (path name : String) (data : Bytes) :
    (dir.write path data).lookup name =
      (dir.lookup name).map fun old => if name = path then old ++ data else old := by
  induction dir with
  | nil => rfl
  | cons f dir ih =>
    obtain ⟨file, old⟩ := f
    have hcons : Dir.write ((file, old) :: dir) path data =
        (file, if file = path then old ++ data else old) :: Dir.write dir path data := by
      unfold Dir.write
      rw [List.map_cons]
      split <;> rfl
    rw [hcons, List.lookup_cons, List.lookup_cons, ih]
    by_cases hname : name = file
    · subst hname
      simp
    · rw [beq_eq_false_iff_ne.mpr hname]

theorem keeps_write (dir : Dir) (path : String) (data : Bytes) : dir.Keeps (dir.write path data) := by
  intro name old h
  unfold Dir.read at *
  rw [lookup_write]
  split at h
  · next heq =>
    cases h
    rw [heq]
    by_cases hname : name = path
    · exact ⟨data, by simp [hname]⟩
    · exact ⟨[], by simp [hname]⟩
  · cases h

/-- Creating a file that does not exist keeps the others. -/
theorem keeps_create {dir : Dir} {path : String} (h : path ∉ dir.map Prod.fst) :
    dir.Keeps (dir.create path) := by
  intro name data hread
  refine ⟨[], ?_⟩
  unfold Dir.read at *
  rw [create_of_notMem h, List.lookup_append]
  split at hread
  · next heq =>
    cases hread
    simp [heq]
  · cases hread

end Dir

variable (crc : Bytes → UInt32)

namespace Log

/-- What a user of the log does. The argument is what the clock says. -/
inductive Usage
  | openLog (syncMode : SyncMode) (maxSegmentSize instant : ℕ)
  | append (entry : WalEntry) (instant : ℕ)
  | checkpoint (timestamp : DateTime) (instant : ℕ)
  | rotate (instant : ℕ)
  | sync (instant : ℕ)
  | close

/-- A call whose file operations succeed. -/
def use (s : Log) : Usage → Option Log
  | .openLog syncMode maxSegmentSize instant =>
    if s.writer = none then s.step crc (.openLog syncMode maxSegmentSize { instant := instant })
    else none
  | .append entry instant => s.step crc (.append entry { instant := instant })
  | .checkpoint timestamp instant =>
    s.step crc (.checkpoint timestamp { instant := instant } true)
  | .rotate instant =>
    s.writer.bind fun w => s.dir.map fun dir =>
      let result := w.rotate dir { instant := instant }
      { s with writer := some result.2.1, dir := some result.2.2 }
  | .sync instant => s.step crc (.sync true instant)
  | .close => s.writer.map fun _ => { s with writer := none }

/-- What is asked of every append and of every explicit rotation. -/
def Uses (ok : WalWriter → WalEntry → Prop) (turn : WalWriter → Prop) (s : Log) : Usage → Prop
  | .append entry _ => ∀ w, s.writer = some w → ok w entry
  | .checkpoint timestamp _ =>
    ∀ w, s.writer = some w → ok w (WalWriter.checkpointEntry timestamp)
  | .rotate _ => ∀ w, s.writer = some w → turn w
  | _ => True

/-- The next rotation does not create the current segment again, unless it is empty, and the
numbers do not run out. -/
def Turnable (w : WalWriter) : Prop :=
  (w.currentSegment.startSequence = w.nextSequence → w.currentSegment.fileSize = 0) ∧
    w.nextSequence.toNat + 2 < 2 ^ 64

/-- Every entry fits. -/
abbrev Fitted (s : Log) (u : Usage) : Prop := s.Uses (Fitting crc) (fun _ => True) u

/-- Every entry fits, and no rotation follows an append that has rotated. -/
abbrev Orderly (s : Log) (u : Usage) : Prop := s.Uses (Fitting crc) Turnable u

/-- Replaying returns what was appended, in order and with growing numbers. -/
def Exact (now : DateTime) (s : Log) : Prop :=
  ∀ dir, s.dir = some dir → replayAll crc now s.dir = .ok s.passed ∧
    s.passed.Pairwise fun a b => a.sequence < b.sequence

/-- No file that was there is removed or cut. -/
def Keeps (s t : Log) : Prop :=
  ∀ dir, s.dir = some dir → ∃ dir', t.dir = some dir' ∧ dir.Keeps dir'

/-! ### The invariant -/

/-- The segments hold what was passed to `append` and nothing torn, and the writer knows the
last of them. -/
structure Tidy (s : Log) (dir : Dir) (segs : List Seg) : Prop where
  layout : Layout crc dir segs
  bounded : ∀ seg ∈ segs, seg.Below maxSequence
  whole : ∀ seg ∈ segs, seg.torn = []
  passed : (segs.flatMap Seg.entries).map WalEntry.stored = s.passed
  writer : ∀ w, s.writer = some w →
    (∃ init last, segs = init ++ [last] ∧ w.currentSegment = last.info crc) ∧
      ∀ seg ∈ segs, seg.UpTo w.nextSequence

def Settled (s : Log) : Prop :=
  match s.dir with
  | none => s.passed = [] ∧ s.writer = none
  | some dir => ∃ segs, s.Tidy crc dir segs

variable {crc}

theorem Settled.exact {s : Log} (h : s.Settled crc) (now : DateTime) : s.Exact crc now := by
  intro dir hdir
  rw [Settled, hdir] at h
  obtain ⟨segs, ht⟩ := h
  rw [← ht.passed]
  refine ⟨hdir ▸ ht.layout.replayAll now, ?_⟩
  rw [List.pairwise_map]
  exact ht.layout.increasing

theorem Initial.settled {s : Log} (h : s.Initial) : s.Settled crc := by
  unfold Settled
  split
  · exact ⟨h.passed, h.writer⟩
  · next dir hdir =>
    refine ⟨[], layout_nil (h.dir dir hdir), by simp, by simp, ?_, ?_⟩
    · rw [h.passed]
      rfl
    · simp [h.writer]

/-! ### What the calls do -/

/-- An append at the end of a tidy directory, when every file operation succeeds. -/
theorem append_clean (w : WalWriter) (dir : Dir) (entry : WalEntry) (instant : ℕ) :
    ∃ w' dir', w.append crc dir entry { instant := instant } = (.ok w.nextSequence, w', dir') ∧
      w'.nextSequence = w.nextSequence + 1 ∧
      ((¬ w.Rotates ((w.assigned entry).serialize crc) ∧
          w'.currentSegment = { w.currentSegment with fileSize :=
            w.currentSegment.fileSize + ((w.assigned entry).serialize crc).length } ∧
          dir' = dir.write w.currentSegment.path ((w.assigned entry).serialize crc)) ∨
        w'.currentSegment = ⟨segmentFilename (w.nextSequence + 1), w.nextSequence + 1,
          ((w.assigned entry).serialize crc).length⟩ ∧
        dir' = (dir.create (segmentFilename (w.nextSequence + 1))).write
          (segmentFilename (w.nextSequence + 1)) ((w.assigned entry).serialize crc)) := by
  have hsync : ∀ (v : WalWriter), (v.maybeSync true instant).1 = .ok () := by
    intro v
    unfold WalWriter.maybeSync
    split
    · rfl
    · split
      · rfl
      · rfl
    · rfl
  have hwrite : ∀ (v : WalWriter) (d : Dir) (bytes : Bytes),
      ∃ v', v.writeFrame d bytes { instant := instant } =
          (.ok (), v', d.write v.currentSegment.path bytes) ∧
        v'.nextSequence = v.nextSequence ∧
        v'.currentSegment = { v.currentSegment with
          fileSize := v.currentSegment.fileSize + bytes.length } := by
    intro v d bytes
    obtain ⟨hsegment, hnext⟩ := WalWriter.maybeSync_fields
      { v with currentSegment :=
        { v.currentSegment with fileSize := v.currentSegment.fileSize + bytes.length } }
      true instant
    refine ⟨_, ?_, hnext, hsegment⟩
    unfold WalWriter.writeFrame
    dsimp only
    rw [hsync]
  unfold WalWriter.append
  dsimp only
  unfold WalWriter.makeRoom
  by_cases hrot : w.Rotates ((w.assigned entry).serialize crc)
  · have hroom : WalWriter.Rotates { w with nextSequence := w.nextSequence + 1 }
        ((w.assigned entry).serialize crc) := hrot
    rw [if_pos hroom]
    obtain ⟨v', hv, hnext, hsegment⟩ := hwrite
      { w with
        currentSegment := ⟨segmentFilename (w.nextSequence + 1), w.nextSequence + 1, 0⟩
        nextSequence := w.nextSequence + 1
        lastSync := instant }
      (dir.create (segmentFilename (w.nextSequence + 1))) ((w.assigned entry).serialize crc)
    refine ⟨v', _, ?_, hnext, .inr ⟨?_, rfl⟩⟩
    · simp only [WalWriter.rotate, WalWriter.sync, if_true, hv]
      rfl
    · rw [hsegment, Nat.zero_add]
  · have hroom : ¬ WalWriter.Rotates { w with nextSequence := w.nextSequence + 1 }
        ((w.assigned entry).serialize crc) := hrot
    rw [if_neg hroom]
    obtain ⟨v', hv, hnext, hsegment⟩ := hwrite { w with nextSequence := w.nextSequence + 1 } dir
      ((w.assigned entry).serialize crc)
    refine ⟨v', _, ?_, hnext, .inl ⟨hrot, hsegment, rfl⟩⟩
    simp only [hv]
    rfl

/-- A whole frame at the end of the last segment. -/
theorem whole_written {dir : Dir} {init : List Seg} {last : Seg}
    (h : Layout crc dir (init ++ [last])) (ht : last.torn = []) {e : WalEntry} (he : e.Fits crc)
    (hlater : ∀ a ∈ init ++ [last], ∀ b ∈ a.entries, b.sequence < e.sequence) :
    Layout crc (dir.write (segmentFilename last.start) (e.serialize crc))
      (init ++ [{ last with entries := last.entries ++ [e] }]) := by
  have hput : last.put crc e (e.serialize crc).length =
      { last with entries := last.entries ++ [e] } := if_neg (lt_irrefl _)
  have hwrite := h.write ht he hlater (e.serialize crc).length
  rwa [List.take_length, hput] at hwrite

theorem info_add {seg : Seg} (ht : seg.torn = []) (e : WalEntry) :
    Seg.info crc { seg with entries := seg.entries ++ [e] } =
      { seg.info crc with fileSize := (seg.info crc).fileSize + (e.serialize crc).length } := by
  simp [Seg.info, Seg.bytes, segmentBytes, ht]

/-- The segments after a frame was written behind the last of them. -/
theorem tidy_written {s : Log} {dir : Dir} {init : List Seg} {last : Seg} {w w' : WalWriter}
    {entry : WalEntry} (h : Layout crc dir (init ++ [last]))
    (hwhole : ∀ seg ∈ init ++ [last], seg.torn = [])
    (hpassed : ((init ++ [last]).flatMap Seg.entries).map WalEntry.stored = s.passed)
    (hfit : Fitting crc w entry)
    (hup : ∀ seg ∈ init ++ [last], seg.start ≤ w.nextSequence + 1 ∧
      ∀ b ∈ seg.entries, b.sequence < w.nextSequence)
    (hnext : w'.nextSequence = w.nextSequence + 1)
    (hsegment : w'.currentSegment = { last.info crc with fileSize :=
      (last.info crc).fileSize + ((w.assigned entry).serialize crc).length })
    {acked : List WalEntry} :
    ∃ segs, Tidy crc ⟨some (dir.write (segmentFilename last.start)
        ((w.assigned entry).serialize crc)), some w', acked,
        s.passed ++ [(w.assigned entry).stored]⟩
      (dir.write (segmentFilename last.start) ((w.assigned entry).serialize crc)) segs := by
  have hlt := lt_succ hfit.2
  have hlast : last.torn = [] := hwhole last (by simp)
  have hupTo := Seg.upTo_grown hlt.1 hup (e := w.assigned entry) rfl
  have htorn : ∀ seg ∈ init ++ [{ last with entries := last.entries ++ [w.assigned entry] }],
      seg.torn = [] := by
    rw [List.forall_mem_append, List.forall_mem_singleton] at hwhole ⊢
    exact hwhole
  refine ⟨init ++ [{ last with entries := last.entries ++ [w.assigned entry] }],
    whole_written h hlast hfit.1 fun seg hseg => (hup seg hseg).2,
    fun seg hseg => (hupTo seg hseg).below hlt.2, htorn, ?_, ?_⟩
  · simp [← hpassed]
  · intro v hv
    cases hv
    refine ⟨⟨init, _, rfl, ?_⟩, fun seg hseg => hnext ▸ hupTo seg hseg⟩
    rw [hsegment, info_add hlast]

theorem Tidy.fresh_name {s : Log} {dir : Dir} {segs : List Seg} (h : s.Tidy crc dir segs)
    {n : UInt64} (hn : ∀ seg ∈ segs, seg.start < n) :
    segmentFilename n ∉ dir.map Prod.fst := by
  obtain ⟨other, hother, rfl⟩ := h.layout.files
  exact Placed.notMem_files hother hn

theorem Tidy.record {s : Log} {dir : Dir} {segs : List Seg} (h : s.Tidy crc dir segs)
    {w : WalWriter} (hw : s.writer = some w) {entry : WalEntry} (hfit : Fitting crc w entry)
    (instant : ℕ) :
    (∃ segs', (s.record crc w dir entry { instant := instant }).Tidy crc
        (w.append crc dir entry { instant := instant }).2.2 segs') ∧
      dir.Keeps (w.append crc dir entry { instant := instant }).2.2 := by
  obtain ⟨⟨init, last, rfl, hsegment⟩, hup⟩ := h.writer w hw
  have hlt := lt_succ hfit.2
  have hbelow : ∀ seg ∈ init ++ [last], seg.Below (w.nextSequence + 1) :=
    fun seg hseg => (hup seg hseg).below hlt.1
  have hstays : ∀ seg ∈ init ++ [last], seg.start ≤ w.nextSequence + 1 ∧
      ∀ b ∈ seg.entries, b.sequence < w.nextSequence :=
    fun seg hseg => ⟨UInt64.le_of_lt (hbelow seg hseg).1, (hup seg hseg).2⟩
  obtain ⟨w', dir', happend, hnext, ⟨-, hsegment', rfl⟩ | ⟨hsegment', rfl⟩⟩ :=
    @append_clean crc w dir entry instant
  · have hpath : w.currentSegment.path = segmentFilename last.start := by
      rw [hsegment]
      rfl
    unfold Log.record
    simp only [happend]
    rw [hpath]
    refine ⟨?_, Dir.keeps_write _ _ _⟩
    exact tidy_written h.layout h.whole h.passed hfit hstays hnext (by rw [hsegment', hsegment])
  · unfold Log.record
    simp only [happend]
    refine ⟨?_, (Dir.keeps_create (h.fresh_name fun seg hseg => (hbelow seg hseg).1)).trans
      (Dir.keeps_write _ _ _)⟩
    have hlayout : Layout crc (dir.create (segmentFilename (w.nextSequence + 1)))
        ((init ++ [last]) ++ [⟨w.nextSequence + 1, [], []⟩]) := h.layout.create hbelow
    refine tidy_written hlayout ?_ ?_ hfit ?_ hnext ?_
    · intro seg hseg
      rcases List.mem_append.mp hseg with hseg | hseg
      · exact h.whole seg hseg
      · rw [List.mem_singleton.mp hseg]
    · rw [List.flatMap_append]
      simpa using h.passed
    · intro seg hseg
      rcases List.mem_append.mp hseg with hseg | hseg
      · exact hstays seg hseg
      · rw [List.mem_singleton.mp hseg]
        exact ⟨UInt64.le_refl _, by simp⟩
    · rw [hsegment']
      simp [Seg.info, Seg.bytes, segmentBytes]

/-- Creating the last segment again changes nothing if it is empty. -/
theorem create_empty {dir : Dir} {init : List Seg} {last : Seg}
    (h : Layout crc dir (init ++ [last])) (hempty : last.bytes crc = []) :
    dir.create (segmentFilename last.start) = dir := by
  obtain ⟨other, hother, hdir⟩ := h.files
  have hbefore := (List.pairwise_append.mp h.ordered).2.2
  have hfile : ∀ f ∈ dir, f.1 = segmentFilename last.start → f.2 = [] := by
    intro f hf hname
    rw [hdir] at hf
    rcases List.mem_append.mp hf with hf | hf
    · have hnone := hother f hf
      rw [hname, parseSegmentFilename_segmentFilename] at hnone
      cases hnone
    · obtain ⟨seg, hseg, rfl⟩ := List.mem_map.mp hf
      have hstart : seg.start = last.start := segmentFilename_injective hname
      rcases List.mem_append.mp hseg with hseg | hseg
      · have hbelow := (hbefore seg hseg last List.mem_cons_self).1
        rw [hstart] at hbelow
        exact absurd hbelow (UInt64.lt_irrefl _)
      · rw [List.mem_singleton.mp hseg]
        exact hempty
  unfold Dir.create
  split
  · conv_rhs => rw [← List.map_id dir]
    refine List.map_congr_left fun f hf => ?_
    split
    · next hname => exact Prod.ext rfl (hfile f hf hname).symm
    · rfl
  · next hnot =>
    refine absurd ?_ hnot
    rw [hdir]
    exact List.mem_map.mpr ⟨last.file crc, by simp, rfl⟩

theorem Tidy.rotate {s : Log} {dir : Dir} {segs : List Seg} (h : s.Tidy crc dir segs)
    {w : WalWriter} (hw : s.writer = some w) (hturn : Turnable w) (instant : ℕ) :
    (∃ segs', Tidy crc { s with
        writer := some (w.rotate dir { instant := instant }).2.1
        dir := some (w.rotate dir { instant := instant }).2.2 }
        (w.rotate dir { instant := instant }).2.2 segs') ∧
      dir.Keeps (w.rotate dir { instant := instant }).2.2 := by
  obtain ⟨⟨init, last, rfl, hsegment⟩, hup⟩ := h.writer w hw
  have hresult : w.rotate dir { instant := instant } =
      (.ok (), { w with
        currentSegment := ⟨segmentFilename w.nextSequence, w.nextSequence, 0⟩
        lastSync := instant }, dir.create (segmentFilename w.nextSequence)) := rfl
  have hlt := lt_succ hturn.2
  rw [hresult]
  dsimp only
  by_cases hstart : last.start = w.nextSequence
  · have hsize : (last.bytes crc).length = 0 := by
      have hzero := hturn.1
      rw [hsegment] at hzero
      exact hzero hstart
    have hempty : last.bytes crc = [] := List.length_eq_zero_iff.mp hsize
    rw [← hstart, create_empty h.layout hempty]
    refine ⟨⟨init ++ [last], h.layout, h.bounded, h.whole, h.passed, ?_⟩, .refl dir⟩
    intro v hv
    cases hv
    refine ⟨⟨init, last, rfl, ?_⟩, ?_⟩
    · simp [Seg.info, hempty]
    · dsimp only
      rw [hstart]
      exact hup
  · have hbelow := h.layout.placed.below_of_ne hup hstart
    have hnew : ∀ seg ∈ init ++ [last] ++ [⟨w.nextSequence, [], []⟩],
        seg.Below maxSequence ∧ seg.torn = [] ∧ seg.UpTo w.nextSequence := by
      intro seg hseg
      rcases List.mem_append.mp hseg with hseg | hseg
      · exact ⟨h.bounded seg hseg, h.whole seg hseg, hup seg hseg⟩
      · rw [List.mem_singleton.mp hseg]
        exact ⟨⟨UInt64.lt_trans hlt.1 hlt.2, by simp⟩, rfl, UInt64.le_refl _, by simp⟩
    refine ⟨⟨init ++ [last] ++ [⟨w.nextSequence, [], []⟩], h.layout.create hbelow,
      fun seg hseg => (hnew seg hseg).1, fun seg hseg => (hnew seg hseg).2.1, ?_, ?_⟩,
      Dir.keeps_create (h.fresh_name fun seg hseg => (hbelow seg hseg).1)⟩
    · rw [List.flatMap_append]
      simpa using h.passed
    · intro v hv
      cases hv
      exact ⟨⟨init ++ [last], _, rfl, rfl⟩, fun seg hseg => (hnew seg hseg).2.2⟩

/-! ### Runs -/

theorem Settled.tidy {s : Log} (h : s.Settled crc) : ∃ segs, s.Tidy crc (s.dir.getD []) segs := by
  unfold Settled at h
  split at h
  · next hdir =>
    rw [hdir, Option.getD_none]
    refine ⟨[], layout_nil (by simp), by simp, by simp, ?_, ?_⟩
    · rw [h.1]
      rfl
    · simp [h.2]
  · next dir hdir => rwa [hdir, Option.getD_some]

theorem Settled.openLog {s t : Log} (h : s.Settled crc) (syncMode : SyncMode)
    (maxSegmentSize instant : ℕ)
    (ht : s.step crc (.openLog syncMode maxSegmentSize { instant := instant }) = some t) :
    t.Settled crc ∧ s.Keeps t := by
  cases ht
  unfold WalWriter.openWithMaxSize
  split
  · next hnone => cases hnone.2
  · obtain ⟨segs, htidy⟩ := h.tidy
    obtain ⟨segs', hl, hb, hkept, hopened⟩ :=
      openSegment_spec htidy.layout htidy.bounded { instant := instant }
    refine ⟨⟨segs', hl, hb, ?_, ?_, ?_⟩, ?_⟩
    · rcases hkept with ⟨-, rfl⟩ | ⟨-, -, rfl⟩
      · exact htidy.whole
      · simp
    · refine Eq.trans ?_ htidy.passed
      rcases hkept with ⟨-, rfl⟩ | ⟨-, rfl, rfl⟩
      · rfl
      · rfl
    · intro w hw
      dsimp only at hw
      cases hres : (WalWriter.openSegment (s.dir.getD []) { instant := instant }).1 with
      | error error => simp [hres, Except.map, Except.toOption] at hw
      | ok opened =>
        simp only [hres, Except.map, Except.toOption, Option.some.injEq] at hw
        subst hw
        exact hopened _ _ hres
    · intro dir hdir
      refine ⟨_, rfl, ?_⟩
      rw [hdir, Option.getD_some] at hkept ⊢
      rw [hdir, Option.getD_some] at htidy
      rcases hkept with ⟨hsame, -⟩ | ⟨hcreated, rfl, -⟩
      · rw [hsame]
        exact .refl dir
      · rw [hcreated]
        exact Dir.keeps_create (htidy.fresh_name (by simp))

/-- Another writer at the same place may take over. -/
theorem Settled.takeover {s : Log} (h : s.Settled crc) {w w' : WalWriter} (hw : s.writer = some w)
    (hsegment : w'.currentSegment = w.currentSegment) (hnext : w'.nextSequence = w.nextSequence) :
    { s with writer := some w' }.Settled crc := by
  cases hdir : s.dir with
  | none =>
    rw [Settled, hdir] at h
    exact absurd (hw.symm.trans h.2) (by simp)
  | some dir =>
    rw [Settled, hdir] at h
    obtain ⟨segs, ht⟩ := h
    simp only [Settled]
    refine ⟨segs, ht.layout, ht.bounded, ht.whole, ht.passed, ?_⟩
    intro v hv
    cases hv
    rw [hsegment, hnext]
    exact ht.writer w hw

theorem Settled.record {s : Log} (h : s.Settled crc) {dir : Dir} (hdir : s.dir = some dir)
    {w : WalWriter} (hw : s.writer = some w) {entry : WalEntry} (hfit : Fitting crc w entry)
    (instant : ℕ) : (s.record crc w dir entry { instant := instant }).Settled crc ∧
      s.Keeps (s.record crc w dir entry { instant := instant }) := by
  rw [Settled, hdir] at h
  obtain ⟨segs, ht⟩ := h
  obtain ⟨htidy, hkeeps⟩ := ht.record hw hfit instant
  refine ⟨htidy, fun dir' hdir' => ?_⟩
  rw [hdir] at hdir'
  cases hdir'
  exact ⟨_, rfl, hkeeps⟩

theorem Settled.step {s t : Log} {u : Usage} (h : s.Settled crc) (hu : Orderly crc s u)
    (ht : s.use crc u = some t) : t.Settled crc ∧ s.Keeps t := by
  have hkeeps : ∀ {s t : Log}, t.dir = s.dir → s.Keeps t :=
    fun heq dir hdir => ⟨dir, heq.trans hdir, .refl dir⟩
  cases u with
  | openLog syncMode maxSegmentSize instant =>
    obtain ⟨-, hopen⟩ := Option.ite_none_right_eq_some.mp ht
    exact h.openLog syncMode maxSegmentSize instant hopen
  | append entry instant =>
    obtain ⟨w, hw, hmap⟩ := Option.bind_eq_some_iff.mp ht
    obtain ⟨dir, hdir, rfl⟩ := Option.map_eq_some_iff.mp hmap
    exact h.record hdir hw (hu w hw) instant
  | checkpoint timestamp instant =>
    obtain ⟨w, hw, hmap⟩ := Option.bind_eq_some_iff.mp ht
    obtain ⟨dir, hdir, rfl⟩ := Option.map_eq_some_iff.mp hmap
    obtain ⟨hd, hsegment, hnext⟩ :=
      w.checkpoint_spec crc dir timestamp { instant := instant } true
    obtain ⟨hsettled, hkept⟩ := h.record hdir hw (hu w hw) instant
    simp only [hd]
    exact ⟨hsettled.takeover rfl hsegment hnext, hkept⟩
  | rotate instant =>
    obtain ⟨w, hw, hmap⟩ := Option.bind_eq_some_iff.mp ht
    obtain ⟨dir, hdir, rfl⟩ := Option.map_eq_some_iff.mp hmap
    rw [Settled, hdir] at h
    obtain ⟨segs, htidy⟩ := h
    obtain ⟨hsettled, hkept⟩ := htidy.rotate hw (hu w hw) instant
    refine ⟨hsettled, fun dir' hdir' => ?_⟩
    rw [hdir] at hdir'
    cases hdir'
    exact ⟨_, rfl, hkept⟩
  | sync instant =>
    obtain ⟨w, hw, rfl⟩ := Option.map_eq_some_iff.mp ht
    obtain ⟨hsegment, hnext⟩ := w.sync_fields true instant
    exact ⟨h.takeover hw hsegment hnext, hkeeps rfl⟩
  | close =>
    obtain ⟨w, hw, rfl⟩ := Option.map_eq_some_iff.mp ht
    refine ⟨?_, hkeeps rfl⟩
    cases hdir : s.dir with
    | none =>
      rw [Settled, hdir] at h
      simp only [Settled]
      exact ⟨h.1, trivial⟩
    | some dir =>
      rw [Settled, hdir] at h
      obtain ⟨segs, htidy⟩ := h
      simp only [Settled]
      exact ⟨segs, htidy.layout, htidy.bounded, htidy.whole, htidy.passed, by simp⟩

/-- In every run without faults in which no explicit rotation follows an append that has
rotated, replaying returns exactly what was appended, and no call cuts a file. -/
theorem entries_replayed {s₀ s : Log} (hi : s₀.Initial) (r : Run (Log.use crc) (Orderly crc) s₀ s)
    (now : DateTime) :
    s.Exact crc now ∧ ∀ u t, Orderly crc s u → s.use crc u = some t → s.Keeps t := by
  have hsettled : s.Settled crc :=
    r.invariant (I := Settled crc) (fun _ _ _ h hu ht => (h.step hu ht).1) hi.settled
  exact ⟨hsettled.exact now, fun u t hu ht => (hsettled.step hu ht).2⟩

/-- One entry, and a new segment behind it. -/
def turned : Log where
  dir := some [(segmentFilename 0, { inserted with sequence := 1 }.serialize crc32),
    (segmentFilename 2, [])]
  writer := some ⟨⟨segmentFilename 2, 2, 0⟩, 2, 40, .async, 0⟩
  acked := [{ inserted with sequence := 1 }]
  passed := [{ inserted with sequence := 1 }]

/-- The first append on a fresh directory. -/
theorem first_run {turn : WalWriter → Prop} :
    Run (Log.use crc32) (Uses (Fitting crc32) turn) unopened
      { written with writer := some ⟨⟨segmentFilename 0, 0, 34⟩, 2, 40, .async, 0⟩ } := by
  refine (Run.single (e := .openLog .async 40 0) trivial rfl).trans
    (Run.single (e := .append inserted 0) ?_ rfl)
  intro w hw
  cases hw
  exact ⟨by decide, by decide⟩

theorem entries_replayed_turned : turned.Exact crc32 epoch := by
  refine (entries_replayed unopened_initial (first_run.trans (Run.single (e := .rotate 0) ?_ rfl))
    epoch).1
  intro w hw
  cases hw
  exact ⟨fun h => absurd h (by decide), by decide⟩

/-- The second entry went to a new segment, which the rotation has created again. -/
def cut : Log where
  dir := some [(segmentFilename 0, { inserted with sequence := 1 }.serialize crc32),
    (segmentFilename 3, [])]
  writer := some ⟨⟨segmentFilename 3, 3, 0⟩, 3, 40, .async, 0⟩
  acked := [{ inserted with sequence := 1 }, { inserted with sequence := 2 }]
  passed := [{ inserted with sequence := 1 }, { inserted with sequence := 2 }]

theorem cut_run : Run (Log.use crc32) (Fitted crc32) unopened cut := by
  refine first_run.trans ((Run.single (e := .append inserted 0) ?_ rfl).trans
    (Run.single (e := .rotate 0) ?_ rfl))
  · intro w hw
    cases hw
    exact ⟨by decide, by decide⟩
  · intro w _
    trivial

theorem rotation_cuts : ¬ ∀ (s₀ s : Log) (now : DateTime), s₀.Initial →
    Run (Log.use crc32) (Fitted crc32) s₀ s → s.Exact crc32 now := by
  intro hall
  obtain ⟨hreplay, -⟩ := hall unopened cut epoch unopened_initial cut_run _ rfl
  have hlayout : Layout crc32 [(segmentFilename 0, { inserted with sequence := 1 }.serialize crc32),
      (segmentFilename 3, [])] [⟨0, [{ inserted with sequence := 1 }], []⟩, ⟨3, [], []⟩] := by
    refine ⟨⟨[], by simp, rfl⟩, ?_, ?_, ?_⟩
    · intro seg hseg
      simp only [List.mem_cons, List.not_mem_nil, or_false] at hseg
      rcases hseg with rfl | rfl
      · refine ⟨fun e he => ?_, .nil⟩
        rw [List.mem_singleton.mp he]
        exact by decide
      · exact ⟨by simp, .nil⟩
    · simp [Seg.Below]
    · simp
  have hone := hlayout.replayAll epoch
  rw [show cut.dir = some _ from rfl, hone] at hreplay
  cases hreplay

end Log

end NextgenDatabases.Wal
