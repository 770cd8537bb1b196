import NextgenDatabases.Verisim.Atomicity

/-!
# Flags and stores

An octad store is coherent if an entity is registered with the flag of a modality exactly
when that store holds data for it. What each call makes of the five stores that give out at
most one datum for an entity, and exactly when it keeps the octad store coherent.
-/
namespace NextgenDatabases.Verisim

open Wal (WalOperation)
open Foundations (Run exec)

/-- The modalities whose stores give out at most one datum for an entity. -/
def tracked : List Modality := [.vector, .document, .tensor, .semantic, .spatial]

/-- Data of the modality are found, and a document both in the map and in the index. -/
def Contents.Full (c : Contents) : Modality → Prop
  | .document => c.document ≠ none ∧ c.indexed ≠ []
  | m => ¬ c.Clear m

namespace World

/-- The entity is registered with the flag of the modality. -/
def Flagged (w : World) (id : String) (m : Modality) : Prop :=
  ∃ s, w.registry id = some s ∧ s.modalityStatus.get m = true

/-- The store of the modality holds data for the entity. -/
def Holds (w : World) (id : String) (m : Modality) : Prop := ¬ (w.stores id).Clear m

/-- What is flagged is found, and what a store holds is flagged. -/
def Coherent (w : World) : Prop := ∀ id, ∀ m ∈ tracked,
  (w.Flagged id m → (w.stores id).Full m) ∧ (w.Holds id m → w.Flagged id m)

end World

namespace Contents

theorem Full.not_clear {c : Contents} {m : Modality} (h : c.Full m) : ¬ c.Clear m := by
  cases m with
  | document => exact fun hclear => h.1 hclear.1
  | _ => exact h

theorem Agree.full {c d : Contents} {m : Modality} (h : c.Agree d m) : c.Full m ↔ d.Full m := by
  cases m with
  | document => simp only [Full, h.1, h.2]
  | _ => exact not_congr h.congr

theorem write_full {op : StoreOp}
    (h : op.isAppend = false ∧ op.isDelete = false ∧ op.isRead = false) (c : Contents) :
    (c.apply op).Full op.modality := by
  cases op with
  | documentIndex doc => exact ⟨Option.some_ne_none _, by simp [apply]⟩
  | documentDelete => exact absurd h.2.1 (by decide)
  | documentCommit => exact absurd h.2.2 (by decide)
  | _ => exact write_not_clear h c

theorem delete_not_full {op : StoreOp} (h : op.isDelete = true) (c : Contents) :
    ¬ (c.apply op).Full op.modality := by
  cases op with
  | vectorDelete | tensorDelete => exact fun hfull => hfull rfl
  | documentDelete => exact fun hfull => hfull.1 rfl
  | _ => cases h

theorem writes_full_iff {ops : List StoreOp}
    (h : ∀ op ∈ ops, op.isAppend = false ∧ op.isDelete = false) (c : Contents) (m : Modality) :
    (ops.foldl apply c).Full m ↔ c.Full m ∨ ∃ op ∈ ops, op.isRead = false ∧ op.modality = m := by
  induction ops generalizing c with
  | nil => simp
  | cons op ops ih =>
    obtain ⟨happend, hdelete⟩ := h op List.mem_cons_self
    rw [List.foldl_cons, ih fun op' hop' => h op' (.tail _ hop')]
    have hstep : (c.apply op).Full m ↔ c.Full m ∨ op.isRead = false ∧ op.modality = m := by
      cases hread : op.isRead with
      | true => simp [apply_read hread]
      | false =>
        by_cases hm : op.modality = m
        · simp [← hm, write_full ⟨happend, hdelete, hread⟩ c]
        · simp [hm, (apply_agree hm c).full]
    rw [hstep, or_assoc]
    simp

theorem deletes_full_iff {ops : List StoreOp} (h : ∀ op ∈ ops, op.isDelete = true)
    (c : Contents) (m : Modality) :
    (ops.foldl apply c).Full m ↔ c.Full m ∧ ¬ ∃ op ∈ ops, op.modality = m := by
  induction ops generalizing c with
  | nil => simp
  | cons op ops ih =>
    rw [List.foldl_cons, ih fun op' hop' => h op' (.tail _ hop')]
    have hstep : (c.apply op).Full m ↔ c.Full m ∧ op.modality ≠ m := by
      by_cases hm : op.modality = m
      · simp [← hm, delete_not_full (h op List.mem_cons_self) c]
      · simp [hm, (apply_agree hm c).full]
    rw [hstep, and_assoc]
    simp

end Contents

/-- In a coherent state everything is found that a store holds. -/
theorem World.Coherent.flagged_iff {w : World} (h : w.Coherent) (id : String) {m : Modality}
    (hm : m ∈ tracked) :
    (w.Flagged id m ↔ w.Holds id m) ∧ (w.Flagged id m ↔ (w.stores id).Full m) := by
  obtain ⟨hfull, hflagged⟩ := h id m hm
  exact ⟨⟨fun hf => (hfull hf).not_clear, hflagged⟩, ⟨hfull, fun hf => hflagged hf.not_clear⟩⟩

theorem World.Coherent.indexed {w : World} (h : w.Coherent) (id : String) :
    (w.stores id).Indexed := by
  intro hnil
  by_contra hdocument
  have hholds : w.Holds id .document := fun hclear => hdocument hclear.1
  exact ((h.flagged_iff id (by decide)).2.mp ((h.flagged_iff id (by decide)).1.mpr hholds)).2 hnil

/-! ### What a call has written -/

section written

variable {rt : Runtime} {config : OctadConfig} {job : Job}

/-- A write of the call to the modality takes effect. -/
def Job.Writes (rt : Runtime) (config : OctadConfig) (job : Job) (m : Modality) : Prop :=
  ∃ op ∈ effective (job.attempts rt config), op.isRead = false ∧ op.modality = m

theorem Job.Writes.has {m : Modality} (h : job.Writes rt config m) :
    m ∈ job.input.supplied := by
  obtain ⟨op, hop, -, rfl⟩ := h
  obtain ⟨m, hm⟩ := mem_effective hop
  obtain ⟨m', hsupplied, hmem⟩ := List.mem_flatMap.mp hm
  rw [(mem_attempts hmem).1]
  exact hsupplied

theorem attempts_ne_nil {env : Env} {id : String} {input : OctadInput} {m : Modality}
    (hm : m ∈ tracked) (hhas : input.has m = true) : attempts rt config env id input m ≠ [] := by
  simp only [tracked, List.mem_cons, List.not_mem_nil, or_false] at hm
  rcases hm with rfl | rfl | rfl | rfl | rfl
  · obtain ⟨i, hi⟩ := Option.isSome_iff_exists.mp hhas
    simp only [attempts, process, hi, Option.elim_some, Process.map, processVector]
    split <;> simp
  · obtain ⟨i, hi⟩ := Option.isSome_iff_exists.mp hhas
    simp [attempts, process, hi, Process.map, processDocument]
  · obtain ⟨i, hi⟩ := Option.isSome_iff_exists.mp hhas
    simp only [attempts, process, hi, Option.elim_some, Process.map, processTensor]
    split <;> simp
  · obtain ⟨i, hi⟩ := Option.isSome_iff_exists.mp hhas
    simp [attempts, process, hi, Process.map, processSemantic]
  · obtain ⟨i, hi⟩ := Option.isSome_iff_exists.mp hhas
    simp only [attempts, process, hi, Option.elim_some, Process.map, processSpatial]
    split <;> simp

/-- Complete attempts on a tracked modality that is supplied write it. -/
theorem exists_write {env : Env} {id : String} {input : OctadInput} {m : Modality}
    (hm : m ∈ tracked) (hhas : input.has m = true)
    (hcomplete : complete (attempts rt config env id input m) = true) :
    ∃ op ∈ effective (attempts rt config env id input m), op.isRead = false ∧ op.modality = m := by
  have hne : attempts rt config env id input m ≠ [] := attempts_ne_nil hm hhas
  have hshape := attempts_shape rt config env id input m
  generalize attempts rt config env id input m = as at hne hshape hcomplete
  cases hshape with
  | none => exact absurd rfl hne
  | refuse error => cases hcomplete
  | edges as hgraph hedges =>
    rw [hgraph] at hm
    simp [tracked] at hm
  | write op fault hmodality hkind =>
    cases fault with
    | some message => cases hcomplete
    | none => exact ⟨op, List.mem_cons_self, hkind.2.2, hmodality⟩
  | writeRead op read fault fault' hmodality hkind hread =>
    cases fault with
    | some message => cases hcomplete
    | none => exact ⟨op, List.mem_cons_self, hkind.2.2, hmodality.1⟩

theorem complete_of_mem {f : Modality → List Attempt} {ms : List Modality} {m : Modality}
    (h : complete (ms.flatMap f) = true) (hm : m ∈ ms) :
    complete (f m) = true ∧ ∀ op ∈ effective (f m), op ∈ effective (ms.flatMap f) := by
  induction ms with
  | nil => cases hm
  | cons m' ms ih =>
    rw [List.flatMap_cons, complete_append, Bool.and_eq_true] at h
    rw [List.flatMap_cons, effective_append, if_pos h.1]
    rcases List.mem_cons.mp hm with rfl | hm
    · exact ⟨h.1, fun op hop => List.mem_append_left _ hop⟩
    · obtain ⟨hcomplete, hsub⟩ := ih h.2 hm
      exact ⟨hcomplete, fun op hop => List.mem_append_right _ (hsub op hop)⟩

theorem Job.writes_iff_of_complete (hcomplete : complete (job.attempts rt config) = true)
    {m : Modality} (hm : m ∈ tracked) : job.Writes rt config m ↔ m ∈ job.input.supplied := by
  constructor
  · exact Job.Writes.has
  · intro hsupplied
    obtain ⟨hall, hsub⟩ := complete_of_mem hcomplete hsupplied
    obtain ⟨op, hop, hwrite⟩ := exists_write hm (List.mem_filter.mp hsupplied).2 hall
    exact ⟨op, hsub op hop, hwrite⟩

end written

/-! ### The outcome of a call -/

section outcome

variable {rt : Runtime} {config : OctadConfig}

/-- The state after a call that runs alone. -/
def Job.after (rt : Runtime) (config : OctadConfig) (w : World) (job : Job) : World :=
  ((job.program rt config).run World.exec w).2

/-- The call ends before it writes anything: there is no entry, the intent cannot be logged, or
a lock is refused. -/
def Job.Idle (job : Job) (w : World) : Prop :=
  job.operation ≠ .insert ∧ w.registry job.id = none ∨ job.IntentFails w ∨ job.LockRefused w

theorem Job.after_of_missing {job : Job} {w : World} (h : job.operation ≠ .insert)
    (hmissing : w.registry job.id = none) : job.after rt config w = w := by
  obtain ⟨request, env⟩ := job
  cases request with
  | create input => exact absurd rfl h
  | update id input =>
    have hread : (w.exec (.status id)).1 = none := hmissing
    simp only [Job.after, Job.program, update, readStatus, Foundations.Prog.perform, bind,
      Foundations.Prog.call_bind, Foundations.Prog.run, Foundations.Prog.pure_bind, hread]
    rfl
  | delete id =>
    have hread : (w.exec (.status id)).1 = none := hmissing
    simp only [Job.after, Job.program, delete, readStatus, Foundations.Prog.perform, bind,
      Foundations.Prog.call_bind, Foundations.Prog.run, Foundations.Prog.pure_bind, hread]
    rfl

/-- A call leaves everything as it was, succeeds, or fails at a write. -/
theorem Job.after_cases (job : Job) (w : World) :
    job.Idle w ∧ (job.after rt config w).registry = w.registry ∧
        (job.after rt config w).stores = w.stores ∨
      ¬ job.Idle w ∧ job.clean rt config = true ∧
        (∃ version, (job.after rt config w).registry = Function.update w.registry job.id
          (job.registers (if job.operation = .insert then none else w.registry job.id) version)) ∧
        (∃ done, job.Wrote rt config done ∧ (job.after rt config w).stores =
          Function.update w.stores job.id (done.foldl Contents.apply (w.stores job.id))) ∨
      ¬ job.Idle w ∧ job.clean rt config = false ∧
        (job.after rt config w).registry = w.registry ∧
        (job.after rt config w).stores = Function.update w.stores job.id
          ((effective (job.attempts rt config) ++ job.compensation rt config).foldl
            Contents.apply (w.stores job.id)) := by
  by_cases hmissing : job.operation ≠ .insert ∧ w.registry job.id = none
  · rw [job.after_of_missing hmissing.1 hmissing.2]
    exact .inl ⟨.inl hmissing, rfl, rfl⟩
  obtain ⟨φ, hpost, hchanged, hprogress⟩ := alone_run (job.ends rt config) w
  have hregistry := hchanged.registry
  have hstores := hchanged.stores
  have hlogged (h : φ.stage.isStarted = true) : ¬ job.IntentFails w := by
    rintro ⟨hwal, hintent⟩
    have hstarted := hprogress.started h
    simp [Option.isSome_iff_ne_none] at hwal hintent
    tauto
  have hlocked (h : φ.stage.isGranted = true) (hfresh : φ.stage ≠ .fresh) :
      ¬ job.LockRefused w := by
    rintro ⟨n, hn, hrefused⟩
    have hgranted := hprogress.granted h n (by
      rw [hprogress.existing hfresh, job.lockNames_eq]
      exact hn)
    rw [hgranted] at hrefused
    cases hrefused
  cases hresult : ((job.program rt config).run World.exec w).1 with
  | ok octad =>
    rw [hresult] at hpost
    obtain ⟨⟨hstage, hclean, -⟩, hwrote⟩ := hpost
    refine .inr (.inl ⟨?_, hclean, ⟨φ.version, ?_⟩, φ.done, hwrote, hstores⟩)
    · rintro (h | h | h)
      · exact hmissing h
      · exact hlogged (by rw [hstage]; rfl) h
      · exact hlocked (by rw [hstage]; rfl) (by rw [hstage]; nofun) h
    · rw [hstage, hprogress.existing (by rw [hstage]; nofun)] at hregistry
      exact hregistry
  | error e =>
    rw [hresult] at hpost
    rcases hpost with ⟨hstage, hdone⟩ | ⟨hstage, hclean, hdone⟩ | hstage
    · refine .inl ⟨?_, ?_, ?_⟩
      · rcases hstage with hstage | hstage | hstage
        · exact .inl (hprogress.missing hstage)
        · exact .inr (.inl (hprogress.refused hstage))
        · obtain ⟨n, hn, hgrants⟩ := hprogress.blocked hstage
          rw [hprogress.existing (by rw [hstage]; nofun), job.lockNames_eq] at hn
          exact .inr (.inr ⟨n, hn, hgrants⟩)
      · rcases hstage with hstage | hstage | hstage <;>
          · rw [hstage] at hregistry
            exact hregistry
      · rw [hdone] at hstores
        exact hstores.trans (Function.update_eq_self _ _)
    · refine .inr (.inr ⟨?_, hclean, ?_, ?_⟩)
      · rintro (h | h | h)
        · exact hmissing h
        · exact hlogged (by rw [hstage]; rfl) h
        · exact hlocked (by rw [hstage]; rfl) (by rw [hstage]; nofun) h
      · rw [hstage] at hregistry
        exact hregistry
      · rw [hdone] at hstores
        exact hstores
    · exact absurd hstage hprogress.committed

/-! ### Keeping coherence -/

/-- What a call that is not idle has to meet to keep a state coherent. A successful create must
not replace an entry whose flags its input does not supply; a failed one must take back what it
wrote, unless the flag was set. A failed update must not write what was not flagged. A delete
must find nothing that it does not delete, and no document, which it leaves in the index. -/
def Job.Keeps (rt : Runtime) (config : OctadConfig) (job : Job) (w : World) : Prop :=
  match job.request with
  | .create input =>
    if job.clean rt config then
      ∀ m ∈ tracked, w.Flagged job.id m → m ∈ input.supplied
    else ∀ m ∈ tracked,
      (w.Flagged job.id m → ¬ job.Deletes rt config m) ∧
        (job.Writes rt config m → job.Compensates rt config m ∨ w.Flagged job.id m)
  | .update _ _ =>
    job.clean rt config = true ∨ ∀ m ∈ tracked, job.Writes rt config m → w.Flagged job.id m
  | .delete _ =>
    ∀ m ∈ tracked, w.Flagged job.id m →
      (m = .vector ∨ m = .tensor) ∧ job.env.deleteFault m = none

/-- The call keeps coherence where it is served. -/
def Job.KeepsCoherent (rt : Runtime) (config : OctadConfig) (job : Job) (w : World) : Prop :=
  job.Idle w ∨ job.Keeps rt config w

variable {job : Job} {w : World}

theorem not_clear_writes {ops : List StoreOp}
    (h : ∀ op ∈ ops, op.isAppend = false ∧ op.isDelete = false) (c : Contents) (m : Modality) :
    ¬ (ops.foldl Contents.apply c).Clear m ↔
      ¬ c.Clear m ∨ ∃ op ∈ ops, op.isRead = false ∧ op.modality = m := by
  rw [Contents.writes_clear_iff h]
  constructor
  · intro hnot
    by_contra hno
    simp only [not_or, not_exists, not_and, not_not] at hno
    exact hnot ⟨hno.1, hno.2⟩
  · rintro (hheld | ⟨op, hop, hread, hm⟩) ⟨hclear, hnone⟩
    · exact hheld hclear
    · exact hnone op hop hread hm

/-- Whether coherence is kept depends on the entity of the call only. -/
theorem coherent_after_iff (hw : w.Coherent) {registry : Option OctadStatus} {contents : Contents}
    {w' : World} (hregistry : w'.registry = Function.update w.registry job.id registry)
    (hstores : w'.stores = Function.update w.stores job.id contents) :
    w'.Coherent ↔ ∀ m ∈ tracked,
      ((∃ s, registry = some s ∧ s.modalityStatus.get m = true) → contents.Full m) ∧
        (¬ contents.Clear m → ∃ s, registry = some s ∧ s.modalityStatus.get m = true) := by
  constructor
  · intro h m hm
    have hid := h job.id m hm
    rw [World.Flagged, World.Holds, hregistry, hstores, Function.update_self,
      Function.update_self] at hid
    exact hid
  · intro h id m hm
    rw [World.Flagged, World.Holds, hregistry, hstores]
    by_cases hid : id = job.id
    · subst hid
      rw [Function.update_self, Function.update_self]
      exact h m hm
    · rw [Function.update_of_ne hid, Function.update_of_ne hid]
      exact hw id m hm

theorem ne_temporal {m : Modality} (hm : m ∈ tracked) : m ≠ .temporal := by
  rintro rfl
  simp [tracked] at hm

/-- After a successful create or update a store holds what it held and what was written. -/
theorem holds_written {done : List StoreOp} {op : StoreOp} (hop : op.isAppend = true)
    (hdone : done = effective (job.attempts rt config) ++ [op]) (c : Contents) {m : Modality}
    (hm : m ∈ tracked) :
    (¬ (done.foldl Contents.apply c).Clear m ↔ ¬ c.Clear m ∨ job.Writes rt config m) ∧
      ((done.foldl Contents.apply c).Full m ↔ c.Full m ∨ job.Writes rt config m) := by
  have hmodality : op.modality ≠ m := by
    cases op with
    | temporalAppend data timestamp author message => exact (ne_temporal hm).symm
    | _ => cases hop
  rw [hdone, List.foldl_append, List.foldl_cons, List.foldl_nil, Contents.Clear,
    (Contents.apply_agree hmodality _).congr, (Contents.apply_agree hmodality _).full]
  exact ⟨not_clear_writes (fun op hop => Job.effective_spec hop) c m,
    Contents.writes_full_iff (fun op hop => Job.effective_spec hop) c m⟩

theorem holds_deleted {env : Env} {id : String} {written : ModalityStatus} {c : Contents}
    (hc : c.Indexed) (m : Modality) :
    (¬ ((deletions env id written).foldl Contents.apply c).Clear m ↔
      ¬ c.Clear m ∧ ¬ (m ≠ .document ∧ (m = .vector ∨ m = .document ∨ m = .tensor) ∧
        written.get m = true ∧ env.deleteFault m = none)) ∧
    (((deletions env id written).foldl Contents.apply c).Full m ↔
      c.Full m ∧ ¬ ((m = .vector ∨ m = .document ∨ m = .tensor) ∧ written.get m = true ∧
        env.deleteFault m = none)) := by
  rw [Contents.deletes_clear_iff mem_deletions.1 hc, Contents.deletes_full_iff mem_deletions.1,
    mem_deletions.2, not_or]
  exact ⟨Iff.rfl, Iff.rfl⟩

/-- The flags that a create registers. -/
theorem create_flags (input : OctadInput) (env : Env) (existing : Option OctadStatus)
    (version : ℕ) {m : Modality} (hm : m ∈ tracked) :
    (∃ s, Job.registers ⟨.create input, env⟩ existing version = some s ∧
      s.modalityStatus.get m = true) ↔ m ∈ input.supplied := by
  have htemporal : .temporal ≠ m := (ne_temporal hm).symm
  have hempty : ({} : ModalityStatus).get m = false := by cases m <;> rfl
  simp [Job.registers, Job.write, Write.registered, Job.flags, createWrite, Job.input,
    ModalityStatus.get_foldl_mark, htemporal, hempty]

/-- An update adds the flags of what it supplies. -/
theorem update_flags (id : String) (input : OctadInput) (env : Env) {existing : OctadStatus}
    (version : ℕ) (m : Modality) :
    (∃ s, Job.registers ⟨.update id input, env⟩ (some existing) version = some s ∧
      s.modalityStatus.get m = true) ↔
        existing.modalityStatus.get m = true ∨ m ∈ input.supplied := by
  simp [Job.registers, Job.write, Write.registered, Job.flags, updateWrite, Job.input,
    ModalityStatus.get_foldl_mark]

/-- A successful call. -/
theorem coherent_success (hw : w.Coherent) (hidle : ¬ job.Idle w)
    (hclean : job.clean rt config = true) {version : ℕ} {done : List StoreOp} {w' : World}
    (hregistry : w'.registry = Function.update w.registry job.id
      (job.registers (if job.operation = .insert then none else w.registry job.id) version))
    (hwrote : job.Wrote rt config done)
    (hstores : w'.stores =
      Function.update w.stores job.id (done.foldl Contents.apply (w.stores job.id))) :
    w'.Coherent ↔ job.Keeps rt config w := by
  have hcomplete : complete (job.attempts rt config) = true := by
    rw [Job.clean, Bool.and_eq_true] at hclean
    exact hclean.1
  rw [coherent_after_iff hw hregistry hstores]
  obtain ⟨request, env⟩ := job
  cases request with
  | create input =>
    obtain ⟨op, hop, hdone⟩ := hwrote
    simp only [Job.Keeps, hclean, if_true]
    refine forall₂_congr fun m hm => ?_
    obtain ⟨hholds, -⟩ := hw.flagged_iff env.uuid hm
    obtain ⟨hheld, hfull⟩ := holds_written hop hdone (w.stores env.uuid) hm
    rw [show Job.id ⟨.create input, env⟩ = env.uuid from rfl, hheld, hfull,
      Job.writes_iff_of_complete hcomplete hm, create_flags input env _ version hm]
    exact ⟨fun h hflag => h.2 (.inl (hholds.1 hflag)), fun h => ⟨.inr, fun hor =>
      hor.elim (fun hheld => h (hholds.2 hheld)) id⟩⟩
  | update id input =>
    obtain ⟨op, hop, hdone⟩ := hwrote
    simp only [Job.Keeps, hclean, true_or, iff_true]
    intro m hm
    obtain ⟨hholds, hfound⟩ := hw.flagged_iff id hm
    obtain ⟨hheld, hfull⟩ := holds_written hop hdone (w.stores id) hm
    have hpresent : w.registry id ≠ none := by
      intro hnone
      refine hidle (.inl ⟨?_, hnone⟩)
      rintro ⟨⟩
    obtain ⟨existing, hexisting⟩ := Option.ne_none_iff_exists'.mp hpresent
    have hflagged : w.Flagged id m ↔ existing.modalityStatus.get m = true := by
      simp [World.Flagged, hexisting]
    have hread : (if Job.operation ⟨.update id input, env⟩ = .insert then none
        else w.registry (Job.id ⟨.update id input, env⟩)) = some existing := hexisting
    rw [show Job.id ⟨.update id input, env⟩ = id from rfl] at hread ⊢
    rw [hheld, hfull, Job.writes_iff_of_complete hcomplete hm, hread, update_flags, ← hflagged]
    exact ⟨Or.imp_left hfound.1, Or.imp_left hholds.2⟩
  | delete id =>
    have hdone : done = _ := hwrote
    simp only [Job.Keeps]
    refine forall₂_congr fun m hm => ?_
    obtain ⟨hholds, -⟩ := hw.flagged_iff id hm
    have hnone (existing : Option OctadStatus) :
        Job.registers ⟨.delete id, env⟩ existing version = none := rfl
    have hwritten : ({ vector := true, document := true, tensor := true } : ModalityStatus).get m =
        true ↔ m = .vector ∨ m = .document ∨ m = .tensor := by cases m <;> decide
    rw [hdone, (holds_deleted (hw.indexed _) m).1, hnone, hwritten]
    constructor
    · intro h hflag
      by_contra hkept
      have hlost : ∃ s : OctadStatus, none = some s ∧ s.modalityStatus.get m = true := by
        refine h.2 ⟨hholds.1 hflag, ?_⟩
        rintro ⟨hdocument, hkind, -, hfault⟩
        exact hkept ⟨hkind.imp_right fun hor => hor.resolve_left hdocument, hfault⟩
      obtain ⟨s, hs, -⟩ := hlost
      cases hs
    · intro h
      constructor
      · rintro ⟨s, hs, -⟩
        cases hs
      · rintro ⟨hheld, hkept⟩
        obtain ⟨hkind, hfault⟩ := h (hholds.2 hheld)
        have hdeleted : m ≠ .document ∧ (m = .vector ∨ m = .document ∨ m = .tensor) := by
          rcases hkind with rfl | rfl <;> decide
        exact absurd ⟨hdeleted.1, hdeleted.2, hdeleted.2, hfault⟩ hkept

/-- A call that fails at a write. -/
theorem coherent_failure (hw : w.Coherent) (hclean : job.clean rt config = false) {w' : World}
    (hregistry : w'.registry = w.registry)
    (hstores : w'.stores = Function.update w.stores job.id
      ((effective (job.attempts rt config) ++ job.compensation rt config).foldl
        Contents.apply (w.stores job.id))) :
    w'.Coherent ↔ job.Keeps rt config w := by
  have hsame : w'.registry = Function.update w.registry job.id (w.registry job.id) := by
    rw [hregistry, Function.update_eq_self]
  have hops : ∀ op ∈ effective (job.attempts rt config), op.isAppend = false ∧ op.isDelete = false :=
    fun op hop => Job.effective_spec hop
  have hwrites := not_clear_writes hops (w.stores job.id)
  have hfound := Contents.writes_full_iff hops (w.stores job.id)
  rw [coherent_after_iff hw hsame hstores]
  simp only [List.foldl_append]
  obtain ⟨request, env⟩ := job
  cases request with
  | create input =>
    simp only [Job.Keeps, hclean, Bool.false_eq_true, if_false]
    refine forall₂_congr fun m hm => ?_
    obtain ⟨hholds, hfull⟩ := hw.flagged_iff env.uuid hm
    have hdeleted := @holds_deleted env env.uuid
      (writtenBy rt config env env.uuid input input.supplied {}) _
      ((hw.indexed env.uuid).foldl (effective (Job.attempts rt config ⟨.create input, env⟩))) m
    have hheld := hdeleted.1.trans (and_congr_left' (hwrites m))
    have hkept := hdeleted.2.trans (and_congr_left' (hfound m))
    refine (and_congr (imp_congr Iff.rfl hkept) (imp_congr hheld Iff.rfl)).trans ?_
    change (w.Flagged env.uuid m → ((w.stores env.uuid).Full m ∨
        Job.Writes rt config ⟨.create input, env⟩ m) ∧
          ¬ Job.Deletes rt config ⟨.create input, env⟩ m) ∧
      ((w.Holds env.uuid m ∨ Job.Writes rt config ⟨.create input, env⟩ m) ∧
        ¬ Job.Compensates rt config ⟨.create input, env⟩ m → w.Flagged env.uuid m) ↔
      (w.Flagged env.uuid m → ¬ Job.Deletes rt config ⟨.create input, env⟩ m) ∧
        (Job.Writes rt config ⟨.create input, env⟩ m →
          Job.Compensates rt config ⟨.create input, env⟩ m ∨ w.Flagged env.uuid m)
    rw [← hholds, ← hfull]
    by_cases hflagged : w.Flagged env.uuid m
    · simp only [hflagged, true_or, true_and, forall_const, implies_true, or_true, and_true]
    · simp only [hflagged, false_or, false_implies, true_and, or_false, imp_false, not_and, not_not]
  | update id input =>
    simp only [Job.Keeps, hclean, Bool.false_eq_true, false_or]
    refine forall₂_congr fun m hm => ?_
    obtain ⟨hholds, hfull⟩ := hw.flagged_iff id hm
    refine (and_congr (imp_congr Iff.rfl (hfound m)) (imp_congr (hwrites m) Iff.rfl)).trans ?_
    change (w.Flagged id m → (w.stores id).Full m ∨
        Job.Writes rt config ⟨.update id input, env⟩ m) ∧
      (w.Holds id m ∨ Job.Writes rt config ⟨.update id input, env⟩ m → w.Flagged id m) ↔ _
    rw [← hholds, ← hfull]
    exact ⟨fun h hwrites => h.2 (.inr hwrites), fun h => ⟨.inl, fun hor => hor.elim (fun hflag => hflag) h⟩⟩
  | delete id => cases hclean

theorem coherent_after (job : Job) (hw : w.Coherent) :
    (job.after rt config w).Coherent ↔ job.KeepsCoherent rt config w := by
  rw [Job.KeepsCoherent]
  rcases job.after_cases w with
    ⟨hidle, hregistry, hstores⟩ | ⟨hidle, hclean, ⟨version, hregistry⟩, done, hwrote, hstores⟩ |
      ⟨hidle, hclean, hregistry, hstores⟩
  · have hsame : (job.after rt config w).Coherent := by
      intro id m hm
      rw [World.Flagged, World.Holds, hregistry, hstores]
      exact hw id m hm
    exact iff_of_true hsame (.inl hidle)
  · rw [coherent_success hw hidle hclean hregistry hwrote hstores, or_iff_right hidle]
  · rw [coherent_failure hw hclean hregistry hstores, or_iff_right hidle]

end outcome

/-! ### Runs -/

/-- One call after the other, successful or not. -/
def answer (rt : Runtime) (config : OctadConfig) (w : World) (job : Job) : Option World :=
  some (job.after rt config w)

theorem coherent_new (logged : Bool) : (World.new logged).Coherent := by
  intro id m hm
  have hempty : ({} : Contents).Clear m := Contents.Agree.refl _ m
  constructor
  · rintro ⟨s, hs, -⟩
    cases hs
  · intro h
    exact absurd hempty h

/-- A run of calls that keep coherence ends in a coherent state. -/
theorem coherent_run (rt : Runtime) (config : OctadConfig) (logged : Bool) (w : World)
    (r : Run (answer rt config) (fun w job => job.KeepsCoherent rt config w) (World.new logged) w) :
    w.Coherent := by
  refine r.invariant ?_ (coherent_new logged)
  rintro s job t hs hkeeps hstep
  cases hstep
  exact (coherent_after job hs).2 hkeeps

/-- The creation of an entity with a vector, one that fails, and a deletion. -/
def vectorCreated : Job := ⟨.create { vector := crooked.vector }, .quiet "e1" "t1"⟩

def crookedCreated : Job := ⟨.create crooked, .quiet "e2" "t2"⟩

def deleted : Job := ⟨.delete "e1", .quiet "e3" "t3"⟩

/-- An entity is created, another one fails at its tensor, and the first one is deleted. -/
theorem coherent_run_vectors : ∃ w, exec (answer .sample .line) (World.new true)
    [vectorCreated, crookedCreated, deleted] = some w ∧ w.Coherent := by
  have hcreate : vectorCreated.KeepsCoherent .sample .line (World.new true) := by
    right
    rintro m hm ⟨s, hs, -⟩
    cases hs
  have hcrooked : crookedCreated.KeepsCoherent .sample .line
      (vectorCreated.after .sample .line (World.new true)) := by
    right
    intro m hm
    constructor
    · rintro ⟨s, hs, -⟩
      cases hs
    · rintro ⟨op, hop, -, rfl⟩
      obtain rfl := List.mem_singleton.mp hop
      exact .inl ⟨by decide, .inl rfl, rfl, rfl⟩
  have hdelete : deleted.KeepsCoherent .sample .line (crookedCreated.after .sample .line
      (vectorCreated.after .sample .line (World.new true))) := by
    right
    rintro m hm ⟨s, hs, hget⟩
    cases hs
    revert hget hm
    cases m <;> decide
  exact ⟨_, rfl, coherent_run .sample .line true _
    (((Relation.ReflTransGen.single ⟨vectorCreated, hcreate, rfl⟩).tail
      ⟨crookedCreated, hcrooked, rfl⟩).tail ⟨deleted, hdelete, rfl⟩)⟩

/-- An input with a place. -/
def place : OctadInput := { spatial := some ⟨.finite 52, .finite 4, none, none, none, []⟩ }

/-- A deleted entity is still found at its place. -/
theorem place_kept : ∃ w, exec (answer .sample .standard) (World.new true)
    [⟨.create place, .quiet "e1" "t1"⟩, deleted] = some w ∧
      w.Holds "e1" .spatial ∧ w.registry "e1" = none := by
  refine ⟨_, rfl, ?_, rfl⟩
  intro hclear
  cases hclear

end NextgenDatabases.Verisim
