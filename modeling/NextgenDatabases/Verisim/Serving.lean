import NextgenDatabases.Verisim.Alone

/-!
# Calls one after another

A call that runs alone succeeds when nothing fails, no lock is held and it finds its entity.
What a successful call has changed is said once, and a succession of calls keeps the registry
and the version counters of the stores in step.
-/
namespace NextgenDatabases.Verisim

open Foundations (Prog)
open Foundations.Prog (Follows perform)

/-! ### The entry that a call reads -/

/-- Whoever updates or deletes has found an entry. -/
def Job.Found (job : Job) (φ : Phase) : Prop :=
  job.operation = .insert ∨ φ.stage = .fresh ∨ φ.stage = .missing ∨ φ.existing.isSome = true

theorem Job.Found.start (job : Job) : job.Found job.start := by
  obtain ⟨request, env⟩ := job
  cases request with
  | create input => exact .inl rfl
  | update id input | delete id => exact .inr (.inl rfl)

section found

variable {rt : Runtime} {job : Job} {φ : Phase}

theorem Job.Found.step (h : job.Found φ) {op : Op} (hallow : job.Allows rt φ op) (r : op.Res) :
    job.Found (job.next φ op r) := by
  have hlate {stage : Stage} (hstage : φ.stage = stage) (hfresh : stage ≠ .fresh)
      (hmissing : stage ≠ .missing) : job.operation = .insert ∨ φ.existing.isSome = true := by
    rcases h with h | h | h | h
    · exact .inl h
    · exact absurd (hstage.symm.trans h) hfresh
    · exact absurd (hstage.symm.trans h) hmissing
    · exact .inr h
  have hkeep {ψ : Phase} (hexisting : ψ.existing = φ.existing)
      (hcase : job.operation = .insert ∨ φ.existing.isSome = true) : job.Found ψ :=
    hcase.imp_right fun hsome => .inr (.inr (hexisting ▸ hsome))
  cases op with
  | status id =>
    cases r with
    | none => exact .inr (.inr (.inl rfl))
    | some status => exact .inr (.inr (.inr rfl))
  | walAppend entry fault =>
    rcases hallow with ⟨hstage, -, -⟩ | ⟨hstage, -, -⟩ | ⟨hstage, -, -⟩
    · exact hkeep rfl (hlate hstage nofun nofun)
    · exact hkeep rfl (hlate hstage nofun nofun)
    · exact hkeep rfl (hlate hstage nofun nofun)
  | begin txn level now => exact hkeep rfl (hlate hallow.1 nofun nofun)
  | acquireLock txn id modality lockType =>
    obtain ⟨⟨held, hstage, -⟩, -, -, -⟩ := hallow
    exact hkeep rfl (hlate hstage nofun nofun)
  | recordUndo txn id modality version now => exact h
  | commit txn now =>
    rcases hallow.1 with hstage | ⟨hstage, -⟩
    · exact hkeep rfl (hlate hstage nofun nofun)
    · exact hkeep rfl (hlate hstage nofun nofun)
  | rollback txn now =>
    rcases hallow.1 with hstage | hstage
    · exact hkeep rfl (hlate hstage nofun nofun)
    · exact hkeep rfl (hlate hstage nofun nofun)
  | store id op fault =>
    cases hop : op.isAppend with
    | false =>
      rw [job.next_store hop]
      exact h
    | true => exact hkeep rfl (hlate (hallow.2 hop).1 nofun nofun)
  | insertStatus id status => exact hkeep rfl (hlate hallow.1 nofun nofun)
  | removeStatus id => exact hkeep rfl (hlate hallow.1 nofun nofun)

end found

/-! ### A call that succeeds -/

section serve

variable (rt : Runtime) (config : OctadConfig)

/-- A call that runs alone, if it succeeds. -/
def serve (w : World) (job : Job) : Option World :=
  match (job.program rt config).run World.exec w with
  | (.ok _, w') => some w'
  | (.error _, _) => none

variable {rt config} {job : Job} {w w' : World}

/-- What a successful call has changed. -/
structure Served (rt : Runtime) (job : Job) (w w' : World) : Prop where
  intent : w.wal = none ∨ job.env.intent = none
  found : job.operation = .insert ∨ w.registry job.id ≠ none
  wal : w'.wal = w.wal.map (· ++ job.logged rt)
  registry : w'.registry = Function.update w.registry job.id
    (job.registers (w.registry job.id) (w.stores job.id).nextVersion)
  nextVersion : (w'.stores job.id).nextVersion =
    (w.stores job.id).nextVersion + if job.operation = .delete then 0 else 1
  stores : ∀ id, id ≠ job.id → w'.stores id = w.stores id

theorem Job.registers_insert (h : job.operation = .insert) (existing existing' : Option OctadStatus)
    (version : ℕ) : job.registers existing version = job.registers existing' version := by
  obtain ⟨request, env⟩ := job
  cases request with
  | create input => rfl
  | update id input | delete id => cases h

theorem serve_spec (h : serve rt config w job = some w') : Served rt job w w' := by
  have hstep (s : World) (φ : Phase) (op : Op)
      (h : Changed job w s φ ∧ Progress job w s φ ∧ job.Found φ)
      (hallow : (job.protocol rt).allow φ op) :
      Changed job w (s.exec op).2 ((job.protocol rt).next φ op (s.exec op).1) ∧
        Progress job w (s.exec op).2 ((job.protocol rt).next φ op (s.exec op).1) ∧
          job.Found ((job.protocol rt).next φ op (s.exec op).1) :=
    ⟨h.1.step hallow, h.2.1.step h.1 hallow, h.2.2.step hallow _⟩
  obtain ⟨φ, hpost, hchanged, hprogress, hfound⟩ :=
    (Job.follows rt config job).run World.exec_possible hstep
      ⟨Changed.start job w, Progress.start job w, Job.Found.start job⟩
  unfold serve at h
  split at h
  · next hrun =>
    cases h
    rw [hrun] at hpost hchanged hprogress
    obtain ⟨hstage, -, hlog⟩ := hpost
    have hexisting := hprogress.existing (by rw [hstage]; nofun)
    have hregisters : job.registers φ.existing φ.version =
        job.registers (w.registry job.id) (w.stores job.id).nextVersion := by
      by_cases hdelete : job.operation = .delete
      · rw [Job.registers_delete hdelete, Job.registers_delete hdelete]
      · rw [hchanged.version (by rw [hstage]; rfl) hdelete]
        by_cases hinsert : job.operation = .insert
        · exact Job.registers_insert hinsert _ _ _
        · rw [hexisting, if_neg hinsert]
    constructor
    · exact hprogress.started (by rw [hstage]; rfl)
    · refine or_iff_not_imp_left.mpr fun hinsert hnone => ?_
      rw [if_neg hinsert, hnone] at hexisting
      rcases hfound with h | h | h | h
      · exact hinsert h
      · exact absurd (hstage.symm.trans h) nofun
      · exact absurd (hstage.symm.trans h) nofun
      · rw [hexisting] at h
        cases h
    · rw [hchanged.wal, hlog]
    · rw [hchanged.registry, hstage, ← hregisters]
      rfl
    · rw [hchanged.nextVersion, hstage]
      by_cases hdelete : job.operation = .delete
      · simp [hdelete]
      · simp [hdelete, hchanged.version (by rw [hstage]; rfl) hdelete, Stage.isVersioned]
    · intro id hid
      rw [hchanged.stores, Function.update_of_ne hid]
  · cases h

end serve

/-! ### Calls that find no lock -/

section succession

variable (rt : Runtime) (config : OctadConfig)

/-- The state after a call that runs alone, successful or not. -/
def inTurn (w : World) (job : Job) : World := ((job.program rt config).run World.exec w).2

/-- The state after calls that run one after another on a fresh store. -/
def succession (logged : Bool) (jobs : List Job) : World :=
  jobs.foldl (inTurn rt config) (.new logged)

variable {rt config} {job : Job} {w : World}

theorem inTurn_of_serve {w' : World} (h : serve rt config w job = some w') :
    inTurn rt config w job = w' := by
  unfold serve at h
  unfold inTurn
  split at h
  · next hrun =>
    cases h
    rw [hrun]
  · cases h

/-- A call on an entity that is not registered changes nothing. -/
theorem inTurn_absent (habsent : w.registry job.id = none) (hinsert : job.operation ≠ .insert) :
    inTurn rt config w job = w := by
  obtain ⟨request, env⟩ := job
  cases request with
  | create input => exact absurd rfl hinsert
  | update id input =>
    have hstatus : w.exec (.status id) = (none, w) := Prod.ext habsent rfl
    simp [inTurn, Job.program, update, readStatus, bind, pure, perform, hstatus, Prog.run]
  | delete id =>
    have hstatus : w.exec (.status id) = (none, w) := Prod.ext habsent rfl
    simp [inTurn, Job.program, delete, readStatus, bind, pure, perform, hstatus, Prog.run]

theorem serve_of_clean (hfree : ∀ key, w.locks.locks key = [])
    (hstarted : w.wal = none ∨ job.env.intent = none) (hclean : job.clean rt config = true)
    (hpresent : job.operation = .insert ∨ w.registry job.id ≠ none) :
    ∃ w', serve rt config w job = some w' ∧ ∀ key, w'.locks.locks key = [] := by
  obtain ⟨φ, hpost, hchanged, hprogress⟩ := alone_spec (Job.follows rt config job) w
  cases hrun : (job.program rt config).run World.exec w with
  | mk result w' =>
    rw [hrun] at hpost hchanged hprogress
    cases result with
    | ok octad =>
      refine ⟨w', by simp [serve, hrun], fun key => ?_⟩
      rw [hprogress.released (by rw [hpost.1]; rfl) key]
      simp [LockTable.foreign, hfree]
    | error e =>
      exfalso
      rcases hpost with ⟨hstage | hstage | hstage, -⟩ | ⟨-, hfailed, -⟩ | hstage
      · obtain ⟨hinsert, hnone⟩ := hprogress.missing hstage
        exact hpresent.elim hinsert fun hsome => hsome hnone
      · obtain ⟨hwal, hintent⟩ := hprogress.refused hstage
        rcases hstarted with h | h <;> simp [h] at hwal hintent
      · obtain ⟨n, -, hgrants⟩ := hprogress.blocked hstage
        have hnone : w.locks.grants job.env.txn (job.id, n) .exclusive = true := by
          simp [LockTable.grants, LockTable.decide, hfree]
        cases hnone.symm.trans hgrants
      · rw [hclean] at hfailed
        cases hfailed
      · exact hprogress.committed hstage

/-- After calls one behind the other no lock is held, the registry and the version counters
agree, and an entity that was never created has neither an entry nor a version. -/
structure InStep (logged : Bool) (done : List Job) (w : World) : Prop where
  free : ∀ key, w.locks.locks key = []
  wal : w.wal.isSome = logged
  next : ∀ id s, w.registry id = some s → (w.stores id).nextVersion = s.version + 1
  unborn : ∀ id, (∀ job ∈ done, job.id = id → job.operation ≠ .insert) →
    w.registry id = none ∧ (w.stores id).nextVersion = 1

section step

variable {logged : Bool} {done : List Job}

theorem InStep.new (logged : Bool) : InStep logged [] (.new logged) where
  free _ := rfl
  wal := by cases logged <;> rfl
  next _ _ h := absurd h nofun
  unborn _ _ := ⟨rfl, rfl⟩

theorem InStep.served (h : InStep logged done w)
    (hstarted : logged = false ∨ job.env.intent = none) (hclean : job.clean rt config = true)
    (hpresent : job.operation = .insert ∨ w.registry job.id ≠ none) :
    Served rt job w (inTurn rt config w job) ∧
      ∀ key, (inTurn rt config w job).locks.locks key = [] := by
  have hwal : w.wal = none ∨ job.env.intent = none := by
    refine hstarted.imp_left fun hlogged => ?_
    have hnone := h.wal.trans hlogged
    simpa using hnone
  obtain ⟨w', hserve, hfree⟩ := serve_of_clean h.free hwal hclean hpresent
  rw [inTurn_of_serve hserve]
  exact ⟨serve_spec hserve, hfree⟩

theorem InStep.after (h : InStep logged done w)
    (hstarted : logged = false ∨ job.env.intent = none) (hclean : job.clean rt config = true) :
    InStep logged (done ++ [job]) (inTurn rt config w job) := by
  have hdone {id : String}
      (hunborn : ∀ other ∈ done ++ [job], other.id = id → other.operation ≠ .insert) :
      (∀ other ∈ done, other.id = id → other.operation ≠ .insert) ∧
        (job.id = id → job.operation ≠ .insert) :=
    ⟨fun other hother => hunborn other (List.mem_append_left _ hother),
      hunborn job (List.mem_append_right _ (List.mem_singleton_self job))⟩
  by_cases hpresent : job.operation = .insert ∨ w.registry job.id ≠ none
  · obtain ⟨hserved, hfree⟩ := h.served hstarted hclean hpresent
    constructor
    · exact hfree
    · rw [hserved.wal]
      simpa using h.wal
    · intro id s hs
      rw [hserved.registry] at hs
      by_cases hid : id = job.id
      · subst hid
        rw [Function.update_self] at hs
        have hdelete : job.operation ≠ .delete := by
          intro hdelete
          rw [Job.registers_delete hdelete] at hs
          cases hs
        rw [hserved.nextVersion, if_neg hdelete]
        obtain ⟨write, -, rfl⟩ := Option.map_eq_some_iff.mp hs
        rfl
      · rw [Function.update_of_ne hid] at hs
        rw [hserved.stores id hid]
        exact h.next id s hs
    · intro id hunborn
      obtain ⟨hbefore, hjob⟩ := hdone hunborn
      obtain ⟨hnone, hnext⟩ := h.unborn id hbefore
      have hid : id ≠ job.id := by
        rintro rfl
        exact hpresent.elim (hjob rfl) fun hsome => hsome hnone
      rw [hserved.registry, Function.update_of_ne hid, hserved.stores id hid]
      exact ⟨hnone, hnext⟩
  · obtain ⟨hinsert, habsent⟩ := not_or.mp hpresent
    rw [inTurn_absent (not_not.mp habsent) hinsert]
    exact { h with unborn := fun id hunborn => h.unborn id (hdone hunborn).1 }

end step

end succession

end NextgenDatabases.Verisim
