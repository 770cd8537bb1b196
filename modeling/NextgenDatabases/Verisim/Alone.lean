import NextgenDatabases.Verisim.Conformance

/-!
# A call with nothing in between

What a call that runs alone has made of the state it started in, at every stage: the
registry, the log, the stores and the locks, and why it failed if it did.
-/
namespace NextgenDatabases.Verisim

open Wal (DateTime WalEntry WalOperation)
open Foundations.Prog (Follows)

namespace Stage

/-- The transaction has not begun. -/
def isIdle : Stage → Bool
  | fresh | missing | found | refused | intended => true
  | _ => false

/-- The intent has been logged. -/
def isStarted : Stage → Bool
  | fresh | missing | found | refused => false
  | _ => true

/-- All locks have been granted. -/
def isGranted : Stage → Bool
  | locked | versioned | committed | registered | marked | abandoned | uncommitted => true
  | _ => false

/-- The transaction is running. -/
def isOpen : Stage → Bool
  | begun _ | locked | versioned => true
  | _ => false

/-- The snapshot has been written, unless the call writes none. -/
def isVersioned : Stage → Bool
  | versioned | committed | registered | marked | uncommitted => true
  | _ => false

/-- The transaction has been committed. -/
def isCommitted : Stage → Bool
  | committed | registered | marked => true
  | _ => false

def isRegistered : Stage → Bool
  | registered | marked => true
  | _ => false

end Stage

namespace Contents

theorem apply_versions {op : StoreOp} (h : op.isAppend = false) (c : Contents) :
    (c.apply op).versions = c.versions := by
  cases op with
  | graphInsert edge =>
    simp only [apply]
    split <;> rfl
  | temporalAppend data timestamp author message => cases h
  | _ => rfl

theorem apply_nextVersion {op : StoreOp} (h : op.isAppend = false) (c : Contents) :
    (c.apply op).nextVersion = c.nextVersion := by
  rw [nextVersion, apply_versions h, ← nextVersion]

theorem append_nextVersion {op : StoreOp} (h : op.isAppend = true) (c : Contents) :
    (c.apply op).nextVersion = c.nextVersion + 1 ∧ c.value op = c.nextVersion := by
  cases op with
  | temporalAppend data timestamp author message =>
    refine ⟨?_, rfl⟩
    simp [nextVersion, apply]
  | _ => cases h

end Contents

namespace World

/-- The locks of a state. -/
abbrev locks (w : World) : LockTable := w.transactions.lockTable

/-- An append changes nothing but the log. -/
theorem exec_walAppend (s : World) (entry : WalEntry) (fault : Option WalFault) :
    (s.exec (.walAppend entry fault)).2 =
      { s with wal := s.wal.map (· ++ (Op.walAppend entry fault).logged) } := by
  obtain ⟨registry, transactions, wal, stores⟩ := s
  cases wal with
  | none => rfl
  | some log =>
    cases fault with
    | none => rfl
    | some fault => cases fault <;> simp [exec, Op.logged]

theorem exec_walAppend_isOk (s : World) (entry : WalEntry) (fault : Option WalFault) :
    Except.isOk (s.exec (.walAppend entry fault)).1 = (s.wal.isNone || fault.isNone) := by
  obtain ⟨registry, transactions, wal, stores⟩ := s
  cases wal with
  | none => rfl
  | some log =>
    cases fault with
    | none => rfl
    | some fault => cases fault <;> rfl

end World

/-- What a call that runs alone has made of the state. -/
structure Changed (job : Job) (w s : World) (φ : Phase) : Prop where
  registry : s.registry =
    if φ.stage.isRegistered then
      Function.update w.registry job.id (job.registers φ.existing φ.version)
    else w.registry
  wal : s.wal = w.wal.map (· ++ φ.log)
  stores : s.stores =
    Function.update w.stores job.id (φ.done.foldl Contents.apply (w.stores job.id))
  version : φ.stage.isVersioned = true → job.operation ≠ .delete →
    φ.version = (w.stores job.id).nextVersion
  nextVersion : (s.stores job.id).nextVersion =
    if φ.stage.isVersioned = true ∧ job.operation ≠ .delete then φ.version + 1
    else (w.stores job.id).nextVersion

/-- How a call that runs alone has come to its stage. -/
structure Progress (job : Job) (w s : World) (φ : Phase) : Prop where
  existing : φ.stage ≠ .fresh →
    φ.existing = if job.operation = .insert then none else w.registry job.id
  missing : φ.stage = .missing → job.operation ≠ .insert ∧ w.registry job.id = none
  refused : φ.stage = .refused → w.wal.isSome = true ∧ job.env.intent.isSome = true
  started : φ.stage.isStarted = true → w.wal = none ∨ job.env.intent = none
  idle : φ.stage.isIdle = true → s.transactions = w.transactions
  opened : φ.stage.isOpen = true → s.transactions.Open job.env.txn
  begun : ∀ held, φ.stage = .begun held →
    (∀ n ∉ held, s.locks.locks (job.id, n) = w.locks.locks (job.id, n)) ∧
      ∀ n ∈ held, w.locks.grants job.env.txn (job.id, n) .exclusive = true
  blocked : φ.stage = .blocked → ∃ n ∈ job.lockNames φ.existing,
    w.locks.grants job.env.txn (job.id, n) .exclusive = false
  granted : φ.stage.isGranted = true → ∀ n ∈ job.lockNames φ.existing,
    w.locks.grants job.env.txn (job.id, n) .exclusive = true
  foreign : ∀ key, s.locks.foreign job.env.txn key = w.locks.foreign job.env.txn key
  released : φ.stage.isCommitted = true → ∀ key,
    s.locks.locks key = w.locks.foreign job.env.txn key
  committed : φ.stage ≠ .uncommitted

section step

variable {rt : Runtime} {job : Job} {w s : World} {φ : Phase}

theorem Job.registers_delete (h : job.operation = .delete) (existing : Option OctadStatus)
    (version : ℕ) : job.registers existing version = none := by
  obtain ⟨request, env⟩ := job
  cases request with
  | create input => cases h
  | update id input => cases h
  | delete id => rfl

theorem Modality.name_mem (m : Modality) : m.name ∈ MODALITIES := by
  cases m <;> decide

theorem Job.lockNames_subset (job : Job) (existing : Option OctadStatus) {n : String}
    (h : n ∈ job.lockNames existing) : n ∈ MODALITIES := by
  obtain ⟨m, -, rfl⟩ := List.mem_map.mp h
  exact m.name_mem

theorem Job.lockNames_nodup (job : Job) (existing : Option OctadStatus) :
    (job.lockNames existing).Nodup := by
  have hnodup (f : Modality → Bool) : (OctadInput.processed.filter f ++ [Modality.temporal]).Nodup := by
    have hall : (OctadInput.processed ++ [Modality.temporal]).Nodup := by decide
    exact hall.sublist (List.filter_sublist.append_right _)
  refine List.Nodup.map Modality.name_injective ?_
  obtain ⟨request, env⟩ := job
  cases request with
  | create input => exact hnodup input.has
  | update id input => exact hnodup input.has
  | delete id =>
    cases existing with
    | none => exact List.nodup_nil
    | some status => exact hnodup status.modalityStatus.get

/-- A stage that is reached without touching the registry, the log or the stores. -/
theorem Changed.move (h : Changed job w s φ) {t : World} {stage : Stage}
    {existing : Option OctadStatus} (hregistry : t.registry = s.registry) (hwal : t.wal = s.wal)
    (hstores : t.stores = s.stores) (hbefore : φ.stage.isRegistered = false)
    (hafter : stage.isRegistered = false)
    (hversioned : job.operation ≠ .delete → stage.isVersioned = φ.stage.isVersioned) :
    Changed job w t { φ with stage := stage, existing := existing } where
  registry := by rw [hregistry, h.registry, hbefore, hafter]; rfl
  wal := hwal.trans h.wal
  stores := hstores.trans h.stores
  version hstage hdelete := h.version (hversioned hdelete ▸ hstage) hdelete
  nextVersion := by
    rw [hstores, h.nextVersion]
    by_cases hdelete : job.operation = .delete
    · simp [hdelete]
    · rw [hversioned hdelete]

theorem Changed.step (h : Changed job w s φ) {op : Op} (hallow : job.Allows rt φ op) :
    Changed job w (s.exec op).2 (job.next φ op (s.exec op).1) := by
  cases op with
  | status id =>
    obtain ⟨hstage, rfl, -⟩ := hallow
    refine h.move rfl rfl rfl (by rw [hstage]; rfl) ?_ fun _ => ?_
    · split <;> rfl
    · rw [hstage]
      split <;> rfl
  | walAppend entry fault =>
    have hstages : (job.next φ (.walAppend entry fault)
        (s.exec (.walAppend entry fault)).1).stage.isRegistered = φ.stage.isRegistered ∧
        (job.next φ (.walAppend entry fault)
        (s.exec (.walAppend entry fault)).1).stage.isVersioned = φ.stage.isVersioned := by
      rcases hallow with ⟨hstage, -, -⟩ | ⟨hstage, -, -⟩ | ⟨hstage, -, -⟩
      · dsimp only [Job.next]
        rw [hstage]
        dsimp only
        split <;> exact ⟨rfl, rfl⟩
      · dsimp only [Job.next]
        rw [hstage]
        exact ⟨rfl, rfl⟩
      · dsimp only [Job.next]
        rw [hstage]
        exact ⟨rfl, rfl⟩
    rw [World.exec_walAppend]
    exact {
      registry := by rw [hstages.1]; exact h.registry
      wal := by simp [h.wal, Job.next, Function.comp_def]
      stores := h.stores
      version := fun hstage => h.version (hstages.2 ▸ hstage)
      nextVersion := by rw [hstages.2]; exact h.nextVersion }
  | begin txn level now =>
    obtain ⟨hstage, -, -⟩ := hallow
    exact h.move rfl rfl rfl (by rw [hstage]; rfl) rfl fun _ => by rw [hstage]; rfl
  | acquireLock txn id modality lockType =>
    obtain ⟨⟨held, hstage, -⟩, -, -, -⟩ := hallow
    refine h.move rfl rfl rfl (by rw [hstage]; rfl) ?_ fun _ => ?_
    · simp only [hstage]
      split
      · rfl
      · split <;> rfl
    · simp only [hstage]
      split
      · rfl
      · split <;> rfl
  | recordUndo txn id modality previousVersion now =>
    exact { h with }
  | commit txn now =>
    obtain ⟨hstage, -⟩ := hallow
    refine h.move rfl rfl rfl ?_ ?_ fun hdelete => ?_
    · rcases hstage with hstage | ⟨hstage, -⟩ <;> rw [hstage] <;> rfl
    · split <;> rfl
    · rcases hstage with hstage | ⟨-, hd⟩
      · rw [hstage]
        split <;> rfl
      · exact absurd hd hdelete
  | rollback txn now =>
    obtain ⟨hstage, -⟩ := hallow
    refine h.move rfl rfl rfl ?_ ?_ fun _ => ?_
    · rcases hstage with hstage | hstage <;> rw [hstage] <;> rfl
    · rcases hstage with hstage | hstage <;> rw [hstage] <;> rfl
    · rcases hstage with hstage | hstage
      · rw [hstage]
      · rw [hstage]
        rfl
  | store id op fault =>
    obtain ⟨rfl, happend⟩ := hallow
    cases fault with
    | some message =>
      show Changed job w s (job.next φ (.store job.id op (some message)) (Except.error message))
      rw [job.next_fault]
      exact h
    | none =>
      have hstore : (Function.update s.stores job.id ((s.stores job.id).apply op)) job.id =
          (s.stores job.id).apply op := Function.update_self _ _ _
      have hstores : Function.update s.stores job.id ((s.stores job.id).apply op) =
          Function.update w.stores job.id ((φ.done ++ [op]).foldl Contents.apply
            (w.stores job.id)) := by
        simp [h.stores]
      show Changed job w { s with
        stores := Function.update s.stores job.id ((s.stores job.id).apply op) }
        (job.next φ (.store job.id op none) (Except.ok ((s.stores job.id).value op)))
      cases hop : op.isAppend with
      | false =>
        rw [job.next_store hop]
        exact {
          registry := h.registry
          wal := h.wal
          stores := hstores
          version := h.version
          nextVersion := by
            dsimp only
            rw [hstore, Contents.apply_nextVersion hop]
            exact h.nextVersion }
      | true =>
        obtain ⟨hstage, hdelete⟩ := happend hop
        obtain ⟨hnext, hvalue⟩ := Contents.append_nextVersion hop (s.stores job.id)
        have hcount : (s.stores job.id).nextVersion = (w.stores job.id).nextVersion := by
          rw [h.nextVersion, hstage]
          rfl
        rw [job.next_append hop]
        exact {
          registry := by rw [h.registry, hstage]; rfl
          wal := h.wal
          stores := hstores
          version := fun _ _ => hvalue.trans hcount
          nextVersion := by
            dsimp only
            rw [hstore, hnext, hvalue, if_pos ⟨rfl, hdelete⟩] }
  | insertStatus id status =>
    obtain ⟨hstage, rfl, hstatus⟩ := hallow
    exact {
      registry := by
        simp [World.exec, Job.next, Stage.isRegistered, h.registry, hstage, hstatus]
      wal := h.wal
      stores := h.stores
      version := fun _ => h.version (by rw [hstage]; rfl)
      nextVersion := by
        have hnext := h.nextVersion
        rw [hstage] at hnext
        exact hnext }
  | removeStatus id =>
    obtain ⟨hstage, rfl, hdelete⟩ := hallow
    exact {
      registry := by
        simp [World.exec, Job.next, Stage.isRegistered, h.registry, hstage,
          Job.registers_delete hdelete]
      wal := h.wal
      stores := h.stores
      version := fun _ => h.version (by rw [hstage]; rfl)
      nextVersion := by
        have hnext := h.nextVersion
        rw [hstage] at hnext
        exact hnext }

/-- From one stage behind the locks to another. -/
theorem Progress.move (h : Progress job w s φ) {t : World} {ψ : Phase}
    (hexisting : ψ.existing = φ.existing) (hbefore : φ.stage.isGranted = true)
    (hafter : ψ.stage.isGranted = true)
    (hopened : ψ.stage.isOpen = true → t.transactions.Open job.env.txn)
    (hforeign : ∀ key, t.locks.foreign job.env.txn key = s.locks.foreign job.env.txn key)
    (hreleased : ψ.stage.isCommitted = true → ∀ key,
      t.locks.locks key = w.locks.foreign job.env.txn key)
    (hcommitted : ψ.stage ≠ .uncommitted) : Progress job w t ψ := by
  obtain ⟨stage, existing, done, log, version⟩ := ψ
  have hstarted : φ.stage.isStarted = true := by
    cases hstage : φ.stage <;> rw [hstage] at hbefore <;> first | rfl | cases hbefore
  have hfresh : φ.stage ≠ .fresh := by
    intro hstage
    rw [hstage] at hbefore
    cases hbefore
  dsimp only at hexisting hafter hopened hreleased hcommitted
  subst hexisting
  exact {
    existing := fun _ => h.existing hfresh
    missing := by rintro rfl; cases hafter
    refused := by rintro rfl; cases hafter
    started := fun _ => h.started hstarted
    idle := by cases stage <;> simp_all [Stage.isIdle, Stage.isGranted]
    opened := hopened
    begun := by rintro held rfl; cases hafter
    blocked := by rintro rfl; cases hafter
    granted := fun _ => h.granted hbefore
    foreign := fun key => (hforeign key).trans (h.foreign key)
    released := hreleased
    committed := hcommitted }

theorem Progress.step (h : Progress job w s φ) (hc : Changed job w s φ) {op : Op}
    (hallow : job.Allows rt φ op) :
    Progress job w (s.exec op).2 (job.next φ op (s.exec op).1) := by
  cases op with
  | status id =>
    obtain ⟨hstage, rfl, hinsert⟩ := hallow
    have hregistry : s.registry = w.registry := by
      rw [hc.registry, hstage]
      rfl
    show Progress job w s { φ with
      existing := s.registry job.id
      stage := if (s.registry job.id).isSome then .found else .missing }
    rw [hregistry]
    cases hentry : w.registry job.id with
    | none =>
      exact {
        existing := fun _ => by simp [hinsert, hentry]
        missing := fun _ => ⟨hinsert, hentry⟩
        refused := by rintro ⟨⟩
        started := by rintro ⟨⟩
        idle := fun _ => h.idle (by rw [hstage]; rfl)
        opened := by rintro ⟨⟩
        begun := by rintro held ⟨⟩
        blocked := by rintro ⟨⟩
        granted := by rintro ⟨⟩
        foreign := h.foreign
        released := by rintro ⟨⟩
        committed := by rintro ⟨⟩ }
    | some status =>
      exact {
        existing := fun _ => by simp [hinsert, hentry]
        missing := by rintro ⟨⟩
        refused := by rintro ⟨⟩
        started := by rintro ⟨⟩
        idle := fun _ => h.idle (by rw [hstage]; rfl)
        opened := by rintro ⟨⟩
        begun := by rintro held ⟨⟩
        blocked := by rintro ⟨⟩
        granted := by rintro ⟨⟩
        foreign := h.foreign
        released := by rintro ⟨⟩
        committed := by rintro ⟨⟩ }
  | walAppend entry fault =>
    have hexec := s.exec_walAppend entry fault
    rcases hallow with ⟨hstage, -, rfl⟩ | ⟨hstage, -, -⟩ | ⟨hstage, -, -⟩
    · have hwal : s.wal.isNone = w.wal.isNone := by simp [hc.wal]
      have hisOk := s.exec_walAppend_isOk entry job.env.intent
      have hexisting := h.existing (by simp [hstage])
      have hidle := h.idle (by rw [hstage]; rfl)
      simp only [Job.next, hstage, hexec, hisOk, hwal]
      cases hok : w.wal.isNone || job.env.intent.isNone with
      | true =>
        exact {
          existing := fun _ => hexisting
          missing := by rintro ⟨⟩
          refused := by rintro ⟨⟩
          started := fun _ => by simpa using hok
          idle := fun _ => hidle
          opened := by rintro ⟨⟩
          begun := by rintro held ⟨⟩
          blocked := by rintro ⟨⟩
          granted := by rintro ⟨⟩
          foreign := h.foreign
          released := by rintro ⟨⟩
          committed := by rintro ⟨⟩ }
      | false =>
        exact {
          existing := fun _ => hexisting
          missing := by rintro ⟨⟩
          refused := fun _ => by simpa [Option.isSome_iff_ne_none] using hok
          started := by rintro ⟨⟩
          idle := fun _ => hidle
          opened := by rintro ⟨⟩
          begun := by rintro held ⟨⟩
          blocked := by rintro ⟨⟩
          granted := by rintro ⟨⟩
          foreign := h.foreign
          released := by rintro ⟨⟩
          committed := by rintro ⟨⟩ }
    · simp only [Job.next, hstage, hexec]
      refine h.move rfl ?_ rfl (by rintro ⟨⟩) (fun _ => rfl) (fun _ => h.released ?_) (by rintro ⟨⟩)
      · rw [hstage]
        rfl
      · rw [hstage]
        rfl
    · simp only [Job.next, hstage, hexec]
      refine h.move rfl ?_ rfl (by rintro ⟨⟩) (fun _ => rfl) (fun _ => h.released ?_) (by rintro ⟨⟩)
      · rw [hstage]
        rfl
      · rw [hstage]
        rfl
  | begin txn level now =>
    obtain ⟨hstage, rfl, rfl⟩ := hallow
    exact {
      existing := fun _ => h.existing (by simp [hstage])
      missing := by rintro ⟨⟩
      refused := by rintro ⟨⟩
      started := fun _ => h.started (by rw [hstage]; rfl)
      idle := by rintro ⟨⟩
      opened := fun _ => TransactionManager.open_begin
      begun := by
        rintro held ⟨rfl⟩
        have hidle := h.idle (by rw [hstage]; rfl)
        exact ⟨fun n _ => by simp [World.exec, World.locks, hidle], by simp⟩
      blocked := by rintro ⟨⟩
      granted := by rintro ⟨⟩
      foreign := h.foreign
      released := by rintro ⟨⟩
      committed := by rintro ⟨⟩ }
  | acquireLock txn id modality lockType =>
    obtain ⟨⟨held, hstage, hprefix⟩, rfl, rfl, rfl⟩ := hallow
    have hexisting := h.existing (by simp [hstage])
    have hstarted := h.started (by rw [hstage]; rfl)
    have hopen := h.opened (by rw [hstage]; rfl)
    obtain ⟨huntouched, hheld⟩ := h.begun held hstage
    obtain ⟨rest, hrest⟩ := hprefix
    have hnames : modality ∈ job.lockNames φ.existing := by simp [← hrest]
    have hnodup : (held ++ [modality] ++ rest).Nodup := hrest ▸ job.lockNames_nodup φ.existing
    have hnew : modality ∉ held := by
      intro hmem
      have hdisjoint := (List.nodup_append.mp (List.nodup_append.mp hnodup).1).2.2
      exact hdisjoint modality hmem modality (List.mem_singleton_self _) rfl
    have hok : (s.transactions.acquireLock job.env.txn job.id modality .exclusive).1 = .ok () ↔ _ :=
      hopen.acquireLock_ok_iff (job.lockNames_subset φ.existing hnames)
    rw [LockTable.grants_congr (huntouched modality hnew)] at hok
    have hforeign (key : LockKey) :
        (s.exec (.acquireLock job.env.txn job.id modality .exclusive)).2.locks.foreign
          job.env.txn key = w.locks.foreign job.env.txn key := by
      rcases s.transactions.acquireLock_lockTable job.env.txn job.id modality .exclusive
        with ⟨hlocks, -⟩ | ⟨hlocks, -⟩
      · simpa [World.exec, World.locks, hlocks] using h.foreign key
      · simpa [World.exec, World.locks, hlocks, LockTable.acquire_foreign] using h.foreign key
    have hother (n : String) (hn : n ≠ modality) :
        (s.exec (.acquireLock job.env.txn job.id modality .exclusive)).2.locks.locks (job.id, n) =
          s.locks.locks (job.id, n) := by
      rcases s.transactions.acquireLock_lockTable job.env.txn job.id modality .exclusive
        with ⟨hlocks, -⟩ | ⟨hlocks, -⟩
      · simp [World.exec, World.locks, hlocks]
      · simp [World.exec, World.locks, hlocks, LockTable.acquire_other, hn]
    simp only [Job.next, hstage]
    cases hr : (s.exec (.acquireLock job.env.txn job.id modality .exclusive)).1 with
    | error e =>
      have hrefused : ¬ (s.transactions.acquireLock job.env.txn job.id modality .exclusive).1 =
          .ok () := by
        intro hgranted
        cases hr.symm.trans hgranted
      rw [hok, Bool.not_eq_true] at hrefused
      exact {
        existing := fun _ => hexisting
        missing := by rintro ⟨⟩
        refused := by rintro ⟨⟩
        started := fun _ => hstarted
        idle := by rintro ⟨⟩
        opened := by rintro ⟨⟩
        begun := by rintro held ⟨⟩
        blocked := fun _ => ⟨modality, hnames, hrefused⟩
        granted := by rintro ⟨⟩
        foreign := hforeign
        released := by rintro ⟨⟩
        committed := by rintro ⟨⟩ }
    | ok u =>
      have hgranted := hok.mp hr
      have hall : ∀ n ∈ held ++ [modality],
          w.locks.grants job.env.txn (job.id, n) .exclusive = true := by
        intro n hn
        rcases List.mem_append.mp hn with hn | hn
        · exact hheld n hn
        · rw [List.mem_singleton.mp hn]
          exact hgranted
      have hopened : (s.exec (.acquireLock job.env.txn job.id modality .exclusive)).2.transactions.Open
          job.env.txn := hopen.acquireLock
      by_cases hlast : held ++ [modality] = job.lockNames φ.existing
      · simp only [hlast, Except.isOk, Except.toBool, not_true, if_false, if_true]
        exact {
          existing := fun _ => hexisting
          missing := by rintro ⟨⟩
          refused := by rintro ⟨⟩
          started := fun _ => hstarted
          idle := by rintro ⟨⟩
          opened := fun _ => hopened
          begun := by rintro held ⟨⟩
          blocked := by rintro ⟨⟩
          granted := fun _ => hlast ▸ hall
          foreign := hforeign
          released := by rintro ⟨⟩
          committed := by rintro ⟨⟩ }
      · simp only [hlast, Except.isOk, Except.toBool, not_true, if_false]
        exact {
          existing := fun _ => hexisting
          missing := by rintro ⟨⟩
          refused := by rintro ⟨⟩
          started := fun _ => hstarted
          idle := by rintro ⟨⟩
          opened := fun _ => hopened
          begun := by
            rintro held' ⟨rfl⟩
            refine ⟨fun n hn => ?_, hall⟩
            have hn' : n ∉ held ∧ n ≠ modality := by simpa using hn
            exact (hother n hn'.2).trans (huntouched n hn'.1)
          blocked := by rintro ⟨⟩
          granted := by rintro ⟨⟩
          foreign := hforeign
          released := by rintro ⟨⟩
          committed := by rintro ⟨⟩ }
  | recordUndo txn id modality previousVersion now =>
    obtain ⟨hstage, rfl⟩ := hallow
    have hopen := h.opened (by rw [hstage]; rfl)
    refine h.move rfl ?_ ?_ (fun _ => hopen.recordUndo) (fun key => ?_) (fun hcommitted => ?_) ?_
    · rw [hstage]
      rfl
    · show φ.stage.isGranted = true
      rw [hstage]
      rfl
    · simp [World.exec, World.locks, LockTable.foreign]
    · have hcommitted : φ.stage.isCommitted = true := hcommitted
      rw [hstage] at hcommitted
      cases hcommitted
    · show φ.stage ≠ .uncommitted
      rw [hstage]
      rintro ⟨⟩
  | commit txn now =>
    obtain ⟨hstage, rfl⟩ := hallow
    have hbefore : φ.stage.isOpen = true ∧ φ.stage.isGranted = true := by
      rcases hstage with hstage | ⟨hstage, -⟩ <;> rw [hstage] <;> exact ⟨rfl, rfl⟩
    obtain ⟨hok, hlocks⟩ := (h.opened hbefore.1).commit_ok now
    have hrelease : (s.exec (.commit job.env.txn now)).2.locks =
        s.locks.releaseAll job.env.txn := hlocks
    have hnext : job.next φ (.commit job.env.txn now) (s.exec (.commit job.env.txn now)).1 =
        { φ with stage := .committed } := by
      simp [Job.next, World.exec, hok, Except.isOk, Except.toBool]
    rw [hnext]
    refine h.move rfl hbefore.2 rfl (by rintro ⟨⟩) (fun key => ?_) (fun _ key => ?_) (by rintro ⟨⟩)
    · rw [hrelease]
      simp [LockTable.foreign, LockTable.releaseAll]
    · rw [hrelease]
      exact h.foreign key
  | rollback txn now =>
    obtain ⟨hstage, rfl⟩ := hallow
    have hforeign (key : LockKey) : (s.exec (.rollback job.env.txn now)).2.locks.foreign
        job.env.txn key = s.locks.foreign job.env.txn key := by
      rcases s.transactions.rollback_lockTable job.env.txn now with hlocks | hlocks
      · simp [World.exec, World.locks, hlocks]
      · simp [World.exec, World.locks, hlocks, LockTable.foreign, LockTable.releaseAll]
    rcases hstage with hstage | hstage
    · have hnext : job.next φ (.rollback job.env.txn now)
          (s.exec (.rollback job.env.txn now)).1 = φ := by
        obtain ⟨stage, existing, done, log, version⟩ := φ
        dsimp only at hstage
        subst hstage
        rfl
      rw [hnext]
      exact { h with
        idle := fun hidle => by
          rw [hstage] at hidle
          cases hidle
        opened := fun hopen => by
          rw [hstage] at hopen
          cases hopen
        begun := fun held hbegun => by
          rw [hstage] at hbegun
          cases hbegun
        foreign := fun key => (hforeign key).trans (h.foreign key)
        released := fun hreleased => by
          rw [hstage] at hreleased
          cases hreleased }
    · have hnext : job.next φ (.rollback job.env.txn now)
          (s.exec (.rollback job.env.txn now)).1 = { φ with stage := .abandoned } := by
        simp [Job.next, hstage]
      rw [hnext]
      refine h.move rfl ?_ rfl (by rintro ⟨⟩) hforeign (by rintro ⟨⟩) (by rintro ⟨⟩)
      rw [hstage]
      rfl
  | store id op fault =>
    obtain ⟨rfl, happend⟩ := hallow
    have hworld : (s.exec (.store job.id op fault)).2.transactions = s.transactions := by
      cases fault <;> rfl
    cases hop : op.isAppend with
    | false =>
      rw [job.next_store hop]
      exact { h with
        idle := fun hidle => hworld.trans (h.idle hidle)
        opened := fun hopen => hworld ▸ h.opened hopen
        begun := fun held hbegun => by
          rw [World.locks, hworld]
          exact h.begun held hbegun
        foreign := fun key => by
          rw [World.locks, hworld]
          exact h.foreign key
        released := fun hreleased => by
          rw [World.locks, hworld]
          exact h.released hreleased }
    | true =>
      cases fault with
      | some message =>
        show Progress job w s (job.next φ (.store job.id op (some message)) (Except.error message))
        rw [job.next_fault]
        exact h
      | none =>
        have hstage := (happend hop).1
        show Progress job w { s with
          stores := Function.update s.stores job.id ((s.stores job.id).apply op) }
          (job.next φ (.store job.id op none) (Except.ok ((s.stores job.id).value op)))
        rw [job.next_append hop]
        refine h.move rfl ?_ rfl (fun _ => h.opened ?_) (fun _ => rfl) (by rintro ⟨⟩) (by rintro ⟨⟩)
        · rw [hstage]
          rfl
        · rw [hstage]
          rfl
  | insertStatus id status =>
    obtain ⟨hstage, rfl, -⟩ := hallow
    refine h.move rfl ?_ rfl (by rintro ⟨⟩) (fun _ => rfl) (fun _ => h.released ?_) (by rintro ⟨⟩)
    · rw [hstage]
      rfl
    · rw [hstage]
      rfl
  | removeStatus id =>
    obtain ⟨hstage, rfl, -⟩ := hallow
    refine h.move rfl ?_ rfl (by rintro ⟨⟩) (fun _ => rfl) (fun _ => h.released ?_) (by rintro ⟨⟩)
    · rw [hstage]
      rfl
    · rw [hstage]
      rfl

end step

theorem World.exec_possible (s : World) (op : Op) : Job.Possible op (s.exec op).1 := by
  cases op with
  | store id op fault =>
    cases fault with
    | none => exact ⟨_, rfl⟩
    | some message => exact rfl
  | _ => trivial

theorem Changed.start (job : Job) (w : World) : Changed job w w job.start := by
  obtain ⟨request, env⟩ := job
  cases request with
  | create input =>
    exact ⟨rfl, by simp [Job.start], by simp [Job.start], nofun, rfl⟩
  | update id input =>
    exact ⟨rfl, by simp [Job.start], by simp [Job.start], nofun, rfl⟩
  | delete id =>
    exact ⟨rfl, by simp [Job.start], by simp [Job.start], nofun, rfl⟩

theorem Progress.start (job : Job) (w : World) : Progress job w w job.start := by
  obtain ⟨request, env⟩ := job
  cases request with
  | create input =>
    exact ⟨fun _ => rfl, nofun, nofun, nofun, fun _ => rfl, nofun, nofun, nofun, nofun,
      fun _ => rfl, nofun, nofun⟩
  | update id input =>
    exact ⟨fun h => absurd rfl h, nofun, nofun, nofun, fun _ => rfl, nofun, nofun, nofun, nofun,
      fun _ => rfl, nofun, nofun⟩
  | delete id =>
    exact ⟨fun h => absurd rfl h, nofun, nofun, nofun, fun _ => rfl, nofun, nofun, nofun, nofun,
      fun _ => rfl, nofun, nofun⟩

/-- What a program that follows the protocol of a request has done when it returns. -/
theorem alone_run {rt : Runtime} {job : Job} {α : Type} {post : α → Phase → Prop} {p : Call α}
    (h : p.Follows (job.protocol rt) job.start post) (w : World) :
    ∃ φ, post (p.run World.exec w).1 φ ∧
      Changed job w (p.run World.exec w).2 φ ∧ Progress job w (p.run World.exec w).2 φ := by
  have hstep (s : World) (φ : Phase) (op : Op) (h : Changed job w s φ ∧ Progress job w s φ)
      (hallow : (job.protocol rt).allow φ op) :
      Changed job w (s.exec op).2 ((job.protocol rt).next φ op (s.exec op).1) ∧
        Progress job w (s.exec op).2 ((job.protocol rt).next φ op (s.exec op).1) :=
    ⟨h.1.step hallow, h.2.step h.1 hallow⟩
  exact h.run World.exec_possible hstep ⟨Changed.start job w, Progress.start job w⟩

theorem alone_spec {rt : Runtime} {config : OctadConfig} {job : Job} {α : Type}
    {p : Call (Except OctadError α)}
    (h : p.Follows (job.protocol rt) job.start (job.Post rt config)) (w : World) :
    ∃ φ, job.Post rt config (p.run World.exec w).1 φ ∧
      Changed job w (p.run World.exec w).2 φ ∧ Progress job w (p.run World.exec w).2 φ :=
  alone_run h w

/-! ### Failures -/

section failure

variable {rt : Runtime} {config : OctadConfig} {job : Job} {w : World}

/-- The intent cannot be logged. -/
def Job.IntentFails (job : Job) (w : World) : Prop :=
  w.wal.isSome = true ∧ job.env.intent.isSome = true

/-- Somebody else holds a lock that the call needs. -/
def Job.LockRefused (job : Job) (w : World) : Prop :=
  ∃ n ∈ job.lockNames (w.registry job.id),
    w.locks.grants job.env.txn (job.id, n) .exclusive = false

theorem Job.lockNames_eq (job : Job) (existing : Option OctadStatus) :
    job.lockNames (if job.operation = .insert then none else existing) =
      job.lockNames existing := by
  obtain ⟨request, env⟩ := job
  cases request <;> rfl

/-- A failed call has changed nothing, or has failed at a write with all its locks. -/
theorem failed_spec {α : Type} {p : Call (Except OctadError α)}
    (h : p.Follows (job.protocol rt) job.start (job.Post rt config))
    (hpresent : job.operation = .insert ∨ w.registry job.id ≠ none) {e : OctadError}
    (herror : (p.run World.exec w).1 = .error e) :
    (p.run World.exec w).2.registry = w.registry ∧
      ((job.IntentFails w ∨ job.LockRefused w) ∧
          (p.run World.exec w).2.stores job.id = w.stores job.id ∨
        ¬ job.IntentFails w ∧ ¬ job.LockRefused w ∧
          (p.run World.exec w).2.stores job.id =
            (effective (job.attempts rt config) ++ job.compensation rt config).foldl
              Contents.apply (w.stores job.id)) := by
  obtain ⟨φ, hpost, hchanged, hprogress⟩ := alone_spec h w
  have hcontents : (p.run World.exec w).2.stores job.id =
      φ.done.foldl Contents.apply (w.stores job.id) := by
    rw [hchanged.stores, Function.update_self]
  rw [herror] at hpost
  rcases hpost with ⟨hstage, hdone⟩ | ⟨hstage, -, hdone⟩ | hstage
  · rw [hdone] at hcontents
    rcases hstage with hstage | hstage | hstage
    · obtain ⟨hinsert, hnone⟩ := hprogress.missing hstage
      exact absurd hnone (hpresent.resolve_left hinsert)
    · refine ⟨by rw [hchanged.registry, hstage]; rfl, .inl ⟨.inl ?_, hcontents⟩⟩
      exact hprogress.refused hstage
    · refine ⟨by rw [hchanged.registry, hstage]; rfl, .inl ⟨.inr ?_, hcontents⟩⟩
      obtain ⟨n, hn, hgrants⟩ := hprogress.blocked hstage
      rw [hprogress.existing (by rw [hstage]; nofun), job.lockNames_eq] at hn
      exact ⟨n, hn, hgrants⟩
  · refine ⟨by rw [hchanged.registry, hstage]; rfl, .inr ⟨?_, ?_, hdone ▸ hcontents⟩⟩
    · rintro ⟨hwal, hintent⟩
      have hstarted := hprogress.started (by rw [hstage]; rfl)
      simp [Option.isSome_iff_ne_none] at hwal hintent
      tauto
    · rintro ⟨n, hn, hrefused⟩
      have hgranted := hprogress.granted (by rw [hstage]; rfl) n (by
        rw [hprogress.existing (by rw [hstage]; nofun), job.lockNames_eq]
        exact hn)
      rw [hgranted] at hrefused
      cases hrefused
  · exact absurd hstage hprogress.committed

end failure

end NextgenDatabases.Verisim
