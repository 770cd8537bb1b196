import NextgenDatabases.Verisim.Protocol

/-!
# The programs follow the protocol

One rule for each operation, one for each loop, and from them that create, update and
delete keep to the protocol of their request.
-/
namespace NextgenDatabases.Verisim

open Wal (DateTime WalOperation)
open Foundations (Prog)
open Foundations.Prog (Follows follows_perform)

/-! ### Operations -/

section follows

variable {rt : Runtime} {config : OctadConfig} {job : Job}

theorem Job.next_store (job : Job) {op : StoreOp} (hop : op.isAppend = false) (φ : Phase)
    (id : String) (fault : Option String) (r : Except String ℕ) :
    job.next φ (.store id op fault) r =
      { φ with done := φ.done ++ (Op.store id op fault).stored } := by
  simp [Job.next, hop]

theorem Job.next_append (job : Job) {op : StoreOp} (hop : op.isAppend = true) (φ : Phase)
    (id : String) (v : ℕ) :
    job.next φ (.store id op none) (Except.ok v : Except String ℕ) =
      { φ with done := φ.done ++ [op], version := v, stage := .versioned } := by
  simp [Job.next, hop, Op.stored, Except.isOk, Except.toBool]

theorem Job.next_fault (job : Job) (op : StoreOp) (φ : Phase) (id message error : String) :
    job.next φ (.store id op (some message)) (Except.error error : Except String ℕ) = φ := by
  simp [Job.next, Op.stored, Except.isOk, Except.toBool]

theorem onStore_follows {op : StoreOp} (hop : op.isAppend = false) (fault : Option String)
    (φ : Phase) :
    (onStore job.id op fault).Follows (job.protocol rt) φ fun r ψ =>
      ψ = { φ with done := φ.done ++ (Op.store job.id op fault).stored } ∧
        r.isOk = fault.isNone := by
  refine follows_perform ⟨rfl, by simp [hop]⟩ ?_
  intro r hr
  refine ⟨job.next_store hop φ job.id fault r, ?_⟩
  cases fault with
  | none =>
    obtain ⟨v, rfl⟩ := hr
    rfl
  | some message =>
    cases hr
    rfl

/-- The snapshot ends the writes; its version is kept. -/
theorem append_follows {op : StoreOp} (hop : op.isAppend = true) (fault : Option String)
    {φ : Phase} (hstage : φ.stage = .locked) (hwrite : job.operation ≠ .delete) :
    (onStore job.id op fault).Follows (job.protocol rt) φ fun r ψ =>
      match r with
      | .ok v => fault = none ∧
        ψ = { φ with done := φ.done ++ [op], version := v, stage := .versioned }
      | .error _ => fault ≠ none ∧ ψ = φ := by
  refine follows_perform ⟨rfl, fun _ => ⟨hstage, hwrite⟩⟩ ?_
  intro r hr
  cases fault with
  | none =>
    obtain ⟨v, rfl⟩ := hr
    exact ⟨rfl, job.next_append hop φ job.id v⟩
  | some message =>
    cases hr
    exact ⟨Option.some_ne_none _, job.next_fault op φ job.id message message⟩

theorem acquireLock_follows {φ : Phase} {held : List String} {modality : String}
    (hstage : φ.stage = .begun held)
    (hnames : held ++ [modality] <+: job.lockNames φ.existing) :
    (acquireLock job.env.txn job.id modality .exclusive).Follows (job.protocol rt) φ fun r ψ =>
      match r with
      | .ok _ => ψ = { φ with
          stage := if held ++ [modality] = job.lockNames φ.existing then .locked
            else .begun (held ++ [modality]) }
      | .error _ => ψ = { φ with stage := .blocked } := by
  refine follows_perform ⟨⟨held, hstage, hnames⟩, rfl, rfl, rfl⟩ ?_
  intro r hr
  cases r with
  | ok u => simp [Job.protocol, Job.next, hstage, Except.isOk, Except.toBool]
  | error e => simp [Job.protocol, Job.next, hstage, Except.isOk, Except.toBool]

theorem rollback_follows {φ : Phase} (now : DateTime)
    (hstage : φ.stage = .blocked ∨ φ.stage = .locked) :
    (rollbackTxn job.env.txn now).Follows (job.protocol rt) φ fun _ ψ =>
      ψ = { φ with stage := if φ.stage = .locked then .abandoned else φ.stage } := by
  refine follows_perform ⟨hstage, rfl⟩ ?_
  intro r hr
  rcases hstage with h | h <;> simp [Job.protocol, Job.next, h]

theorem recordUndo_follows {φ : Phase} (id modality : String) (version : ℕ) (now : DateTime)
    (hstage : φ.stage = .locked) :
    (recordUndo job.env.txn id modality version now).Follows (job.protocol rt) φ fun _ ψ =>
      ψ = φ :=
  follows_perform ⟨hstage, rfl⟩ fun _ _ => rfl

theorem commit_follows {φ : Phase} (now : DateTime)
    (hstage : φ.stage = .versioned ∨ φ.stage = .locked ∧ job.operation = .delete) :
    (commitTxn job.env.txn now).Follows (job.protocol rt) φ fun r ψ =>
      ψ = { φ with stage := if r.isOk then .committed else .uncommitted } :=
  follows_perform ⟨hstage, rfl⟩ fun _ _ => rfl

theorem begin_follows {φ : Phase} (now : DateTime) (hstage : φ.stage = .intended) :
    (beginTxn job.env.txn .readCommitted now).Follows (job.protocol rt) φ fun _ ψ =>
      ψ = { φ with stage := .begun [] } :=
  follows_perform ⟨hstage, rfl, rfl⟩ fun _ _ => rfl

theorem readStatus_follows {φ : Phase} (hstage : φ.stage = .fresh)
    (hinsert : job.operation ≠ .insert) :
    (readStatus job.id).Follows (job.protocol rt) φ fun r ψ =>
      ψ = { φ with existing := r, stage := if r.isSome then .found else .missing } :=
  follows_perform ⟨hstage, rfl, hinsert⟩ fun _ _ => rfl

theorem insertStatus_follows {φ : Phase} {status : OctadStatus} (hstage : φ.stage = .committed)
    (hstatus : job.registers φ.existing φ.version = some status) :
    (insertStatus job.id status).Follows (job.protocol rt) φ fun _ ψ =>
      ψ = { φ with stage := .registered } :=
  follows_perform ⟨hstage, rfl, hstatus⟩ fun _ _ => rfl

theorem removeStatus_follows {φ : Phase} (hstage : φ.stage = .committed)
    (hdelete : job.operation = .delete) :
    (removeStatus job.id).Follows (job.protocol rt) φ fun _ ψ =>
      ψ = { φ with stage := .registered } :=
  follows_perform ⟨hstage, rfl, hdelete⟩ fun _ _ => rfl

theorem appendIntent_follows {φ : Phase} (hstage : φ.stage = .found) :
    (appendIntent job.env job.operation job.id (job.payload rt)).Follows (job.protocol rt) φ
      fun r ψ => ψ = { φ with
        log := φ.log ++ (Op.walAppend (job.intent rt) job.env.intent).logged
        stage := if r.isOk then .intended else .refused } := by
  have happend : (walAppend (job.intent rt) job.env.intent).Follows (job.protocol rt) φ
      fun r ψ => ψ = { φ with
        log := φ.log ++ (Op.walAppend (job.intent rt) job.env.intent).logged
        stage := if r.isOk then .intended else .refused } := by
    refine follows_perform (.inl ⟨hstage, rfl, rfl⟩) ?_
    intro r hr
    simp [Job.protocol, Job.next, hstage]
  refine Follows.bind happend ?_
  rintro r ψ rfl
  cases r <;> rfl

theorem appendMarker_follows {φ : Phase} (hstage : φ.stage = .registered) :
    (appendMarker job.env job.id).Follows (job.protocol rt) φ fun _ ψ =>
      ψ = { φ with
        log := φ.log ++ (Op.walAppend job.marker job.env.marker).logged ++
          (Op.walAppend job.checkpoint job.env.checkpoint).logged
        stage := .marked } := by
  have hmarker : (walAppend job.marker job.env.marker).Follows (job.protocol rt) φ
      fun _ ψ => ψ = { φ with
        log := φ.log ++ (Op.walAppend job.marker job.env.marker).logged
        stage := .marked } := by
    refine follows_perform (.inr (.inl ⟨hstage, rfl, rfl⟩)) ?_
    intro r hr
    simp [Job.protocol, Job.next, hstage]
  refine Follows.bind hmarker ?_
  rintro r ψ rfl
  refine Follows.bind (follows_perform (.inr (.inr ⟨rfl, rfl, rfl⟩)) fun r hr => rfl) ?_
  rintro r ψ rfl
  rfl

/-! ### Loops -/

theorem attempt_follows {as : List Attempt}
    (hwrite : ∀ m op fault, Attempt.write m op fault ∈ as → op.isAppend = false)
    (value : ℕ) (φ : Phase) :
    (attempt job.id as value).Follows (job.protocol rt) φ fun r ψ =>
      ψ = { φ with done := φ.done ++ effective as } ∧ r.isOk = complete as := by
  induction as generalizing value φ with
  | nil => exact ⟨by simp [effective], rfl⟩
  | cons a as ih =>
    cases a with
    | refuse error => exact ⟨by simp [effective], rfl⟩
    | write m op fault =>
      refine Follows.bind (onStore_follows (hwrite m op fault List.mem_cons_self) fault φ) ?_
      rintro r ψ ⟨rfl, hr⟩
      cases fault with
      | some message =>
        cases r with
        | error e => exact ⟨by simp [Op.stored, effective], rfl⟩
        | ok v => cases hr
      | none =>
        cases r with
        | error e => cases hr
        | ok v =>
          refine (ih (fun m op fault h => hwrite m op fault (.tail _ h)) v _).mono ?_
          rintro r ψ ⟨rfl, hok⟩
          exact ⟨by simp [Op.stored, effective], hok⟩

/-- Taking the remaining locks ends with all of them, or in a rollback. -/
theorem acquireAll_follows {suffix : String} {ms : List Modality} {held : List String}
    {φ : Phase} (hstage : φ.stage = .begun held) (hne : ms ≠ [])
    (hnames : held ++ ms.map Modality.name = job.lockNames φ.existing) :
    (acquireAll job.env job.id suffix ms).Follows (job.protocol rt) φ fun r ψ =>
      ψ = { φ with stage := if r.isOk then .locked else .blocked } := by
  induction ms generalizing held φ with
  | nil => exact absurd rfl hne
  | cons m ms ih =>
    have hprefix : held ++ [m.name] ++ ms.map Modality.name = job.lockNames φ.existing := by
      simpa using hnames
    refine Follows.bind (acquireLock_follows hstage ⟨_, hprefix⟩) ?_
    intro r ψ hψ
    cases r with
    | error e =>
      subst hψ
      refine Follows.bind (rollback_follows _ (.inl rfl)) ?_
      rintro r ψ rfl
      rfl
    | ok u =>
      dsimp only at hψ
      cases ms with
      | nil =>
        rw [if_pos (by simpa using hprefix)] at hψ
        exact hψ
      | cons m' ms =>
        rw [if_neg (by simp [← hprefix])] at hψ
        subst hψ
        exact ih rfl (by simp) hprefix

theorem deleteWritten_follows {op : StoreOp} (hop : op.isAppend = false)
    (fault : Option String) (written : Bool) (φ : Phase) :
    (deleteWritten job.id op fault written).Follows (job.protocol rt) φ fun _ ψ =>
      ψ = { φ with done := φ.done ++ deletion job.id op fault written } := by
  cases written with
  | false => exact congrArg (fun done => { φ with done := done }) (List.append_nil _).symm
  | true =>
    refine Follows.bind (onStore_follows hop fault φ) ?_
    rintro r ψ ⟨rfl, -⟩
    rfl

theorem rollbackCreate_follows (written : ModalityStatus) (φ : Phase) :
    (rollbackCreate job.env job.id written).Follows (job.protocol rt) φ fun _ ψ =>
      ψ = { φ with done := φ.done ++ deletions job.env job.id written } := by
  refine Follows.bind (deleteWritten_follows rfl _ _ φ) ?_
  rintro - ψ rfl
  refine Follows.bind (deleteWritten_follows rfl _ _ _) ?_
  rintro - ψ rfl
  refine (deleteWritten_follows rfl _ _ _).mono ?_
  rintro - ψ rfl
  simp [deletions]

section write

variable {w : Write} {undone : ModalityStatus → List StoreOp}
  (hcompensate : ∀ written φ, (w.compensate written).Follows (job.protocol rt) φ fun _ ψ =>
    ψ = { φ with done := φ.done ++ undone written })
include hcompensate

/-- The writes of the modalities all succeed, or end in a rollback. -/
theorem writeModalities_follows {ms : List Modality} {parts : Parts} {status : ModalityStatus}
    {φ : Phase} (hid : job.id = w.id) (hstage : φ.stage = .locked) :
    (writeModalities rt config job.env w job.input ms parts status).Follows (job.protocol rt) φ
      fun r ψ =>
        let as := ms.flatMap (attempts rt config job.env w.id job.input)
        match r with
        | .ok (_, written) => complete as = true ∧ written = ms.foldl .mark status ∧
          ψ = { φ with done := φ.done ++ effective as }
        | .error _ => complete as = false ∧ ψ = { φ with
            stage := .abandoned
            done := φ.done ++ effective as ++
              undone (writtenBy rt config job.env w.id job.input ms status) } := by
  induction ms generalizing parts status φ with
  | nil => exact ⟨rfl, rfl, by simp [effective]⟩
  | cons m ms ih =>
    have hattempt : (attempt w.id (attempts rt config job.env w.id job.input m) 0).Follows
        (job.protocol rt) φ fun r ψ =>
          ψ = { φ with
            done := φ.done ++ effective (attempts rt config job.env w.id job.input m) } ∧
          r.isOk = complete (attempts rt config job.env w.id job.input m) := by
      rw [← hid]
      exact attempt_follows (fun _ _ _ h => (mem_attempts h).2.1) 0 φ
    refine Follows.bind hattempt ?_
    rintro r ψ ⟨rfl, hr⟩
    cases r with
    | error e =>
      have hfail : complete (attempts rt config job.env w.id job.input m) = false := hr.symm
      refine Follows.bind (hcompensate status _) ?_
      rintro - ψ rfl
      refine Follows.bind (rollback_follows _ (.inr hstage)) ?_
      rintro - ψ rfl
      refine ⟨by simp [complete_append, hfail], ?_⟩
      simp [effective_append, hfail, hstage, writtenBy]
    | ok v =>
      have hdone : complete (attempts rt config job.env w.id job.input m) = true := hr.symm
      refine Follows.bind (recordUndo_follows _ _ _ _ hstage) ?_
      rintro - ψ rfl
      have hlocked : ({ φ with
          done := φ.done ++ effective (attempts rt config job.env w.id job.input m) } :
          Phase).stage = .locked := hstage
      refine (ih hlocked).mono ?_
      intro r ψ hψ
      cases r with
      | error e =>
        obtain ⟨hfail, rfl⟩ := hψ
        refine ⟨by simp [complete_append, hdone, hfail], ?_⟩
        simp [effective_append, hdone, writtenBy]
      | ok r =>
        obtain ⟨hrest, hwritten, rfl⟩ := hψ
        refine ⟨by simp [complete_append, hdone, hrest], hwritten, ?_⟩
        simp [effective_append, hdone]

/-- Everything behind the registry read of a create or an update. -/
theorem writeOctad_follows {existing : Option OctadStatus} (hid : job.id = w.id)
    (hoperation : job.operation = w.operation) (hdelete : w.operation ≠ .delete)
    (hpayload : job.payload rt = inputPayload rt job.input)
    (hlocks : job.locks existing = job.input.modalityNames)
    (hwrite : job.write existing = some w)
    (hundone : undone (writtenBy rt config job.env w.id job.input job.input.supplied w.status) =
      job.compensation rt config)
    (hwrote : ∀ op, op.isAppend = true →
      job.Wrote rt config (effective (job.attempts rt config) ++ [op])) :
    (writeOctad rt config job.env w job.input).Follows (job.protocol rt)
      { stage := .found, existing := existing } (job.Ended rt config) := by
  obtain ⟨operation, id, status, previousVersion, compensate, message, finish, createdAt,
    observedAt, versionCount⟩ := w
  dsimp only at hid hoperation hdelete hundone
  subst hid hoperation
  refine Follows.bind (hpayload ▸ appendIntent_follows rfl) ?_
  rintro r ψ rfl
  cases r with
  | error e => exact .inl ⟨.inr (.inl rfl), rfl⟩
  | ok u =>
  refine Follows.bind (begin_follows _ rfl) ?_
  rintro - ψ rfl
  have hnames : job.input.modalityNames ≠ [] := by simp [OctadInput.modalityNames]
  refine Follows.bind (acquireAll_follows rfl hnames (by simp [Job.lockNames, hlocks])) ?_
  rintro r ψ rfl
  cases r with
  | error e => exact .inl ⟨.inr (.inr rfl), rfl⟩
  | ok u =>
  refine Follows.bind (writeModalities_follows hcompensate rfl rfl) ?_
  rintro r ψ hψ
  cases r with
  | error e =>
    obtain ⟨hfail, rfl⟩ := hψ
    refine .inr (.inl ⟨rfl, ?_, ?_⟩)
    · simp [Job.clean, Job.attempts, hfail]
    · simp [Job.attempts, hundone]
  | ok r =>
  obtain ⟨hdone, hwritten, rfl⟩ := hψ
  refine Follows.bind (append_follows rfl _ rfl hdelete) ?_
  rintro r ψ hψ
  cases r with
  | error e =>
    obtain ⟨hfault, rfl⟩ := hψ
    refine Follows.bind (hcompensate _ _) ?_
    rintro - ψ rfl
    refine Follows.bind (rollback_follows _ (.inr rfl)) ?_
    rintro - ψ rfl
    refine .inr (.inl ⟨rfl, ?_, ?_⟩)
    · simp only [Job.clean, hdelete, decide_false, Bool.false_or, Bool.and_eq_false_iff,
        Option.isNone_eq_false_iff, Option.isSome_iff_ne_none]
      exact .inr hfault
    · rw [hwritten, ← writtenBy_of_complete hdone, ← hundone]
      simp [Job.attempts]
  | ok version =>
  obtain ⟨hfault, rfl⟩ := hψ
  refine Follows.bind (commit_follows _ (.inl rfl)) ?_
  rintro r ψ rfl
  cases r with
  | error e =>
    refine Follows.bind (hcompensate _ _) ?_
    rintro - ψ rfl
    exact .inr (.inr rfl)
  | ok u =>
  refine Follows.bind (insertStatus_follows rfl ?_) ?_
  · rw [hwritten, Job.registers, hwrite]
    rfl
  rintro - ψ rfl
  refine Follows.bind (appendMarker_follows rfl) ?_
  rintro - ψ rfl
  refine ⟨⟨rfl, ?_, ?_⟩, hwrote _ rfl⟩
  · simp [Job.clean, Job.attempts, hdone, hfault]
  · simp [Job.logged]

end write

theorem recordUndos_follows {ms : List Modality} (id : String) (version : ℕ) {φ : Phase}
    (hstage : φ.stage = .locked) :
    (recordUndos job.env id version ms).Follows (job.protocol rt) φ fun _ ψ => ψ = φ := by
  induction ms with
  | nil => exact rfl
  | cons m ms ih =>
    refine Follows.bind (recordUndo_follows _ _ _ _ hstage) ?_
    rintro - ψ rfl
    exact ih

theorem create_ends {input : OctadInput} {env : Env} :
    (create rt config env input).Follows (Job.protocol rt ⟨.create input, env⟩)
      { stage := .found } (Job.Ended rt config ⟨.create input, env⟩) := by
  have hdelete : WalOperation.insert ≠ .delete := by decide
  exact writeOctad_follows rollbackCreate_follows rfl rfl hdelete rfl rfl rfl rfl
    fun op hop => ⟨op, hop, rfl⟩

theorem create_follows {input : OctadInput} {env : Env} :
    (create rt config env input).Follows (Job.protocol rt ⟨.create input, env⟩)
      { stage := .found } (Job.Post rt config ⟨.create input, env⟩) :=
  create_ends.mono fun _ _ h => Job.Ended.post h

theorem update_ends {id : String} {input : OctadInput} {env : Env} :
    (update rt config env id input).Follows (Job.protocol rt ⟨.update id input, env⟩)
      { stage := .fresh } (Job.Ended rt config ⟨.update id input, env⟩) := by
  have hinsert : WalOperation.update ≠ .insert := by decide
  refine Follows.bind (readStatus_follows rfl hinsert) ?_
  rintro r ψ rfl
  cases r with
  | none => exact .inl ⟨.inl rfl, rfl⟩
  | some existing =>
    have hcompensate (written : ModalityStatus) (φ : Phase) :
        ((updateWrite id existing).compensate written).Follows
          (Job.protocol rt ⟨.update id input, env⟩) φ fun _ ψ =>
            ψ = { φ with done := φ.done ++ (fun _ => []) written } := by
      show φ = { φ with done := φ.done ++ [] }
      rw [List.append_nil]
    have hdelete : WalOperation.update ≠ .delete := by decide
    exact writeOctad_follows hcompensate rfl rfl hdelete rfl rfl rfl rfl
      fun op hop => ⟨op, hop, rfl⟩

theorem update_follows {id : String} {input : OctadInput} {env : Env} :
    (update rt config env id input).Follows (Job.protocol rt ⟨.update id input, env⟩)
      { stage := .fresh } (Job.Post rt config ⟨.update id input, env⟩) :=
  update_ends.mono fun _ _ h => Job.Ended.post h

theorem delete_ends (rt : Runtime) (config : OctadConfig) (id : String) (env : Env) :
    (delete env id).Follows (Job.protocol rt ⟨.delete id, env⟩)
      { stage := .fresh } (Job.Ended rt config ⟨.delete id, env⟩) := by
  have hinsert : WalOperation.delete ≠ .insert := by decide
  refine Follows.bind (readStatus_follows rfl hinsert) ?_
  rintro r ψ rfl
  cases r with
  | none => exact .inl ⟨.inl rfl, rfl⟩
  | some existing =>
  refine Follows.bind (appendIntent_follows rfl) ?_
  rintro r ψ rfl
  cases r with
  | error e => exact .inl ⟨.inr (.inl rfl), rfl⟩
  | ok u =>
  refine Follows.bind (begin_follows _ rfl) ?_
  rintro - ψ rfl
  refine Follows.bind (acquireAll_follows rfl (by simp [populated]) rfl) ?_
  rintro r ψ rfl
  cases r with
  | error e => exact .inl ⟨.inr (.inr rfl), rfl⟩
  | ok u =>
  refine Follows.bind (recordUndos_follows id existing.version rfl) ?_
  rintro - ψ rfl
  refine Follows.bind (onStore_follows rfl _ _) ?_
  rintro - ψ ⟨rfl, -⟩
  refine Follows.bind (onStore_follows rfl _ _) ?_
  rintro - ψ ⟨rfl, -⟩
  refine Follows.bind (onStore_follows rfl _ _) ?_
  rintro - ψ ⟨rfl, -⟩
  refine Follows.bind (commit_follows _ (.inr ⟨rfl, rfl⟩)) ?_
  rintro r ψ rfl
  cases r with
  | error e => exact .inr (.inr rfl)
  | ok u =>
  refine Follows.bind (removeStatus_follows rfl rfl) ?_
  rintro - ψ rfl
  refine Follows.bind (appendMarker_follows rfl) ?_
  rintro - ψ rfl
  refine ⟨⟨rfl, rfl, by simp [Job.logged]⟩, ?_⟩
  simp [Job.Wrote, deletions, deletion, Job.id]

/-- The program of every request follows its protocol. -/
theorem Job.ends (rt : Runtime) (config : OctadConfig) (job : Job) :
    (job.program rt config).Follows (job.protocol rt) job.start (job.Ended rt config) := by
  obtain ⟨request, env⟩ := job
  cases request with
  | create input =>
    refine Follows.bind create_ends ?_
    intro r ψ h
    cases r <;> exact h
  | update id input =>
    refine Follows.bind update_ends ?_
    intro r ψ h
    cases r <;> exact h
  | delete id =>
    refine Follows.bind (delete_ends rt config id env) ?_
    intro r ψ h
    cases r <;> exact h

theorem Job.follows (rt : Runtime) (config : OctadConfig) (job : Job) :
    (job.program rt config).Follows (job.protocol rt) job.start (job.Post rt config) :=
  (job.ends rt config).mono fun _ _ h => Job.Ended.post h

end follows

end NextgenDatabases.Verisim
