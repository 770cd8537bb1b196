import NextgenDatabases.Verisim.Interleaving
import NextgenDatabases.Verisim.Serving

/-!
# Concurrent writers

A call reads its entry before it asks for its locks and writes the registry after it has
released them. As long as every update finds the entry that its own continues, the registry
is that of the successful calls one after another, in the order in which they wrote it.
-/
namespace NextgenDatabases.Verisim

open Foundations (Pool Run exec guarded run_of_steps run_of_exec)
open Foundations.Prog (Follows)

/-! ### What an operation does to the registry and the versions -/

/-- The operation writes the registry. -/
def Op.isRegistration : Op → Bool
  | insertStatus .. | removeStatus _ => true
  | _ => false

/-- The registry and the versions stay, and nothing that they depend on changes. -/
structure Unnoticed (job : Job) (w v : World) (φ ψ : Phase) : Prop where
  registry : v.registry = w.registry
  next : ∀ id, (v.stores id).nextVersion = (w.stores id).nextVersion
  existing : ψ.existing = φ.existing
  version : ψ.version = φ.version
  isRegistered : ψ.stage.isRegistered = φ.stage.isRegistered
  isVersioned : job.operation ≠ .delete → ψ.stage.isVersioned = φ.stage.isVersioned

/-- The four kinds of operations of a call. -/
inductive Turn (job : Job) (w : World) (φ : Phase) (op : Op) (v : World) (ψ : Phase) : Prop
  | unnoticed (hop : op.isRegistration = false) (h : Unnoticed job w v φ ψ)
  /-- The call reads its entry. -/
  | read (hop : op.isRegistration = false) (hinsert : job.operation ≠ .insert) (hworld : v = w)
    (hexisting : ψ.existing = w.registry job.id) (hbefore : φ.stage = .fresh)
    (hafter : ψ.stage = .found ∨ ψ.stage = .missing)
  /-- The call appends a version. -/
  | append (hop : op.isRegistration = false) (hdelete : job.operation ≠ .delete)
    (hregistry : v.registry = w.registry)
    (hother : ∀ id, id ≠ job.id → (v.stores id).nextVersion = (w.stores id).nextVersion)
    (hexisting : ψ.existing = φ.existing) (hbefore : φ.stage = .locked)
    (hafter : ψ.stage = .versioned) (hversion : ψ.version = (w.stores job.id).nextVersion)
  /-- The call writes the registry. -/
  | register (hop : op.isRegistration = true) (hstores : v.stores = w.stores)
    (hregistry : v.registry = Function.update w.registry job.id
      (job.registers φ.existing φ.version))
    (hstatus : ∀ id status, op = .insertStatus id status → id = job.id ∧
      job.registers φ.existing φ.version = some status)
    (hremove : ∀ id, op = .removeStatus id → job.operation = .delete)
    (hbefore : φ.stage = .committed) (hψ : ψ = { φ with stage := .registered })

section turn

variable {rt : Runtime} {job : Job} {φ : Phase} {w : World}

theorem Unnoticed.of_stages {v : World} {ψ : Phase} (hregistry : v.registry = w.registry)
    (hstores : v.stores = w.stores) (hexisting : ψ.existing = φ.existing)
    (hversion : ψ.version = φ.version)
    (hregistered : ψ.stage.isRegistered = φ.stage.isRegistered)
    (hversioned : job.operation ≠ .delete → ψ.stage.isVersioned = φ.stage.isVersioned) :
    Unnoticed job w v φ ψ :=
  ⟨hregistry, fun _ => by rw [hstores], hexisting, hversion, hregistered, hversioned⟩

theorem Job.turn {op : Op} (hallow : job.Allows rt φ op) :
    Turn job w φ op (w.exec op).2 (job.next φ op (w.exec op).1) := by
  cases op with
  | status id =>
    obtain ⟨hstage, rfl, hinsert⟩ := hallow
    refine .read rfl hinsert rfl rfl hstage ?_
    change (if (w.registry job.id).isSome then Stage.found else .missing) = _ ∨
      (if (w.registry job.id).isSome then Stage.found else .missing) = _
    split
    · exact .inl rfl
    · exact .inr rfl
  | walAppend entry fault =>
    rw [World.exec_walAppend]
    rcases hallow with ⟨hstage, -, -⟩ | ⟨hstage, -, -⟩ | ⟨hstage, -, -⟩
    · refine .unnoticed rfl (.of_stages rfl rfl rfl rfl ?_ fun _ => ?_)
      · simp only [Job.next, hstage]
        split <;> rfl
      · simp only [Job.next, hstage]
        split <;> rfl
    · refine .unnoticed rfl (.of_stages rfl rfl rfl rfl ?_ fun _ => ?_)
      · simp [Job.next, hstage, Stage.isRegistered]
      · simp [Job.next, hstage, Stage.isVersioned]
    · refine .unnoticed rfl (.of_stages rfl rfl rfl rfl ?_ fun _ => ?_)
      · simp [Job.next, hstage]
      · simp [Job.next, hstage]
  | begin txn level now =>
    refine .unnoticed rfl (.of_stages rfl rfl rfl rfl ?_ fun _ => ?_)
    · rw [hallow.1]
      rfl
    · rw [hallow.1]
      rfl
  | acquireLock txn id modality lockType =>
    obtain ⟨⟨held, hstage, -⟩, -, -, -⟩ := hallow
    refine .unnoticed rfl (.of_stages rfl rfl rfl rfl ?_ fun _ => ?_)
    · simp only [Job.next, hstage]
      split
      · rfl
      · split <;> rfl
    · simp only [Job.next, hstage]
      split
      · rfl
      · split <;> rfl
  | recordUndo txn id modality previousVersion now =>
    exact .unnoticed rfl (.of_stages rfl rfl rfl rfl rfl fun _ => rfl)
  | commit txn now =>
    refine .unnoticed rfl (.of_stages rfl rfl rfl rfl ?_ fun hdelete => ?_)
    · rcases hallow.1 with hstage | ⟨hstage, -⟩
      · rw [hstage]
        simp only [Job.next]
        split <;> rfl
      · rw [hstage]
        simp only [Job.next]
        split <;> rfl
    · rcases hallow.1 with hstage | ⟨-, hd⟩
      · rw [hstage]
        simp only [Job.next]
        split <;> rfl
      · exact absurd hd hdelete
  | rollback txn now =>
    refine .unnoticed rfl (.of_stages rfl rfl rfl rfl ?_ fun _ => ?_)
    · rcases hallow.1 with hstage | hstage <;> simp [Job.next, hstage, Stage.isRegistered]
    · rcases hallow.1 with hstage | hstage <;> simp [Job.next, hstage, Stage.isVersioned]
  | store id op fault =>
    obtain ⟨rfl, happend⟩ := hallow
    cases fault with
    | some message =>
      change Turn job w φ _ w (job.next φ (.store job.id op (some message)) (Except.error message))
      rw [job.next_fault]
      exact .unnoticed rfl (.of_stages rfl rfl rfl rfl rfl fun _ => rfl)
    | none =>
      change Turn job w φ _ { w with
        stores := Function.update w.stores job.id ((w.stores job.id).apply op) }
        (job.next φ (.store job.id op none) (Except.ok ((w.stores job.id).value op)))
      cases hop : op.isAppend with
      | false =>
        rw [job.next_store hop]
        refine .unnoticed rfl ⟨rfl, fun id => ?_, rfl, rfl, rfl, fun _ => rfl⟩
        by_cases hid : id = job.id
        · subst hid
          simp [Contents.apply_nextVersion hop]
        · simp [hid]
      | true =>
        obtain ⟨hstage, hdelete⟩ := happend hop
        obtain ⟨-, hvalue⟩ := Contents.append_nextVersion hop (w.stores job.id)
        rw [job.next_append hop]
        refine .append rfl hdelete rfl (fun id hid => ?_) rfl hstage rfl hvalue
        simp [hid]
  | insertStatus id status =>
    obtain ⟨hstage, rfl, hstatus⟩ := hallow
    refine .register rfl rfl ?_ ?_ (by rintro id ⟨⟩) hstage rfl
    · rw [hstatus]
      rfl
    · rintro id' status' ⟨rfl, rfl⟩
      exact ⟨rfl, hstatus⟩
  | removeStatus id =>
    obtain ⟨hstage, rfl, hdelete⟩ := hallow
    refine .register rfl rfl ?_ (fun _ _ h => ?_) (fun _ _ => hdelete) hstage rfl
    · rw [Job.registers_delete hdelete]
      rfl
    · cases h

/-- The marker, the checkpoint and the writes behind the commit cannot fail a call any more. -/
theorem Job.isCommitted_next {op : Op} (hallow : job.Allows rt φ op)
    (h : φ.stage.isCommitted = true) (r : op.Res) :
    (job.next φ op r).stage.isCommitted = true := by
  have hno {stage : Stage} (hstage : φ.stage = stage) (hearly : stage.isCommitted = false) :
      (job.next φ op r).stage.isCommitted = true := by
    rw [hstage, hearly] at h
    cases h
  cases op with
  | status id => exact hno hallow.1 rfl
  | walAppend entry fault =>
    rcases hallow with ⟨hstage, -, -⟩ | ⟨hstage, -, -⟩ | ⟨hstage, -, -⟩
    · exact hno hstage rfl
    · simp [Job.next, hstage, Stage.isCommitted]
    · simp [Job.next, hstage, Stage.isCommitted]
  | begin txn level now => exact hno hallow.1 rfl
  | acquireLock txn id modality lockType =>
    obtain ⟨⟨held, hstage, -⟩, -, -, -⟩ := hallow
    exact hno hstage rfl
  | recordUndo txn id modality version now => exact h
  | commit txn now =>
    rcases hallow.1 with hstage | ⟨hstage, -⟩
    · exact hno hstage rfl
    · exact hno hstage rfl
  | rollback txn now =>
    rcases hallow.1 with hstage | hstage
    · exact hno hstage rfl
    · exact hno hstage rfl
  | store id op fault =>
    cases hop : op.isAppend with
    | false =>
      rw [job.next_store hop]
      exact h
    | true => exact hno (hallow.2 hop).1 rfl
  | insertStatus id status => rfl
  | removeStatus id => rfl

/-- A call that has committed has made all its writes. -/
theorem Job.clean_of_committed {config : OctadConfig} {α : Type} {p : Call (Except OctadError α)}
    (h : p.Follows (job.protocol rt) φ (job.Post rt config))
    (hcommitted : φ.stage.isCommitted = true) : job.clean rt config = true := by
  have hstep (s : World) (ψ : Phase) (op : Op) (hψ : ψ.stage.isCommitted = true)
      (hallow : (job.protocol rt).allow ψ op) :
      ((job.protocol rt).next ψ op (s.exec op).1).stage.isCommitted = true :=
    Job.isCommitted_next hallow hψ _
  obtain ⟨ψ, hpost, hψ⟩ := h.run (J := fun _ ψ => ψ.stage.isCommitted = true)
    World.exec_possible hstep (s := .new false) hcommitted
  cases hresult : (p.run World.exec (.new false)).1 with
  | ok a =>
    rw [hresult] at hpost
    exact hpost.2.1
  | error e =>
    rw [hresult] at hpost
    exfalso
    rcases hpost with ⟨hstage | hstage | hstage, -⟩ | ⟨hstage, -⟩ | hstage <;>
      rw [hstage] at hψ <;> cases hψ

end turn

theorem Job.operation_cases (job : Job) :
    job.operation = .insert ∨ job.operation = .update ∨ job.operation = .delete := by
  obtain ⟨request, env⟩ := job
  cases request with
  | create input => exact .inl rfl
  | update id input => exact .inr (.inl rfl)
  | delete id => exact .inr (.inr rfl)

/-! ### The order of the writes -/

/-- The version and the flags of an entry. -/
def OctadStatus.rank (s : OctadStatus) : ℕ × ModalityStatus := (s.version, s.modalityStatus)

namespace ModalityStatus

theorem Le.trans {s t u : ModalityStatus} (h : s.Le t) (h' : t.Le u) : s.Le u :=
  fun m hm => h' m (h m hm)

theorem le_iff {s t : ModalityStatus} :
    (∀ m ∈ Modality.temporal :: OctadInput.processed, s.get m = true → t.get m = true) ↔
      s.Le t := by
  refine ⟨fun h m => h m ?_, fun h m _ => h m⟩
  cases m <;> decide

instance (s t : ModalityStatus) : Decidable (s.Le t) := decidable_of_iff _ le_iff

/-- Marking gives the same flags from any flags between those before and those after. -/
theorem foldl_mark_between {s t : ModalityStatus} {ms : List Modality} (h : s.Le t)
    (h' : t.Le (ms.foldl mark s)) : ms.foldl mark t = ms.foldl mark s := by
  refine ext_get fun m => ?_
  have hs := h m
  have ht := h' m
  rw [get_foldl_mark] at ht
  rw [get_foldl_mark, get_foldl_mark]
  cases hm : s.get m <;> cases hm' : t.get m <;> simp_all

end ModalityStatus

/-- Every call that is started has logged its intent, and has found its entry. -/
structure Underway {ι : Type} (jobs : ι → Job) (logged : Bool) (w : World) (φ : ι → Phase) :
    Prop where
  wal : w.wal.isSome = logged
  started : ∀ i, (φ i).stage.isStarted = true → logged = false ∨ (jobs i).env.intent = none
  found : ∀ i, (jobs i).Found (φ i)

section underway

variable {ι : Type} {rt : Runtime} {jobs : ι → Job} {logged : Bool} {w : World}
  {φ : ι → Phase} {i : ι}

theorem Underway.start (rt : Runtime) (config : OctadConfig) :
    let s := Calls.start rt config jobs logged
    Underway jobs logged s.world s.phase := by
  constructor
  · cases logged <;> rfl
  · intro i h
    exact absurd ((jobs i).not_isStarted_start.symm.trans h) nofun
  · exact fun i => Job.Found.start (jobs i)

theorem Underway.step [DecidableEq ι] (h : Underway jobs logged w φ) {op : Op}
    (hallow : (jobs i).Allows rt (φ i) op) :
    Underway jobs logged (w.exec op).2
      (Function.update φ i ((jobs i).next (φ i) op (w.exec op).1)) := by
  constructor
  · rw [World.exec_wal]
    simpa using h.wal
  · refine (Function.forall_update_iff φ fun j χ => χ.stage.isStarted = true →
      logged = false ∨ (jobs j).env.intent = none).mpr ⟨fun hstarted => ?_, fun j _ => h.started j⟩
    rcases (jobs i).isStarted_next hallow hstarted with hbefore | ⟨-, hwal⟩
    · exact h.started i hbefore
    · refine hwal.imp_left fun hnone => ?_
      rw [← h.wal, hnone]
      rfl
  · exact (Function.forall_update_iff φ fun j χ => (jobs j).Found χ).mpr
      ⟨(h.found i).step hallow _, fun j _ => h.found j⟩

/-- Whoever updates or deletes has read an entry. -/
theorem Underway.exists_existing (h : Underway jobs logged w φ)
    (hinsert : (jobs i).operation ≠ .insert) (hlate : (φ i).stage.isVersioned = true) :
    ∃ e, (φ i).existing = some e := by
  rcases h.found i with hop | hstage | hstage | hsome
  · exact absurd hop hinsert
  · rw [hstage] at hlate
    cases hlate
  · rw [hstage] at hlate
    cases hlate
  · exact Option.isSome_iff_exists.mp hsome

end underway

/-- The entity has been created by one of the calls. -/
def Created {ι : Type} (jobs : ι → Job) (order : List ι) (id : String) : Prop :=
  ∃ c ∈ order, (jobs c).operation = .insert ∧ (jobs c).id = id

/-- A call that has read an entry finds its flags whenever it looks again. -/
def StillThere {ι : Type} (jobs : ι → Job) (order : List ι) (w : World) (i : ι)
    (e : OctadStatus) : Prop :=
  (jobs i).operation ≠ .insert ∧ Created jobs order (jobs i).id ∧
    ∀ s, w.registry (jobs i).id = some s → e.modalityStatus.Le s.modalityStatus

/-- The calls in `order` have written the registry, in that order, and nobody else has. -/
structure Ordered {ι : Type} (rt : Runtime) (config : OctadConfig) (jobs : ι → Job)
    (logged : Bool) (order : List ι) (w : World) (φ : ι → Phase) : Prop where
  nodup : order.Nodup
  registered : ∀ i, i ∈ order ↔ (φ i).stage.isRegistered = true
  /-- What is registered has been created. -/
  present : ∀ id s, w.registry id = some s → Created jobs order id
  existing : ∀ i e, (φ i).existing = some e → StillThere jobs order w i e
  /-- A version has been appended by a call on the entity. -/
  next : ∀ id, (w.stores id).nextVersion ≠ 1 → ∃ i, (jobs i).id = id ∧
    (jobs i).operation ≠ .delete ∧ (φ i).stage.isVersioned = true
  version : ∀ i, (jobs i).operation = .insert → (φ i).stage.isVersioned = true →
    (φ i).version = 1
  removed : ∀ i ∈ order, (jobs i).operation = .delete → w.registry (jobs i).id = none
  inStep : InStep logged (order.map jobs) (succession rt config logged (order.map jobs))
  serial : ∀ id, (w.registry id).map OctadStatus.rank =
    ((succession rt config logged (order.map jobs)).registry id).map OctadStatus.rank

/-- Two creates never draw the same identifier. -/
def DistinctIds {ι : Type} (jobs : ι → Job) : Prop :=
  ∀ i j, (jobs i).operation = .insert → (jobs j).operation = .insert →
    (jobs i).id = (jobs j).id → i = j

section ordered

variable {ι : Type} {rt : Runtime} {config : OctadConfig} {jobs : ι → Job} {logged : Bool}
  {order : List ι} {w v : World} {φ : ι → Phase} {i : ι}

theorem Ordered.start : let s := Calls.start rt config jobs logged
    Ordered rt config jobs logged [] s.world s.phase := by
  have hearly (i : ι) : (jobs i).start.stage.isRegistered = false ∧
      (jobs i).start.stage.isVersioned = false ∧ (jobs i).start.existing = none := by
    obtain ⟨request, env⟩ := jobs i
    cases request <;> exact ⟨rfl, rfl, rfl⟩
  constructor
  · exact List.nodup_nil
  · intro i
    simp [Calls.start, (hearly i).1]
  · exact fun id s h => absurd h nofun
  · intro i e h
    exact absurd ((hearly i).2.2.symm.trans h) nofun
  · exact fun id h => absurd rfl h
  · intro i _ h
    exact absurd ((hearly i).2.1.symm.trans h) nofun
  · exact fun i hi => absurd hi List.not_mem_nil
  · exact InStep.new logged
  · exact fun id => rfl

/-- A create that has not written the registry is the first call on its entity. -/
theorem Ordered.not_created (h : Ordered rt config jobs logged order w φ)
    (hids : DistinctIds jobs) (hinsert : (jobs i).operation = .insert)
    (hstage : (φ i).stage.isRegistered = false) : ¬ Created jobs order (jobs i).id := by
  rintro ⟨c, hc, hop, hid⟩
  obtain rfl := hids c i hop hinsert hid
  rw [h.registered, hstage] at hc
  cases hc

/-- An entity that a call has written was created before. -/
theorem Ordered.created_of_mem (h : Ordered rt config jobs logged order w φ)
    (hu : Underway jobs logged w φ) {j : ι} (hj : j ∈ order) : Created jobs order (jobs j).id := by
  rcases (jobs j).operation_cases with hop | hop
  · exact ⟨j, hj, hop, rfl⟩
  · have hregistered := (h.registered j).mp hj
    have hversioned : (φ j).stage.isVersioned = true := by
      cases hstage : (φ j).stage <;> rw [hstage] at hregistered <;> first | rfl | cases hregistered
    obtain ⟨e, he⟩ := hu.exists_existing (by rcases hop with hop | hop <;> rw [hop] <;> nofun)
      hversioned
    exact (h.existing j e he).2.1

variable [DecidableEq ι] {ψ : Phase}

theorem Ordered.unnoticed (h : Ordered rt config jobs logged order w φ)
    (hu : Unnoticed (jobs i) w v (φ i) ψ) :
    Ordered rt config jobs logged order v (Function.update φ i ψ) where
  nodup := h.nodup
  registered := (Function.forall_update_iff φ fun j χ => j ∈ order ↔ χ.stage.isRegistered = true).mpr
    ⟨by rw [hu.isRegistered]; exact h.registered i, fun j _ => h.registered j⟩
  present := by rw [hu.registry]; exact h.present
  existing := by
    unfold StillThere
    rw [hu.registry]
    refine (Function.forall_update_iff φ fun j χ => ∀ e, χ.existing = some e →
      StillThere jobs order w j e).mpr ⟨?_, fun j _ => h.existing j⟩
    rw [hu.existing]
    exact h.existing i
  next id hne := by
    rw [hu.next] at hne
    obtain ⟨j, hid, hdelete, hversioned⟩ := h.next id hne
    refine ⟨j, hid, hdelete, ?_⟩
    by_cases hj : j = i
    · subst hj
      rw [Function.update_self, hu.isVersioned hdelete]
      exact hversioned
    · rw [Function.update_of_ne hj]
      exact hversioned
  version := by
    refine (Function.forall_update_iff φ fun j χ => (jobs j).operation = .insert →
      χ.stage.isVersioned = true → χ.version = 1).mpr ⟨fun hinsert hversioned => ?_,
        fun j _ => h.version j⟩
    rw [hu.isVersioned (by rw [hinsert]; nofun)] at hversioned
    rw [hu.version]
    exact h.version i hinsert hversioned
  removed := by rw [hu.registry]; exact h.removed
  inStep := h.inStep
  serial := by rw [hu.registry]; exact h.serial

theorem Ordered.read (h : Ordered rt config jobs logged order w φ)
    (hinsert : (jobs i).operation ≠ .insert)
    (hexisting : ψ.existing = w.registry (jobs i).id) (hbefore : (φ i).stage = .fresh)
    (hafter : ψ.stage = .found ∨ ψ.stage = .missing) :
    Ordered rt config jobs logged order w (Function.update φ i ψ) where
  nodup := h.nodup
  registered := by
    refine (Function.forall_update_iff φ fun j χ => j ∈ order ↔
      χ.stage.isRegistered = true).mpr ⟨?_, fun j _ => h.registered j⟩
    rw [h.registered, hbefore]
    rcases hafter with hstage | hstage <;> rw [hstage] <;> exact Iff.rfl
  present := h.present
  existing := by
    refine (Function.forall_update_iff φ fun j χ => ∀ e, χ.existing = some e →
      StillThere jobs order w j e).mpr ⟨fun e he => ?_, fun j _ => h.existing j⟩
    rw [hexisting] at he
    refine ⟨hinsert, h.present _ e he, fun s hs => ?_⟩
    obtain rfl := Option.some.inj (he.symm.trans hs)
    exact fun m hm => hm
  next id hne := by
    obtain ⟨j, hid, hdelete, hversioned⟩ := h.next id hne
    have hj : j ≠ i := by
      rintro rfl
      rw [hbefore] at hversioned
      cases hversioned
    refine ⟨j, hid, hdelete, ?_⟩
    rw [Function.update_of_ne hj]
    exact hversioned
  version := (Function.forall_update_iff φ fun j χ => (jobs j).operation = .insert →
    χ.stage.isVersioned = true → χ.version = 1).mpr
      ⟨fun hop => absurd hop hinsert, fun j _ => h.version j⟩
  removed := h.removed
  inStep := h.inStep
  serial := h.serial

theorem Ordered.append (h : Ordered rt config jobs logged order w φ) (hids : DistinctIds jobs)
    (hu : Underway jobs logged w φ) (hdelete : (jobs i).operation ≠ .delete)
    (hregistry : v.registry = w.registry)
    (hother : ∀ id, id ≠ (jobs i).id → (v.stores id).nextVersion = (w.stores id).nextVersion)
    (hexisting : ψ.existing = (φ i).existing) (hbefore : (φ i).stage = .locked)
    (hafter : ψ.stage = .versioned) (hversion : ψ.version = (w.stores (jobs i).id).nextVersion) :
    Ordered rt config jobs logged order v (Function.update φ i ψ) where
  nodup := h.nodup
  registered := by
    refine (Function.forall_update_iff φ fun j χ => j ∈ order ↔
      χ.stage.isRegistered = true).mpr ⟨?_, fun j _ => h.registered j⟩
    rw [h.registered, hbefore, hafter]
    exact Iff.rfl
  present := by rw [hregistry]; exact h.present
  existing := by
    unfold StillThere
    rw [hregistry]
    refine (Function.forall_update_iff φ fun j χ => ∀ e, χ.existing = some e →
      StillThere jobs order w j e).mpr ⟨?_, fun j _ => h.existing j⟩
    rw [hexisting]
    exact h.existing i
  next id hne := by
    by_cases hid : id = (jobs i).id
    · refine ⟨i, hid.symm, hdelete, ?_⟩
      rw [Function.update_self, hafter]
      rfl
    · rw [hother id hid] at hne
      obtain ⟨j, rfl, hop, hversioned⟩ := h.next id hne
      have hj : j ≠ i := fun hj => hid (congrArg (fun k => (jobs k).id) hj)
      refine ⟨j, rfl, hop, ?_⟩
      rw [Function.update_of_ne hj]
      exact hversioned
  version := by
    refine (Function.forall_update_iff φ fun j χ => (jobs j).operation = .insert →
      χ.stage.isVersioned = true → χ.version = 1).mpr ⟨fun hinsert _ => ?_, fun j _ => h.version j⟩
    -- a version that is there has been appended behind this create
    rw [hversion]
    by_contra hne
    obtain ⟨j, hid, hop, hversioned⟩ := h.next _ hne
    have hnot := h.not_created hids hinsert (by rw [hbefore]; rfl)
    by_cases hj : (jobs j).operation = .insert
    · obtain rfl := hids j i hj hinsert hid
      rw [hbefore] at hversioned
      cases hversioned
    · obtain ⟨e, he⟩ := hu.exists_existing hj hversioned
      exact hnot (hid ▸ (h.existing j e he).2.1)
  removed := by rw [hregistry]; exact h.removed
  inStep := h.inStep
  serial := by rw [hregistry]; exact h.serial

end ordered

/-! ### Writing the registry -/

/-- The update finds the entry that its own continues: one version behind, and with no flag
that the update does not write. -/
def Continues (entry : Option OctadStatus) (status : OctadStatus) : Prop :=
  ∃ s ∈ entry, s.version + 1 = status.version ∧ s.modalityStatus.Le status.modalityStatus

instance (entry : Option OctadStatus) (status : OctadStatus) :
    Decidable (Continues entry status) :=
  inferInstanceAs (Decidable (∃ s ∈ entry, _))

/-- A create or an update registers the version that it was given and the flags that it
supplied. -/
theorem Job.registers_rank {job : Job} {existing : Option OctadStatus} {version : ℕ}
    {status : OctadStatus} (h : job.registers existing version = some status) :
    status.version = version ∧
      ∀ m ∈ job.input.supplied, status.modalityStatus.get m = true := by
  obtain ⟨request, env⟩ := job
  cases request with
  | create input =>
    obtain rfl := Option.some.inj h
    refine ⟨rfl, fun m hm => ?_⟩
    change ((input.supplied.foldl ModalityStatus.mark {}).mark .temporal).get m = true
    rw [ModalityStatus.get_mark, ModalityStatus.get_foldl_mark]
    simp [show m ∈ input.supplied from hm]
  | update id input =>
    obtain ⟨write, hwrite, rfl⟩ := Option.map_eq_some_iff.mp h
    obtain ⟨e, -, rfl⟩ := Option.map_eq_some_iff.mp hwrite
    refine ⟨rfl, fun m hm => ?_⟩
    change (input.supplied.foldl ModalityStatus.mark e.modalityStatus).get m = true
    rw [ModalityStatus.get_foldl_mark]
    simp [show m ∈ input.supplied from hm]
  | delete id => cases h

/-- What an update writes over an entry. -/
theorem Job.registers_update {job : Job} (h : job.operation = .update) (e : OctadStatus)
    (version : ℕ) : (job.registers (some e) version).map OctadStatus.rank =
      some (version, job.input.supplied.foldl ModalityStatus.mark e.modalityStatus) := by
  obtain ⟨request, env⟩ := job
  cases request with
  | update id input => rfl
  | create input | delete id => cases h

section serial

variable {rt : Runtime} {config : OctadConfig} {logged : Bool} {done : List Job} {job : Job}
  {u : World}

/-- A call that has succeeded somewhere writes the registry here, unless it finds no entry. -/
theorem InStep.registry_inTurn (h : InStep logged done u)
    (hstarted : logged = false ∨ job.env.intent = none) (hclean : job.clean rt config = true)
    (hpresent : job.operation = .update → u.registry job.id ≠ none) :
    (inTurn rt config u job).registry = Function.update u.registry job.id
      (job.registers (u.registry job.id) (u.stores job.id).nextVersion) := by
  by_cases hfound : job.operation = .insert ∨ u.registry job.id ≠ none
  · exact (h.served hstarted hclean hfound).1.registry
  · obtain ⟨hinsert, habsent⟩ := not_or.mp hfound
    have hnone := not_not.mp habsent
    rcases job.operation_cases with hop | hop | hop
    · exact absurd hop hinsert
    · exact absurd hnone (hpresent hop)
    · rw [inTurn_absent hnone hinsert, Job.registers_delete hop, ← hnone,
        Function.update_eq_self]

end serial

/-! ### The registry is written in turn -/

section register

variable {ι : Type} {rt : Runtime} {config : OctadConfig} {jobs : ι → Job} {logged : Bool}
  {order : List ι} {w v : World} {φ : ι → Phase} {i : ι}

theorem Created.concat {id : String} (h : Created jobs order id) : Created jobs (order ++ [i]) id :=
  h.imp fun _ hc => ⟨List.mem_append_left _ hc.1, hc.2⟩

/-- What the call writes has the version and the flags that it writes when the calls before
it have run one after another. -/
theorem Ordered.registers_rank (h : Ordered rt config jobs logged order w φ)
    (hids : DistinctIds jobs) (hu : Underway jobs logged w φ)
    (hbefore : (φ i).stage = .committed)
    (hcontinues : (jobs i).operation = .update → ∃ status,
      (jobs i).registers (φ i).existing (φ i).version = some status ∧
        Continues (w.registry (jobs i).id) status) :
    let u := succession rt config logged (order.map jobs)
    ((jobs i).operation = .update → u.registry (jobs i).id ≠ none) ∧
      ((jobs i).registers (u.registry (jobs i).id) (u.stores (jobs i).id).nextVersion).map
          OctadStatus.rank =
        ((jobs i).registers (φ i).existing (φ i).version).map OctadStatus.rank := by
  intro u
  have hversioned : (φ i).stage.isVersioned = true := by rw [hbefore]; rfl
  rcases (jobs i).operation_cases with hop | hop | hop
  · have hnot := h.not_created hids hop (by rw [hbefore]; rfl)
    have hunborn : (u.stores (jobs i).id).nextVersion = 1 := by
      refine (h.inStep.unborn _ fun job hjob hid hinsert => hnot ?_).2
      obtain ⟨c, hc, rfl⟩ := List.mem_map.mp hjob
      exact ⟨c, hc, hinsert, hid⟩
    rw [hunborn, h.version i hop hversioned,
      Job.registers_insert hop (u.registry (jobs i).id) (φ i).existing]
    exact ⟨fun hupdate => absurd (hop.symm.trans hupdate) nofun, rfl⟩
  · obtain ⟨status, hstatus, s, hs, hnext, hle⟩ := hcontinues hop
    obtain ⟨e, he⟩ := hu.exists_existing (by rw [hop]; nofun) hversioned
    have hthere := (h.existing i e he).2.2 s hs
    have hserial := h.serial (jobs i).id
    rw [Option.mem_def.mp hs] at hserial
    obtain ⟨s', hs', hrank⟩ := Option.map_eq_some_iff.mp hserial.symm
    have hversion : s'.version = s.version := congrArg Prod.fst hrank
    have hflags : s'.modalityStatus = s.modalityStatus := congrArg Prod.snd hrank
    have hwritten := Job.registers_update hop e (φ i).version
    rw [he] at hstatus ⊢
    rw [hstatus] at hwritten
    have hnew : status.modalityStatus =
        (jobs i).input.supplied.foldl ModalityStatus.mark e.modalityStatus :=
      congrArg Prod.snd (Option.some.inj hwritten)
    rw [hs', h.inStep.next _ _ hs', Job.registers_update hop, hstatus]
    refine ⟨fun _ => nofun, congrArg some ?_⟩
    rw [hnew] at hle
    rw [hversion, hnext, hflags, ModalityStatus.foldl_mark_between hthere hle]
    exact Prod.ext rfl hnew.symm
  · rw [Job.registers_delete hop, Job.registers_delete hop]
    exact ⟨fun hupdate => absurd (hop.symm.trans hupdate) nofun, rfl⟩

variable [DecidableEq ι] {ψ : Phase}

theorem Ordered.register (h : Ordered rt config jobs logged order w φ) (hids : DistinctIds jobs)
    (hu : Underway jobs logged w φ) (hclean : (jobs i).clean rt config = true)
    (hstores : v.stores = w.stores)
    (hregistry : v.registry = Function.update w.registry (jobs i).id
      ((jobs i).registers (φ i).existing (φ i).version))
    (hbefore : (φ i).stage = .committed) (hψ : ψ = { φ i with stage := .registered })
    (hcontinues : (jobs i).operation = .update → ∃ status,
      (jobs i).registers (φ i).existing (φ i).version = some status ∧
        Continues (w.registry (jobs i).id) status) :
    Ordered rt config jobs logged (order ++ [i]) v (Function.update φ i ψ) := by
  have hearly : (φ i).stage.isRegistered = false := by rw [hbefore]; rfl
  have hversioned : (φ i).stage.isVersioned = true := by rw [hbefore]; rfl
  have hstarted := hu.started i (by rw [hbefore]; rfl)
  have hi : i ∉ order := fun hi => by
    rw [h.registered, hearly] at hi
    cases hi
  have hstay {χ : Phase → Prop} {j : ι} (hφ : χ (φ j)) (hi : j = i → χ ψ) :
      χ (Function.update φ i ψ j) := by
    by_cases hj : j = i
    · subst hj
      rw [Function.update_self]
      exact hi rfl
    · rw [Function.update_of_ne hj]
      exact hφ
  have hserial := h.registers_rank hids hu hbefore hcontinues
  -- what the call registers has been created, and keeps what others have read
  have hwrites {s : OctadStatus} (hs : v.registry (jobs i).id = some s) :
      Created jobs (order ++ [i]) (jobs i).id ∧
        ((jobs i).operation = .insert ∨ (jobs i).operation = .update ∧
          Continues (w.registry (jobs i).id) s) := by
    rw [hregistry, Function.update_self] at hs
    rcases (jobs i).operation_cases with hop | hop | hop
    · exact ⟨⟨i, List.mem_append_right _ (List.mem_singleton_self i), hop, rfl⟩, .inl hop⟩
    · obtain ⟨e, he⟩ := hu.exists_existing (by rw [hop]; nofun) hversioned
      obtain ⟨status, hstatus, hle⟩ := hcontinues hop
      obtain rfl := Option.some.inj (hs.symm.trans hstatus)
      exact ⟨(h.existing i e he).2.1.concat, .inr ⟨hop, hle⟩⟩
    · rw [Job.registers_delete hop] at hs
      cases hs
  have hother {id : String} (hid : id ≠ (jobs i).id) : v.registry id = w.registry id := by
    rw [hregistry, Function.update_of_ne hid]
  constructor
  · exact List.nodup_append.mpr ⟨h.nodup, List.nodup_singleton i, by
      rintro a ha b hb rfl
      exact hi (List.mem_singleton.mp hb ▸ ha)⟩
  · intro j
    rw [List.mem_append, List.mem_singleton]
    by_cases hj : j = i
    · subst hj
      simp [hψ, Stage.isRegistered]
    · rw [Function.update_of_ne hj, h.registered]
      simp [hj]
  · intro id s hs
    by_cases hid : id = (jobs i).id
    · subst hid
      exact (hwrites hs).1
    · rw [hother hid] at hs
      exact (h.present id s hs).concat
  · have hthere (j : ι) (e : OctadStatus) (he : (φ j).existing = some e) :
        StillThere jobs (order ++ [i]) v j e := by
      obtain ⟨hinsert, hcreated, hle⟩ := h.existing j e he
      refine ⟨hinsert, hcreated.concat, fun s hs => ?_⟩
      by_cases hid : (jobs j).id = (jobs i).id
      · rw [hid] at hs hcreated
        rcases (hwrites hs).2 with hop | ⟨-, s', hs', -, hle'⟩
        · exact absurd hcreated (h.not_created hids hop hearly)
        · exact (hle s' (hid ▸ hs')).trans hle'
      · exact hle s (hother hid ▸ hs)
    intro j e he
    by_cases hj : j = i
    · subst hj
      rw [Function.update_self, hψ] at he
      exact hthere j e he
    · rw [Function.update_of_ne hj] at he
      exact hthere j e he
  · intro id hne
    rw [hstores] at hne
    obtain ⟨j, hid, hdelete, hlate⟩ := h.next id hne
    exact ⟨j, hid, hdelete, hstay (χ := fun χ => χ.stage.isVersioned = true) hlate fun _ => by
      rw [hψ]; rfl⟩
  · intro j hinsert
    refine hstay (χ := fun χ => χ.stage.isVersioned = true → χ.version = 1)
      (h.version j hinsert) ?_
    rintro rfl
    rw [hψ]
    exact fun _ => h.version j hinsert hversioned
  · intro j hj hdelete
    by_cases hid : (jobs j).id = (jobs i).id
    · rw [hid]
      by_contra hsome
      obtain ⟨s, hs⟩ := Option.ne_none_iff_exists'.mp hsome
      rcases List.mem_append.mp hj with hj | hj
      · have hgone := hid ▸ h.removed j hj hdelete
        rcases (hwrites hs).2 with hop | ⟨-, s', hs', -⟩
        · exact h.not_created hids hop hearly (hid ▸ h.created_of_mem hu hj)
        · cases hgone.symm.trans hs'
      · obtain rfl := List.mem_singleton.mp hj
        rcases (hwrites hs).2 with hop | ⟨hop, -⟩
        · cases hdelete.symm.trans hop
        · cases hdelete.symm.trans hop
    · rw [hother hid]
      refine h.removed j ((List.mem_append.mp hj).resolve_right fun hj => hid ?_) hdelete
      rw [List.mem_singleton.mp hj]
  · rw [List.map_append, succession, List.foldl_append]
    exact h.inStep.after hstarted hclean
  · intro id
    rw [List.map_append, succession, List.foldl_append]
    change _ = ((inTurn rt config (succession rt config logged (order.map jobs))
      (jobs i)).registry id).map OctadStatus.rank
    rw [h.inStep.registry_inTurn hstarted hclean hserial.1, hregistry]
    by_cases hid : id = (jobs i).id
    · subst hid
      rw [Function.update_self, Function.update_self]
      exact hserial.2.symm
    · rw [Function.update_of_ne hid, Function.update_of_ne hid]
      exact h.serial id

end register

/-! ### What has been registered -/

/-- Since `w₀`, where the calls in `before` had written the registry, no version has gone
down and no flag has been lost. -/
structure Advanced {ι : Type} (jobs : ι → Job) (before : List ι) (w₀ : World) (order : List ι)
    (w : World) : Prop where
  calls : before ⊆ order
  created : ∀ id a, w₀.registry id = some a → Created jobs order id
  registry : ∀ id a b, w₀.registry id = some a → w.registry id = some b →
    a.version ≤ b.version ∧ a.modalityStatus.Le b.modalityStatus
  supplied : ∀ j ∈ order, (jobs j).operation ≠ .delete → ∀ b,
    w.registry (jobs j).id = some b → ∀ m ∈ (jobs j).input.supplied,
      b.modalityStatus.get m = true

section advanced

variable {ι : Type} {rt : Runtime} {config : OctadConfig} {jobs : ι → Job} {logged : Bool}
  {before order : List ι} {w₀ w v : World} {φ : ι → Phase} {i : ι}

theorem Advanced.register (h : Advanced jobs before w₀ order w)
    (ho : Ordered rt config jobs logged order w φ) (hids : DistinctIds jobs)
    (hu : Underway jobs logged w φ)
    (hregistry : v.registry = Function.update w.registry (jobs i).id
      ((jobs i).registers (φ i).existing (φ i).version))
    (hearly : (φ i).stage.isRegistered = false)
    (hcontinues : (jobs i).operation = .update → ∃ status,
      (jobs i).registers (φ i).existing (φ i).version = some status ∧
        Continues (w.registry (jobs i).id) status) :
    Advanced jobs before w₀ (order ++ [i]) v := by
  -- where the call writes, it continues what was there
  have hwrites {b : OctadStatus} (hcreated : Created jobs order (jobs i).id)
      (hb : v.registry (jobs i).id = some b) :
      ∃ s, w.registry (jobs i).id = some s ∧ s.version ≤ b.version ∧
        s.modalityStatus.Le b.modalityStatus := by
    rw [hregistry, Function.update_self] at hb
    rcases (jobs i).operation_cases with hop | hop | hop
    · exact absurd hcreated (ho.not_created hids hop hearly)
    · obtain ⟨status, hstatus, s, hs, hnext, hle⟩ := hcontinues hop
      obtain rfl := Option.some.inj (hb.symm.trans hstatus)
      exact ⟨s, hs, by omega, hle⟩
    · rw [Job.registers_delete hop] at hb
      cases hb
  have hother {id : String} (hid : id ≠ (jobs i).id) : v.registry id = w.registry id := by
    rw [hregistry, Function.update_of_ne hid]
  constructor
  · exact List.subset_append_of_subset_left _ h.calls
  · exact fun id a ha => (h.created id a ha).concat
  · intro id a b ha hb
    by_cases hid : id = (jobs i).id
    · subst hid
      obtain ⟨s, hs, hversion, hle⟩ := hwrites (h.created _ a ha) hb
      obtain ⟨hversion', hle'⟩ := h.registry _ a s ha hs
      exact ⟨hversion'.trans hversion, hle'.trans hle⟩
    · exact h.registry id a b ha (hother hid ▸ hb)
  · intro j hj hdelete b hb m hm
    rcases List.mem_append.mp hj with hj | hj
    · by_cases hid : (jobs j).id = (jobs i).id
      · obtain ⟨s, hs, -, hle⟩ := hwrites (hid ▸ ho.created_of_mem hu hj) (hid ▸ hb)
        exact hle m (h.supplied j hj hdelete s (hid ▸ hs) m hm)
      · exact h.supplied j hj hdelete b (hother hid ▸ hb) m hm
    · obtain rfl := List.mem_singleton.mp hj
      rw [hregistry, Function.update_self] at hb
      exact (Job.registers_rank hb).2 m hm

theorem Advanced.refl (ho : Ordered rt config jobs logged order w φ)
    (hsupplied : ∀ j ∈ order, (jobs j).operation ≠ .delete → ∀ b,
      w.registry (jobs j).id = some b → ∀ m ∈ (jobs j).input.supplied,
        b.modalityStatus.get m = true) : Advanced jobs order w order w where
  calls := List.Subset.refl order
  created := ho.present
  registry id a b ha hb := by
    obtain rfl := Option.some.inj (ha.symm.trans hb)
    exact ⟨le_rfl, fun m hm => hm⟩
  supplied := hsupplied

end advanced

/-! ### Every run -/

section property

variable {ι : Type} (rt : Runtime) (config : OctadConfig) (jobs : ι → Job) (logged : Bool)

/-- The registry is that of the calls in `order` one after another; every call that has
returned `Ok` is among them, and no call that has returned an error. -/
structure Serializes (order : List ι) (t : Calls ι) : Prop where
  nodup : order.Nodup
  succeeded : ∀ i octad, t.call i = .pure (.ok octad) → i ∈ order
  failed : ∀ i e, t.call i = .pure (.error e) → i ∉ order
  registry : ∀ id, (t.world.registry id).map OctadStatus.rank =
    ((succession rt config logged (order.map jobs)).registry id).map OctadStatus.rank

/-- Between two states no version goes down, no flag of a successful call is lost and
nothing that has been deleted comes back. -/
structure Preserves (s t : Calls ι) : Prop where
  registry : ∀ id a b, s.world.registry id = some a → t.world.registry id = some b →
    a.version ≤ b.version ∧ a.modalityStatus.Le b.modalityStatus
  supplied : ∀ i octad, (jobs i).operation ≠ .delete → t.call i = .pure (.ok octad) → ∀ b,
    t.world.registry (jobs i).id = some b → ∀ m ∈ (jobs i).input.supplied,
      b.modalityStatus.get m = true
  removed : ∀ i octad, (jobs i).operation = .delete → s.call i = .pure (.ok octad) →
    t.world.registry (jobs i).id = none

/-- An update that registers next finds the entry that its own continues. -/
def ContinuesEntry (s : Calls ι) (i : ι) : Prop :=
  match s.call i with
  | .call (.insertStatus id status) _ =>
    (jobs i).operation = .update → Continues (s.world.registry id) status
  | _ => True

instance (s : Calls ι) (i : ι) : Decidable (ContinuesEntry jobs s i) := by
  unfold ContinuesEntry
  split <;> infer_instance

end property

section run

variable {ι : Type} {rt : Runtime} {config : OctadConfig} {jobs : ι → Job} {logged : Bool}
  {before order : List ι} {w₀ : World} {s t : Calls ι}

/-- A call that has returned `Ok` has written the registry. -/
theorem Ordered.mem_of_ok {i : ι} {octad : Option Octad}
    (h : Ordered rt config jobs logged order t.world t.phase)
    (hf : t.Follows (fun i => (jobs i).protocol rt) fun i => (jobs i).Post rt config)
    (hok : t.call i = .pure (.ok octad)) : i ∈ order := by
  have hpost := hf i
  rw [hok] at hpost
  rw [h.registered, hpost.1]
  rfl

theorem Ordered.serializes (h : Ordered rt config jobs logged order t.world t.phase)
    (hf : t.Follows (fun i => (jobs i).protocol rt) fun i => (jobs i).Post rt config) :
    Serializes rt config jobs logged order t where
  nodup := h.nodup
  succeeded i octad hok := h.mem_of_ok hf hok
  failed i e herror hi := by
    have hpost := hf i
    have hregistered := (h.registered i).mp hi
    rw [herror] at hpost
    rcases hpost with ⟨hstage | hstage | hstage, -⟩ | ⟨hstage, -⟩ | hstage <;>
      rw [hstage] at hregistered <;> cases hregistered
  registry := h.serial

variable [DecidableEq ι]

/-- One operation of a call leaves the order as it is, or puts the call behind the others. -/
theorem Ordered.step {w : World} {φ : ι → Phase} {i : ι} {op : Op}
    (h : Ordered rt config jobs logged order w φ)
    (ha : Advanced jobs before w₀ order w) (hids : DistinctIds jobs)
    (hu : Underway jobs logged w φ) (hallow : (jobs i).Allows rt (φ i) op)
    (hclean : (φ i).stage.isCommitted = true → (jobs i).clean rt config = true)
    (hcontinues : ∀ id status, op = .insertStatus id status → (jobs i).operation = .update →
      Continues (w.registry id) status) :
    ∃ order', Ordered rt config jobs logged order' (w.exec op).2
        (Function.update φ i ((jobs i).next (φ i) op (w.exec op).1)) ∧
      Advanced jobs before w₀ order' (w.exec op).2 := by
  have hkeep (hregistry : (w.exec op).2.registry = w.registry) :
      Advanced jobs before w₀ order (w.exec op).2 :=
    ⟨ha.calls, ha.created, by rw [hregistry]; exact ha.registry,
      by rw [hregistry]; exact ha.supplied⟩
  rcases Job.turn hallow with ⟨-, hun⟩ | ⟨-, hinsert, hworld, hexisting, hbefore, hafter⟩ |
    ⟨-, hdelete, hregistry, hother, hexisting, hbefore, hafter, hversion⟩ |
    ⟨hop, hstores, hregistry, hstatus, hremove, hbefore, hψ⟩
  · exact ⟨order, h.unnoticed hun, hkeep hun.registry⟩
  · rw [hworld]
    exact ⟨order, h.read hinsert hexisting hbefore hafter, ha⟩
  · exact ⟨order, h.append hids hu hdelete hregistry hother hexisting hbefore hafter hversion,
      hkeep hregistry⟩
  · have hcontinues' (hupdate : (jobs i).operation = .update) : ∃ status,
        (jobs i).registers (φ i).existing (φ i).version = some status ∧
          Continues (w.registry (jobs i).id) status := by
      cases op with
      | insertStatus id status =>
        obtain ⟨hid, hregisters⟩ := hstatus id status rfl
        exact ⟨status, hregisters, hid ▸ hcontinues id status rfl hupdate⟩
      | removeStatus id => exact absurd (hupdate.symm.trans (hremove id rfl)) nofun
      | _ => cases hop
    refine ⟨order ++ [i], ?_, ?_⟩
    · exact h.register hids hu (hclean (by rw [hbefore]; rfl)) hstores hregistry hbefore hψ
        hcontinues'
    · exact ha.register h hids hu hregistry (by rw [hbefore]; rfl) hcontinues'

/-- What a run keeps. -/
def InOrder (jobs : ι → Job) (rt : Runtime) (config : OctadConfig) (logged : Bool)
    (before : List ι) (w₀ w : World) (φ : ι → Phase) : Prop :=
  ∃ order, Ordered rt config jobs logged order w φ ∧ Advanced jobs before w₀ order w ∧
    Underway jobs logged w φ

theorem InOrder.run (hids : DistinctIds jobs)
    (r : Run (Calls.step rt jobs) (ContinuesEntry jobs) s t)
    (hf : s.Follows (fun i => (jobs i).protocol rt) fun i => (jobs i).Post rt config)
    (hs : InOrder jobs rt config logged before w₀ s.world s.phase) :
    t.Follows (fun i => (jobs i).protocol rt) (fun i => (jobs i).Post rt config) ∧
      InOrder jobs rt config logged before w₀ t.world t.phase := by
  have hstep (u : Calls ι) (i : ι) (op : Op)
      (k : op.Res → Call (Except OctadError (Option Octad)))
      (hfollows : u.Follows (fun i => (jobs i).protocol rt) fun i => (jobs i).Post rt config)
      (h : InOrder jobs rt config logged before w₀ u.world u.phase)
      (hok : ContinuesEntry jobs u i) (hcall : u.call i = .call op k)
      (hallow : ((jobs i).protocol rt).allow (u.phase i) op) :
      InOrder jobs rt config logged before w₀ (u.world.exec op).2
        (Function.update u.phase i ((jobs i).next (u.phase i) op (u.world.exec op).1)) := by
    obtain ⟨order, hordered, hadvanced, hu⟩ := h
    have hcontinues (id : String) (status : OctadStatus) (hop : op = .insertStatus id status)
        (hupdate : (jobs i).operation = .update) : Continues (u.world.registry id) status := by
      subst hop
      rw [ContinuesEntry, hcall] at hok
      exact hok hupdate
    obtain ⟨order', hordered', hadvanced'⟩ := hordered.step hadvanced hids hu hallow
      (fun hcommitted => Job.clean_of_committed (hfollows i) hcommitted) hcontinues
    exact ⟨order', hordered', hadvanced', hu.step hallow⟩
  exact Pool.invariant_of_call (I := fun w φ _ => InOrder jobs rt config logged before w₀ w φ)
    (fun _ => World.exec_possible) hstep r hf hs

/-- In every run in which each update that registers finds the entry that its own continues,
the registry is that of the calls that wrote it one after another, no version goes down, no
flag is lost and nothing that has been deleted comes back. -/
theorem writers_serializable (hids : DistinctIds jobs)
    (r : Run (Calls.step rt jobs) (ContinuesEntry jobs) (.start rt config jobs logged) s)
    (r' : Run (Calls.step rt jobs) (ContinuesEntry jobs) s t) :
    (∃ order, Serializes rt config jobs logged order t) ∧ Preserves jobs s t := by
  have hempty : Ordered rt config jobs logged [] (Calls.start rt config jobs logged).world
      (Calls.start rt config jobs logged).phase := Ordered.start
  have hstart : InOrder jobs rt config logged [] (.new logged)
      (Calls.start rt config jobs logged).world (Calls.start rt config jobs logged).phase :=
    ⟨[], hempty, Advanced.refl hempty fun j hj => absurd hj List.not_mem_nil,
      Underway.start rt config⟩
  obtain ⟨hfs, before, hs, hadvanced, hu⟩ :=
    InOrder.run hids r (Calls.follows_start rt config jobs logged) hstart
  have hnow : InOrder jobs rt config logged before s.world s.world s.phase :=
    ⟨before, hs, Advanced.refl hs hadvanced.supplied, hu⟩
  obtain ⟨hft, order, ht, hadvanced', -⟩ := InOrder.run hids r' hfs hnow
  refine ⟨⟨order, ht.serializes hft⟩, hadvanced'.registry, ?_, ?_⟩
  · intro i octad hdelete hok
    exact hadvanced'.supplied i (ht.mem_of_ok hft hok) hdelete
  · intro i octad hdelete hok
    exact ht.removed i (hadvanced'.calls (hs.mem_of_ok hfs hok)) hdelete

end run

/-- A create, and two updates of its entity that write different modalities. -/
def rivals : Fin 3 → Job
  | 0 => ⟨.create note, .quiet "e1" "t1"⟩
  | 1 => ⟨.update "e1" { graph := some ⟨[]⟩ }, .quiet "e2" "t2"⟩
  | 2 => ⟨.update "e1" { semantic := some ⟨[], []⟩ }, .quiet "e3" "t3"⟩

/-- The create of `rivals`. -/
def creator : Fin 3 := ⟨0, by decide⟩

/-- The first update of `rivals`. -/
def grapher : Fin 3 := ⟨1, by decide⟩

/-- The second update of `rivals`. -/
def typer : Fin 3 := ⟨2, by decide⟩

set_option maxRecDepth 8000 in
/-- The second update reads its entry between the registration and the marker of the first. -/
theorem writers_serializable_rivals : ∃ s t,
    exec (guarded (ContinuesEntry rivals) (Calls.step .sample rivals))
      (.start .sample .standard rivals true)
      (List.replicate 12 creator ++ List.replicate 9 grapher) = some s ∧
    exec (guarded (ContinuesEntry rivals) (Calls.step .sample rivals)) s
      (List.replicate 12 typer ++ List.replicate 2 grapher) = some t ∧
    (∃ order, Serializes .sample .standard rivals true order t) ∧ Preserves rivals s t := by
  obtain ⟨s, t, hs, ht⟩ : ∃ s t,
      exec (guarded (ContinuesEntry rivals) (Calls.step .sample rivals))
        (.start .sample .standard rivals true)
        (List.replicate 12 creator ++ List.replicate 9 grapher) = some s ∧
      exec (guarded (ContinuesEntry rivals) (Calls.step .sample rivals)) s
        (List.replicate 12 typer ++ List.replicate 2 grapher) = some t :=
    ⟨_, _, rfl, rfl⟩
  have hids : DistinctIds rivals := by
    unfold DistinctIds
    decide
  exact ⟨s, t, hs, ht, writers_serializable hids (run_of_exec hs) (run_of_exec ht)⟩

/-- The first update reads its entry, and goes on when the second is complete. -/
def overtaken : List (Fin 3) :=
  List.replicate 12 creator ++ [grapher] ++ List.replicate 12 typer ++
    List.replicate 10 grapher

/-- The flags of the create and of the first update. -/
def overtakenFlags : ModalityStatus := { document := true, temporal := true, graph := true }

/-- One after another, the three calls never leave the third version without the flags of
both updates. -/
theorem succession_rivals : ∀ a b c : Fin 3, [a, b, c].Nodup →
    ((succession .sample .standard true ([a, b, c].map rivals)).registry "e1").map
      OctadStatus.rank ≠ some (3, overtakenFlags) := by
  decide +kernel

set_option maxRecDepth 8000 in
/-- The first update takes back what the second has registered. -/
theorem update_lost : ¬ ∀ s t,
    Run (Calls.step .sample rivals) (fun _ _ => True) (.start .sample .standard rivals true) s →
    Run (Calls.step .sample rivals) (fun _ _ => True) s t →
    (∃ order, Serializes .sample .standard rivals true order t) ∧ Preserves rivals s t := by
  intro hall
  obtain ⟨t, ht, hregistry, hok⟩ : ∃ t,
      exec (Calls.step .sample rivals) (.start .sample .standard rivals true) overtaken = some t ∧
      (t.world.registry "e1").map OctadStatus.rank = some (3, overtakenFlags) ∧
      ∀ i, ∃ octad, t.call i = .pure (.ok octad) :=
    ⟨_, rfl, rfl, Fin.cases ⟨_, rfl⟩ (Fin.cases ⟨_, rfl⟩ (Fin.cases ⟨_, rfl⟩ nofun))⟩
  obtain ⟨⟨order, horder⟩, -⟩ := hall t t (run_of_steps ht) .refl
  have hmem (i : Fin 3) : i ∈ order := by
    obtain ⟨octad, hoctad⟩ := hok i
    exact horder.succeeded i octad hoctad
  have hlength : order.length = 3 := by
    have huniv : order.toFinset = Finset.univ :=
      Finset.eq_univ_of_forall fun i => List.mem_toFinset.mpr (hmem i)
    rw [← List.toFinset_card_of_nodup horder.nodup, huniv]
    rfl
  obtain ⟨a, b, c, rfl⟩ := List.length_eq_three.mp hlength
  have hserial := horder.registry "e1"
  rw [hregistry] at hserial
  exact succession_rivals a b c horder.nodup hserial.symm

end NextgenDatabases.Verisim
