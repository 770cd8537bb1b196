import NextgenDatabases.Verisim.Effects

/-!
# The protocol of a call

Every call goes through the same stages: read the entry, log the intent, take the locks,
write, commit, register, mark. What a call may do at each stage, and what it has done
when it returns, is said once here.
-/
namespace NextgenDatabases.Verisim

open Wal (DateTime WalEntry WalOperation WalModality WalWriter)
open Foundations (Bytes Prog Protocol)

inductive Stage
  | fresh
  /-- There is no entry to update or delete. -/
  | missing
  | found
  /-- The intent could not be logged. -/
  | refused
  | intended
  /-- The transaction runs and holds locks on these modalities. -/
  | begun (held : List String)
  /-- A lock was not granted. -/
  | blocked
  | locked
  | versioned
  | committed
  | registered
  | marked
  /-- A write failed, and the transaction was rolled back. -/
  | abandoned
  /-- The commit failed. -/
  | uncommitted
  deriving DecidableEq

/-- How far a call has come. -/
structure Phase where
  stage : Stage
  /-- The entry that it read. -/
  existing : Option OctadStatus := none
  /-- The effects that it had on the stores. -/
  done : List StoreOp := []
  /-- The entries that it left in the log. -/
  log : List WalEntry := []
  version : ℕ := 0

namespace Job

def id (job : Job) : String :=
  match job.request with
  | .create _ => job.env.uuid
  | .update id _ => id
  | .delete id => id

def operation (job : Job) : WalOperation :=
  match job.request with
  | .create _ => .insert
  | .update _ _ => .update
  | .delete _ => .delete

def input (job : Job) : OctadInput :=
  match job.request with
  | .create input => input
  | .update _ input => input
  | .delete _ => {}

def start (job : Job) : Phase :=
  match job.request with
  | .create _ => { stage := .found }
  | _ => { stage := .fresh }

variable (rt : Runtime)

def payload (job : Job) : Bytes :=
  match job.request with
  | .create input => inputPayload rt input
  | .update _ input => inputPayload rt input
  | .delete _ => []

def intent (job : Job) : WalEntry := intentEntry job.env job.operation job.id (job.payload rt)

def marker (job : Job) : WalEntry := markerEntry job.env job.id

def checkpoint (job : Job) : WalEntry := WalWriter.checkpointEntry (job.env.clock .checkpoint)

/-- The write that a create or an update performs. -/
def write (job : Job) (existing : Option OctadStatus) : Option Write :=
  match job.request with
  | .create _ => some (createWrite job.env)
  | .update id _ => existing.map (updateWrite id)
  | .delete _ => none

/-- The modalities that a call locks. -/
def locks (job : Job) (existing : Option OctadStatus) : List Modality :=
  match job.request with
  | .create input => input.modalityNames
  | .update _ input => input.modalityNames
  | .delete _ => (existing.map fun s => populated s.modalityStatus).getD []

def lockNames (job : Job) (existing : Option OctadStatus) : List String :=
  (job.locks existing).map Modality.name

/-- The flags that a write registers. -/
def flags (job : Job) (w : Write) : ModalityStatus :=
  w.finish (job.input.supplied.foldl .mark w.status)

/-- The entry that a call leaves in the registry. -/
def registers (job : Job) (existing : Option OctadStatus) (version : ℕ) : Option OctadStatus :=
  (job.write existing).map fun w => w.registered job.env job.input version (job.flags w)

/-- The operations that a call may perform. -/
def Allows (job : Job) (φ : Phase) : Op → Prop
  | .status id => φ.stage = .fresh ∧ id = job.id ∧ job.operation ≠ .insert
  | .walAppend entry fault =>
    φ.stage = .found ∧ entry = job.intent rt ∧ fault = job.env.intent ∨
      φ.stage = .registered ∧ entry = job.marker ∧ fault = job.env.marker ∨
      φ.stage = .marked ∧ entry = job.checkpoint ∧ fault = job.env.checkpoint
  | .begin txn level _ => φ.stage = .intended ∧ txn = job.env.txn ∧ level = .readCommitted
  | .acquireLock txn id modality lockType =>
    (∃ held, φ.stage = .begun held ∧ held ++ [modality] <+: job.lockNames φ.existing) ∧
      txn = job.env.txn ∧ id = job.id ∧ lockType = .exclusive
  | .recordUndo txn _ _ _ _ => φ.stage = .locked ∧ txn = job.env.txn
  | .commit txn _ =>
    (φ.stage = .versioned ∨ φ.stage = .locked ∧ job.operation = .delete) ∧ txn = job.env.txn
  | .rollback txn _ => (φ.stage = .blocked ∨ φ.stage = .locked) ∧ txn = job.env.txn
  | .store id op _ => id = job.id ∧
    (op.isAppend = true → φ.stage = .locked ∧ job.operation ≠ .delete)
  | .insertStatus id status =>
    φ.stage = .committed ∧ id = job.id ∧ job.registers φ.existing φ.version = some status
  | .removeStatus id => φ.stage = .committed ∧ id = job.id ∧ job.operation = .delete

/-- The phase after an operation. -/
def next (job : Job) (φ : Phase) : (op : Op) → op.Res → Phase
  | .status _ => fun (r : Option OctadStatus) =>
    { φ with existing := r, stage := if r.isSome then .found else .missing }
  | .walAppend entry fault => fun (r : Except String Unit) =>
    { φ with
      log := φ.log ++ (Op.walAppend entry fault).logged
      stage :=
        match φ.stage with
        | .found => if r.isOk then .intended else .refused
        | .registered => .marked
        | s => s }
  | .begin _ _ _ => fun _ => { φ with stage := .begun [] }
  | .acquireLock _ _ modality _ => fun (r : Except TransactionError Unit) =>
    { φ with
      stage :=
        match φ.stage with
        | .begun held =>
          if ¬ r.isOk then .blocked
          else if held ++ [modality] = job.lockNames φ.existing then .locked
          else .begun (held ++ [modality])
        | s => s }
  | .recordUndo _ _ _ _ _ => fun _ => φ
  | .commit _ _ => fun (r : Except TransactionError Unit) =>
    { φ with stage := if r.isOk then .committed else .uncommitted }
  | .rollback _ _ => fun _ =>
    { φ with stage := match φ.stage with | .locked => .abandoned | s => s }
  | .store id op fault => fun (r : Except String ℕ) =>
    { φ with
      done := φ.done ++ (Op.store id op fault).stored
      version := match op.isAppend, r with | true, .ok v => v | _, _ => φ.version
      stage := if op.isAppend ∧ r.isOk then .versioned else φ.stage }
  | .insertStatus _ _ => fun _ => { φ with stage := .registered }
  | .removeStatus _ => fun _ => { φ with stage := .registered }

/-- A store fails exactly when its environment says so. -/
def Possible : (op : Op) → op.Res → Prop
  | .store _ _ (some message) => fun (r : Except String ℕ) => r = .error message
  | .store _ _ none => fun (r : Except String ℕ) => ∃ n, r = .ok n
  | _ => fun _ => True

def protocol (job : Job) : Protocol Op.Res Phase where
  allow := job.Allows rt
  possible := Possible
  next := job.next

end Job

/-! ### What a call does -/

namespace Job

variable (rt : Runtime) (config : OctadConfig) (job : Job)

/-- The attempts of a call on the modalities before the snapshot. -/
def attempts : List Attempt :=
  job.input.supplied.flatMap (Verisim.attempts rt config job.env job.id job.input)

/-- Whether every write of the call succeeds, the snapshot included. -/
def clean : Bool :=
  complete (job.attempts rt config) &&
    (job.operation = .delete || (job.env.fault .temporal 0).isNone)

/-- What a failed call deletes again. -/
def compensation : List StoreOp :=
  if job.operation = .insert then
    deletions job.env job.id (writtenBy rt config job.env job.id job.input job.input.supplied {})
  else []

/-- The entries that a successful call leaves in the log. -/
def logged : List WalEntry :=
  (Op.walAppend (job.intent rt) job.env.intent).logged ++
    (Op.walAppend job.marker job.env.marker).logged ++
    (Op.walAppend job.checkpoint job.env.checkpoint).logged

/-- What a call has done when it returns. -/
def Post {α : Type} : Except OctadError α → Phase → Prop
  | .ok _, φ => φ.stage = .marked ∧ job.clean rt config = true ∧ φ.log = job.logged rt
  | .error _, φ =>
    (φ.stage = .missing ∨ φ.stage = .refused ∨ φ.stage = .blocked) ∧ φ.done = [] ∨
    φ.stage = .abandoned ∧ job.clean rt config = false ∧
      φ.done = effective (job.attempts rt config) ++ job.compensation rt config ∨
    φ.stage = .uncommitted

/-- What a call that succeeds has done to the stores. -/
def Wrote (done : List StoreOp) : Prop :=
  match job.request with
  | .delete _ => done = deletions job.env job.id { vector := true, document := true, tensor := true }
  | _ => ∃ op, op.isAppend = true ∧ done = effective (job.attempts rt config) ++ [op]

/-- What a call has done when it returns, with its effects if it succeeds. -/
def Ended {α : Type} : Except OctadError α → Phase → Prop
  | .ok a, φ => job.Post rt config (.ok a) φ ∧ job.Wrote rt config φ.done
  | .error e, φ => job.Post (α := α) rt config (.error e) φ

variable {rt config job} in
theorem Ended.post {α : Type} {r : Except OctadError α} {φ : Phase} (h : job.Ended rt config r φ) :
    job.Post rt config r φ := by
  cases r with
  | ok a => exact h.1
  | error e => exact h

end Job

end NextgenDatabases.Verisim
