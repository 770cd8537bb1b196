import NextgenDatabases.Verisim.Alone

/-!
# Calls in progress

Any number of calls on one store whose operations interleave. Every state that a run reaches
is also one in which the process may stop; the log then holds what the calls have appended
so far.
-/
namespace NextgenDatabases.Verisim

open Wal (WalEntry)
open Foundations (Pool Run)

/-- The calls on a store, and how far each has come. -/
abbrev Calls (ι : Type) := Pool Op.Res (Except OctadError (Option Octad)) World Phase ι

section calls

variable {ι : Type} (rt : Runtime) (config : OctadConfig) (jobs : ι → Job)

/-- No call has begun. -/
def Calls.start (logged : Bool) : Calls ι where
  world := .new logged
  call i := (jobs i).program rt config
  phase i := (jobs i).start
  trace := []

/-- A call performs its next operation. -/
def Calls.step [DecidableEq ι] : Calls ι → ι → Option (Calls ι) :=
  Pool.step World.exec fun i => (jobs i).protocol rt

theorem Calls.follows_start (logged : Bool) :
    (Calls.start rt config jobs logged).Follows (fun i => (jobs i).protocol rt)
      fun i => (jobs i).Post rt config :=
  fun i => Job.follows rt config (jobs i)

/-- The entries that the calls have left in the log, each with its call. -/
def tagged (trace : List (ι × Op)) : List (ι × WalEntry) :=
  trace.flatMap fun a => a.2.logged.map fun entry => (a.1, entry)

theorem tagged_concat (trace : List (ι × Op)) (i : ι) (op : Op) :
    tagged (trace ++ [(i, op)]) = tagged trace ++ op.logged.map fun entry => (i, entry) := by
  simp [tagged]

end calls

/-- Every operation adds to the log what it leaves there, if there is a log. -/
theorem World.exec_wal (s : World) (op : Op) :
    (s.exec op).2.wal = s.wal.map (· ++ op.logged) := by
  cases op with
  | walAppend entry fault => rw [exec_walAppend]
  | store id op fault => cases fault <;> simp [exec, Op.logged]
  | _ => simp [exec, Op.logged]

/-! ### The intent -/

section started

variable {rt : Runtime} {job : Job} {φ : Phase} {op : Op}

/-- A call is started by logging its intent, and by nothing else. -/
theorem Job.isStarted_next (hallow : job.Allows rt φ op) {s : World}
    (h : (job.next φ op (s.exec op).1).stage.isStarted = true) :
    φ.stage.isStarted = true ∨ op = .walAppend (job.intent rt) job.env.intent ∧
      (s.wal = none ∨ job.env.intent = none) := by
  have hlate {stage : Stage} (hstage : φ.stage = stage) (hstarted : stage.isStarted = true) :
      φ.stage.isStarted = true := hstage ▸ hstarted
  cases op with
  | status id =>
    change (if (s.registry id).isSome then Stage.found else .missing).isStarted = true at h
    split at h <;> cases h
  | walAppend entry fault =>
    rcases hallow with ⟨hstage, rfl, rfl⟩ | ⟨hstage, -, -⟩ | ⟨hstage, -, -⟩
    · refine .inr ⟨rfl, ?_⟩
      simp only [Job.next, hstage, World.exec_walAppend_isOk] at h
      split at h
      · next hok => simpa using hok
      · cases h
    · exact .inl (hlate hstage rfl)
    · exact .inl (hlate hstage rfl)
  | begin txn level now => exact .inl (hlate hallow.1 rfl)
  | acquireLock txn id modality lockType =>
    obtain ⟨⟨held, hstage, -⟩, -, -, -⟩ := hallow
    exact .inl (hlate hstage rfl)
  | recordUndo txn id modality version now => exact .inl h
  | commit txn now =>
    rcases hallow.1 with hstage | ⟨hstage, -⟩
    · exact .inl (hlate hstage rfl)
    · exact .inl (hlate hstage rfl)
  | rollback txn now =>
    rcases hallow.1 with hstage | hstage
    · exact .inl (hlate hstage rfl)
    · exact .inl (hlate hstage rfl)
  | store id op fault =>
    cases hop : op.isAppend with
    | false =>
      rw [job.next_store hop] at h
      exact .inl h
    | true => exact .inl (hlate (hallow.2 hop).1 rfl)
  | insertStatus id status => exact .inl (hlate hallow.1 rfl)
  | removeStatus id => exact .inl (hlate hallow.1 rfl)

theorem Job.not_isStarted_start (job : Job) : job.start.stage.isStarted = false := by
  obtain ⟨request, env⟩ := job
  cases request <;> rfl

end started

end NextgenDatabases.Verisim
