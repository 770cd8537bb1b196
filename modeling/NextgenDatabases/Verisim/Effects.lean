import NextgenDatabases.Verisim.Calls

/-!
# The effects of a call on the stores

A call writes its modalities in order and stops at the first attempt that fails. Which
operations take effect is a function of the request and its environment.
-/
namespace NextgenDatabases.Verisim

/-- Whether all attempts succeed. -/
def complete : List Attempt → Bool
  | [] => true
  | .write _ _ none :: rest => complete rest
  | _ => false

/-- The operations of the attempts before the first that fails. -/
def effective : List Attempt → List StoreOp
  | .write _ op none :: rest => op :: effective rest
  | _ => []

theorem complete_append (as bs : List Attempt) :
    complete (as ++ bs) = (complete as && complete bs) := by
  induction as with
  | nil => rfl
  | cons a as ih =>
    cases a with
    | refuse error => rfl
    | write modality op fault => cases fault <;> simp [complete, ih]

theorem effective_append (as bs : List Attempt) :
    effective (as ++ bs) = effective as ++ if complete as then effective bs else [] := by
  induction as with
  | nil => rfl
  | cons a as ih =>
    cases a with
    | refuse error => rfl
    | write modality op fault =>
      cases fault with
      | none => exact congrArg (op :: ·) ih
      | some message => rfl

section effects

variable (rt : Runtime) (config : OctadConfig) (env : Env) (id : String) (input : OctadInput)

def attempts (modality : Modality) : List Attempt :=
  (process rt config env id input modality).attempts

/-- What the attempts on one modality look like. -/
inductive Shape (m : Modality) : List Attempt → Prop
  | none : Shape m []
  | refuse (error : OctadError) : Shape m [.refuse error]
  | edges (as : List Attempt) (hm : m = .graph)
      (h : ∀ a ∈ as, ∃ edge fault, a = .write .graph (.graphInsert edge) fault) : Shape m as
  | write (op : StoreOp) (fault : Option String) (hm : op.modality = m)
      (hkind : op.isAppend = false ∧ op.isDelete = false ∧ op.isRead = false) :
      Shape m [.write m op fault]
  | writeRead (op read : StoreOp) (fault fault' : Option String)
      (hm : op.modality = m ∧ read.modality = m)
      (hkind : op.isAppend = false ∧ op.isDelete = false ∧ op.isRead = false)
      (hread : read.isAppend = false ∧ read.isDelete = false ∧ read.isRead = true) :
      Shape m [.write m op fault, .write m read fault']

theorem attempts_shape (m : Modality) : Shape m (attempts rt config env id input m) := by
  cases m with
  | graph =>
    cases hi : input.graph with
    | none =>
      simp only [attempts, process, hi]
      exact .none
    | some i =>
      simp only [attempts, process, hi]
      refine .edges _ rfl ?_
      intro a ha
      obtain ⟨r, -, rfl⟩ := List.mem_map.mp ha
      exact ⟨_, _, rfl⟩
  | vector =>
    cases hi : input.vector with
    | none =>
      simp only [attempts, process, hi]
      exact .none
    | some i =>
      simp only [attempts, process, hi, Option.elim_some, Process.map, processVector]
      split
      · exact .refuse _
      · exact .write _ _ rfl ⟨rfl, rfl, rfl⟩
  | document =>
    cases hi : input.document with
    | none =>
      simp only [attempts, process, hi]
      exact .none
    | some i =>
      simp only [attempts, process, hi]
      exact .writeRead _ _ _ _ ⟨rfl, rfl⟩ ⟨rfl, rfl, rfl⟩ ⟨rfl, rfl, rfl⟩
  | tensor =>
    cases hi : input.tensor with
    | none =>
      simp only [attempts, process, hi]
      exact .none
    | some i =>
      simp only [attempts, process, hi, Option.elim_some, Process.map, processTensor]
      split
      · exact .refuse _
      · exact .write _ _ rfl ⟨rfl, rfl, rfl⟩
  | semantic =>
    cases hi : input.semantic with
    | none =>
      simp only [attempts, process, hi]
      exact .none
    | some i =>
      simp only [attempts, process, hi]
      exact .write _ _ rfl ⟨rfl, rfl, rfl⟩
  | temporal => exact .none
  | provenance =>
    cases hi : input.provenance with
    | none =>
      simp only [attempts, process, hi]
      exact .none
    | some i =>
      simp only [attempts, process, hi]
      exact .writeRead _ _ _ _ ⟨rfl, rfl⟩ ⟨rfl, rfl, rfl⟩ ⟨rfl, rfl, rfl⟩
  | spatial =>
    cases hi : input.spatial with
    | none =>
      simp only [attempts, process, hi]
      exact .none
    | some i =>
      simp only [attempts, process, hi, Option.elim_some, Process.map, processSpatial]
      split
      · exact .refuse _
      · exact .write _ _ rfl ⟨rfl, rfl, rfl⟩

variable {rt config env id input} in
/-- The attempts on a modality are on its store; none appends a snapshot or deletes. -/
theorem mem_attempts {m m' : Modality} {op : StoreOp} {fault : Option String}
    (h : .write m' op fault ∈ attempts rt config env id input m) :
    op.modality = m ∧ op.isAppend = false ∧ op.isDelete = false := by
  have hshape := attempts_shape rt config env id input m
  generalize attempts rt config env id input m = as at h hshape
  cases hshape with
  | none => cases h
  | refuse error => simp at h
  | edges as hm hedges =>
    obtain ⟨edge, fault', hop⟩ := hedges _ h
    cases hop
    exact ⟨hm.symm, rfl, rfl⟩
  | write op' fault' hm hkind =>
    obtain ⟨-, rfl, -⟩ := by simpa using h
    exact ⟨hm, hkind.1, hkind.2.1⟩
  | writeRead op' read fault' fault'' hm hkind hread =>
    simp only [List.mem_cons, Attempt.write.injEq, List.not_mem_nil, or_false] at h
    rcases h with ⟨-, rfl, -⟩ | ⟨-, rfl, -⟩
    · exact ⟨hm.1, hkind.1, hkind.2.1⟩
    · exact ⟨hm.2, hread.1, hread.2.1⟩

/-- The flags once the modalities have been written up to the first that fails. -/
def writtenBy : List Modality → ModalityStatus → ModalityStatus
  | [], status => status
  | modality :: rest, status =>
    if complete (attempts rt config env id input modality) then
      writtenBy rest (status.mark modality)
    else status

variable {rt config env id input} in
theorem writtenBy_of_complete {ms : List Modality} {status : ModalityStatus}
    (h : complete (ms.flatMap (attempts rt config env id input)) = true) :
    writtenBy rt config env id input ms status = ms.foldl .mark status := by
  induction ms generalizing status with
  | nil => rfl
  | cons m ms ih =>
    rw [List.flatMap_cons, complete_append, Bool.and_eq_true] at h
    rw [writtenBy, if_pos h.1, ih h.2, List.foldl_cons]

/-- What `deleteWritten` deletes. -/
def deletion (id : String) (op : StoreOp) (fault : Option String) (written : Bool) :
    List StoreOp :=
  if written then (Op.store id op fault).stored else []

/-- What `rollback_create` deletes. -/
def deletions (written : ModalityStatus) : List StoreOp :=
  deletion id .vectorDelete (env.deleteFault .vector) written.vector ++
    deletion id .documentDelete (env.deleteFault .document) written.document ++
    deletion id .tensorDelete (env.deleteFault .tensor) written.tensor

end effects

end NextgenDatabases.Verisim
