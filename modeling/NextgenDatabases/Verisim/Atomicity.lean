import NextgenDatabases.Verisim.Alone

/-!
# Failed creates and updates

A failed update keeps every write that preceded the failure; a failed create deletes
again what it wrote to three of the stores, but one of them keeps its full-text index. Exactly
when nothing of the call remains.
-/
namespace NextgenDatabases.Verisim

namespace Contents

/-- Two contents hold the same in one modality. -/
def Agree (c d : Contents) : Modality → Prop
  | .graph => c.graph = d.graph
  | .vector => c.vector = d.vector
  | .tensor => c.tensor = d.tensor
  | .semantic => c.semantic = d.semantic
  | .document => c.document = d.document ∧ c.indexed = d.indexed
  | .temporal => c.versions = d.versions
  | .provenance => c.provenance = d.provenance
  | .spatial => c.spatial = d.spatial

theorem Agree.refl (c : Contents) (m : Modality) : c.Agree c m := by
  cases m <;> first | exact rfl | exact ⟨rfl, rfl⟩

/-- An operation touches its own modality only. -/
theorem apply_agree {op : StoreOp} {m : Modality} (h : op.modality ≠ m) (c : Contents) :
    (c.apply op).Agree c m := by
  cases op with
  | graphInsert edge =>
    simp only [apply]
    split
    · exact Agree.refl c m
    · cases m <;> first | rfl | exact ⟨rfl, rfl⟩ | exact absurd rfl h
  | _ => cases m <;> first | rfl | exact ⟨rfl, rfl⟩ | exact absurd rfl h

/-- The entity already holds what the operation writes. -/
def Shows (c : Contents) : StoreOp → Prop
  | .graphInsert edge => edge ∈ c.graph
  | .vectorUpsert embedding => c.vector = some embedding
  | .vectorDelete => c.vector = none
  | .documentIndex _ => False
  | .documentCommit => True
  | .documentDelete => c.document = none
  | .tensorPut tensor => c.tensor = some tensor
  | .tensorDelete => c.tensor = none
  | .semanticAnnotate annotation => c.semantic = some annotation
  | .provenanceRecordEvent _ => False
  | .provenanceGetChain => True
  | .spatialIndex data => c.spatial = some data
  | .temporalAppend .. => False

theorem Agree.shows {c d : Contents} {op : StoreOp} (h : c.Agree d op.modality)
    (hshows : d.Shows op) : c.Shows op := by
  cases op <;> simp_all [Agree, Shows, StoreOp.modality]

theorem apply_eq_iff (c : Contents) (op : StoreOp) : c.apply op = c ↔ c.Shows op := by
  obtain ⟨graph, vector, document, indexed, tensor, semantic, provenance, spatial, versions⟩ := c
  cases op with
  | graphInsert edge =>
    simp only [apply, Shows]
    split
    · next h => simp [h]
    · next h => simp [h]
  | _ => simp [apply, Shows, eq_comm]

/-- An operation that is not an addition to a history is done once it has been performed. -/
theorem shows_apply {op : StoreOp} (c : Contents) (h : op.grows = false) :
    (c.apply op).Shows op := by
  cases op with
  | graphInsert edge =>
    simp only [apply]
    split
    · next h => exact h
    · simp [Shows]
  | documentIndex _ | provenanceRecordEvent _ | temporalAppend _ _ _ _ => cases h
  | _ => simp [apply, Shows]

theorem apply_read {op : StoreOp} (h : op.isRead = true) (c : Contents) : c.apply op = c := by
  cases op with
  | documentCommit => rfl
  | provenanceGetChain => rfl
  | _ => cases h

/-- How long the histories of an entity are. -/
def history (c : Contents) : ℕ := c.indexed.length + c.provenance.length + c.versions.length

theorem history_apply (c : Contents) (op : StoreOp) :
    (c.apply op).history = c.history + if op.grows then 1 else 0 := by
  cases op with
  | graphInsert edge =>
    simp only [apply]
    split <;> rfl
  | documentIndex _ | provenanceRecordEvent _ | temporalAppend _ _ _ _ =>
    simp only [apply, history, StoreOp.grows, List.length_append, List.length_singleton, if_true]
    omega
  | _ => rfl

theorem history_le_foldl (c : Contents) (ops : List StoreOp) :
    c.history ≤ (ops.foldl apply c).history := by
  induction ops generalizing c with
  | nil => exact Nat.le_refl _
  | cons op ops ih =>
    have hstep : c.history ≤ (c.apply op).history := by
      rw [history_apply]
      exact Nat.le_add_right _ _
    exact hstep.trans (ih (c.apply op))

end Contents

/-! ### Updates -/

/-- The second operation does not take back what the first has written. -/
def Keeps (op op' : StoreOp) : Prop :=
  op.modality ≠ op'.modality ∨ op'.isRead = true ∨
    ∃ edge edge', op = .graphInsert edge ∧ op' = .graphInsert edge'

theorem shows_insert {edge : GraphEdge} {c : Contents} (h : edge ∈ c.graph) (edge' : GraphEdge) :
    edge ∈ (c.apply (.graphInsert edge')).graph := by
  simp only [Contents.apply]
  split
  · exact h
  · exact List.mem_append_left _ h

theorem Keeps.shows {op op' : StoreOp} (h : Keeps op op') {c : Contents} (hshows : c.Shows op) :
    (c.apply op').Shows op := by
  rcases h with hne | hread | ⟨edge, edge', rfl, rfl⟩
  · exact (Contents.apply_agree (Ne.symm hne) c).shows hshows
  · rw [Contents.apply_read hread]
    exact hshows
  · exact shows_insert hshows edge'

theorem shows_foldl {op : StoreOp} {ops : List StoreOp} (h : ∀ op' ∈ ops, Keeps op op')
    {c : Contents} (hshows : c.Shows op) : (ops.foldl Contents.apply c).Shows op := by
  induction ops generalizing c with
  | nil => exact hshows
  | cons op' ops ih =>
    exact ih (fun _ hmem => h _ (.tail _ hmem)) ((h op' List.mem_cons_self).shows hshows)

theorem foldl_of_idle {ops : List StoreOp} {c : Contents} (h : ∀ op ∈ ops, c.apply op = c) :
    ops.foldl Contents.apply c = c := by
  induction ops with
  | nil => rfl
  | cons op ops ih =>
    rw [List.foldl_cons, h op List.mem_cons_self]
    exact ih fun op' hop' => h op' (.tail _ hop')

/-- Operations that do not take back each other's writes and change nothing together
change nothing one by one. -/
theorem idle_of_foldl {ops : List StoreOp} {c : Contents} (hkeeps : ops.Pairwise Keeps)
    (h : ops.foldl Contents.apply c = c) : ∀ op ∈ ops, c.apply op = c := by
  induction ops with
  | nil =>
    intro op hop
    cases hop
  | cons op ops ih =>
    obtain ⟨hop, hops⟩ := List.pairwise_cons.mp hkeeps
    rw [List.foldl_cons] at h
    have hidle : c.apply op = c := by
      cases hgrows : op.grows with
      | true =>
        -- a history has grown, and none shrinks again
        have hle := Contents.history_le_foldl (c.apply op) ops
        rw [h, Contents.history_apply, hgrows, if_pos rfl] at hle
        omega
      | false =>
        have hfinal := shows_foldl hop (c.shows_apply hgrows)
        rw [h] at hfinal
        exact (c.apply_eq_iff op).mpr hfinal
    rw [hidle] at h
    intro op' hmem
    rcases List.mem_cons.mp hmem with rfl | hmem
    · exact hidle
    · exact ih hops h op' hmem

section attempts

variable (rt : Runtime) (config : OctadConfig) (env : Env) (id : String) (input : OctadInput)

theorem effective_sublist (f : Modality → List Attempt) (ms : List Modality) :
    (effective (ms.flatMap f)).Sublist (ms.flatMap fun m => effective (f m)) := by
  induction ms with
  | nil => exact .slnil
  | cons m ms ih =>
    rw [List.flatMap_cons, List.flatMap_cons, effective_append]
    split
    · exact ih.append_left _
    · rw [List.append_nil]
      exact List.sublist_append_left _ _

theorem mem_effective {as : List Attempt} {op : StoreOp} (h : op ∈ effective as) :
    ∃ m, .write m op none ∈ as := by
  induction as with
  | nil => cases h
  | cons a as ih =>
    cases a with
    | refuse error => cases h
    | write m op' fault =>
      cases fault with
      | some message => cases h
      | none =>
        rcases List.mem_cons.mp h with rfl | h
        · exact ⟨m, List.mem_cons_self⟩
        · obtain ⟨m', hm'⟩ := ih h
          exact ⟨m', .tail _ hm'⟩

theorem effective_edges {as : List Attempt}
    (h : ∀ a ∈ as, ∃ edge fault, a = .write .graph (.graphInsert edge) fault) :
    ∀ op ∈ effective as, ∃ edge, op = .graphInsert edge := by
  intro op hop
  obtain ⟨m, hm⟩ := mem_effective hop
  obtain ⟨edge, fault, heq⟩ := h _ hm
  cases heq
  exact ⟨edge, rfl⟩

theorem effective_keeps (m : Modality) :
    (effective (attempts rt config env id input m)).Pairwise Keeps := by
  have hshape := attempts_shape rt config env id input m
  generalize attempts rt config env id input m = as at hshape
  cases hshape with
  | none => exact .nil
  | refuse error => exact .nil
  | edges as hm hedges =>
    refine List.pairwise_iff_getElem.mpr ?_
    intro i j hi hj hij
    obtain ⟨edge, hedge⟩ := effective_edges hedges _ (List.getElem_mem hi)
    obtain ⟨edge', hedge'⟩ := effective_edges hedges _ (List.getElem_mem hj)
    exact .inr (.inr ⟨edge, edge', hedge, hedge'⟩)
  | write op fault hm hkind =>
    cases fault with
    | none => exact List.pairwise_singleton _ _
    | some message => exact .nil
  | writeRead op read fault fault' hm hkind hread =>
    cases fault with
    | some message => exact .nil
    | none =>
      cases fault' with
      | some message => exact List.pairwise_singleton _ _
      | none => exact List.pairwise_pair.mpr (.inr (.inl hread.2.2))

variable {rt config env id input} in
theorem effective_spec {m : Modality} {op : StoreOp}
    (h : op ∈ effective (attempts rt config env id input m)) :
    op.modality = m ∧ op.isAppend = false ∧ op.isDelete = false := by
  obtain ⟨m', hm'⟩ := mem_effective h
  exact mem_attempts hm'

/-- The writes of different modalities do not disturb each other. -/
theorem effective_pairwise {ms : List Modality} (h : ms.Nodup) :
    (effective (ms.flatMap (attempts rt config env id input))).Pairwise Keeps := by
  refine List.Pairwise.sublist (effective_sublist _ ms) ?_
  refine List.pairwise_flatMap.mpr ⟨fun m _ => effective_keeps rt config env id input m, ?_⟩
  refine h.imp ?_
  intro m m' hne op hop op' hop'
  left
  rw [(effective_spec hop).1, (effective_spec hop').1]
  exact hne

end attempts

/-- The attempts of a call append no snapshot and delete nothing. -/
theorem Job.effective_spec {rt : Runtime} {config : OctadConfig} {job : Job} {op : StoreOp}
    (h : op ∈ effective (job.attempts rt config)) :
    op.isAppend = false ∧ op.isDelete = false := by
  obtain ⟨m, hm⟩ := mem_effective h
  obtain ⟨m', -, hmem⟩ := List.mem_flatMap.mp hm
  exact (mem_attempts hmem).2

/-- An update that fails leaves the entity as it was exactly when its intent could not be
logged, a lock was refused, or every write before the failure wrote what was there. -/
theorem update_unchanged_iff (rt : Runtime) (config : OctadConfig) (env : Env) (id : String)
    (input : OctadInput) (w : World) (hregistered : w.registry id ≠ none) (e : OctadError)
    (herror : ((update rt config env id input).run World.exec w).1 = .error e) :
    (((update rt config env id input).run World.exec w).2.stores id = w.stores id ∧
        ((update rt config env id input).run World.exec w).2.registry id = w.registry id) ↔
      (Job.mk (.update id input) env).IntentFails w ∨
        (Job.mk (.update id input) env).LockRefused w ∨
        ∀ op ∈ effective ((Job.mk (.update id input) env).attempts rt config),
          (w.stores id).apply op = w.stores id := by
  obtain ⟨hregistry, hcases⟩ := failed_spec update_follows (.inr hregistered) herror
  have hsame : ((update rt config env id input).run World.exec w).2.registry id =
      w.registry id := by rw [hregistry]
  rcases hcases with ⟨hearly, hstores⟩ | ⟨hintent, hlocks, hstores⟩
  · constructor
    · intro _
      exact hearly.imp_right .inl
    · intro _
      exact ⟨hstores, hsame⟩
  · rw [show (Job.mk (.update id input) env).compensation rt config = [] from rfl,
      List.append_nil] at hstores
    constructor
    · rintro ⟨hunchanged, -⟩
      have hnodup : input.supplied.Nodup := OctadInput.processed_nodup.filter _
      exact .inr (.inr (idle_of_foldl (effective_pairwise rt config env id input hnodup)
        (hstores.symm.trans hunchanged)))
    · rintro (h | h | h)
      · exact absurd h hintent
      · exact absurd h hlocks
      · exact ⟨hstores.trans (foldl_of_idle h), hsame⟩

/-- A store with one entity, which has a document. -/
def stored : World :=
  ((create .sample .standard (.quiet "e1" "t1") note).run World.exec (.new true)).2

/-- A store with one entity, which has the relationship of `citation`. -/
def linked : World :=
  ((create .sample .standard (.quiet "e1" "t1") { graph := citation.graph }).run World.exec
    (.new true)).2

/-- An update that writes a relationship which is there already and then fails changes nothing. -/
theorem update_unchanged_linked :
    (((update .sample .standard (.quiet "e1" "t2") "e1" citation).run World.exec linked).2.stores
        "e1" = linked.stores "e1" ∧
      ((update .sample .standard (.quiet "e1" "t2") "e1" citation).run World.exec
        linked).2.registry "e1" = linked.registry "e1") := by
  have hregistered : linked.registry "e1" ≠ none := by
    show (some _ : Option OctadStatus) ≠ none
    exact Option.some_ne_none _
  refine (update_unchanged_iff .sample .standard (.quiet "e1" "t2") "e1" citation linked
    hregistered (.validationError (.vectorDimension 384 0)) rfl).mpr (.inr (.inr fun op hop => ?_))
  obtain rfl := List.mem_singleton.mp hop
  decide

/-- An update whose vector is refused after its relationships have been written. -/
theorem update_partly_applied :
    stored.registry "e1" ≠ none ∧
      ((update .sample .standard (.quiet "e1" "t2") "e1" citation).run World.exec stored).1 =
        .error (.validationError (.vectorDimension 384 0)) ∧
      (((update .sample .standard (.quiet "e1" "t2") "e1" citation).run World.exec stored).2.stores
        "e1").graph ≠ (stored.stores "e1").graph := by
  refine ⟨?_, rfl, by decide⟩
  show (some _ : Option OctadStatus) ≠ none
  exact Option.some_ne_none _

/-! ### Creates -/

namespace Contents

theorem ext_agree {c d : Contents} (h : ∀ m, c.Agree d m) : c = d := by
  cases c
  cases d
  simp only [mk.injEq]
  exact ⟨h .graph, h .vector, (h .document).1, (h .document).2, h .tensor, h .semantic,
    h .provenance, h .spatial, h .temporal⟩

theorem Agree.congr {c c' d : Contents} {m : Modality} (h : c'.Agree c m) :
    c'.Agree d m ↔ c.Agree d m := by
  cases m with
  | document => exact and_congr (Eq.congr_left h.1) (Eq.congr_left h.2)
  | _ => exact Eq.congr_left h

/-- Nothing of the modality is there. -/
def Clear (c : Contents) (m : Modality) : Prop := c.Agree {} m

theorem write_not_clear {op : StoreOp}
    (h : op.isAppend = false ∧ op.isDelete = false ∧ op.isRead = false) (c : Contents) :
    ¬ (c.apply op).Clear op.modality := by
  cases op with
  | graphInsert edge =>
    simp only [apply]
    split
    · next hmem =>
      intro hclear
      have hempty : c.graph = [] := hclear
      rw [hempty] at hmem
      cases hmem
    · intro hclear
      have hempty : c.graph ++ [edge] = [] := hclear
      simp at hempty
  | provenanceRecordEvent record =>
    intro hclear
    have hempty : c.provenance ++ [record] = [] := hclear
    simp at hempty
  | vectorDelete => exact absurd h.2.1 (by decide)
  | documentDelete => exact absurd h.2.1 (by decide)
  | tensorDelete => exact absurd h.2.1 (by decide)
  | documentCommit => exact absurd h.2.2 (by decide)
  | provenanceGetChain => exact absurd h.2.2 (by decide)
  | temporalAppend data timestamp author message => cases h.1
  | documentIndex doc => exact fun hclear => Option.some_ne_none _ hclear.1
  | _ => exact Option.some_ne_none _

/-- Whatever is in the map of documents is in the index. -/
def Indexed (c : Contents) : Prop := c.indexed = [] → c.document = none

theorem Indexed.apply {c : Contents} (h : c.Indexed) (op : StoreOp) : (c.apply op).Indexed := by
  cases op with
  | graphInsert edge =>
    simp only [Contents.apply]
    split <;> exact h
  | documentIndex doc =>
    intro hnil
    simp [Contents.apply] at hnil
  | documentDelete => exact fun _ => rfl
  | _ => exact h

theorem Indexed.foldl {c : Contents} (h : c.Indexed) (ops : List StoreOp) :
    (ops.foldl Contents.apply c).Indexed := by
  induction ops generalizing c with
  | nil => exact h
  | cons op ops ih => exact ih (h.apply op)

theorem Indexed.clear_iff {c : Contents} (h : c.Indexed) : c.Clear .document ↔ c.indexed = [] :=
  ⟨fun hclear => hclear.2, fun hnil => ⟨h hnil, hnil⟩⟩

/-- A deletion clears its modality, but documents stay in the index. -/
theorem delete_clear_iff {op : StoreOp} (h : op.isDelete = true) {c : Contents} (hc : c.Indexed) :
    (c.apply op).Clear op.modality ↔ c.Clear op.modality ∨ op.modality ≠ .document := by
  cases op with
  | vectorDelete | tensorDelete => exact iff_of_true rfl (.inr (by decide))
  | documentDelete =>
    have hkept : (c.apply .documentDelete).Indexed := hc.apply _
    rw [StoreOp.modality, hkept.clear_iff, hc.clear_iff]
    simp [Contents.apply]
  | _ => cases h

theorem writes_clear_iff {ops : List StoreOp}
    (h : ∀ op ∈ ops, op.isAppend = false ∧ op.isDelete = false) (c : Contents) (m : Modality) :
    (ops.foldl apply c).Clear m ↔
      c.Clear m ∧ ∀ op ∈ ops, op.isRead = false → op.modality ≠ m := by
  induction ops generalizing c with
  | nil => simp
  | cons op ops ih =>
    obtain ⟨happend, hdelete⟩ := h op List.mem_cons_self
    rw [List.foldl_cons, ih fun op' hop' => h op' (.tail _ hop')]
    have hstep : (c.apply op).Clear m ↔ c.Clear m ∧ (op.isRead = false → op.modality ≠ m) := by
      cases hread : op.isRead with
      | true => simp [apply_read hread]
      | false =>
        by_cases hm : op.modality = m
        · have hwrite := write_not_clear ⟨happend, hdelete, hread⟩ c
          simp [← hm, hwrite]
        · simp [hm, Clear, (apply_agree hm c).congr]
    rw [hstep, List.forall_mem_cons, and_assoc]

theorem deletes_clear_iff {ops : List StoreOp} (h : ∀ op ∈ ops, op.isDelete = true)
    {c : Contents} (hc : c.Indexed) (m : Modality) :
    (ops.foldl apply c).Clear m ↔
      c.Clear m ∨ m ≠ .document ∧ ∃ op ∈ ops, op.modality = m := by
  induction ops generalizing c with
  | nil => simp
  | cons op ops ih =>
    rw [List.foldl_cons, ih (fun op' hop' => h op' (.tail _ hop')) (hc.apply op)]
    have hstep : (c.apply op).Clear m ↔ c.Clear m ∨ m ≠ .document ∧ op.modality = m := by
      by_cases hm : op.modality = m
      · rw [← hm, delete_clear_iff (h op List.mem_cons_self) hc]
        simp
      · simp [hm, Clear, (apply_agree hm c).congr]
    rw [hstep, or_assoc, ← and_or_left]
    simp

end Contents

theorem mem_deletion {id : String} {op op' : StoreOp} {fault : Option String} {written : Bool} :
    op' ∈ deletion id op fault written ↔ op' = op ∧ written = true ∧ fault = none := by
  unfold deletion
  cases written <;> cases fault <;> simp [Op.stored]

/-- `rollback_create` deletes what is marked as written, from three of the stores. -/
theorem mem_deletions {env : Env} {id : String} {written : ModalityStatus} :
    (∀ op ∈ deletions env id written, op.isDelete = true) ∧
      ∀ m, (∃ op ∈ deletions env id written, op.modality = m) ↔
        (m = .vector ∨ m = .document ∨ m = .tensor) ∧ written.get m = true ∧
          env.deleteFault m = none := by
  have hmem (op : StoreOp) : op ∈ deletions env id written ↔
      (op = .vectorDelete ∨ op = .documentDelete ∨ op = .tensorDelete) ∧
        written.get op.modality = true ∧ env.deleteFault op.modality = none := by
    simp only [deletions, List.mem_append, mem_deletion]
    constructor
    · rintro ((⟨rfl, h⟩ | ⟨rfl, h⟩) | ⟨rfl, h⟩)
      · exact ⟨.inl rfl, h⟩
      · exact ⟨.inr (.inl rfl), h⟩
      · exact ⟨.inr (.inr rfl), h⟩
    · rintro ⟨rfl | rfl | rfl, h⟩
      · exact .inl (.inl ⟨rfl, h⟩)
      · exact .inl (.inr ⟨rfl, h⟩)
      · exact .inr ⟨rfl, h⟩
  constructor
  · intro op hop
    rcases ((hmem op).mp hop).1 with rfl | rfl | rfl <;> rfl
  · intro m
    constructor
    · rintro ⟨op, hop, rfl⟩
      obtain ⟨hkind, h⟩ := (hmem op).mp hop
      refine ⟨?_, h⟩
      rcases hkind with rfl | rfl | rfl <;> simp [StoreOp.modality]
    · rintro ⟨rfl | rfl | rfl, h⟩
      · exact ⟨.vectorDelete, (hmem _).mpr ⟨.inl rfl, h⟩, rfl⟩
      · exact ⟨.documentDelete, (hmem _).mpr ⟨.inr (.inl rfl), h⟩, rfl⟩
      · exact ⟨.tensorDelete, (hmem _).mpr ⟨.inr (.inr rfl), h⟩, rfl⟩

/-- Whether a failed create deletes again what it wrote to a modality. -/
def Job.Deletes (rt : Runtime) (config : OctadConfig) (job : Job) (m : Modality) : Prop :=
  (m = .vector ∨ m = .document ∨ m = .tensor) ∧
    (writtenBy rt config job.env job.id job.input job.input.supplied {}).get m = true ∧
      job.env.deleteFault m = none

/-- Whether nothing is left of it then; a document stays in the index. -/
def Job.Compensates (rt : Runtime) (config : OctadConfig) (job : Job) (m : Modality) : Prop :=
  m ≠ .document ∧ job.Deletes rt config m

/-- A create that fails leaves nothing behind exactly when its intent could not be logged, a
lock was refused, or every write before the failure was to a vector or tensor that was written
completely and could be deleted again. -/
theorem create_undone_iff (rt : Runtime) (config : OctadConfig) (env : Env) (input : OctadInput)
    (w : World) (hcontents : w.stores env.uuid = {}) (hregistry : w.registry env.uuid = none)
    (e : OctadError)
    (herror : ((create rt config env input).run World.exec w).1 = .error e) :
    (((create rt config env input).run World.exec w).2.stores env.uuid = {} ∧
        ((create rt config env input).run World.exec w).2.registry env.uuid = none) ↔
      (Job.mk (.create input) env).IntentFails w ∨
        (Job.mk (.create input) env).LockRefused w ∨
        ∀ op ∈ effective ((Job.mk (.create input) env).attempts rt config),
          op.isRead = false → (Job.mk (.create input) env).Compensates rt config op.modality := by
  obtain ⟨hsame, hcases⟩ := failed_spec create_follows (.inl rfl) herror
  have hnone : ((create rt config env input).run World.exec w).2.registry env.uuid = none := by
    rw [hsame]
    exact hregistry
  rcases hcases with ⟨hearly, hstores⟩ | ⟨hintent, hlocks, hstores⟩
  · constructor
    · intro _
      exact hearly.imp_right .inl
    · intro _
      exact ⟨hstores.trans hcontents, hnone⟩
  · have hstores : ((create rt config env input).run World.exec w).2.stores env.uuid =
        (deletions env env.uuid (writtenBy rt config env env.uuid input input.supplied {})).foldl
          Contents.apply ((effective ((Job.mk (.create input) env).attempts rt config)).foldl
            Contents.apply {}) := by
      rw [← hcontents, ← List.foldl_append]
      exact hstores
    have hclear (m : Modality) :
        (((create rt config env input).run World.exec w).2.stores env.uuid).Clear m ↔
          ∀ op ∈ effective ((Job.mk (.create input) env).attempts rt config),
            op.isRead = false → op.modality = m →
              (Job.mk (.create input) env).Compensates rt config m := by
      have hindexed : ({} : Contents).Indexed := fun _ => rfl
      rw [hstores, Contents.deletes_clear_iff mem_deletions.1 (hindexed.foldl _),
        Contents.writes_clear_iff fun op hop => Job.effective_spec hop, mem_deletions.2]
      constructor
      · rintro (⟨-, hnowrite⟩ | hcompensates) op hop hread hm
        · exact absurd hm (hnowrite op hop hread)
        · exact hcompensates
      · intro h
        by_cases hcompensates : (Job.mk (.create input) env).Compensates rt config m
        · exact .inr hcompensates
        · exact .inl ⟨Contents.Agree.refl _ m,
            fun op hop hread hm => hcompensates (h op hop hread hm)⟩
    constructor
    · rintro ⟨hempty, -⟩
      refine .inr (.inr fun op hop hread => ?_)
      refine (hclear op.modality).mp ?_ op hop hread rfl
      rw [hempty]
      exact Contents.Agree.refl _ _
    · rintro (h | h | h)
      · exact absurd h hintent
      · exact absurd h hlocks
      · refine ⟨Contents.ext_agree fun m => ?_, hnone⟩
        refine (hclear m).mpr ?_
        rintro op hop hread rfl
        exact h op hop hread

/-- A store of vectors of dimension 1. -/
def OctadConfig.line : OctadConfig := ⟨"https://verisim.db/entity", 1⟩

/-- An input with a vector of dimension 1, and a tensor whose data do not have its shape. -/
def crooked : OctadInput := { vector := some ⟨[.finite 1], none⟩, tensor := some ⟨[2], []⟩ }

/-- A create that writes a vector, is refused a tensor and deletes the vector again leaves nothing
behind. -/
theorem create_undone_crooked :
    (((create .sample .line (.quiet "e1" "t1") crooked).run World.exec (.new true)).2.stores
        "e1" = {} ∧
      ((create .sample .line (.quiet "e1" "t1") crooked).run World.exec (.new true)).2.registry
        "e1" = none) := by
  refine (create_undone_iff .sample .line (.quiet "e1" "t1") crooked (.new true) rfl rfl _
    rfl).mpr (.inr (.inr fun op hop _ => ?_))
  obtain rfl := List.mem_singleton.mp hop
  exact ⟨by decide, .inl rfl, rfl, rfl⟩

/-- A create whose vector is refused keeps the relationships that it has written. -/
theorem create_leaves_edges :
    ((create .sample .standard (.quiet "e1" "t1") citation).run World.exec (.new true)).1 =
        .error (.validationError (.vectorDimension 384 0)) ∧
      (((create .sample .standard (.quiet "e1" "t1") citation).run World.exec (.new true)).2.stores
        "e1").graph ≠ [] :=
  ⟨rfl, by decide⟩

/-- A document that is deleted again is still found in the index. -/
example : (((create .sample .standard (.quiet "e1" "t1") { note with tensor := crooked.tensor }).run
    World.exec (.new true)).2.stores "e1").indexed = [⟨"e1", "note", "text", []⟩] := by decide

end NextgenDatabases.Verisim
