import NextgenDatabases.Planner.VclBridge

/-!
# What of a query reaches its plan

The modalities, conditions, projections and further steps of a plan, each as a function of the
query.
-/
namespace NextgenDatabases.Planner

open Foundations (Buckets)

/-! ### The parts of a query that reach the plan -/

/-- The modalities that a requested modality stands for. -/
def VclModality.concrete : VclModality → List Modality
  | .graph => [.graph]
  | .vector => [.vector]
  | .tensor => [.tensor]
  | .semantic => [.semantic]
  | .document => [.document]
  | .temporal => [.temporal]
  | .all => Modality.all

/-- The parts of a conjunction, which are not conjunctions. -/
def VclCondition.conjuncts : VclCondition → List VclCondition
  | .and lhs rhs => lhs.conjuncts ++ rhs.conjuncts
  | .or lhs rhs => [.or lhs rhs]
  | .not inner => [.not inner]
  | .simple s => [.simple s]

/-- What the node of a modality receives of a conjunct. -/
def rendered (fmt : Formats) (active : List Modality) (m : Modality) :
    VclCondition → Option ConditionKind
  | .and _ _ => none
  | .or lhs rhs => some (orPredicate fmt lhs rhs)
  | .not inner => some (notPredicate fmt inner)
  | .simple s =>
    match mapSimpleCondition fmt s with
    | .ok (some t, kind) =>
      if t ∈ active then if m = t then some kind else none else some (strayPredicate fmt t kind)
    | .ok (none, kind) => some kind
    | .error _ => none

/-- The name under which a projection reaches the node of a modality. -/
def VclProjection.at (m : Modality) (p : VclProjection) : Option String :=
  match p.field.modality with
  | some vm => if vclModalityToPlanner vm = .ok m then some (p.alias_.getD p.field.field) else none
  | none => some (p.alias_.getD p.field.field)

/-- A name without a modality does not look like one with a modality. -/
def VclFieldRef.Plain (f : VclFieldRef) : Prop := f.modality = none → '.' ∉ f.field.toList

namespace VclQuery

variable (q : VclQuery)

def requested : List Modality := q.modalities.flatMap VclModality.concrete

def conjuncts : List VclCondition := (q.whereClause.map VclCondition.conjuncts).getD []

/-- The WHERE conditions of the node of a modality. -/
def received (fmt : Formats) (m : Modality) : List ConditionKind :=
  q.conjuncts.filterMap (rendered fmt q.requested m)

def contracts : List String := (q.proof.getD []).map VclProofSpec.contractName

def projected (m : Modality) : List String :=
  (q.projections.getD []).filterMap (VclProjection.at m)

/-- The columns of the final projection, which a query with groups does not have. -/
def columns : Option (List String) :=
  if q.groupBy.isNone then
    (q.projections.map fun projs => projs.map VclProjection.column).filter (· ≠ [])
  else
    none

/-- An offset of zero skips nothing. -/
def skipped : Option UInt64 := q.offset.filter (0 < ·)

/-- Without a limit, an offset leaves all the other rows. -/
def count : Option UInt64 :=
  q.limit <|> q.skipped.map (0xFFFFFFFFFFFFFFFF - ·)

/-- The texts that are searched for. -/
def searches : List String := q.conjuncts.filterMap fun
  | .simple (.fulltextContains text) => some text
  | _ => none

def patterns : List (String × Option UInt32) := q.conjuncts.filterMap fun
  | .simple (.graphPattern predicate depth) => some (predicate, depth)
  | _ => none

def dimensions : List ℕ := q.conjuncts.filterMap fun
  | .simple (.vectorSimilar embedding _) => some embedding.length
  | _ => none

/-- The only column is not written like an offset. -/
def Unmarked : Prop := ∀ skip, q.columns ≠ some [offsetMarker skip]

/-- No name of a group or of an order without a modality holds a dot. -/
def Dotless : Prop :=
  (∀ f ∈ q.groupBy.getD [], f.Plain) ∧ ∀ o ∈ q.orderBy.getD [], o.field.Plain

end VclQuery

/-! ### Modalities -/

theorem resolveModalities_eq (vms : List VclModality) :
    resolveModalities vms = .ok (vms.flatMap VclModality.concrete).eraseDups := by
  have hfold (acc : List Modality) : vms.foldlM pushModality acc =
      .ok (acc ++ vms.flatMap VclModality.concrete) := by
    induction vms generalizing acc with
    | nil => simp [pure, Except.pure]
    | cons vm vms ih =>
      rw [List.foldlM_cons, List.flatMap_cons, ← List.append_assoc]
      cases vm <;> exact ih _
  rw [resolveModalities, hfold]
  rfl

theorem nodup_eraseDups {α : Type} [DecidableEq α] (l : List α) : l.eraseDups.Nodup := by
  induction h : l.length using Nat.strong_induction_on generalizing l with
  | _ n ih =>
    subst h
    cases l with
    | nil => exact List.nodup_nil
    | cons a l =>
      rw [List.eraseDups_cons, List.nodup_cons]
      constructor
      · simp [List.mem_eraseDups]
      · exact ih _ (Nat.lt_succ_of_le (List.length_filter_le _ _)) _ rfl

/-! ### Nodes -/

section nodes

variable {fmt : Formats} {active active' : List Modality} {c : VclCondition} {q : VclQuery}
  {m : Modality}

theorem rendered_congr (h : ∀ m, m ∈ active ↔ m ∈ active') :
    rendered fmt active m c = rendered fmt active' m c := by
  cases c with
  | simple s =>
    unfold rendered
    simp only [h]
  | and lhs rhs => rfl
  | or lhs rhs => rfl
  | not inner => rfl

theorem flattenConditions_eq {out out' : Buckets Modality ConditionKind} (hnodup : active.Nodup)
    (hkeys : ∀ m, out m ≠ none ↔ m ∈ active) (h : flattenConditions fmt active c out = .ok out') :
    out' = fun m => (out m).map (· ++ c.conjuncts.filterMap (rendered fmt active m)) := by
  induction c generalizing out out' with
  | and lhs rhs ihl ihr =>
    rw [flattenConditions] at h
    cases hl : flattenConditions fmt active lhs out with
    | error e => simp [hl, bind, Except.bind] at h
    | ok mid =>
      simp only [hl, bind, Except.bind] at h
      have hmid := ihl hkeys hl
      have hmidkeys (m : Modality) : mid m ≠ none ↔ m ∈ active := by
        rw [← hkeys, hmid]
        simp
      rw [ihr hmidkeys h, hmid]
      funext m
      simp [VclCondition.conjuncts, Function.comp_def]
  | or lhs rhs _ _ =>
    cases h
    exact Buckets.broadcast_eq_map hnodup hkeys
  | not inner _ =>
    cases h
    exact Buckets.broadcast_eq_map hnodup hkeys
  | simple s =>
    rw [flattenConditions] at h
    cases hs : mapSimpleCondition fmt s with
    | error e => simp [hs, bind, Except.bind] at h
    | ok result =>
      obtain ⟨target, kind⟩ := result
      simp only [hs, bind, Except.bind] at h
      cases target with
      | none =>
        cases h
        rw [Buckets.broadcast_eq_map hnodup hkeys]
        simp [VclCondition.conjuncts, rendered, hs]
      | some t =>
        dsimp only at h
        by_cases ht : t ∈ active
        · have hsome : out t ≠ none := (hkeys t).mpr ht
          rw [if_pos (Option.isSome_iff_ne_none.mpr hsome)] at h
          cases h
          rw [Buckets.push_eq_map hsome]
          funext m
          by_cases hm : m = t <;> simp [VclCondition.conjuncts, rendered, hs, ht, hm]
        · have hnone : ¬ (out t).isSome = true := by
            rw [Option.isSome_iff_ne_none]
            exact fun hne => ht ((hkeys t).mp hne)
          rw [if_neg hnone] at h
          cases h
          rw [Buckets.broadcast_eq_map hnodup hkeys]
          simp [VclCondition.conjuncts, rendered, hs, ht]

theorem buildProjectionMap_getD (hm : m ∈ active) (hnodup : active.Nodup) :
    ((buildProjectionMap active q.projections) m).getD [] = q.projected m := by
  cases hproj : q.projections with
  | none => simp [buildProjectionMap, VclQuery.projected, hproj]
  | some projs =>
    unfold buildProjectionMap VclQuery.projected
    rw [hproj, Option.getD_some, Buckets.getD_foldl (g := VclProjection.at m)]
    · rfl
    · intro out p
      unfold VclProjection.at
      cases hmod : p.field.modality with
      | none => simp [Buckets.broadcast_of_mem hnodup hm]
      | some vm =>
        cases hvm : vclModalityToPlanner vm with
        | error e => simp [hvm]
        | ok t =>
          by_cases ht : m = t
          · subst ht
            simp [hvm, hm, Buckets.push_self]
          · have hne : ¬ t = m := fun h => ht h.symm
            by_cases htm : t ∈ active <;> simp [hvm, htm, hne, Buckets.push_of_ne ht]

/-- What the proofs of a query add to the conditions of a node. -/
def VclQuery.verifications (q : VclQuery) (m : Modality) : List ConditionKind :=
  if m = .semantic then q.contracts.map ConditionKind.proofVerification else []

theorem foldl_pushProof_getD (specs : List VclProofSpec) (out : Buckets Modality ConditionKind) :
    ((specs.foldl pushProof out) m).getD [] = (out m).getD [] ++
      if m = .semantic then specs.map fun spec => .proofVerification spec.contractName else [] := by
  rw [Buckets.getD_foldl (g := fun spec =>
    if m = .semantic then some (ConditionKind.proofVerification spec.contractName) else none)]
  · split_ifs <;> simp
  · intro out spec
    by_cases hm : m = .semantic
    · subst hm
      simp [pushProof, Buckets.push_self]
    · simp [pushProof, Buckets.push_of_ne hm, hm]

theorem buildConditionMap_getD {map : Buckets Modality ConditionKind} (hnodup : active.Nodup)
    (hactive : ∀ m, m ∈ active ↔ m ∈ q.requested) (hm : m ∈ active)
    (h : buildConditionMap fmt active q = .ok map) :
    (map m).getD [] = q.received fmt m ++ q.verifications m := by
  have hkeys (m : Modality) :
      (if m ∈ active then some ([] : List ConditionKind) else none) ≠ none ↔ m ∈ active := by
    split_ifs with hmem <;> simp [hmem]
  have hrendered : rendered fmt active m = rendered fmt q.requested m :=
    funext fun c => rendered_congr hactive
  unfold buildConditionMap at h
  unfold VclQuery.received VclQuery.conjuncts VclQuery.verifications VclQuery.contracts
  rw [List.map_map, ← hrendered]
  cases hwhere : q.whereClause with
  | none =>
    simp only [hwhere, bind, Except.bind, pure, Except.pure, Except.ok.injEq] at h
    rw [← h, foldl_pushProof_getD, if_pos hm]
    rfl
  | some cond =>
    simp only [hwhere, bind, Except.bind, pure, Except.pure] at h
    cases hflatten : flattenConditions fmt active cond
        (fun m => if m ∈ active then some [] else none) with
    | error e => simp [hflatten] at h
    | ok out =>
      simp only [hflatten, Except.ok.injEq] at h
      rw [← h, foldl_pushProof_getD, flattenConditions_eq hnodup hkeys hflatten]
      dsimp only
      rw [if_pos hm]
      rfl

/-- The node of a modality. -/
def VclQuery.node (fmt : Formats) (q : VclQuery) (m : Modality) : PlanNode where
  modality := m
  conditions := q.received fmt m ++ q.verifications m
  projections := q.projected m
  earlyLimit := none

theorem toLogicalPlan_ok {p : LogicalPlan} (h : toLogicalPlan fmt q = .ok p) :
    mapSource q.source = .ok p.source ∧
      (∀ node, node ∈ p.nodes ↔ ∃ m ∈ q.requested, node = q.node fmt m) ∧
      p.postProcessing = postProcess q := by
  have hnodup : q.requested.eraseDups.Nodup := nodup_eraseDups _
  have hactive (m : Modality) : m ∈ q.requested.eraseDups ↔ m ∈ q.requested := List.mem_eraseDups
  unfold toLogicalPlan at h
  rw [resolveModalities_eq, ← VclQuery.requested] at h
  simp only [bind, Except.bind, pure, Except.pure] at h
  split_ifs at h
  cases hsource : mapSource q.source with
  | error e => simp [hsource] at h
  | ok source =>
    cases hmap : buildConditionMap fmt q.requested.eraseDups q with
    | error e => simp [hsource, hmap] at h
    | ok map =>
      simp only [hsource, hmap, Except.ok.injEq] at h
      subst h
      refine ⟨rfl, ?_, rfl⟩
      intro node
      have hnode : ∀ m ∈ q.requested.eraseDups, ({
          modality := m
          conditions := (map m).getD []
          projections := ((buildProjectionMap q.requested.eraseDups q.projections) m).getD []
          earlyLimit := none } : PlanNode) = q.node fmt m := by
        intro m hm
        rw [buildConditionMap_getD hnodup hactive hm hmap, buildProjectionMap_getD hm hnodup]
        rfl
      rw [List.mem_insertionSort, List.mem_map]
      constructor
      · rintro ⟨m, hm, rfl⟩
        exact ⟨m, (hactive m).mp hm, hnode m hm⟩
      · rintro ⟨m, hm, rfl⟩
        exact ⟨m, (hactive m).mpr hm, hnode m ((hactive m).mpr hm)⟩

end nodes

/-! ### Steps after the nodes -/

section steps

variable (q : VclQuery) (post : List PostProcessing)

theorem groupSteps_eq : groupSteps q = (q.groupBy.map fun fields =>
    PostProcessing.groupBy (fields.map fieldRefName)
      ((q.aggregates.getD []).map VclAggregate.render)).toList := by
  unfold groupSteps
  cases q.groupBy with
  | none => rfl
  | some fields => cases q.aggregates <;> rfl

theorem orderSteps_eq : orderSteps q = (q.orderBy.map fun fields =>
    PostProcessing.orderBy
      (fields.map fun o => (fieldRefName o.field, decide (o.direction = .asc)))).toList := by
  unfold orderSteps
  cases q.orderBy <;> rfl

theorem pushColumns_eq :
    pushColumns q post = post ++ (q.columns.map PostProcessing.project).toList := by
  unfold pushColumns VclQuery.columns
  split_ifs
  · cases q.projections with
    | none => simp
    | some projs => by_cases h : projs = [] <;> simp [Option.filter, h]
  · simp

theorem pushOffset_eq : pushOffset q (groupSteps q ++ orderSteps q ++ limitSteps q) =
    groupSteps q ++ orderSteps q ++ (q.count.map PostProcessing.limit).toList ++
      (q.skipped.map fun skip => PostProcessing.project [offsetMarker skip]).toList := by
  have hlimit : (groupSteps q ++ orderSteps q ++ limitSteps q).any PostProcessing.isLimit =
      q.limit.isSome := by
    rw [groupSteps_eq, orderSteps_eq]
    unfold limitSteps
    cases q.groupBy <;> cases q.orderBy <;> cases q.limit <;> rfl
  unfold pushOffset VclQuery.count VclQuery.skipped
  cases hoffset : q.offset with
  | none =>
    unfold limitSteps
    cases q.limit <;> simp
  | some skip =>
    dsimp only
    rw [hlimit]
    unfold limitSteps
    by_cases hskip : 0 < skip
    · cases q.limit <;> simp [hskip, Option.filter]
    · cases q.limit <;> simp [hskip, Option.filter]

theorem postProcess_eq : postProcess q =
    groupSteps q ++ orderSteps q ++ (q.count.map PostProcessing.limit).toList ++
      (q.skipped.map fun skip => PostProcessing.project [offsetMarker skip]).toList ++
        (q.columns.map PostProcessing.project).toList := by
  rw [postProcess, pushColumns_eq, pushOffset_eq]

end steps

end NextgenDatabases.Planner
