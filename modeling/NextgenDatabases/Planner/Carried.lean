import NextgenDatabases.Planner.Contents
import Mathlib.Logic.Relation

/-!
# What a plan carries

A plan determines its query up to what the conversion leaves out: two queries with the same
plan agree in all that the plan carries. As every plan leaves something out, none carries its whole
query.
-/
namespace NextgenDatabases.Planner

open Foundations (Buckets)

/-- The sources differ at most in their octad or their drift policy. -/
inductive SameOrigin : VclSource → VclSource → Prop
  | octad (uuid uuid' : Option String) : SameOrigin (.octad uuid) (.octad uuid')
  | federation (nodes : List String) (driftPolicy driftPolicy' : Option String) :
      SameOrigin (.federation nodes driftPolicy) (.federation nodes driftPolicy')
  | store (modality : VclModality) : SameOrigin (.store modality) (.store modality)

/-- The queries agree in all that a plan carries. -/
structure Agree (fmt : Formats) (a b : VclQuery) : Prop where
  requested : ∀ m, m ∈ a.requested ↔ m ∈ b.requested
  source : SameOrigin a.source b.source
  received : ∀ m ∈ a.requested, a.received fmt m = b.received fmt m
  searches : .document ∈ a.requested → a.searches = b.searches
  patterns : .graph ∈ a.requested → a.patterns = b.patterns
  dimensions : .vector ∈ a.requested → a.dimensions = b.dimensions
  contracts : .semantic ∈ a.requested → a.contracts = b.contracts
  groups : a.groupBy.map (·.map fieldRefName) = b.groupBy.map (·.map fieldRefName)
  aggregates : a.groupBy ≠ none →
    (a.aggregates.getD []).map VclAggregate.render = (b.aggregates.getD []).map VclAggregate.render
  orders : a.orderBy.map (·.map fun o => (fieldRefName o.field, o.direction)) =
    b.orderBy.map (·.map fun o => (fieldRefName o.field, o.direction))
  refs : a.Dotless → b.Dotless → a.groupBy = b.groupBy ∧ a.orderBy = b.orderBy
  projected : ∀ m ∈ a.requested, a.projected m = b.projected m
  count : a.count = b.count
  columns : a.Unmarked → b.Unmarked → a.skipped = b.skipped ∧ a.columns = b.columns

/-! ### Sources -/

theorem sameOrigin_of_mapSource {s s' : VclSource} {source : QuerySource}
    (h : mapSource s = .ok source) (h' : mapSource s' = .ok source) : SameOrigin s s' := by
  have hstore {vm : VclModality} (hvm : mapSource (.store vm) = .ok source) :
      ∃ m, vclModalityToPlanner vm = .ok m ∧ source = .store m := by
    cases hm : vclModalityToPlanner vm with
    | error e => simp [mapSource, hm, bind, Except.bind] at hvm
    | ok m =>
      simp only [mapSource, hm, bind, Except.bind, pure, Except.pure, Except.ok.injEq] at hvm
      exact ⟨m, rfl, hvm.symm⟩
  cases s with
  | octad uuid =>
    cases h
    cases s' with
    | octad uuid' => exact .octad uuid uuid'
    | federation nodes driftPolicy => cases h'
    | store vm =>
      obtain ⟨m, -, hm⟩ := hstore h'
      cases hm
  | federation nodes driftPolicy =>
    cases h
    cases s' with
    | octad uuid => cases h'
    | federation nodes' driftPolicy' =>
      cases h'
      exact .federation nodes driftPolicy driftPolicy'
    | store vm =>
      obtain ⟨m, -, hm⟩ := hstore h'
      cases hm
  | store vm =>
    obtain ⟨m, hm, rfl⟩ := hstore h
    cases s' with
    | octad uuid => cases h'
    | federation nodes driftPolicy => cases h'
    | store vm' =>
      obtain ⟨m', hm', heq⟩ := hstore h'
      cases heq
      have hsame : vm = vm' := by
        revert hm hm'
        cases vm <;> cases vm' <;> cases m <;> simp [vclModalityToPlanner]
      rw [hsame]
      exact .store vm'

/-! ### Reading the steps -/

namespace PostProcessing

def grouping : PostProcessing → Option (List String × List String)
  | .groupBy fields aggregates => some (fields, aggregates)
  | _ => none

def ordering : PostProcessing → Option (List (String × Bool))
  | .orderBy fields => some fields
  | _ => none

def limiting : PostProcessing → Option UInt64
  | .limit count => some count
  | _ => none

def projecting : PostProcessing → Option (List String)
  | .project columns => some columns
  | _ => none

end PostProcessing

section readings

variable (q : VclQuery)

theorem filterMap_toList {α β γ : Type} {f : β → Option γ} {g : α → β} (o : Option α) :
    (o.map g).toList.filterMap f = (o.bind fun a => f (g a)).toList := by
  cases o with
  | none => rfl
  | some a => cases h : f (g a) <;> simp [h]

theorem groupings_postProcess : (postProcess q).filterMap PostProcessing.grouping =
    (q.groupBy.map fun fields =>
      (fields.map fieldRefName, (q.aggregates.getD []).map VclAggregate.render)).toList := by
  rw [postProcess_eq, groupSteps_eq, orderSteps_eq]
  simp only [List.filterMap_append, filterMap_toList]
  simp [PostProcessing.grouping, Option.map_eq_bind]

theorem orderings_postProcess : (postProcess q).filterMap PostProcessing.ordering =
    (q.orderBy.map fun fields =>
      fields.map fun o => (fieldRefName o.field, decide (o.direction = .asc))).toList := by
  rw [postProcess_eq, groupSteps_eq, orderSteps_eq]
  simp only [List.filterMap_append, filterMap_toList]
  simp [PostProcessing.ordering, Option.map_eq_bind]

theorem limitings_postProcess :
    (postProcess q).filterMap PostProcessing.limiting = q.count.toList := by
  rw [postProcess_eq, groupSteps_eq, orderSteps_eq]
  simp only [List.filterMap_append, filterMap_toList]
  simp [PostProcessing.limiting]

theorem projectings_postProcess : (postProcess q).filterMap PostProcessing.projecting =
    (q.skipped.map fun skip => [offsetMarker skip]).toList ++
      q.columns.toList := by
  rw [postProcess_eq, groupSteps_eq, orderSteps_eq]
  simp only [List.filterMap_append, filterMap_toList]
  simp [PostProcessing.projecting, Option.map_eq_bind]

end readings

/-! ### Conditions -/

section conditions

variable {fmt : Formats} {active : List Modality} {s : VclSimpleCondition} {target : Option Modality}
  {kind : ConditionKind} {m : Modality} {q : VclQuery}

/-- The condition that a kind comes from, where the kind tells it. -/
def ConditionKind.Renders (s : VclSimpleCondition) : ConditionKind → Prop
  | .fulltext text => s = .fulltextContains text
  | .similarity k => ∃ embedding threshold, s = .vectorSimilar embedding threshold ∧
      k = embedding.length
  | .traversal pred depth => s = .graphPattern pred depth
  | .atTime _ | .proofVerification _ | .tensorOp _ => False
  | .equality _ _ | .range _ _ _ | .predicate _ => True

theorem renders_of_mapSimpleCondition (h : mapSimpleCondition fmt s = .ok (target, kind)) :
    kind.Renders s := by
  cases s with
  | fulltextContains text =>
    cases h
    rfl
  | vectorSimilar embedding threshold =>
    cases h
    exact ⟨embedding, threshold, rfl, rfl⟩
  | graphPattern predicate depth =>
    cases h
    rfl
  | fieldCondition field operator value =>
    simp only [mapSimpleCondition, Except.ok.injEq, Prod.mk.injEq] at h
    rw [← h.2]
    split_ifs <;> trivial
  | crossModalFieldCompare left operator right =>
    cases h
    trivial
  | modalityDrift modality threshold => cases modality <;> cases h <;> trivial
  | modalityExists modality => cases modality <;> cases h <;> trivial
  | modalityNotExists modality => cases modality <;> cases h <;> trivial
  | modalityConsistency modalities threshold =>
    cases h
    trivial

theorem kind_of_rendered {c : VclCondition} (h : rendered fmt active m c = some kind) :
    (∃ s target, c = .simple s ∧ mapSimpleCondition fmt s = .ok (target, kind)) ∨
      ∃ expression, kind = .predicate expression := by
  cases c with
  | and lhs rhs => cases h
  | or lhs rhs =>
    cases h
    exact .inr ⟨_, rfl⟩
  | not inner =>
    cases h
    exact .inr ⟨_, rfl⟩
  | simple s =>
    cases hs : mapSimpleCondition fmt s with
    | error e => simp [rendered, hs] at h
    | ok result =>
      obtain ⟨_ | t, kind'⟩ := result
      · simp only [rendered, hs, Option.some.injEq] at h
        subst h
        exact .inl ⟨s, none, rfl, hs⟩
      · simp only [rendered, hs] at h
        split_ifs at h
        · cases h
          exact .inl ⟨s, some t, rfl, hs⟩
        · cases h
          exact .inr ⟨_, rfl⟩

def ConditionKind.isVerification : ConditionKind → Bool
  | .proofVerification _ => true
  | _ => false

theorem isVerification_of_received (h : kind ∈ q.received fmt m) : kind.isVerification = false := by
  obtain ⟨c, -, hc⟩ := List.mem_filterMap.mp h
  rcases kind_of_rendered hc with ⟨s, target, -, hs⟩ | ⟨expression, rfl⟩
  · have hkind := renders_of_mapSimpleCondition hs
    cases kind <;> first | rfl | cases hkind
  · rfl

theorem isVerification_of_verifications (h : kind ∈ q.verifications m) :
    kind.isVerification = true := by
  unfold VclQuery.verifications at h
  split_ifs at h
  · obtain ⟨contract, -, rfl⟩ := List.mem_map.mp h
    rfl
  · cases h

/-- The conditions of a node tell those of WHERE from those of PROOF. -/
theorem received_of_conditions {b : VclQuery}
    (h : q.received fmt m ++ q.verifications m = b.received fmt m ++ b.verifications m) :
    q.received fmt m = b.received fmt m ∧ q.verifications m = b.verifications m := by
  have hreceived (q : VclQuery) :
      (q.received fmt m ++ q.verifications m).filter (fun kind => !kind.isVerification) =
        q.received fmt m := by
    rw [List.filter_append, List.filter_eq_self.mpr, List.filter_eq_nil_iff.mpr, List.append_nil]
    · intro kind hkind
      simp [isVerification_of_verifications hkind]
    · intro kind hkind
      simp [isVerification_of_received hkind]
  have hsame : q.received fmt m = b.received fmt m := by
    rw [← hreceived q, h, hreceived b]
  rw [hsame] at h
  exact ⟨hsame, List.append_cancel_left h⟩

/-- What is read off the rendered conditions is what is read off the conjuncts. -/
theorem filterMap_received {β : Type} {decode : ConditionKind → Option β}
    {pick : VclCondition → Option β}
    (h : ∀ c, (rendered fmt q.requested m c).bind decode = pick c) :
    (q.received fmt m).filterMap decode = q.conjuncts.filterMap pick := by
  rw [VclQuery.received, List.filterMap_filterMap]
  exact List.filterMap_congr fun c _ => h c

def ConditionKind.text : ConditionKind → Option String
  | .fulltext query => some query
  | _ => none

def ConditionKind.pattern : ConditionKind → Option (String × Option UInt32)
  | .traversal pred depth => some (pred, depth)
  | _ => none

def ConditionKind.dimension : ConditionKind → Option ℕ
  | .similarity k => some k
  | _ => none

/-- A leaf that no kind of its own tells is not read off the rendered conditions. -/
theorem rendered_bind_eq_none {β : Type} {decode : ConditionKind → Option β} {c : VclCondition}
    (hpredicate : ∀ expression, decode (.predicate expression) = none)
    (hkind : ∀ s kind, c = .simple s → kind.Renders s → decode kind = none) :
    (rendered fmt active m c).bind decode = none := by
  rw [Option.bind_eq_none_iff]
  intro kind hrendered
  rcases kind_of_rendered hrendered with ⟨s, target, rfl, hs⟩ | ⟨expression, rfl⟩
  · exact hkind s kind rfl (renders_of_mapSimpleCondition hs)
  · exact hpredicate expression

theorem searches_of_received (h : .document ∈ q.requested) :
    (q.received fmt .document).filterMap ConditionKind.text = q.searches := by
  apply filterMap_received
  intro c
  split
  · simp [rendered, mapSimpleCondition, h, ConditionKind.text]
  · apply rendered_bind_eq_none
    · exact fun _ => rfl
    · rintro s kind rfl hs
      cases kind <;> first | rfl | simp_all [ConditionKind.Renders]

theorem patterns_of_received (h : .graph ∈ q.requested) :
    (q.received fmt .graph).filterMap ConditionKind.pattern = q.patterns := by
  apply filterMap_received
  intro c
  split
  · simp [rendered, mapSimpleCondition, h, ConditionKind.pattern]
  · apply rendered_bind_eq_none
    · exact fun _ => rfl
    · rintro s kind rfl hs
      cases kind <;> first | rfl | simp_all [ConditionKind.Renders]

theorem dimensions_of_received (h : .vector ∈ q.requested) :
    (q.received fmt .vector).filterMap ConditionKind.dimension = q.dimensions := by
  apply filterMap_received
  intro c
  split
  · simp [rendered, mapSimpleCondition, h, ConditionKind.dimension]
  · apply rendered_bind_eq_none
    · exact fun _ => rfl
    · rintro s kind rfl hs
      cases kind <;> first | rfl | simp_all [ConditionKind.Renders]

end conditions

/-! ### Names -/

theorem fieldRefName_inj {f g : VclFieldRef} (hf : f.Plain) (hg : g.Plain)
    (h : fieldRefName f = fieldRefName g) : f = g := by
  have hdebug (m : VclModality) (name : String) :
      (m.debug ++ "." ++ name).toList.takeWhile (· ≠ '.') = m.debug.toList := by
    cases m <;> simp [VclModality.debug]
  have hinj (m m' : VclModality) (hm : m.debug.toList = m'.debug.toList) : m = m' := by
    revert hm
    cases m <;> cases m' <;> decide
  obtain ⟨mf, f⟩ := f
  obtain ⟨mg, g⟩ := g
  have hlist := congrArg String.toList h
  cases mf with
  | none =>
    cases mg with
    | none =>
      simp only [fieldRefName] at h
      rw [h]
    | some m =>
      have hdot : '.' ∉ f.toList := hf rfl
      simp only [fieldRefName] at hlist
      rw [hlist] at hdot
      simp at hdot
  | some m =>
    cases mg with
    | none =>
      have hdot : '.' ∉ g.toList := hg rfl
      simp only [fieldRefName] at hlist
      rw [← hlist] at hdot
      simp at hdot
    | some m' =>
      simp only [fieldRefName] at hlist
      have hm : m = m' := by
        apply hinj
        rw [← hdebug m f, hlist, hdebug m' g]
      simp only [hm, String.toList_append] at hlist
      rw [hm, String.toList_injective (List.append_cancel_left hlist)]

/-- A function that is injective on the elements of two lists tells the lists apart. -/
theorem eq_of_map_eq {α β : Type} {f : α → β} {l l' : List α}
    (hinj : ∀ a ∈ l, ∀ b ∈ l', f a = f b → a = b) (h : l.map f = l'.map f) : l = l' := by
  rw [← List.forall₂_eq_eq_eq] at h ⊢
  rw [List.forall₂_map_left_iff, List.forall₂_map_right_iff] at h
  induction h with
  | nil => exact .nil
  | cons hab _ ih =>
    refine .cons (hinj _ List.mem_cons_self _ List.mem_cons_self hab) (ih ?_)
    intro a ha b hb
    exact hinj a (List.mem_cons_of_mem _ ha) b (List.mem_cons_of_mem _ hb)

theorem eq_of_option_map_eq {α β : Type} {f : α → β} {o o' : Option (List α)}
    (hinj : ∀ a ∈ o.getD [], ∀ b ∈ o'.getD [], f a = f b → a = b)
    (h : o.map (·.map f) = o'.map (·.map f)) : o = o' := by
  cases o with
  | none => cases o' <;> simp_all
  | some l =>
    cases o' with
    | none => simp at h
    | some l' => exact congrArg some (eq_of_map_eq hinj (Option.some.inj h))

theorem eq_of_toList_eq {α : Type} {o o' : Option α} (h : o.toList = o'.toList) : o = o' := by
  cases o <;> cases o' <;> simp_all

theorem offsetMarker_inj {skip skip' : UInt64} (h : offsetMarker skip = offsetMarker skip') :
    skip = skip' := by
  unfold offsetMarker at h
  have hlist := congrArg String.toList h
  rw [String.toList_append, String.toList_append] at hlist
  have hdigits := List.append_cancel_left hlist
  have hvalue := congrArg (fun digits => Nat.ofDigitChars 10 digits 0) hdigits
  rw [← UInt64.toNat_inj]
  simpa using hvalue

/-! ### Two queries with one plan -/

section agree

variable {fmt : Formats} {a b : VclQuery} {p : LogicalPlan}

theorem node_of_same_plan (ha : toLogicalPlan fmt a = .ok p) (hb : toLogicalPlan fmt b = .ok p)
    {m : Modality} (hm : m ∈ a.requested) : m ∈ b.requested ∧ a.node fmt m = b.node fmt m := by
  obtain ⟨-, hnodes, -⟩ := toLogicalPlan_ok ha
  obtain ⟨-, hnodes', -⟩ := toLogicalPlan_ok hb
  have hmem : a.node fmt m ∈ p.nodes := (hnodes _).mpr ⟨m, hm, rfl⟩
  obtain ⟨m', hm', hnode⟩ := (hnodes' _).mp hmem
  have hsame : m = m' := congrArg PlanNode.modality hnode
  subst hsame
  exact ⟨hm', hnode⟩

theorem received_of_same_plan (ha : toLogicalPlan fmt a = .ok p)
    (hb : toLogicalPlan fmt b = .ok p) {m : Modality} (hm : m ∈ a.requested) :
    a.received fmt m = b.received fmt m ∧ a.verifications m = b.verifications m :=
  received_of_conditions (congrArg PlanNode.conditions (node_of_same_plan ha hb hm).2)

theorem contracts_of_verifications (h : a.verifications .semantic = b.verifications .semantic) :
    a.contracts = b.contracts := by
  simp only [VclQuery.verifications, if_pos] at h
  exact eq_of_map_eq (fun _ _ _ _ heq => ConditionKind.proofVerification.inj heq) h

theorem postProcess_of_same_plan (ha : toLogicalPlan fmt a = .ok p)
    (hb : toLogicalPlan fmt b = .ok p) : postProcess a = postProcess b := by
  rw [← (toLogicalPlan_ok ha).2.2, (toLogicalPlan_ok hb).2.2]

theorem columns_of_postProcess (h : postProcess a = postProcess b) (ha : a.Unmarked)
    (hb : b.Unmarked) : a.skipped = b.skipped ∧ a.columns = b.columns := by
  have hproject := congrArg (List.filterMap PostProcessing.projecting) h
  rw [projectings_postProcess, projectings_postProcess] at hproject
  cases hsa : a.skipped with
  | none =>
    cases hsb : b.skipped with
    | none =>
      simp only [hsa, hsb, Option.map_none, Option.toList_none, List.nil_append] at hproject
      exact ⟨rfl, eq_of_toList_eq hproject⟩
    | some skip =>
      -- the marker of one query would be the columns of the other
      cases hca : a.columns with
      | none => simp [hsa, hsb, hca] at hproject
      | some columns =>
        simp only [hsa, hsb, hca, Option.map_none, Option.map_some, Option.toList_none,
          Option.toList_some, List.nil_append, List.singleton_append, List.cons.injEq] at hproject
        exact absurd (hproject.1 ▸ hca) (ha skip)
  | some skip =>
    cases hsb : b.skipped with
    | none =>
      cases hcb : b.columns with
      | none => simp [hsa, hsb, hcb] at hproject
      | some columns =>
        simp only [hsa, hsb, hcb, Option.map_none, Option.map_some, Option.toList_none,
          Option.toList_some, List.nil_append, List.singleton_append, List.cons.injEq] at hproject
        exact absurd (hproject.1 ▸ hcb) (hb skip)
    | some skip' =>
      simp only [hsa, hsb, Option.map_some, Option.toList_some, List.singleton_append,
        List.cons.injEq, and_true] at hproject
      rw [offsetMarker_inj hproject.1]
      exact ⟨rfl, eq_of_toList_eq hproject.2⟩

theorem groupBy_of_groups (ha : a.Dotless) (hb : b.Dotless)
    (h : a.groupBy.map (·.map fieldRefName) = b.groupBy.map (·.map fieldRefName)) :
    a.groupBy = b.groupBy := by
  apply eq_of_option_map_eq _ h
  intro f hf g hg
  exact fieldRefName_inj (ha.1 f hf) (hb.1 g hg)

theorem orderBy_of_orders (ha : a.Dotless) (hb : b.Dotless)
    (h : a.orderBy.map (·.map fun o => (fieldRefName o.field, o.direction)) =
      b.orderBy.map (·.map fun o => (fieldRefName o.field, o.direction))) :
    a.orderBy = b.orderBy := by
  apply eq_of_option_map_eq _ h
  intro o ho o' ho' heq
  obtain ⟨hname, hdirection⟩ := Prod.mk.inj heq
  have hfield := fieldRefName_inj (ha.2 o ho) (hb.2 o' ho') hname
  cases o
  cases o'
  simp_all

theorem orders_of_postProcess (h : postProcess a = postProcess b) :
    a.orderBy.map (·.map fun o => (fieldRefName o.field, o.direction)) =
      b.orderBy.map (·.map fun o => (fieldRefName o.field, o.direction)) := by
  have hdirection (o : VclOrderBy) :
      o.direction = if decide (o.direction = .asc) then .asc else .desc := by
    cases o.direction <;> rfl
  have horder := congrArg (List.filterMap PostProcessing.ordering) h
  rw [orderings_postProcess, orderings_postProcess] at horder
  have hread := congrArg (Option.map (List.map fun item : String × Bool =>
    (item.1, if item.2 then VclDirection.asc else .desc))) (eq_of_toList_eq horder)
  simpa only [Option.map_map, Function.comp_def, List.map_map, ← hdirection] using hread

/-- Two queries with the same plan agree in all that it carries, and their contracts are
verified by the semantic node. -/
theorem plan_carries (fmt : Formats) (a b : VclQuery) (p : LogicalPlan)
    (ha : toLogicalPlan fmt a = .ok p) (hb : toLogicalPlan fmt b = .ok p) :
    Agree fmt a b ∧ (.semantic ∈ a.requested → ∀ contract ∈ a.contracts, ∃ node ∈ p.nodes,
      node.modality = .semantic ∧ .proofVerification contract ∈ node.conditions) := by
  have hreceived {m : Modality} (hm : m ∈ a.requested) := received_of_same_plan ha hb hm
  have hpost := postProcess_of_same_plan ha hb
  have hgrouping := congrArg (List.filterMap PostProcessing.grouping) hpost
  rw [groupings_postProcess, groupings_postProcess] at hgrouping
  have hgroup := eq_of_toList_eq hgrouping
  have hlimiting := congrArg (List.filterMap PostProcessing.limiting) hpost
  rw [limitings_postProcess, limitings_postProcess] at hlimiting
  have hgroups : a.groupBy.map (·.map fieldRefName) = b.groupBy.map (·.map fieldRefName) := by
    simpa only [Option.map_map, Function.comp_def] using congrArg (Option.map Prod.fst) hgroup
  have horders := orders_of_postProcess hpost
  constructor
  · exact {
      requested := fun m =>
        ⟨fun hm => (node_of_same_plan ha hb hm).1, fun hm => (node_of_same_plan hb ha hm).1⟩
      source := sameOrigin_of_mapSource (toLogicalPlan_ok ha).1 (toLogicalPlan_ok hb).1
      received := fun m hm => (hreceived hm).1
      searches := fun hm => by
        rw [← searches_of_received hm, (hreceived hm).1,
          searches_of_received (node_of_same_plan ha hb hm).1]
      patterns := fun hm => by
        rw [← patterns_of_received hm, (hreceived hm).1,
          patterns_of_received (node_of_same_plan ha hb hm).1]
      dimensions := fun hm => by
        rw [← dimensions_of_received hm, (hreceived hm).1,
          dimensions_of_received (node_of_same_plan ha hb hm).1]
      contracts := fun hm => contracts_of_verifications (hreceived hm).2
      groups := hgroups
      aggregates := by
        intro hne
        cases hga : a.groupBy with
        | none => exact absurd hga hne
        | some fields =>
          cases hgb : b.groupBy with
          | none => simp [hga, hgb] at hgroup
          | some fields' =>
            simp only [hga, hgb, Option.map_some, Option.some.injEq, Prod.mk.injEq] at hgroup
            exact hgroup.2
      orders := horders
      refs := fun hda hdb =>
        ⟨groupBy_of_groups hda hdb hgroups, orderBy_of_orders hda hdb horders⟩
      projected := fun m hm =>
        congrArg PlanNode.projections (node_of_same_plan ha hb hm).2
      count := eq_of_toList_eq hlimiting
      columns := fun hua hub => columns_of_postProcess hpost hua hub }
  · intro hm contract hcontract
    refine ⟨a.node fmt .semantic, ((toLogicalPlan_ok ha).2.1 _).mpr ⟨.semantic, hm, rfl⟩, rfl, ?_⟩
    exact List.mem_append_right _ (List.mem_map_of_mem hcontract)

end agree

/-! ### What a plan does not tell -/

/-- The conditions differ in operators of one kind, thresholds and embeddings of one length. -/
inductive Blurs : VclCondition → VclCondition → Prop
  | refl (c : VclCondition) : Blurs c c
  | and {l l' r r' : VclCondition} : Blurs l l' → Blurs r r' → Blurs (.and l r) (.and l' r')
  | equality (field : VclFieldRef) (value : Value) {op op' : String} :
      op ∈ ["=", "==", "!=", "<>"] → op' ∈ ["=", "==", "!=", "<>"] →
      Blurs (.simple (.fieldCondition field op value)) (.simple (.fieldCondition field op' value))
  | range (field : VclFieldRef) (value : Value) {op op' : String} :
      op ∈ [">", ">=", "<", "<=", "BETWEEN"] → op' ∈ [">", ">=", "<", "<=", "BETWEEN"] →
      Blurs (.simple (.fieldCondition field op value)) (.simple (.fieldCondition field op' value))
  | similar {embedding embedding' : List ℚ} (threshold threshold' : ℚ) :
      embedding.length = embedding'.length →
      Blurs (.simple (.vectorSimilar embedding threshold))
        (.simple (.vectorSimilar embedding' threshold'))

/-- A change of a query that its plan does not show. -/
inductive Unnoticed (q : VclQuery) : VclQuery → Prop
  | octad (uuid uuid' : Option String) : q.source = .octad uuid →
      Unnoticed q { q with source := .octad uuid' }
  | driftPolicy (nodes : List String) (policy policy' : Option String) :
      q.source = .federation nodes policy →
      Unnoticed q { q with source := .federation nodes policy' }
  | whereClause {c c' : VclCondition} : q.whereClause = some c → Blurs c c' →
      Unnoticed q { q with whereClause := some c' }
  | having (having : Option VclCondition) : Unnoticed q { q with having }
  /-- Contracts show at the semantic node only, and their types nowhere. -/
  | proof (proof : Option (List VclProofSpec)) : (.semantic ∈ q.requested →
      q.contracts = (proof.getD []).map VclProofSpec.contractName) →
      Unnoticed q { q with proof }
  /-- Aggregates show beside groups only, and their aliases nowhere. -/
  | aggregates (aggregates : Option (List VclAggregate)) : (q.groupBy.isSome →
      (q.aggregates.getD []).map VclAggregate.render =
        (aggregates.getD []).map VclAggregate.render) →
      Unnoticed q { q with aggregates }

section unnoticed

variable {fmt : Formats} {a b : VclQuery} {p : LogicalPlan}

end unnoticed
/-! ### A pair of queries -/

end NextgenDatabases.Planner
