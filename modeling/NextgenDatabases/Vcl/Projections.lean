import NextgenDatabases.Foundations.Traverse
import NextgenDatabases.Vcl.Grammar
import NextgenDatabases.Vcl.Types
import Mathlib.Data.List.ReduceOption

/-!
# Projections and aggregates

What the checker does with the fields and aggregates of a SELECT clause, given the modalities
that the parser has collected from them.
-/
namespace NextgenDatabases.Vcl

open Foundations
open Grammar (SelectItem ClassifiedSelect addModality someUnlessEmpty classifySelect)

/-- The errors of the two checks. -/
inductive TypeError
  | unknownModality (name : String)
  | aggregateTypeMismatch (func : String) (fieldType : PrimitiveType)
  deriving DecidableEq, Repr

structure FieldEntry where
  fieldName : String
  fieldType : PrimitiveType
  deriving DecidableEq, Repr

/-- The registered fields, by the text of their modality. -/
structure Context where
  modalityFields : String → Option (List FieldEntry)

namespace Context

def empty : Context := ⟨fun _ => none⟩

def lookupModalityFields (ctx : Context) (modality : ModalityType) : List FieldEntry :=
  (ctx.modalityFields (modalityTypeToString modality)).getD []

def lookupField (ctx : Context) (modality : ModalityType) (fieldName : String) :
    Option FieldEntry :=
  (ctx.lookupModalityFields modality).find? (·.fieldName == fieldName)

end Context

/-! ### Modalities -/

def modalityTypeOfAstModality : Modality → Option ModalityType
  | .graph => some .graph
  | .vector => some .vector
  | .tensor => some .tensor
  | .semantic => some .semantic
  | .document => some .document
  | .temporal => some .temporal
  | .provenance => some .provenance
  | .spatial => some .spatial
  | .all => none

def allModalityTypes : List ModalityType :=
  [.graph, .vector, .tensor, .semantic, .document, .temporal, .provenance, .spatial]

def resolveModalities (mods : List Modality) : List ModalityType :=
  if mods.any (· == .all) then allModalityTypes else mods.filterMap modalityTypeOfAstModality

/-! ### Numbers -/

def isNumericPrimitive : PrimitiveType → Bool
  | .int | .float => true
  | _ => false

def isComparablePrimitive : PrimitiveType → Bool
  | .int | .float | .string | .timestamp => true
  | _ => false

/-! ### The checks -/

/-- `none` for the modality ALL, which has no type of its own. -/
def checkProjection (ctx : Context) (availableMods : List ModalityType) (proj : FieldRef) :
    Except TypeError (Option FieldTypeInfo) :=
  match modalityTypeOfAstModality proj.modality with
  | none => .ok none
  | some modType =>
    if !(availableMods.any fun m => eqModalityType m modType) then
      .error (.unknownModality (modalityTypeToString modType))
    else
      match ctx.lookupField modType proj.field with
      -- the schema is dynamic
      | none => .ok (some ⟨modType, proj.field, .string⟩)
      | some fieldEntry => .ok (some ⟨modType, proj.field, fieldEntry.fieldType⟩)

def checkProjections (ctx : Context) (projections : Option (List FieldRef))
    (availableMods : List ModalityType) : Except TypeError (List FieldTypeInfo) :=
  match projections with
  | none => .ok []
  | some projs => List.reduceOption <$> projs.mapM (checkProjection ctx availableMods)

def aggregateFuncToString : AggregateFunc → String
  | .sum => "SUM"
  | .avg => "AVG"
  | .count => "COUNT"
  | .min => "MIN"
  | .max => "MAX"

/-- The type of an aggregate of a field of the given type. -/
def aggregateResult (func : AggregateFunc) (fieldType : PrimitiveType) :
    Except TypeError PrimitiveType :=
  match func with
  | .sum =>
    if !isNumericPrimitive fieldType then
      .error (.aggregateTypeMismatch (aggregateFuncToString func) fieldType)
    else .ok fieldType
  | .avg =>
    if !isNumericPrimitive fieldType then
      .error (.aggregateTypeMismatch (aggregateFuncToString func) fieldType)
    else .ok .float
  | .count => .ok .int
  | .min | .max =>
    if !isComparablePrimitive fieldType then
      .error (.aggregateTypeMismatch (aggregateFuncToString func) fieldType)
    else .ok fieldType

def checkAggregate (ctx : Context) (availableMods : List ModalityType) :
    AggregateExpr → Except TypeError (Option AggregateTypeInfo)
  | .countAll => .ok (some ⟨.count, .int, none⟩)
  | .aggregateField func ref =>
    match modalityTypeOfAstModality ref.modality with
    | none => .ok none
    | some modType =>
      if !(availableMods.any fun m => eqModalityType m modType) then
        .error (.unknownModality (modalityTypeToString modType))
      else
        let fieldType := ((ctx.lookupField modType ref.field).map FieldEntry.fieldType).getD .float
        (aggregateResult func fieldType).map fun resultType =>
          some ⟨func, resultType, some ⟨modType, ref.field, fieldType⟩⟩

def checkAggregates (ctx : Context) (aggregates : Option (List AggregateExpr))
    (availableMods : List ModalityType) : Except TypeError (List AggregateTypeInfo) :=
  match aggregates with
  | none => .ok []
  | some aggs => List.reduceOption <$> aggs.mapM (checkAggregate ctx availableMods)

/-! ### What the parser has collected -/

namespace Grammar.SelectItem

def field? : SelectItem → Option FieldRef
  | field f => some f
  | _ => none

def aggregate? : SelectItem → Option AggregateExpr
  | aggregate a => some a
  | _ => none

/-- The field that an item projects or aggregates. -/
def ref? : SelectItem → Option FieldRef
  | field f => some f
  | aggregate (.aggregateField _ ref) => some ref
  | _ => none

end Grammar.SelectItem

/-- The round of `classifySelect` for an item. -/
def classifyItem (acc : List Modality × List FieldRef × List AggregateExpr) (item : SelectItem) :
    List Modality × List FieldRef × List AggregateExpr :=
  match item with
  | .modality m => (acc.1 ++ [m], acc.2.1, acc.2.2)
  | .field f => (addModality acc.1 f.modality, acc.2.1 ++ [f], acc.2.2)
  | .aggregate (.aggregateField func ref) =>
    (addModality acc.1 ref.modality, acc.2.1, acc.2.2 ++ [.aggregateField func ref])
  | .aggregate .countAll => (acc.1, acc.2.1, acc.2.2 ++ [.countAll])

theorem mem_addModality {mods : List Modality} {m n : Modality} :
    n ∈ addModality mods m ↔ n ∈ mods ∨ n = m := by
  unfold addModality
  split_ifs with h
  · constructor
    · exact Or.inl
    · rintro (hn | rfl)
      · exact hn
      · exact h
  · simp

theorem mem_classifyItem {acc : List Modality × List FieldRef × List AggregateExpr}
    {item : SelectItem} {m : Modality}
    (h : m ∈ acc.1 ∨ ∃ r, item.ref? = some r ∧ r.modality = m) : m ∈ (classifyItem acc item).1 := by
  cases item with
  | modality n => simpa [classifyItem, SelectItem.ref?] using Or.inl h
  | field f => simpa [classifyItem, SelectItem.ref?, mem_addModality, eq_comm] using h
  | aggregate a =>
    cases a with
    | countAll => simpa [classifyItem, SelectItem.ref?] using h
    | aggregateField func r =>
      simpa [classifyItem, SelectItem.ref?, mem_addModality, eq_comm] using h

theorem mem_foldl_classifyItem {items : List SelectItem} {m : Modality}
    (acc : List Modality × List FieldRef × List AggregateExpr)
    (h : m ∈ acc.1 ∨ ∃ r ∈ items.filterMap SelectItem.ref?, r.modality = m) :
    m ∈ (items.foldl classifyItem acc).1 := by
  induction items generalizing acc with
  | nil => simpa using h
  | cons item items ih =>
    apply ih
    rcases h with h | ⟨r, hr, hm⟩
    · exact .inl (mem_classifyItem (.inl h))
    · obtain ⟨i, hi, hir⟩ := List.mem_filterMap.mp hr
      rcases List.mem_cons.mp hi with rfl | hi
      · exact .inl (mem_classifyItem (.inr ⟨r, hir, hm⟩))
      · exact .inr ⟨r, List.mem_filterMap.mpr ⟨i, hi, hir⟩, hm⟩

theorem foldl_classifyItem_snd (items : List SelectItem)
    (acc : List Modality × List FieldRef × List AggregateExpr) :
    (items.foldl classifyItem acc).2 =
      (acc.2.1 ++ items.filterMap SelectItem.field?,
        acc.2.2 ++ items.filterMap SelectItem.aggregate?) := by
  induction items generalizing acc with
  | nil => simp
  | cons item items ih =>
    rw [List.foldl_cons, ih]
    cases item with
    | modality n =>
      simp [classifyItem, SelectItem.field?, SelectItem.aggregate?, List.filterMap_cons]
    | field f => simp [classifyItem, SelectItem.field?, SelectItem.aggregate?, List.filterMap_cons]
    | aggregate a =>
      cases a <;>
        simp [classifyItem, SelectItem.field?, SelectItem.aggregate?, List.filterMap_cons]

theorem classifySelect_eq (items : List SelectItem) :
    classifySelect items =
      { modalities := (items.foldl classifyItem ([], [], [])).1
        projections := someUnlessEmpty (items.filterMap SelectItem.field?)
        aggregates := someUnlessEmpty (items.filterMap SelectItem.aggregate?) } := by
  have hsnd := foldl_classifyItem_snd items ([], [], [])
  have hfold : classifySelect items =
      { modalities := (items.foldl classifyItem ([], [], [])).1
        projections := someUnlessEmpty (items.foldl classifyItem ([], [], [])).2.1
        aggregates := someUnlessEmpty (items.foldl classifyItem ([], [], [])).2.2 } := rfl
  rw [hfold, hsnd]
  rfl

/-- Every projected or aggregated modality is among those of the clause. -/
theorem mem_modalities {items : List SelectItem} {r : FieldRef}
    (hr : r ∈ items.filterMap SelectItem.ref?) :
    r.modality ∈ (classifySelect items).modalities := by
  rw [classifySelect_eq]
  exact mem_foldl_classifyItem _ (.inr ⟨r, hr, rfl⟩)

theorem mem_allModalityTypes (t : ModalityType) : t ∈ allModalityTypes := by
  cases t <;> decide

theorem mem_resolveModalities {mods : List Modality} {m : Modality} {t : ModalityType}
    (hm : m ∈ mods) (ht : modalityTypeOfAstModality m = some t) : t ∈ resolveModalities mods := by
  unfold resolveModalities
  split_ifs
  · exact mem_allModalityTypes t
  · exact List.mem_filterMap.mpr ⟨m, hm, ht⟩

/-! ### Which modalities are unknown -/

/-- The modality is PROVENANCE or SPATIAL. -/
def Modality.Uncompared (m : Modality) : Prop := m = .provenance ∨ m = .spatial

theorem uncompared_iff {m : Modality} {t : ModalityType}
    (ht : modalityTypeOfAstModality m = some t) : m.Uncompared ↔ ¬ t.Known := by
  cases m <;> cases ht <;> simp [Modality.Uncompared, ModalityType.Known]

theorem any_eqModalityType_iff {mods : List ModalityType} {t : ModalityType} :
    (mods.any fun m => eqModalityType m t) = true ↔ t ∈ mods ∧ t.Known := by
  simp only [List.any_eq_true, eqModalityType_iff]
  constructor
  · rintro ⟨m, hm, rfl, hknown⟩
    exact ⟨hm, hknown⟩
  · rintro ⟨hm, hknown⟩
    exact ⟨t, hm, rfl, hknown⟩

def TypeError.IsUnknownModality : TypeError → Prop
  | unknownModality _ => True
  | aggregateTypeMismatch .. => False

section check

variable {ctx : Context} {mods : List Modality} {r : FieldRef}

theorem checkProjection_error_iff (hr : r.modality ∈ mods) :
    (∃ e, checkProjection ctx (resolveModalities mods) r = .error e ∧ e.IsUnknownModality) ↔
      r.modality.Uncompared := by
  unfold checkProjection
  cases ht : modalityTypeOfAstModality r.modality with
  | none =>
    have hall : r.modality = .all := by
      revert ht
      cases r.modality <;> simp [modalityTypeOfAstModality]
    simp [hall, Modality.Uncompared]
  | some t =>
    rw [uncompared_iff ht]
    by_cases hknown : t.Known
    · have hany := any_eqModalityType_iff.mpr ⟨mem_resolveModalities hr ht, hknown⟩
      simp only [hany, Bool.not_true, Bool.false_eq_true, if_false, hknown, not_true_eq_false,
        iff_false]
      cases ctx.lookupField t r.field <;> simp
    · have hany : ((resolveModalities mods).any fun m => eqModalityType m t) = false := by
        rw [Bool.eq_false_iff]
        exact fun hany => hknown (any_eqModalityType_iff.mp hany).2
      simp [hany, hknown, TypeError.IsUnknownModality]

theorem aggregateResult_error {func : AggregateFunc} {fieldType : PrimitiveType} {e : TypeError}
    (h : aggregateResult func fieldType = .error e) : ¬ e.IsUnknownModality := by
  cases func <;> simp only [aggregateResult] at h <;> (try split_ifs at h) <;> cases h <;> exact id

/-- The check of an aggregate names its modality as unknown where the check of its field does. -/
theorem checkAggregate_error_iff {func : AggregateFunc} (hr : r.modality ∈ mods) :
    (∃ e, checkAggregate ctx (resolveModalities mods) (.aggregateField func r) = .error e ∧
      e.IsUnknownModality) ↔ r.modality.Uncompared := by
  rw [← @checkProjection_error_iff ctx mods r hr]
  simp only [checkAggregate, checkProjection]
  cases ht : modalityTypeOfAstModality r.modality with
  | none => simp
  | some t =>
    dsimp only
    split_ifs with hany
    · simp
    · constructor
      · rintro ⟨e, he, hunknown⟩
        cases hresult : aggregateResult func
            (((ctx.lookupField t r.field).map FieldEntry.fieldType).getD .float) with
        | error e' =>
          rw [hresult] at he
          cases he
          exact absurd hunknown (aggregateResult_error hresult)
        | ok pt =>
          rw [hresult] at he
          cases he
      · rintro ⟨e, he, -⟩
        cases hlookup : ctx.lookupField t r.field with
        | none =>
          rw [hlookup] at he
          cases he
        | some entry =>
          rw [hlookup] at he
          cases he

theorem checkProjection_error {e : TypeError}
    (h : checkProjection ctx (resolveModalities mods) r = .error e) : e.IsUnknownModality := by
  unfold checkProjection at h
  cases ht : modalityTypeOfAstModality r.modality with
  | none => simp [ht] at h
  | some t =>
    simp only [ht] at h
    split at h
    · cases h
      trivial
    · cases hlookup : ctx.lookupField t r.field <;> simp [hlookup] at h

/-- Without registered fields, every aggregated field is a number. -/
theorem checkAggregate_empty_error {a : AggregateExpr} {e : TypeError}
    (h : checkAggregate .empty (resolveModalities mods) a = .error e) : e.IsUnknownModality := by
  cases a with
  | countAll => cases h
  | aggregateField func r =>
    simp only [checkAggregate] at h
    cases ht : modalityTypeOfAstModality r.modality with
    | none => simp [ht] at h
    | some t =>
      simp only [ht] at h
      split at h
      · cases h
        trivial
      · have hlookup : Context.empty.lookupField t r.field = none := rfl
        rw [hlookup] at h
        cases func <;> cases h

end check

/-! ### The two sides -/

section traverse

variable {α β : Type} {f : α → Except TypeError (Option β)} {l : List α}

theorem no_unknown_of_forall (h : ∀ a ∈ l, ¬ ∃ e, f a = .error e ∧ e.IsUnknownModality)
    (name : String) : List.reduceOption <$> l.mapM f ≠ .error (.unknownModality name) := by
  intro herror
  have hmap : l.mapM f = .error (.unknownModality name) := by
    cases hl : l.mapM f with
    | ok bs =>
      rw [hl] at herror
      cases herror
    | error e =>
      rw [hl] at herror
      cases herror
      rfl
  obtain ⟨before, a, after, rfl, -, ha⟩ := mapM_eq_error_iff.mp hmap
  exact h a (by simp) ⟨_, ha, trivial⟩

theorem exists_unknown {a : α} (ha : a ∈ l) (hbad : ∃ e, f a = .error e)
    (hall : ∀ a ∈ l, ∀ e, f a = .error e → e.IsUnknownModality) :
    ∃ name, List.reduceOption <$> l.mapM f = .error (.unknownModality name) := by
  cases hl : l.mapM f with
  | ok bs =>
    obtain ⟨e, he⟩ := hbad
    obtain ⟨b, hb⟩ := ok_of_mapM_ok hl a ha
    rw [hb] at he
    cases he
  | error e =>
    obtain ⟨before, a', after, hsplit, -, ha'⟩ := mapM_eq_error_iff.mp hl
    have he := hall a' (by simp [hsplit]) e ha'
    cases e with
    | unknownModality name => exact ⟨name, rfl⟩
    | aggregateTypeMismatch func fieldType => exact absurd he id

end traverse

theorem someUnlessEmpty_cases {α : Type} (l : List α) :
    l = [] ∧ someUnlessEmpty l = none ∨ someUnlessEmpty l = some l := by
  cases l with
  | nil => exact .inl ⟨rfl, rfl⟩
  | cons a l => exact .inr rfl

theorem checkProjections_someUnlessEmpty (ctx : Context) (projs : List FieldRef)
    (mods : List ModalityType) : checkProjections ctx (someUnlessEmpty projs) mods =
      List.reduceOption <$> projs.mapM (checkProjection ctx mods) := by
  rcases someUnlessEmpty_cases projs with ⟨rfl, h⟩ | h <;> rw [h] <;> rfl

theorem checkAggregates_someUnlessEmpty (ctx : Context) (aggs : List AggregateExpr)
    (mods : List ModalityType) : checkAggregates ctx (someUnlessEmpty aggs) mods =
      List.reduceOption <$> aggs.mapM (checkAggregate ctx mods) := by
  rcases someUnlessEmpty_cases aggs with ⟨rfl, h⟩ | h <;> rw [h] <;> rfl

/-- In no context do the two checks of a clause take one of its modalities for unknown. -/
def Accepted (items : List SelectItem) : Prop :=
  let clause := classifySelect items
  let availableMods := resolveModalities clause.modalities
  ∀ ctx name,
    checkProjections ctx clause.projections availableMods ≠ .error (.unknownModality name) ∧
    checkAggregates ctx clause.aggregates availableMods ≠ .error (.unknownModality name)

theorem field_ref {items : List SelectItem} {r : FieldRef}
    (hr : r ∈ items.filterMap SelectItem.field?) : r ∈ items.filterMap SelectItem.ref? := by
  obtain ⟨item, hitem, hfield⟩ := List.mem_filterMap.mp hr
  refine List.mem_filterMap.mpr ⟨item, hitem, ?_⟩
  cases item <;> cases hfield
  rfl

theorem aggregate_ref {items : List SelectItem} {func : AggregateFunc} {r : FieldRef}
    (hr : .aggregateField func r ∈ items.filterMap SelectItem.aggregate?) :
    r ∈ items.filterMap SelectItem.ref? := by
  obtain ⟨item, hitem, haggregate⟩ := List.mem_filterMap.mp hr
  refine List.mem_filterMap.mpr ⟨item, hitem, ?_⟩
  cases item <;> cases haggregate
  rfl

theorem ref_cases {items : List SelectItem} {r : FieldRef}
    (hr : r ∈ items.filterMap SelectItem.ref?) : r ∈ items.filterMap SelectItem.field? ∨
      ∃ func, .aggregateField func r ∈ items.filterMap SelectItem.aggregate? := by
  obtain ⟨item, hitem, href⟩ := List.mem_filterMap.mp hr
  cases item with
  | modality m => cases href
  | field f =>
    cases href
    exact .inl (List.mem_filterMap.mpr ⟨_, hitem, rfl⟩)
  | aggregate a =>
    cases a with
    | countAll => cases href
    | aggregateField func r' =>
      cases href
      exact .inr ⟨func, List.mem_filterMap.mpr ⟨_, hitem, rfl⟩⟩

theorem projections_accepted_iff (items : List SelectItem) :
    Accepted items ↔ ∀ r ∈ items.filterMap SelectItem.ref?, ¬ r.modality.Uncompared := by
  have hclause := classifySelect_eq items
  have hprojections (ctx : Context) :=
    congrArg (fun clause => checkProjections ctx clause.projections
      (resolveModalities (classifySelect items).modalities)) hclause
  have haggregates (ctx : Context) :=
    congrArg (fun clause => checkAggregates ctx clause.aggregates
      (resolveModalities (classifySelect items).modalities)) hclause
  simp only [checkProjections_someUnlessEmpty] at hprojections
  simp only [checkAggregates_someUnlessEmpty] at haggregates
  constructor
  · intro h r hr hbad
    rcases ref_cases hr with hfield | ⟨func, haggregate⟩
    · obtain ⟨e, he, -⟩ := (@checkProjection_error_iff .empty _ _ (mem_modalities hr)).mpr hbad
      obtain ⟨name, hname⟩ := exists_unknown hfield ⟨e, he⟩
        fun r' _ e' he' => checkProjection_error he'
      exact (h .empty name).1 ((hprojections .empty).trans hname)
    · obtain ⟨e, he, -⟩ :=
        (@checkAggregate_error_iff .empty _ _ func (mem_modalities hr)).mpr hbad
      obtain ⟨name, hname⟩ := exists_unknown haggregate ⟨e, he⟩
        fun a _ e' he' => checkAggregate_empty_error he'
      exact (h .empty name).2 ((haggregates .empty).trans hname)
  · intro h ctx name
    constructor
    · rw [hprojections ctx]
      refine no_unknown_of_forall (fun r hr => ?_) name
      rw [checkProjection_error_iff (mem_modalities (field_ref hr))]
      exact h r (field_ref hr)
    · rw [haggregates ctx]
      refine no_unknown_of_forall (fun a ha => ?_) name
      cases a with
      | countAll => simp [checkAggregate]
      | aggregateField func r =>
        rw [checkAggregate_error_iff (mem_modalities (aggregate_ref ha))]
        exact h r (aggregate_ref ha)

/-- The origin in the provenance. -/
def origin : SelectItem := .field ⟨.provenance, "origin"⟩

theorem origin_unknown : ¬ Accepted [origin] := fun h =>
  (h .empty "PROVENANCE").1 rfl

end NextgenDatabases.Vcl
