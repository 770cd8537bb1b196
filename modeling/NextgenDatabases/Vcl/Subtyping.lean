import NextgenDatabases.Vcl.Types
import Mathlib.Data.Finset.Dedup
import Mathlib.Data.Finset.Card
import Mathlib.Data.List.Perm.Subperm

/-!
# VCL subtyping

The subtype check of the type checker, the relation that it decides, and exactly where that
relation is reflexive and transitive: the equality that is tried first does not know two of
the modalities and takes lists of one length for equal when one of them is contained in the
other. The last part compares what is accepted with what a query for the wider type reads.
-/
namespace NextgenDatabases.Vcl

structure SubtypeError where
  expected : VclType
  got : VclType
  reason : String
  deriving DecidableEq

abbrev SubtypeResult := Except SubtypeError Unit

def isSubPrimitive (sub sup : PrimitiveType) : Bool :=
  eqPrimitiveType sub sup ||
    match sub, sup with
    | .int, .float => true
    | .vector _, .vector 0 => true
    | _, _ => false

/-- The modalities that the second list requires and the first does not have. -/
def missingModalities (sub sup : List ModalityType) : List ModalityType :=
  sup.filter fun supMod => !(sub.any fun subMod => eqModalityType subMod supMod)

def isSubQueryResult (sub sup : QueryResultInfo) : SubtypeResult :=
  let missingMods := missingModalities sub.modalities sup.modalities
  if missingMods.length > 0 then
    .error {
      expected := .queryResult sup
      got := .queryResult sub
      reason := "Result missing modalities: " ++ modalityTypesToString missingMods }
  else .ok ()

mutual

def isSubtype (sub sup : VclType) : SubtypeResult :=
  if eqType sub sup then .ok () else checkStructuralSubtype sub sup
termination_by (sizeOf sub + sizeOf sup, 1)

/-- The rules other than equality, in order. -/
def checkStructuralSubtype (sub sup : VclType) : SubtypeResult :=
  match sub, sup with
  | .primitive ps, .primitive pp =>
    if isSubPrimitive ps pp then .ok ()
    else .error ⟨sup, sub, primitiveTypeToString ps ++ " is not a subtype of " ++
      primitiveTypeToString pp⟩
  | .array innerSub, .array innerSup =>
    match isSubtype innerSub innerSup with
    | .ok () => .ok ()
    | .error e => .error ⟨sup, sub, "Array element type mismatch: " ++ e.reason⟩
  | .pi _ domSub codSub, .pi _ domSup codSup =>
    match isSubtype domSup domSub with
    | .ok () =>
      match isSubtype codSub codSup with
      | .ok () => .ok ()
      | .error e => .error ⟨sup, sub, "Function codomain: " ++ e.reason⟩
    | .error e => .error ⟨sup, sub, "Function domain (contravariant): " ++ e.reason⟩
  | .hexad modsSub, .hexad modsSup =>
    let missing := missingModalities modsSub modsSup
    if missing.length = 0 then .ok ()
    else .error ⟨sup, sub, "Hexad missing required modalities: " ++ modalityTypesToString missing⟩
  | .modality a, .modality b =>
    if eqModalityType a b then .ok ()
    else .error ⟨sup, sub, modalityTypeToString a ++ " is not " ++ modalityTypeToString b⟩
  | .never, _ => .ok ()
  | _, .unit => .ok ()
  | .provedResult info _ _, .queryResult infoSup => isSubQueryResult info infoSup
  | .queryResult infoSub, .queryResult infoSup => isSubQueryResult infoSub infoSup
  | sub, sup =>
    .error ⟨sup, sub, vclTypeToString sub ++ " is not a subtype of " ++ vclTypeToString sup⟩
termination_by (sizeOf sub + sizeOf sup, 0)

end

/-! ### The rules -/

/-- Every modality of the second list is known and is in the first. -/
def Covers (sub sup : List ModalityType) : Prop := ∀ m ∈ sup, m ∈ sub ∧ m.Known

/-- The lists have one length and the first is contained in the second. -/
def Shortcut (a b : List ModalityType) : Prop := a.length = b.length ∧ Covers b a

/-- One type is a subtype of another. -/
inductive Widens : VclType → VclType → Prop
  | primitive (p : PrimitiveType) : Widens (.primitive p) (.primitive p)
  | number : Widens (.primitive .int) (.primitive .float)
  | dimension (d : ℤ) : Widens (.primitive (.vector d)) (.primitive (.vector 0))
  | array {t u : VclType} (h : Widens t u) : Widens (.array t) (.array u)
  | pi {x y : String} {d c d' c' : VclType} (hdomain : Widens d' d) (hcodomain : Widens c c') :
      Widens (.pi x d c) (.pi y d' c')
  | modality {m : ModalityType} (h : m.Known) : Widens (.modality m) (.modality m)
  | hexad {a b : List ModalityType} (h : Shortcut a b ∨ Covers a b) :
      Widens (.hexad a) (.hexad b)
  | proof (kind : ProofKind) (contract : String) :
      Widens (.proof kind contract) (.proof kind contract)
  | query {a b : QueryResultInfo} (h : Covers a.modalities b.modalities) :
      Widens (.queryResult a) (.queryResult b)
  | proved {a b : QueryResultInfo} (kind : ProofKind) (contract : String)
      (h : Covers a.modalities b.modalities) :
      Widens (.provedResult a kind contract) (.queryResult b)
  | never (t : VclType) : Widens .never t
  | unit (t : VclType) : Widens t .unit

theorem missingModalities_iff (sub sup : List ModalityType) :
    missingModalities sub sup = [] ↔ Covers sub sup := by
  simp only [missingModalities, List.filter_eq_nil_iff, Bool.not_eq_true', Bool.not_eq_false,
    List.any_eq_true, eqModalityType_iff]
  refine forall₂_congr fun m _ => ?_
  constructor
  · rintro ⟨m', hmem, rfl, hknown⟩
    exact ⟨hmem, hknown⟩
  · rintro ⟨hmem, hknown⟩
    exact ⟨m, hmem, rfl, hknown⟩

theorem isSubQueryResult_iff (a b : QueryResultInfo) :
    isSubQueryResult a b = .ok () ↔ Covers a.modalities b.modalities := by
  rw [← missingModalities_iff, isSubQueryResult]
  cases missingModalities a.modalities b.modalities <;> simp

theorem isSubPrimitive_iff (p q : PrimitiveType) :
    isSubPrimitive p q = true ↔ Widens (.primitive p) (.primitive q) := by
  unfold isSubPrimitive
  rw [Bool.or_eq_true, eqPrimitiveType_iff]
  constructor
  · rintro (rfl | h)
    · exact .primitive p
    · split at h
      · exact .number
      · exact .dimension _
      · cases h
  · intro h
    cases h with
    | primitive => exact .inl rfl
    | number => exact .inr rfl
    | dimension d => exact .inr rfl

theorem eqType_widens {a b : VclType} (h : eqType a b = true) : Widens a b := by
  induction a generalizing b with
  | primitive p =>
    cases b with
    | primitive q =>
      rw [eqType, eqPrimitiveType_iff] at h
      rw [h]
      exact .primitive q
    | _ => cases h
  | array t ih =>
    cases b with
    | array u => exact .array (ih h)
    | _ => cases h
  | modality m =>
    cases b with
    | modality m' =>
      rw [eqType, eqModalityType_iff] at h
      rw [← h.1]
      exact .modality h.2
    | _ => cases h
  | hexad ms =>
    cases b with
    | hexad ms' =>
      simp only [eqType, Bool.and_eq_true, beq_iff_eq, List.all_eq_true, List.any_eq_true,
        eqModalityType_iff] at h
      refine .hexad (.inl ⟨h.1, fun m hm => ?_⟩)
      obtain ⟨m', hmem, rfl, hknown⟩ := h.2 m hm
      exact ⟨hmem, hknown⟩
    | _ => cases h
  | proof kind contract =>
    cases b with
    | proof kind' contract' =>
      simp only [eqType, Bool.and_eq_true, beq_iff_eq] at h
      rw [h.1, h.2]
      exact .proof kind' contract'
    | _ => cases h
  | unit =>
    cases b with
    | unit => exact .unit .unit
    | _ => cases h
  | never => exact .never b
  | _ => cases b <;> cases h

/-- What the check accepts follows by the rules. -/
theorem widens_of_isSubtype (a b : VclType) (h : isSubtype a b = .ok ()) : Widens a b := by
  induction a, b using isSubtype.induct _ (fun a b =>
    checkStructuralSubtype a b = .ok () → Widens a b) with
  | case1 a b heq => exact eqType_widens heq
  | case2 a b hne ih =>
    rw [isSubtype, if_neg hne] at h
    exact ih h
  | case3 p q hsub h => exact (isSubPrimitive_iff p q).1 hsub
  | case4 p q hsub h =>
    rw [checkStructuralSubtype, if_neg hsub] at h
    cases h
  | case5 t u hok ih h => exact .array (ih hok)
  | case6 t u e herror ih h =>
    rw [checkStructuralSubtype, herror] at h
    cases h
  | case7 x d c y d' c' hdomain hcodomain ihd ihc h => exact .pi (ihd hdomain) (ihc hcodomain)
  | case8 x d c y d' c' hdomain e herror ihd ihc h =>
    rw [checkStructuralSubtype, hdomain, herror] at h
    cases h
  | case9 x d c y d' c' e herror ihd h =>
    rw [checkStructuralSubtype, herror] at h
    cases h
  | case10 ms ms' missing hempty h =>
    exact .hexad (.inr ((missingModalities_iff ms ms').1 (List.length_eq_zero_iff.1 hempty)))
  | case11 ms ms' missing hne h =>
    rw [checkStructuralSubtype, if_neg hne] at h
    cases h
  | case12 m m' heq h =>
    obtain ⟨rfl, hknown⟩ := (eqModalityType_iff m m').1 heq
    exact .modality hknown
  | case13 m m' hne h =>
    rw [checkStructuralSubtype, if_neg hne] at h
    cases h
  | case14 b h => exact .never b
  | case15 a hnever h => exact .unit a
  | case16 info kind contract info' h =>
    rw [checkStructuralSubtype] at h
    exact .proved kind contract ((isSubQueryResult_iff info info').1 h)
  | case17 info info' h =>
    rw [checkStructuralSubtype] at h
    exact .query ((isSubQueryResult_iff info info').1 h)
  | case18 a b h1 h2 h3 h4 h5 h6 h7 h8 h9 h =>
    rw [checkStructuralSubtype] at h
    · cases h
    all_goals assumption

theorem isSubtype_of_structural {a b : VclType} (h : checkStructuralSubtype a b = .ok ()) :
    isSubtype a b = .ok () := by
  rw [isSubtype]
  split
  · rfl
  · exact h

theorem isSubtype_of_eq {a b : VclType} (h : eqType a b = true) : isSubtype a b = .ok () := by
  rw [isSubtype, if_pos h]

theorem isSubtype_of_widens {a b : VclType} (h : Widens a b) : isSubtype a b = .ok () := by
  induction h with
  | primitive p => exact isSubtype_of_eq ((eqPrimitiveType_iff p p).2 rfl)
  | number =>
    apply isSubtype_of_structural
    rw [checkStructuralSubtype, if_pos ((isSubPrimitive_iff _ _).2 .number)]
  | dimension d =>
    apply isSubtype_of_structural
    rw [checkStructuralSubtype, if_pos ((isSubPrimitive_iff _ _).2 (.dimension d))]
  | array h ih =>
    apply isSubtype_of_structural
    rw [checkStructuralSubtype, ih]
  | pi hdomain hcodomain ihd ihc =>
    apply isSubtype_of_structural
    rw [checkStructuralSubtype, ihd, ihc]
  | @modality m h => exact isSubtype_of_eq ((eqModalityType_iff m m).2 ⟨rfl, h⟩)
  | @hexad a b h =>
    rcases h with ⟨hlength, hcovers⟩ | hcovers
    · apply isSubtype_of_eq
      simp only [eqType, Bool.and_eq_true, beq_iff_eq, List.all_eq_true, List.any_eq_true,
        eqModalityType_iff]
      exact ⟨hlength, fun m hm => ⟨m, (hcovers m hm).1, rfl, (hcovers m hm).2⟩⟩
    · apply isSubtype_of_structural
      rw [checkStructuralSubtype, (missingModalities_iff a b).2 hcovers]
      rfl
  | proof kind contract => exact isSubtype_of_eq (by simp [eqType])
  | @query a b h =>
    apply isSubtype_of_structural
    rw [checkStructuralSubtype]
    exact (isSubQueryResult_iff a b).2 h
  | @proved a b kind contract h =>
    apply isSubtype_of_structural
    rw [checkStructuralSubtype]
    exact (isSubQueryResult_iff a b).2 h
  | never t =>
    apply isSubtype_of_structural
    rw [checkStructuralSubtype]
  | unit t =>
    apply isSubtype_of_structural
    cases t <;> simp [checkStructuralSubtype]

/-- The check decides the relation. -/
theorem isSubtype_iff (a b : VclType) : isSubtype a b = .ok () ↔ Widens a b :=
  ⟨widens_of_isSubtype a b, isSubtype_of_widens⟩

/-! ### Reflexivity -/

/-- The type has no pair, no proved result and no unknown modality, outside of those. -/
def VclType.Whole : VclType → Prop
  | .primitive _ => True
  | .array inner => inner.Whole
  | .modality m => m.Known
  | .hexad mods => ∀ m ∈ mods, m.Known
  | .queryResult info => ∀ m ∈ info.modalities, m.Known
  | .proof _ _ => True
  | .provedResult _ _ _ => False
  | .pi _ domain codomain => domain.Whole ∧ codomain.Whole
  | .sigma _ _ _ => False
  | .unit => True
  | .never => True

theorem covers_refl_iff (ms : List ModalityType) : Covers ms ms ↔ ∀ m ∈ ms, m.Known :=
  ⟨fun h m hm => (h m hm).2, fun h m hm => ⟨hm, h m hm⟩⟩

theorem widens_refl_iff (t : VclType) : Widens t t ↔ t.Whole := by
  induction t with
  | primitive p => exact iff_of_true (.primitive p) trivial
  | array t ih =>
    constructor
    · intro h
      cases h with
      | array h => exact ih.1 h
    · intro h
      exact .array (ih.2 h)
  | modality m =>
    constructor
    · intro h
      cases h with
      | modality h => exact h
    · exact .modality
  | hexad ms =>
    constructor
    · intro h
      cases h with
      | hexad h => exact (covers_refl_iff ms).1 (h.elim (fun h => h.2) fun h => h)
    · intro h
      exact .hexad (.inr ((covers_refl_iff ms).2 h))
  | queryResult info =>
    constructor
    · intro h
      cases h with
      | query h => exact (covers_refl_iff info.modalities).1 h
    · intro h
      exact .query ((covers_refl_iff info.modalities).2 h)
  | proof kind contract => exact iff_of_true (.proof kind contract) trivial
  | provedResult info kind contract =>
    constructor
    · intro h
      cases h
    · exact False.elim
  | pi x d c ihd ihc =>
    constructor
    · intro h
      cases h with
      | pi hdomain hcodomain => exact ⟨ihd.1 hdomain, ihc.1 hcodomain⟩
    · rintro ⟨hdomain, hcodomain⟩
      exact .pi (ihd.2 hdomain) (ihc.2 hcodomain)
  | sigma x fst snd =>
    constructor
    · intro h
      cases h
    · exact False.elim
  | unit => exact iff_of_true (.unit .unit) trivial
  | never => exact iff_of_true (.never .never) trivial

/-! ### Transitivity -/

/-- The first step goes by the lengths and the second by containment. The third list asks for a
modality in whose place the first one repeats another, and the two differ in length or in a modality
that only the first one has. -/
structure LengthFirst (a b c : List ModalityType) : Prop where
  length : a.length = b.length
  known : ∀ m ∈ a, m.Known
  within : a ⊆ b
  asked : ∀ m ∈ c, m ∈ b ∧ m.Known
  lost : ∃ m ∈ c, m ∉ a
  apart : a.length ≠ c.length ∨ ∃ m ∈ a, m ∉ c

/-- The first step goes by containment and the second by the lengths. The third list has a modality
that the first one lacks or that is not known, and the two differ in length or in a modality of the
first one. -/
structure LengthLast (a b c : List ModalityType) : Prop where
  length : b.length = c.length
  known : ∀ m ∈ b, m.Known
  asked : b ⊆ a
  within : b ⊆ c
  lost : ∃ m ∈ c, m ∉ a ∨ ¬ m.Known
  apart : a.length ≠ c.length ∨ ∃ m ∈ a, m ∉ c ∨ ¬ m.Known

/-- Three types that have, at some place, three hexads of these kinds. In the domain of a function
type the steps go the other way. -/
inductive Broken : VclType → VclType → VclType → Prop
  | hexad {a b c : List ModalityType} (h : LengthFirst a b c ∨ LengthLast a b c) :
      Broken (.hexad a) (.hexad b) (.hexad c)
  | array {t u v : VclType} (h : Broken t u v) : Broken (.array t) (.array u) (.array v)
  | domain {x y z : String} {d d' d'' c c' c'' : VclType} (h : Broken d'' d' d) :
      Broken (.pi x d c) (.pi y d' c') (.pi z d'' c'')
  | codomain {x y z : String} {d d' d'' c c' c'' : VclType} (h : Broken c c' c'') :
      Broken (.pi x d c) (.pi y d' c') (.pi z d'' c'')

theorem Covers.trans {a b c : List ModalityType} (h : Covers a b) (h' : Covers b c) :
    Covers a c := fun m hm => ⟨(h m (h' m hm).1).1, (h' m hm).2⟩

theorem Shortcut.trans {a b c : List ModalityType} (h : Shortcut a b) (h' : Shortcut b c) :
    Shortcut a c := ⟨h.1.trans h'.1, h'.2.trans h.2⟩

theorem lengthFirst_of_not {a b c : List ModalityType} (h : Shortcut a b) (h' : Covers b c)
    (hshort : ¬ Shortcut a c) (hcovers : ¬ Covers a c) : LengthFirst a b c where
  length := h.1
  known m hm := (h.2 m hm).2
  within m hm := (h.2 m hm).1
  asked := h'
  lost := by
    by_contra hall
    push Not at hall
    exact hcovers fun m hm => ⟨hall m hm, (h' m hm).2⟩
  apart := by
    by_contra hall
    push Not at hall
    exact hshort ⟨hall.1, fun m hm => ⟨hall.2 m hm, (h.2 m hm).2⟩⟩

theorem lengthLast_of_not {a b c : List ModalityType} (h : Covers a b) (h' : Shortcut b c)
    (hshort : ¬ Shortcut a c) (hcovers : ¬ Covers a c) : LengthLast a b c where
  length := h'.1
  known m hm := (h m hm).2
  asked m hm := (h m hm).1
  within m hm := (h'.2 m hm).1
  lost := by
    by_contra hall
    push Not at hall
    exact hcovers hall
  apart := by
    by_contra hall
    push Not at hall
    exact hshort hall

/-- Two steps between hexads make one, except where a length stood for a modality. -/
theorem hexads_or_broken {a b c : List ModalityType} (h : Shortcut a b ∨ Covers a b)
    (h' : Shortcut b c ∨ Covers b c) :
    (Shortcut a c ∨ Covers a c) ∨ LengthFirst a b c ∨ LengthLast a b c := by
  by_cases hac : Shortcut a c ∨ Covers a c
  · exact .inl hac
  · right
    rw [not_or] at hac
    rcases h with h | h <;> rcases h' with h' | h'
    · exact absurd (h.trans h') hac.1
    · exact .inl (lengthFirst_of_not h h' hac.1 hac.2)
    · exact .inr (lengthLast_of_not h h' hac.1 hac.2)
    · exact absurd (h.trans h') hac.2

/-- Two hexads that are not related although there is one between them. -/
theorem LengthFirst.not_widens {a b c : List ModalityType} (h : LengthFirst a b c) :
    ¬ Shortcut a c ∧ ¬ Covers a c := by
  constructor
  · rintro ⟨hlength, hcovers⟩
    rcases h.apart with hne | ⟨m, hm, hnot⟩
    · exact hne hlength
    · exact hnot (hcovers m hm).1
  · intro hcovers
    obtain ⟨m, hm, hnot⟩ := h.lost
    exact hnot (hcovers m hm).1

theorem LengthLast.not_widens {a b c : List ModalityType} (h : LengthLast a b c) :
    ¬ Shortcut a c ∧ ¬ Covers a c := by
  constructor
  · rintro ⟨hlength, hcovers⟩
    rcases h.apart with hne | ⟨m, hm, hnot⟩
    · exact hne hlength
    · exact hnot.elim (· (hcovers m hm).1) (· (hcovers m hm).2)
  · intro hcovers
    obtain ⟨m, hm, hnot⟩ := h.lost
    exact hnot.elim (· (hcovers m hm).1) (· (hcovers m hm).2)

/-- Two steps make one, except where the types are broken. -/
theorem Widens.trans_or_broken {a b c : VclType} (h : Widens a b) (h' : Widens b c) :
    Widens a c ∨ Broken a b c := by
  induction b generalizing a c with
  | primitive q =>
    cases h with
    | primitive => exact .inl h'
    | number =>
      cases h' with
      | primitive => exact .inl .number
      | unit => exact .inl (.unit _)
    | dimension d =>
      cases h' with
      | primitive => exact .inl (.dimension d)
      | dimension => exact .inl (.dimension d)
      | unit => exact .inl (.unit _)
    | never => exact .inl (.never c)
  | array u ih =>
    cases h with
    | array h =>
      cases h' with
      | array h' => exact (ih h h').imp .array .array
      | unit => exact .inl (.unit _)
    | never => exact .inl (.never c)
  | modality m =>
    cases h with
    | modality h => exact .inl h'
    | never => exact .inl (.never c)
  | hexad b =>
    cases h with
    | hexad h =>
      cases h' with
      | hexad h' => exact (hexads_or_broken h h').imp .hexad .hexad
      | unit => exact .inl (.unit _)
    | never => exact .inl (.never c)
  | queryResult info =>
    cases h with
    | query h =>
      cases h' with
      | query h' => exact .inl (.query (h.trans h'))
      | unit => exact .inl (.unit _)
    | proved kind contract h =>
      cases h' with
      | query h' => exact .inl (.proved kind contract (h.trans h'))
      | unit => exact .inl (.unit _)
    | never => exact .inl (.never c)
  | proof kind contract =>
    cases h with
    | proof => exact .inl h'
    | never => exact .inl (.never c)
  | provedResult info kind contract =>
    cases h with
    | never => exact .inl (.never c)
  | pi y d' c' ihd ihc =>
    cases h with
    | pi hdomain hcodomain =>
      cases h' with
      | pi hdomain' hcodomain' =>
        rcases ihd hdomain' hdomain with hd | hd
        · rcases ihc hcodomain hcodomain' with hc | hc
          · exact .inl (.pi hd hc)
          · exact .inr (.codomain hc)
        · exact .inr (.domain hd)
      | unit => exact .inl (.unit _)
    | never => exact .inl (.never c)
  | sigma x fst snd =>
    cases h with
    | never => exact .inl (.never c)
  | unit =>
    cases h' with
    | unit => exact .inl (.unit a)
  | never =>
    cases h with
    | never => exact .inl h'

/-- Broken types are not related. -/
theorem Broken.not_widens {a b c : VclType} (h : Broken a b c) : ¬ Widens a c := by
  induction h with
  | hexad h =>
    have hno := h.elim LengthFirst.not_widens LengthLast.not_widens
    intro hac
    cases hac with
    | hexad hac => exact hac.elim hno.1 hno.2
  | array h ih =>
    intro hac
    cases hac with
    | array hac => exact ih hac
  | domain h ih =>
    intro hac
    cases hac with
    | pi hdomain hcodomain => exact ih hdomain
  | codomain h ih =>
    intro hac
    cases hac with
    | pi hdomain hcodomain => exact ih hcodomain

/-- No hexad of the type repeats a modality. -/
def VclType.Distinct : VclType → Prop
  | .array inner => inner.Distinct
  | .hexad mods => mods.Nodup
  | .pi _ domain codomain => domain.Distinct ∧ codomain.Distinct
  | _ => True

/-- Without repetitions the equality of lengths is containment. -/
theorem Shortcut.covers {a b : List ModalityType} (h : Shortcut a b) (hnodup : a.Nodup) :
    Covers a b := by
  obtain ⟨hlength, hcovers⟩ := h
  have hperm : a.Perm b := by
    apply (List.subperm_of_subset hnodup fun m hm => (hcovers m hm).1).perm_of_length_le
    rw [hlength]
  intro m hm
  have hmem : m ∈ a := hperm.mem_iff.2 hm
  exact ⟨hmem, (hcovers m hmem).2⟩

theorem not_broken_of_distinct {a b c : VclType} (ha : a.Distinct) (hb : b.Distinct)
    (hc : c.Distinct) : ¬ Broken a b c := by
  intro h
  induction h with
  | hexad h =>
    rcases h with h | h
    · have hab : Shortcut _ _ := ⟨h.length, fun m hm => ⟨h.within hm, h.known m hm⟩⟩
      exact h.not_widens.2 ((hab.covers ha).trans h.asked)
    · have hbc : Shortcut _ _ := ⟨h.length, fun m hm => ⟨h.within hm, h.known m hm⟩⟩
      have hab : Covers _ _ := fun m hm => ⟨h.asked hm, h.known m hm⟩
      exact h.not_widens.2 (hab.trans (hbc.covers hb))
  | array h ih => exact ih ha hb hc
  | domain h ih => exact ih hc.1 hb.1 ha.1
  | codomain h ih => exact ih ha.2 hb.2 hc.2

/-- Subtyping is reflexive exactly at the whole types, and two steps make one exactly where the
three types are not broken. -/
theorem subtype_preorder_iff (t a b c : VclType) :
    (isSubtype t t = .ok () ↔ t.Whole) ∧
      (isSubtype a b = .ok () → isSubtype b c = .ok () →
        (isSubtype a c = .ok () ↔ ¬ Broken a b c)) := by
  rw [isSubtype_iff, isSubtype_iff, isSubtype_iff, isSubtype_iff]
  refine ⟨widens_refl_iff t, fun hab hbc => ⟨fun hac hbroken => hbroken.not_widens hac, ?_⟩⟩
  exact (hab.trans_or_broken hbc).resolve_right

/-- A function from two modalities can be used as one from three, in another order, and that as one
from four. -/
theorem subtype_preorder_functions :
    isSubtype (.pi "x" (.hexad [.graph, .vector]) .never)
      (.pi "z" (.hexad [.tensor, .vector, .document, .graph]) .unit) = .ok () := by
  have hcovers {a b : List ModalityType} (h : Covers a b) : Widens (.hexad a) (.hexad b) :=
    .hexad (.inr h)
  refine ((subtype_preorder_iff .unit _ (.pi "y" (.hexad [.vector, .graph, .document]) .unit)
    _).2 ?_ ?_).mpr (not_broken_of_distinct ?_ ?_ ?_)
  · exact (isSubtype_iff _ _).mpr (.pi (hcovers (by simp [Covers, ModalityType.Known])) (.never _))
  · exact (isSubtype_iff _ _).mpr (.pi (hcovers (by simp [Covers, ModalityType.Known])) (.unit _))
  all_goals simp [VclType.Distinct]

/-- A spatial modality is not a subtype of itself; two graphs are a subtype of a graph and a
vector, which are one of a vector, but two graphs are not. -/
theorem subtype_not_preorder :
    isSubtype (.modality .spatial) (.modality .spatial) ≠ .ok () ∧
      isSubtype (.hexad [.graph, .graph]) (.hexad [.graph, .vector]) = .ok () ∧
      isSubtype (.hexad [.graph, .vector]) (.hexad [.vector]) = .ok () ∧
      isSubtype (.hexad [.graph, .graph]) (.hexad [.vector]) ≠ .ok () := by
  refine ⟨by simp [isSubtype, checkStructuralSubtype, eqType, eqModalityType],
    by simp [isSubtype, eqType, eqModalityType],
    by simp [isSubtype, checkStructuralSubtype, eqType, missingModalities, eqModalityType],
    by simp [isSubtype, checkStructuralSubtype, eqType, missingModalities, eqModalityType]⟩

/-! ### What a query asks for -/

/-- The plain result in a result with or without its proof. -/
def VclType.resultInfo : VclType → Option QueryResultInfo
  | .queryResult info => some info
  | .provedResult info _ _ => some info
  | _ => none

/-- A projected field gives what another one requires. -/
structure FieldTypeInfo.Gives (g f : FieldTypeInfo) : Prop where
  modality : g.modality = f.modality
  fieldName : g.fieldName = f.fieldName
  fieldType : isSubtype (.primitive g.fieldType) (.primitive f.fieldType) = .ok ()

/-- A value of the first type has what a query for the second type relies on. -/
structure Supplies (sub sup : VclType) : Prop where
  hexad : ∀ n m, sub = .hexad n → sup = .hexad m → m ⊆ n
  modalities : ∀ j i, sub.resultInfo = some j → sup = .queryResult i →
    i.modalities ⊆ j.modalities
  projections : ∀ j i, sub.resultInfo = some j → sup = .queryResult i →
    ∀ f ∈ i.projections, ∃ g ∈ j.projections, g.Gives f

/-- A value of the first type can be read as one of the second. -/
inductive PrimitiveType.ReadsAs : PrimitiveType → PrimitiveType → Prop
  | same (p : PrimitiveType) : ReadsAs p p
  | number : ReadsAs .int .float
  | dimension (d : ℤ) : ReadsAs (.vector d) (.vector 0)

/-- Two hexads of one length, the first contained in the second but with fewer different
modalities, or a field that no field of its name can be read as. -/
inductive Lacks : VclType → VclType → Prop
  | hexad {n m : List ModalityType} (hlength : n.length = m.length) (hwithin : n ⊆ m)
      (hrepeats : n.toFinset.card < m.toFinset.card) : Lacks (.hexad n) (.hexad m)
  | projection {sub : VclType} {j i : QueryResultInfo} {f : FieldTypeInfo}
      (hsub : sub.resultInfo = some j) (hf : f ∈ i.projections)
      (hother : ∀ g ∈ j.projections, g.modality = f.modality → g.fieldName = f.fieldName →
        ¬ g.fieldType.ReadsAs f.fieldType) :
      Lacks sub (.queryResult i)

theorem widens_primitive_iff (p q : PrimitiveType) :
    Widens (.primitive p) (.primitive q) ↔ p.ReadsAs q := by
  constructor
  · intro h
    cases h with
    | primitive => exact .same p
    | number => exact .number
    | dimension d => exact .dimension d
  · intro h
    cases h with
    | same => exact .primitive p
    | number => exact .number
    | dimension d => exact .dimension d

theorem FieldTypeInfo.gives_iff (g f : FieldTypeInfo) : g.Gives f ↔
    g.modality = f.modality ∧ g.fieldName = f.fieldName ∧ g.fieldType.ReadsAs f.fieldType := by
  rw [← widens_primitive_iff, ← isSubtype_iff]
  exact ⟨fun h => ⟨h.1, h.2, h.3⟩, fun h => ⟨h.1, h.2.1, h.2.2⟩⟩

/-- A list that is contained in another one has all of it if it has as many different elements. -/
theorem subset_of_card_le {n m : List ModalityType} (hwithin : n ⊆ m)
    (hcard : m.toFinset.card ≤ n.toFinset.card) : m ⊆ n := by
  have hsub : n.toFinset ⊆ m.toFinset := fun x hx =>
    List.mem_toFinset.mpr (hwithin (List.mem_toFinset.mp hx))
  have heq := Finset.eq_of_subset_of_card_le hsub hcard
  intro x hx
  rw [← List.mem_toFinset, ← heq, List.mem_toFinset] at hx
  exact hx

theorem widens_queryResult_iff {sub : VclType} {j : QueryResultInfo} (i : QueryResultInfo)
    (hsub : sub.resultInfo = some j) :
    Widens sub (.queryResult i) ↔ Covers j.modalities i.modalities := by
  cases sub with
  | queryResult info =>
    cases hsub
    constructor
    · intro h
      cases h with
      | query h => exact h
    · exact .query
  | provedResult info kind contract =>
    cases hsub
    constructor
    · intro h
      cases h with
      | proved _ _ h => exact h
    · exact .proved kind contract
  | _ => cases hsub

/-- What the check accepts supplies the query, exactly where nothing is lacking. -/
theorem subtype_supplies_iff (sub sup : VclType) (h : isSubtype sub sup = .ok ()) :
    Supplies sub sup ↔ ¬ Lacks sub sup := by
  rw [isSubtype_iff] at h
  constructor
  · intro hsupplies hlacks
    cases hlacks with
    | @hexad n m hlength hwithin hrepeats =>
      have hback : m.toFinset ⊆ n.toFinset := fun x hx =>
        List.mem_toFinset.mpr (hsupplies.hexad n m rfl rfl (List.mem_toFinset.mp hx))
      exact absurd (Finset.card_le_card hback) (not_le.mpr hrepeats)
    | @projection _ j i f hsub hf hother =>
      obtain ⟨g, hg, hgives⟩ := hsupplies.projections j i hsub rfl f hf
      obtain ⟨hmodality, hname, hreads⟩ := (g.gives_iff f).mp hgives
      exact hother g hg hmodality hname hreads
  · intro hnot
    constructor
    · rintro n m rfl rfl
      cases h with
      | hexad h =>
        rcases h with ⟨hlength, hcovers⟩ | hcovers
        · refine subset_of_card_le (fun x hx => (hcovers x hx).1) (not_lt.mp fun hrepeats => ?_)
          exact hnot (.hexad hlength (fun x hx => (hcovers x hx).1) hrepeats)
        · exact fun x hx => (hcovers x hx).1
    · rintro j i hsub rfl x hx
      exact ((widens_queryResult_iff i hsub).1 h x hx).1
    · rintro j i hsub rfl f hf
      by_contra hno
      refine hnot (.projection hsub hf fun g hg hmodality hname hreads => hno ⟨g, hg, ?_⟩)
      exact (g.gives_iff f).mpr ⟨hmodality, hname, hreads⟩

/-- A proved result that counts its pages serves a query for a plain one that measures them. -/
theorem subtype_supplies_pages :
    Supplies (.provedResult ⟨[.graph, .document], [⟨.document, "pages", .int⟩], []⟩ .citation "c")
      (.queryResult ⟨[.document], [⟨.document, "pages", .float⟩], []⟩) := by
  refine (subtype_supplies_iff _ _ ?_).mpr ?_
  · exact (isSubtype_iff _ _).mpr (.proved _ _ (by simp [Covers, ModalityType.Known]))
  · rintro (_ | ⟨hsub, hf, hother⟩)
    cases hsub
    obtain rfl := List.mem_singleton.mp hf
    exact hother _ (List.mem_singleton_self _) rfl rfl .number

def titled : QueryResultInfo := ⟨[.document], [⟨.document, "title", .string⟩], []⟩

/-- Two graphs are a subtype of a graph and a vector, and a result without fields is one of a
result with a title. -/
theorem subtype_not_supplies :
    isSubtype (.hexad [.graph, .graph]) (.hexad [.graph, .vector]) = .ok () ∧
      ¬ Supplies (.hexad [.graph, .graph]) (.hexad [.graph, .vector]) ∧
      isSubtype (.queryResult ⟨[.document], [], []⟩) (.queryResult titled) = .ok () ∧
      ¬ Supplies (.queryResult ⟨[.document], [], []⟩) (.queryResult titled) := by
  refine ⟨by simp [isSubtype, eqType, eqModalityType], ?_, by simp [isSubtype,
    checkStructuralSubtype, eqType, isSubQueryResult, missingModalities, titled,
    eqModalityType], ?_⟩
  · intro h
    have hmem : ModalityType.vector ∈ [ModalityType.graph, .graph] :=
      h.hexad _ _ rfl rfl (List.mem_cons_of_mem _ (List.mem_singleton_self _))
    simp at hmem
  · intro h
    obtain ⟨g, hg, -⟩ := h.projections _ _ rfl rfl _ (List.mem_singleton_self _)
    cases hg

end NextgenDatabases.Vcl
