import NextgenDatabases.Foundations.Json
import NextgenDatabases.Foundations.Traverse
import NextgenDatabases.Vcl.Types
import Mathlib

/-!
# Proof clauses

A query or a mutation may ask for several proofs. The checker decides whether its contracts go
together, and the planner makes an obligation of each and says in which order they are met.
-/
namespace NextgenDatabases.Vcl.Proofs

open Foundations

structure ContractSpec where
  proofKind : ProofKind
  requiredModalities : List ModalityType
  composableWith : List ProofKind
  deriving DecidableEq, Repr

/-- The registered contracts, by name; none is registered as `__proto__`. -/
abbrev Contracts := String → Option ContractSpec

def proofKindOfAstProofType : ProofType → ProofKind
  | .existence => .existence
  | .citation => .citation
  | .access => .access
  | .integrity => .integrity
  | .provenance => .provenance
  | .custom => .custom

/-! ### The check -/

/-- Names of properties that every object has do not get here, since `checkProofSpec` refuses
them. -/
def canComposeProofs (ctx : Contracts) (contract1 contract2 : String) : Bool :=
  match ctx contract1, ctx contract2 with
  | some spec1, some spec2 =>
    spec1.composableWith.any (· == spec2.proofKind) &&
      spec2.composableWith.any (· == spec1.proofKind)
  | _, _ => false

def areProofsComposable (ctx : Contracts) (contractNames : List String) : Bool :=
  if contractNames.length ≤ 1 then true
  else
    (orderedPairs contractNames).foldl
      (fun allOk p => if !canComposeProofs ctx p.1 p.2 then false else allOk) true

/-- The errors of the check. -/
inductive ProofError
  | missingProof
  | proofObligationFailed (proofKind : ProofKind) (reason : String)
  | multiProofConflict (proof1 proof2 reason : String)
  deriving DecidableEq, Repr

def checkProofSpec (ctx : Contracts) (spec : ProofSpec) : Except ProofError (ProofKind × String) :=
  let kind := proofKindOfAstProofType spec.proofType
  match ctx spec.contractName with
  | none =>
    -- what a property of `Object.prototype` has for a kind is `undefined`
    if Dict.isObjectName spec.contractName then
      .error (.proofObligationFailed kind
        ("Contract '" ++ spec.contractName ++ "' expects undefined, got " ++
          proofKindToString kind))
    -- the registry may not be populated
    else .ok (kind, spec.contractName)
  | some contractSpec =>
    if contractSpec.proofKind ≠ kind then
      .error (.proofObligationFailed kind
        ("Contract '" ++ spec.contractName ++ "' expects " ++
          proofKindToString contractSpec.proofKind ++ ", got " ++ proofKindToString kind))
    else .ok (kind, spec.contractName)

/-- The first pair that does not compose. -/
def conflict (ctx : Contracts) (contractNames : List String) : Option (String × String) :=
  (orderedPairs contractNames).foldl
    (fun conflict p =>
      if !canComposeProofs ctx p.1 p.2 && conflict.isNone then some p else conflict) none

def checkMultiProof (ctx : Contracts) (proofSpecs : List ProofSpec) :
    Except ProofError (List (ProofKind × String)) :=
  if proofSpecs.length = 0 then .error .missingProof
  else
    match proofSpecs.mapM (checkProofSpec ctx) with
    | .error e => .error e
    | .ok kinds =>
      if kinds.length > 1 then
        let contractNames := kinds.map Prod.snd
        if !areProofsComposable ctx contractNames then
          match conflict ctx contractNames with
          | some (c1, c2) => .error (.multiProofConflict c1 c2 "Contracts are not composable")
          | none => .ok kinds
        else .ok kinds
      else .ok kinds

/-! ### Obligations -/

inductive ObligationKind
  | existence | integrity | access | citation | provenance
  | custom (contractName : String)
  deriving DecidableEq, Repr

structure ProofObligation where
  kind : ObligationKind
  contractName : String
  witnessFields : List String
  circuit : String
  estimatedTimeMs : ℤ
  requiredModalities : List ModalityType
  deriving DecidableEq, Repr

inductive CompositionStrategy
  | independent
  | sequential (indices : List ℕ)
  | nested
  deriving DecidableEq, Repr

structure ComposedProofPlan where
  obligations : List ProofObligation
  totalEstimatedTimeMs : ℤ
  isParallelizable : Bool
  compositionStrategy : CompositionStrategy
  deriving DecidableEq, Repr

def proofKindToObligationKind (pk : ProofKind) (contractName : String) : ObligationKind :=
  match pk with
  | .existence => .existence
  | .citation => .citation
  | .access => .access
  | .integrity => .integrity
  | .provenance => .provenance
  | .custom => .custom contractName

def proofKindToCircuit : ProofKind → String
  | .existence => "existence-proof-v1"
  | .citation => "citation-proof-v1"
  | .access => "access-control-v1"
  | .integrity => "integrity-check-v1"
  | .provenance => "provenance-chain-v1"
  | .custom => "custom-circuit"

def estimateProofTime : ProofKind → ℤ
  | .existence => 50
  | .citation => 100
  | .access => 150
  | .integrity => 200
  | .provenance => 300
  | .custom => 500

def witnessFields : ProofType → List String
  | .existence => ["hexad_id", "timestamp"]
  | .citation => ["hexad_id", "citation_chain", "source_ids"]
  | .access => ["hexad_id", "user_id", "role", "permissions"]
  | .integrity => ["hexad_id", "modality_hashes", "merkle_root"]
  | .provenance => ["hexad_id", "lineage_chain", "actors", "timestamps"]
  | .custom => ["hexad_id", "contract_params"]

def generateObligation (ctx : Contracts) (queryResultType : QueryResultInfo)
    (proofSpec : ProofSpec) : Except String ProofObligation :=
  let proofKind := proofKindOfAstProofType proofSpec.proofType
  -- a name that every object has is refused before a plan is made
  let requiredMods :=
    match ctx proofSpec.contractName with
    | some spec => spec.requiredModalities
    | none => queryResultType.modalities
  .ok {
    kind := proofKindToObligationKind proofKind proofSpec.contractName
    contractName := proofSpec.contractName
    witnessFields := witnessFields proofSpec.proofType
    circuit := proofKindToCircuit proofKind
    estimatedTimeMs := estimateProofTime proofKind
    requiredModalities := requiredMods }

namespace ObligationKind

def isCitation : ObligationKind → Bool
  | citation => true
  | _ => false

def isProvenance : ObligationKind → Bool
  | provenance => true
  | _ => false

end ObligationKind

/-- The places of the obligations that meet the test. -/
def indices (test : ProofObligation → Bool) (obligations : List ProofObligation) : List ℕ :=
  (obligations.zipIdx.filter fun p => test p.1).map Prod.snd

/-- Citations come first when there is a provenance that relies on them. -/
def determineCompositionStrategy (obligations : List ProofObligation) : CompositionStrategy :=
  if obligations.length ≤ 1 then .independent
  else if obligations.any (·.kind.isProvenance) && obligations.any (·.kind.isCitation) then
    .sequential (indices (·.kind.isCitation) obligations ++
      indices (!·.kind.isCitation) obligations)
  else .independent

/-- The sum of two integers of 32 bits. -/
def add32 (a b : ℤ) : ℤ := (a + b).bmod (2 ^ 32)

def totalTime (strategy : CompositionStrategy) (obligations : List ProofObligation) : ℤ :=
  match strategy with
  | .independent => obligations.foldl (fun acc o => max acc o.estimatedTimeMs) 0
  | .sequential _ | .nested => obligations.foldl (fun acc o => add32 acc o.estimatedTimeMs) 0

def generateObligations (ctx : Contracts) (proofSpecs : List ProofSpec)
    (queryResultType : QueryResultInfo) : Except String ComposedProofPlan :=
  match proofSpecs.mapM (generateObligation ctx queryResultType) with
  | .error e => .error e
  | .ok obligations =>
    let strategy := determineCompositionStrategy obligations
    .ok {
      obligations := obligations
      totalEstimatedTimeMs := totalTime strategy obligations
      isParallelizable := strategy == .independent
      compositionStrategy := strategy }

/-! ### Which clauses are accepted -/

variable {ctx : Contracts} {specs : List ProofSpec} {spec : ProofSpec} {c1 c2 : String}
  {kinds : List (ProofKind × String)}

/-- Both contracts are registered, and each may stand beside the other's kind. -/
def Composable (ctx : Contracts) (c1 c2 : String) : Prop :=
  ∃ spec1 spec2, ctx c1 = some spec1 ∧ ctx c2 = some spec2 ∧
    spec2.proofKind ∈ spec1.composableWith ∧ spec1.proofKind ∈ spec2.composableWith

theorem canComposeProofs_iff : canComposeProofs ctx c1 c2 = true ↔ Composable ctx c1 c2 := by
  unfold canComposeProofs Composable
  cases ctx c1 with
  | none => simp
  | some spec1 =>
    cases ctx c2 with
    | none => simp
    | some spec2 => simp

/-- The contract, if it is registered, is of the kind that is asked for, and its name is otherwise
not one that every object has. -/
structure Fits (ctx : Contracts) (spec : ProofSpec) : Prop where
  kind : ∀ contract, ctx spec.contractName = some contract →
    contract.proofKind = proofKindOfAstProofType spec.proofType
  name : ctx spec.contractName = none → Dict.isObjectName spec.contractName = false

def asked (spec : ProofSpec) : ProofKind × String :=
  (proofKindOfAstProofType spec.proofType, spec.contractName)

theorem checkProofSpec_ok_iff {k : ProofKind × String} :
    checkProofSpec ctx spec = .ok k ↔ k = asked spec ∧ Fits ctx spec := by
  have hfits : Fits ctx spec ↔ _ ∧ _ := ⟨fun h => ⟨h.kind, h.name⟩, fun h => ⟨h.1, h.2⟩⟩
  rw [hfits, checkProofSpec]
  cases hctx : ctx spec.contractName with
  | none =>
    dsimp only
    split_ifs with hname
    · simp [hname]
    · simp [hname, asked, eq_comm]
  | some contract =>
    simp only [Option.some.injEq, forall_eq', reduceCtorEq, false_imp_iff, and_true]
    split_ifs with hkind
    · simp [hkind]
    · simp [not_not.mp hkind, asked, eq_comm]

theorem mapM_checkProofSpec_iff :
    specs.mapM (checkProofSpec ctx) = .ok kinds ↔
      kinds = specs.map asked ∧ ∀ spec ∈ specs, Fits ctx spec := by
  rw [mapM_eq_ok_iff]
  induction specs generalizing kinds with
  | nil => simp [eq_comm]
  | cons spec specs ih =>
    rw [List.forall₂_cons_left_iff]
    constructor
    · rintro ⟨k, ks, hk, hks, rfl⟩
      obtain ⟨rfl, hspec⟩ := checkProofSpec_ok_iff.mp hk
      obtain ⟨rfl, hspecs⟩ := ih.mp hks
      exact ⟨rfl, List.forall_mem_cons.mpr ⟨hspec, hspecs⟩⟩
    · rintro ⟨rfl, hall⟩
      obtain ⟨hspec, hspecs⟩ := List.forall_mem_cons.mp hall
      exact ⟨_, _, checkProofSpec_ok_iff.mpr ⟨rfl, hspec⟩, ih.mpr ⟨rfl, hspecs⟩, rfl⟩

theorem conflict_eq (ctx : Contracts) (names : List String) :
    conflict ctx names = (orderedPairs names).find? fun p => !canComposeProofs ctx p.1 p.2 := by
  rw [conflict, foldl_first, Option.none_or]

theorem conflict_eq_some_iff {names : List String} :
    conflict ctx names = some (c1, c2) ↔
      FirstPair (fun a b => ¬ Composable ctx a b) names c1 c2 := by
  have hrel : (fun a b => (!canComposeProofs ctx a b) = true) =
      fun a b => ¬ Composable ctx a b := by
    funext a b
    rw [← canComposeProofs_iff, Bool.not_eq_true', Bool.not_eq_true]
  rw [conflict_eq, find_orderedPairs_iff, hrel]

theorem conflict_eq_none_iff {names : List String} :
    conflict ctx names = none ↔ names.Pairwise (Composable ctx) := by
  rw [conflict_eq, List.find?_eq_none, ← forall_mem_orderedPairs]
  simp only [Bool.not_eq_true', Bool.not_eq_false, canComposeProofs_iff]

theorem areProofsComposable_iff {names : List String} :
    areProofsComposable ctx names = true ↔ names.Pairwise (Composable ctx) := by
  unfold areProofsComposable
  split_ifs with hlength
  · match names, hlength with
    | [], _ => simp
    | [name], _ => simp
  · rw [foldl_unless, Bool.true_and, List.all_eq_true, ← forall_mem_orderedPairs]
    simp only [canComposeProofs_iff]

/-- The check in one piece: the search finds a pair whenever not all compose. -/
theorem checkMultiProof_eq (hfits : specs.mapM (checkProofSpec ctx) = .ok kinds)
    (hne : specs ≠ []) : checkMultiProof ctx specs =
      match conflict ctx (kinds.map Prod.snd) with
      | some (c1, c2) => .error (.multiProofConflict c1 c2 "Contracts are not composable")
      | none => .ok kinds := by
  rw [checkMultiProof, if_neg (mt List.length_eq_zero_iff.mp hne), hfits]
  simp only
  split_ifs with hmany hall
  · rfl
  · -- the loop that found all to compose and the one that looks for a conflict agree
    have hpairwise : (kinds.map Prod.snd).Pairwise (Composable ctx) := by
      rw [← areProofsComposable_iff]
      simpa using hall
    rw [conflict_eq_none_iff.mpr hpairwise]
  · have hpairwise : (kinds.map Prod.snd).Pairwise (Composable ctx) := by
      match kinds, hmany with
      | [], _ => simp
      | [k], _ => simp
      | _ :: _ :: _, hmany => simp at hmany
    rw [conflict_eq_none_iff.mpr hpairwise]

theorem names_asked (specs : List ProofSpec) :
    (specs.map asked).map Prod.snd = specs.map ProofSpec.contractName :=
  List.map_map

theorem checkProofSpec_error {e : ProofError} (h : checkProofSpec ctx spec = .error e) :
    ∃ kind reason, e = .proofObligationFailed kind reason := by
  unfold checkProofSpec at h
  split at h
  all_goals
    dsimp only at h
    split_ifs at h
    exact ⟨_, _, (Except.error.inj h).symm⟩

theorem checkMultiProof_of_error {e : ProofError} (h : specs.mapM (checkProofSpec ctx) = .error e) :
    checkMultiProof ctx specs = .error e := by
  have hne : specs ≠ [] := by
    rintro rfl
    cases h
  rw [checkMultiProof, if_neg (mt List.length_eq_zero_iff.mp hne), h]

/-- The first contract that does not fit. -/
structure Misfit (ctx : Contracts) (specs : List ProofSpec) (kind : ProofKind) (reason : String) :
    Prop where
  place : ∃ before spec after, specs = before ++ spec :: after ∧ (∀ s ∈ before, Fits ctx s) ∧
    checkProofSpec ctx spec = .error (.proofObligationFailed kind reason)

theorem misfit_iff {kind : ProofKind} {reason : String} :
    specs.mapM (checkProofSpec ctx) = .error (.proofObligationFailed kind reason) ↔
      Misfit ctx specs kind reason := by
  rw [mapM_eq_error_iff]
  constructor
  · rintro ⟨before, spec, after, rfl, hbefore, hspec⟩
    refine ⟨before, spec, after, rfl, fun s hs => ?_, hspec⟩
    obtain ⟨k, hk⟩ := hbefore s hs
    exact (checkProofSpec_ok_iff.mp hk).2
  · rintro ⟨before, spec, after, rfl, hbefore, hspec⟩
    exact ⟨before, spec, after, rfl,
      fun s hs => ⟨asked s, checkProofSpec_ok_iff.mpr ⟨rfl, hbefore s hs⟩⟩, hspec⟩

/-- Everything the check can end with. -/
theorem checkMultiProof_cases (ctx : Contracts) (specs : List ProofSpec) :
    (specs = [] ∧ checkMultiProof ctx specs = .error .missingProof) ∨
    (∃ kind reason, Misfit ctx specs kind reason ∧
      checkMultiProof ctx specs = .error (.proofObligationFailed kind reason)) ∨
    specs ≠ [] ∧ (∀ spec ∈ specs, Fits ctx spec) ∧
      ((∃ c1 c2,
        FirstPair (fun a b => ¬ Composable ctx a b) (specs.map ProofSpec.contractName) c1 c2 ∧
        checkMultiProof ctx specs =
          .error (.multiProofConflict c1 c2 "Contracts are not composable")) ∨
      (specs.map ProofSpec.contractName).Pairwise (Composable ctx) ∧
        checkMultiProof ctx specs = .ok (specs.map asked)) := by
  rcases eq_or_ne specs [] with rfl | hne
  · exact .inl ⟨rfl, rfl⟩
  refine .inr ?_
  cases hmap : specs.mapM (checkProofSpec ctx) with
  | error e =>
    obtain ⟨before, spec, after, -, -, hspec⟩ := mapM_eq_error_iff.mp hmap
    obtain ⟨kind, reason, rfl⟩ := checkProofSpec_error hspec
    exact .inl ⟨kind, reason, misfit_iff.mp hmap, checkMultiProof_of_error hmap⟩
  | ok kinds =>
    obtain ⟨rfl, hfits⟩ := mapM_checkProofSpec_iff.mp hmap
    refine .inr ⟨hne, hfits, ?_⟩
    rw [checkMultiProof_eq hmap hne, names_asked]
    cases hconflict : conflict ctx (specs.map ProofSpec.contractName) with
    | some p => exact .inl ⟨p.1, p.2, conflict_eq_some_iff.mp hconflict, rfl⟩
    | none => exact .inr ⟨conflict_eq_none_iff.mp hconflict, rfl⟩

theorem checkMultiProof_nil_iff :
    checkMultiProof ctx specs = .error .missingProof ↔ specs = [] := by
  constructor
  · intro h
    rcases checkMultiProof_cases ctx specs with ⟨hnil, -⟩ | ⟨kind, reason, -, hcheck⟩ |
      ⟨-, -, ⟨c1, c2, -, hcheck⟩ | ⟨-, hcheck⟩⟩
    · exact hnil
    all_goals rw [hcheck] at h; cases h
  · rintro rfl
    rfl

theorem checkMultiProof_ok_iff :
    checkMultiProof ctx specs = .ok kinds ↔ specs ≠ [] ∧ kinds = specs.map asked ∧
      (∀ spec ∈ specs, Fits ctx spec) ∧
      (specs.map ProofSpec.contractName).Pairwise (Composable ctx) := by
  constructor
  · intro h
    rcases checkMultiProof_cases ctx specs with ⟨-, hcheck⟩ | ⟨kind, reason, -, hcheck⟩ |
      ⟨hne, hfits, ⟨c1, c2, -, hcheck⟩ | ⟨hpairwise, hcheck⟩⟩
    all_goals rw [hcheck] at h
    · cases h
    · cases h
    · cases h
    · exact ⟨hne, (Except.ok.inj h).symm, hfits, hpairwise⟩
  · rintro ⟨hne, rfl, hfits, hpairwise⟩
    rw [checkMultiProof_eq (mapM_checkProofSpec_iff.mpr ⟨rfl, hfits⟩) hne, names_asked,
      conflict_eq_none_iff.mpr hpairwise]

theorem checkMultiProof_misfit_iff {kind : ProofKind} {reason : String} :
    checkMultiProof ctx specs = .error (.proofObligationFailed kind reason) ↔
      Misfit ctx specs kind reason := by
  constructor
  · intro h
    rcases checkMultiProof_cases ctx specs with ⟨-, hcheck⟩ | ⟨kind', reason', hmisfit, hcheck⟩ |
      ⟨-, -, ⟨c1, c2, -, hcheck⟩ | ⟨-, hcheck⟩⟩
    all_goals rw [hcheck] at h
    · cases h
    · cases h
      exact hmisfit
    · cases h
    · cases h
  · exact fun h => checkMultiProof_of_error (misfit_iff.mpr h)

theorem checkMultiProof_conflict_iff {reason : String} :
    checkMultiProof ctx specs = .error (.multiProofConflict c1 c2 reason) ↔
      (∀ spec ∈ specs, Fits ctx spec) ∧ reason = "Contracts are not composable" ∧
      FirstPair (fun a b => ¬ Composable ctx a b) (specs.map ProofSpec.contractName) c1 c2 := by
  constructor
  · intro h
    rcases checkMultiProof_cases ctx specs with ⟨-, hcheck⟩ | ⟨kind, reason', -, hcheck⟩ |
      ⟨-, hfits, ⟨c1', c2', hfirst, hcheck⟩ | ⟨-, hcheck⟩⟩
    all_goals rw [hcheck] at h
    · cases h
    · cases h
    · cases h
      exact ⟨hfits, rfl, hfirst⟩
    · cases h
  · rintro ⟨hfits, rfl, hfirst⟩
    have hne : specs ≠ [] := by
      rintro rfl
      obtain ⟨before, mid, after, hnames, -⟩ := hfirst.place
      simp at hnames
    rw [checkMultiProof_eq (mapM_checkProofSpec_iff.mpr ⟨rfl, hfits⟩) hne, names_asked,
      conflict_eq_some_iff.mpr hfirst]

/-- What the check says of a clause: no clause is without proofs, a contract that does not fit is
reported before any conflict, and of several conflicts that of the first pair is. With more than one
proof a contract that is not registered goes with none. -/
theorem multi_proof_decided (ctx : Contracts) (specs : List ProofSpec) :
    (checkMultiProof ctx specs = .error .missingProof ↔ specs = []) ∧
    (∀ kinds, checkMultiProof ctx specs = .ok kinds ↔ specs ≠ [] ∧ kinds = specs.map asked ∧
      (∀ spec ∈ specs, Fits ctx spec) ∧
      (specs.map ProofSpec.contractName).Pairwise (Composable ctx)) ∧
    (∀ kind reason, checkMultiProof ctx specs = .error (.proofObligationFailed kind reason) ↔
      Misfit ctx specs kind reason) ∧
    ∀ c1 c2 reason, checkMultiProof ctx specs = .error (.multiProofConflict c1 c2 reason) ↔
      (∀ spec ∈ specs, Fits ctx spec) ∧ reason = "Contracts are not composable" ∧
      FirstPair (fun a b => ¬ Composable ctx a b) (specs.map ProofSpec.contractName) c1 c2 :=
  ⟨checkMultiProof_nil_iff, fun _ => checkMultiProof_ok_iff, fun _ _ => checkMultiProof_misfit_iff,
    fun _ _ _ => checkMultiProof_conflict_iff⟩

/-! ### The plan -/

variable {info : QueryResultInfo} {o : ProofObligation} {obligations : List ProofObligation}
  {plan : ComposedProofPlan}

/-- The obligations in the order in which they are met. -/
def ComposedProofPlan.order (plan : ComposedProofPlan) : List ProofObligation :=
  match plan.compositionStrategy with
  | .sequential indices => indices.filterMap (plan.obligations[·]?)
  | .independent | .nested => plan.obligations

/-- An ordering by places takes what is at them. -/
theorem filterMap_indices (test : ProofObligation → Bool) (obligations : List ProofObligation) :
    (indices test obligations).filterMap (obligations[·]?) = obligations.filter test := by
  rw [indices, List.filterMap_map]
  have hat : ∀ p ∈ obligations.zipIdx.filter fun p => test p.1,
      ((obligations[·]?) ∘ Prod.snd) p = some p.1 := fun p hp =>
    List.mem_zipIdx_iff_getElem?.mp (List.mem_filter.mp hp).1
  rw [List.filterMap_congr hat, List.filterMap_eq_map']
  calc (obligations.zipIdx.filter fun p => test p.1).map Prod.fst
      = (obligations.zipIdx.map Prod.fst).filter test := List.filter_map.symm
    _ = obligations.filter test := by rw [List.zipIdx_map_fst]

/-- Every place once. -/
theorem indices_perm (test : ProofObligation → Bool) (obligations : List ProofObligation) :
    (indices test obligations ++ indices (!test ·) obligations).Perm
      (List.range obligations.length) := by
  rw [indices, indices, ← List.map_append]
  have hsplit := (List.filter_append_perm (fun p => test p.1) obligations.zipIdx).map Prod.snd
  rwa [List.zipIdx_map_snd, ← List.range_eq_range'] at hsplit

theorem ObligationKind.isCitation_of_isProvenance {k : ObligationKind}
    (h : k.isProvenance = true) : k.isCitation = false := by
  cases k with
  | provenance => rfl
  | _ => cases h

/-- Some obligation is a provenance, and some is a citation. -/
def Both (obligations : List ProofObligation) : Prop :=
  (∃ o ∈ obligations, o.kind.isProvenance = true) ∧ ∃ o ∈ obligations, o.kind.isCitation = true

theorem not_both_of_length (h : obligations.length ≤ 1) : ¬ Both obligations := by
  rintro ⟨⟨o, ho, hprovenance⟩, o', ho', hcitation⟩
  match obligations, h with
  | [_], _ =>
    obtain rfl := List.mem_singleton.mp ho
    obtain rfl := List.mem_singleton.mp ho'
    rw [ObligationKind.isCitation_of_isProvenance hprovenance] at hcitation
    cases hcitation

theorem strategy_of_both (h : Both obligations) : determineCompositionStrategy obligations =
    .sequential (indices (·.kind.isCitation) obligations ++
      indices (!·.kind.isCitation) obligations) := by
  rw [determineCompositionStrategy, if_neg fun hlength => not_both_of_length hlength h, if_pos]
  simpa [Both] using h

theorem strategy_of_not_both (h : ¬ Both obligations) :
    determineCompositionStrategy obligations = .independent := by
  rw [determineCompositionStrategy]
  split_ifs with hlength hboth
  · rfl
  · exact absurd (by simpa [Both] using hboth) h
  · rfl

/-- The time of obligations that are met side by side. -/
theorem foldl_max_time (obligations : List ProofObligation) (acc : ℤ) :
    acc ≤ obligations.foldl (fun acc o => max acc o.estimatedTimeMs) acc ∧
    (∀ o ∈ obligations,
      o.estimatedTimeMs ≤ obligations.foldl (fun acc o => max acc o.estimatedTimeMs) acc) ∧
    (obligations.foldl (fun acc o => max acc o.estimatedTimeMs) acc = acc ∨
      ∃ o ∈ obligations,
        obligations.foldl (fun acc o => max acc o.estimatedTimeMs) acc = o.estimatedTimeMs) := by
  induction obligations generalizing acc with
  | nil => simp
  | cons o obligations ih =>
    obtain ⟨hacc, hall, hsome⟩ := ih (max acc o.estimatedTimeMs)
    rw [List.foldl_cons]
    refine ⟨(le_max_left _ _).trans hacc, ?_, ?_⟩
    · exact List.forall_mem_cons.mpr ⟨(le_max_right _ _).trans hacc, hall⟩
    · rcases hsome with hsame | ⟨o', ho', hsame⟩
      · rw [hsame]
        rcases le_total acc o.estimatedTimeMs with hle | hle
        · exact .inr ⟨o, List.mem_cons_self, max_eq_right hle⟩
        · exact .inl (max_eq_left hle)
      · exact .inr ⟨o', List.mem_cons_of_mem o ho', hsame⟩

/-- The time of obligations that are met in turn. -/
theorem foldl_add_time (obligations : List ProofObligation) (acc : ℤ) :
    obligations.foldl (fun acc o => add32 acc o.estimatedTimeMs) (acc.bmod (2 ^ 32)) =
      (acc + (obligations.map ProofObligation.estimatedTimeMs).sum).bmod (2 ^ 32) := by
  induction obligations generalizing acc with
  | nil => simp
  | cons o obligations ih =>
    rw [List.foldl_cons, add32, Int.bmod_add_bmod, ih, List.map_cons, List.sum_cons, add_assoc]

/-- What an obligation says of its proof. -/
theorem generateObligation_kind {spec : ProofSpec} (h : generateObligation ctx info spec = .ok o) :
    (o.kind.isProvenance = true ↔ spec.proofType = .provenance) ∧
    (o.kind.isCitation = true ↔ spec.proofType = .citation) := by
  obtain rfl := Except.ok.inj h
  cases hproof : spec.proofType <;>
    simp [proofKindOfAstProofType, proofKindToObligationKind, ObligationKind.isProvenance,
      ObligationKind.isCitation]

theorem exists_mem_iff {test : ProofObligation → Prop} {wanted : ProofSpec → Prop}
    (h : List.Forall₂ (fun spec o => generateObligation ctx info spec = .ok o) specs obligations)
    (htest : ∀ spec o, generateObligation ctx info spec = .ok o → (test o ↔ wanted spec)) :
    (∃ o ∈ obligations, test o) ↔ ∃ spec ∈ specs, wanted spec := by
  induction h with
  | nil => simp
  | cons hhead _ ih => simp [ih, htest _ _ hhead]

theorem both_iff
    (h : List.Forall₂ (fun spec o => generateObligation ctx info spec = .ok o) specs obligations) :
    Both obligations ↔ (∃ spec ∈ specs, spec.proofType = .provenance) ∧
      ∃ spec ∈ specs, spec.proofType = .citation :=
  and_congr (exists_mem_iff h fun _ _ ho => (generateObligation_kind ho).1)
    (exists_mem_iff h fun _ _ ho => (generateObligation_kind ho).2)

/-- A plan that can be relied on: an obligation for each proof, all of them met once, side by side in
the time of the longest, or in turn in the sum of their times with citations before everything else. -/
structure Planned (ctx : Contracts) (info : QueryResultInfo) (specs : List ProofSpec)
    (plan : ComposedProofPlan) : Prop where
  obligations : List.Forall₂ (fun spec o => generateObligation ctx info spec = .ok o) specs
    plan.obligations
  parallel : plan.isParallelizable = true ↔ ¬ ((∃ spec ∈ specs, spec.proofType = .provenance) ∧
    ∃ spec ∈ specs, spec.proofType = .citation)
  once : plan.order.Perm plan.obligations
  places : ∀ is, plan.compositionStrategy = .sequential is →
    is.Perm (List.range plan.obligations.length)
  citations : plan.isParallelizable = false → plan.order =
    plan.obligations.filter (·.kind.isCitation) ++ plan.obligations.filter (!·.kind.isCitation)
  longest : plan.isParallelizable = true →
    (∀ o ∈ plan.obligations, o.estimatedTimeMs ≤ plan.totalEstimatedTimeMs) ∧
    (plan.totalEstimatedTimeMs = 0 ∨
      ∃ o ∈ plan.obligations, plan.totalEstimatedTimeMs = o.estimatedTimeMs)
  sum : plan.isParallelizable = false → plan.totalEstimatedTimeMs =
    ((plan.obligations.map ProofObligation.estimatedTimeMs).sum).bmod (2 ^ 32)

theorem generateObligations_of_obligations
    (h : specs.mapM (generateObligation ctx info) = .ok obligations) :
    generateObligations ctx specs info = .ok
      ⟨obligations, totalTime (determineCompositionStrategy obligations) obligations,
        determineCompositionStrategy obligations == .independent,
        determineCompositionStrategy obligations⟩ := by
  rw [generateObligations, h]

theorem planned_of_both
    (h : List.Forall₂ (fun spec o => generateObligation ctx info spec = .ok o) specs obligations)
    (hboth : Both obligations) : Planned ctx info specs
      ⟨obligations, totalTime (determineCompositionStrategy obligations) obligations,
        determineCompositionStrategy obligations == .independent,
        determineCompositionStrategy obligations⟩ := by
  rw [strategy_of_both hboth]
  have hfalse : (CompositionStrategy.sequential (indices (·.kind.isCitation) obligations ++
      indices (!·.kind.isCitation) obligations) == .independent) = false := rfl
  rw [hfalse]
  have horder : (indices (·.kind.isCitation) obligations ++
      indices (!·.kind.isCitation) obligations).filterMap (obligations[·]?) =
      obligations.filter (·.kind.isCitation) ++ obligations.filter (!·.kind.isCitation) := by
    rw [List.filterMap_append, filterMap_indices, filterMap_indices]
  exact {
    obligations := h
    parallel := ⟨fun htrue => Bool.noConfusion htrue,
      fun hnot => absurd ((both_iff h).mp hboth) hnot⟩
    once := (List.Perm.of_eq horder).trans (List.filter_append_perm _ _)
    places := by
      rintro is his
      obtain rfl := CompositionStrategy.sequential.inj his
      exact indices_perm _ _
    citations := fun _ => horder
    longest := nofun
    sum := fun _ => by simpa [totalTime] using foldl_add_time obligations 0 }

theorem planned_of_not_both
    (h : List.Forall₂ (fun spec o => generateObligation ctx info spec = .ok o) specs obligations)
    (hboth : ¬ Both obligations) : Planned ctx info specs
      ⟨obligations, totalTime (determineCompositionStrategy obligations) obligations,
        determineCompositionStrategy obligations == .independent,
        determineCompositionStrategy obligations⟩ := by
  rw [strategy_of_not_both hboth]
  obtain ⟨-, hall, hsome⟩ := foldl_max_time obligations 0
  exact {
    obligations := h
    parallel := ⟨fun _ => mt (both_iff h).mpr hboth, fun _ => rfl⟩
    once := .refl _
    places := nofun
    citations := nofun
    longest := fun _ => ⟨hall, hsome⟩
    sum := nofun }

/-- Every clause has a plan that can be relied on. -/
theorem proofs_planned (ctx : Contracts) (specs : List ProofSpec) (info : QueryResultInfo) :
    ∃ plan, generateObligations ctx specs info = .ok plan ∧ Planned ctx info specs plan := by
  obtain ⟨obligations, hobligations⟩ := mapM_ok_of_forall (f := generateObligation ctx info)
    (l := specs) fun spec _ => ⟨_, rfl⟩
  have hall := mapM_eq_ok_iff.mp hobligations
  refine ⟨_, generateObligations_of_obligations hobligations, ?_⟩
  by_cases hboth : Both obligations
  · exact planned_of_both hall hboth
  · exact planned_of_not_both hall hboth

/-! ### Plans of checked clauses -/

/-- The obligation meets a proof that has been checked. -/
structure Meets (ctx : Contracts) (info : QueryResultInfo) (specs : List ProofSpec)
    (k : ProofKind × String) (o : ProofObligation) : Prop where
  kind : o.kind = proofKindToObligationKind k.1 k.2
  contractName : o.contractName = k.2
  circuit : o.circuit = proofKindToCircuit k.1
  estimatedTimeMs : o.estimatedTimeMs = estimateProofTime k.1
  registered : ∀ contract, ctx k.2 = some contract →
    contract.proofKind = k.1 ∧ o.requiredModalities = contract.requiredModalities
  unregistered : ctx k.2 = none → specs.length = 1 ∧ o.requiredModalities = info.modalities

/-- One of several contracts that go together is registered. -/
theorem registered_of_pairwise {names : List String} {name : String}
    (h : names.Pairwise (Composable ctx)) (hmany : 2 ≤ names.length) (hname : name ∈ names) :
    ∃ contract, ctx name = some contract := by
  match names, hmany with
  | a :: b :: names, _ =>
    -- every name stands in a pair with the first one
    have hfirst := (List.pairwise_cons.mp h).1
    rcases List.mem_cons.mp hname with rfl | hname
    · obtain ⟨contract, -, hcontract, -⟩ := hfirst b List.mem_cons_self
      exact ⟨contract, hcontract⟩
    · obtain ⟨-, contract, -, hcontract, -⟩ := hfirst name hname
      exact ⟨contract, hcontract⟩

theorem meets_asked {spec : ProofSpec} (hfits : Fits ctx spec)
    (hmany : ctx spec.contractName = none → specs.length = 1)
    (h : generateObligation ctx info spec = .ok o) : Meets ctx info specs (asked spec) o := by
  obtain rfl := Except.ok.inj h
  exact {
    kind := rfl
    contractName := rfl
    circuit := rfl
    estimatedTimeMs := rfl
    registered := fun contract hcontract => by
      refine ⟨hfits.kind contract hcontract, ?_⟩
      change ctx spec.contractName = some contract at hcontract
      rw [hcontract]
    unregistered := fun hnone => by
      change ctx spec.contractName = none at hnone
      refine ⟨hmany hnone, ?_⟩
      rw [hnone] }

/-- A clause that the checker accepts has an obligation for each of its proofs, of the kind of its
contract and for the modalities of its contract. Only a proof that stands alone may do without a
contract. -/
theorem plan_of_checked (h : checkMultiProof ctx specs = .ok kinds) (info : QueryResultInfo) :
    ∃ plan, generateObligations ctx specs info = .ok plan ∧
      List.Forall₂ (Meets ctx info specs) kinds plan.obligations := by
  obtain ⟨hne, rfl, hfits, hpairwise⟩ := checkMultiProof_ok_iff.mp h
  obtain ⟨plan, hplan, hplanned⟩ := proofs_planned ctx specs info
  refine ⟨plan, hplan, List.forall₂_map_left_iff.mpr ?_⟩
  -- contracts compose only if they are registered
  have halone : ∀ spec ∈ specs, ctx spec.contractName = none → specs.length = 1 := by
    intro spec hspec hnone
    have hpos := List.length_pos_iff.mpr hne
    by_contra hlength
    have hmany : 2 ≤ (specs.map ProofSpec.contractName).length := by
      rw [List.length_map]
      omega
    obtain ⟨contract, hcontract⟩ :=
      registered_of_pairwise hpairwise hmany (List.mem_map_of_mem hspec)
    rw [hnone] at hcontract
    cases hcontract
  have hall := (List.forall₂_and_left
    (p := fun spec => Fits ctx spec ∧ (ctx spec.contractName = none → specs.length = 1)) _ _).mpr
    ⟨fun spec hspec => ⟨hfits spec hspec, halone spec hspec⟩, hplanned.obligations⟩
  exact hall.imp fun spec o h => meets_asked h.1.1 h.1.2 h.2

def registry : Contracts := fun name =>
  if name = "lineage" then some ⟨.provenance, [.provenance], [.citation]⟩
  else if name = "sources" then some ⟨.citation, [.document], [.provenance]⟩
  else none

def lineage : List ProofSpec := [⟨.provenance, "lineage"⟩, ⟨.citation, "sources"⟩]

/-- The citation is met first. -/
theorem plan_of_checked_lineage : ∃ plan,
    generateObligations registry lineage ⟨[.graph], [], []⟩ = .ok plan ∧
    plan.compositionStrategy = .sequential [1, 0] ∧
    List.Forall₂ (Meets registry ⟨[.graph], [], []⟩ lineage) (lineage.map asked)
      plan.obligations := by
  have hcheck : checkMultiProof registry lineage = .ok (lineage.map asked) := rfl
  obtain ⟨plan, hplan, hmeets⟩ := plan_of_checked hcheck ⟨[.graph], [], []⟩
  refine ⟨plan, hplan, ?_, hmeets⟩
  obtain rfl := Except.ok.inj hplan
  rfl

end NextgenDatabases.Vcl.Proofs
