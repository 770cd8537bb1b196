import NextgenDatabases.Semantic.Circuit
import NextgenDatabases.Semantic.Membership

/-!
# Proofs by level of privacy

A proof is generated for a claim at one of three levels and verified at that level. At the
first two levels the claim is bound by a hash; at the third the verifier does not look at it.
A proof of membership speaks about the element of the set at the index of the request.
-/
namespace NextgenDatabases.Semantic

open Foundations (Bytes Digest)
open Foundations.Merkle (Collides)

inductive PrivacyLevel
  | publicLevel | privateLevel | zeroKnowledge
  deriving DecidableEq

structure ZkpProofRequest where
  claim : Bytes
  privacyLevel : PrivacyLevel
  circuitName : Option String
  witness : Option (List ℚ)
  publicInputs : Option (List ℚ)
  membershipSet : Option (List Bytes)
  membershipIndex : Option ℕ

structure CircuitVerificationResult where
  circuitName : String
  satisfied : Bool
  constraintsChecked : ℕ

structure ZkpProof where
  privacyLevel : PrivacyLevel
  proofData : VerifiableProofData
  blindingNonce : Option Bytes
  commitment : Option Digest
  merkleRoot : Option Digest
  circuitResult : Option CircuitVerificationResult
  generatedAt : String

/-! ### Generation -/

section generation

/- The hash, and the time of the call. -/
variable (sha256 : Bytes → Digest) (now : String)

def nonceSeparator : Bytes := Wal.asBytes "verisimdb-zkp-nonce-v1"

def generateNonce (claim : Bytes) : Bytes :=
  (sha256 ((sha256 claim).toList ++ nonceSeparator)).toList

def generatePublicProof (request : ZkpProofRequest) : Except CircuitError ZkpProof :=
  .ok {
    privacyLevel := .publicLevel
    proofData := .contentIntegrity (sha256 request.claim)
    blindingNonce := none
    commitment := none
    merkleRoot := none
    circuitResult := none
    generatedAt := now }

/-- The inclusion proof for an index, or the error about it; `size` is that of the set. -/
def generateInclusion (leaves : List Bytes) (size index : ℕ) :
    Except CircuitError (VerifiableProofData × Option Digest) :=
  match merkleProof sha256 leaves index with
  | some mp => .ok (.merkleInclusion mp, some (merkleRoot sha256 leaves))
  | none => .error (.invalidWitness ("Membership index " ++ toString index ++
      " out of bounds for set of size " ++ toString size))

def generatePrivateProof (request : ZkpProofRequest) : Except CircuitError ZkpProof := do
  let nonce := generateNonce sha256 request.claim
  let commitment := commit sha256 request.claim nonce
  let (proofData, root) ←
    match request.membershipSet, request.membershipIndex with
    | some set, some index => generateInclusion sha256 set set.length index
    | _, _ => .ok (.commitment commitment.commitment, none)
  return {
    privacyLevel := .privateLevel
    proofData := proofData
    blindingNonce := some nonce
    commitment := some commitment.commitment
    merkleRoot := root
    circuitResult := none
    generatedAt := now }

/-- The leaves of a blinded set. -/
def blind (nonce : Bytes) (set : List Bytes) : List Bytes :=
  set.map fun leaf => (commit sha256 leaf nonce).commitment.toList

def generateZkProof (request : ZkpProofRequest) : Except CircuitError ZkpProof := do
  let nonce := generateNonce sha256 request.claim
  let commitment := commit sha256 request.claim nonce
  let (proofData, root) ←
    match request.membershipSet, request.membershipIndex with
    | some set, some index =>
      generateInclusion sha256 (blind sha256 nonce set) set.length index
    | _, _ => .ok (.commitment commitment.commitment, none)
  return {
    privacyLevel := .zeroKnowledge
    proofData := proofData
    blindingNonce := some nonce
    commitment := some commitment.commitment
    merkleRoot := root
    circuitResult := none
    generatedAt := now }

def generateZkp (request : ZkpProofRequest) : Except CircuitError ZkpProof :=
  match request.privacyLevel with
  | .publicLevel => generatePublicProof sha256 now request
  | .privateLevel => generatePrivateProof sha256 now request
  | .zeroKnowledge => generateZkProof sha256 now request

def generateZkpWithCircuit (request : ZkpProofRequest) (registry : CircuitRegistry) :
    Except CircuitError ZkpProof := do
  let proof ← generateZkp sha256 now request
  match request.circuitName with
  | none => return proof
  | some circuitName =>
    let satisfied ← registry.verifyWithCircuit circuitName (request.witness.getD [])
      (request.publicInputs.getD [])
    let constraintsChecked :=
      ((registry.lookup circuitName).map fun c => c.ir.constraints.length).getD 0
    return { proof with circuitResult := some ⟨circuitName, satisfied, constraintsChecked⟩ }

/-! ### Verification -/

def verifyPrivateProof (proof : ZkpProof) (claim : Bytes) : Bool :=
  let committed :=
    match proof.blindingNonce, proof.commitment with
    | some nonce, some commitmentHash =>
      (commit sha256 claim nonce).commitment = commitmentHash
    | _, _ => true
  committed &&
    match proof.proofData with
    | .merkleInclusion mp => verifyMerkleProof sha256 mp
    | .commitment _ => true
    | other => verifyProof sha256 other claim

def verifyZkProof (proof : ZkpProof) : Bool :=
  match proof.proofData with
  | .merkleInclusion mp => verifyMerkleProof sha256 mp
  | .commitment _ => true
  | _ => false

def verifyZkp (proof : ZkpProof) (claim : Bytes) : Bool :=
  match proof.privacyLevel with
  | .publicLevel => verifyProof sha256 proof.proofData claim
  | .privateLevel => verifyPrivateProof sha256 proof claim
  | .zeroKnowledge => verifyZkProof sha256 proof

end generation

/-! ### Inclusion -/

section claims

variable {sha256 : Bytes → Digest} {now : String} {request : ZkpProofRequest} {proof : ZkpProof}

theorem generateInclusion_ok {leaves : List Bytes} {size index : ℕ} {data : VerifiableProofData}
    {root : Option Digest} (h : generateInclusion sha256 leaves size index = .ok (data, root)) :
    ∃ mp, data = .merkleInclusion mp ∧ root = some (merkleRoot sha256 leaves) ∧
      leaves[index]? = some mp.leaf ∧ mp.root = merkleRoot sha256 leaves ∧
        verifyMerkleProof sha256 mp = true := by
  unfold generateInclusion at h
  by_cases hi : index < leaves.length
  · obtain ⟨mp, hmp, hleaf, hroot, hverify⟩ := @merkleProof_spec sha256 _ _ hi
    rw [hmp] at h
    cases h
    exact ⟨mp, rfl, rfl, by rw [hleaf, List.getElem?_eq_getElem hi], hroot, hverify⟩
  · rw [merkleProof, List.getElem?_eq_none (by omega)] at h
    cases h

/-- What the inclusion proof of a generated proof is about: the element at the index, blinded
with the nonce at the last level. -/
def About (sha256 : Bytes → Digest) (request : ZkpProofRequest) (mp : MerkleProof) : Prop :=
  ∃ set index element, request.membershipSet = some set ∧
    request.membershipIndex = some index ∧ set[index]? = some element ∧
      (request.privacyLevel = .privateLevel ∧ mp.leaf = element ∧
          mp.root = merkleRoot sha256 set ∨
        request.privacyLevel = .zeroKnowledge ∧
          mp.leaf = (sha256 (element ++ generateNonce sha256 request.claim)).toList ∧
            mp.root = merkleRoot sha256 (blind sha256 (generateNonce sha256 request.claim) set))

/-- The data of a proof that hides its claim: an inclusion proof, or the commitment. -/
def Hides (sha256 : Bytes → Digest) (request : ZkpProofRequest) (proof : ZkpProof) : Prop :=
  (∃ mp, proof.proofData = .merkleInclusion mp ∧ proof.merkleRoot = some mp.root ∧
      verifyMerkleProof sha256 mp = true ∧ About sha256 request mp) ∨
    ∃ digest, proof.proofData = .commitment digest ∧ proof.merkleRoot = none

theorem generatePrivateProof_ok (hlevel : request.privacyLevel = .privateLevel)
    (h : generatePrivateProof sha256 now request = .ok proof) :
    proof.privacyLevel = .privateLevel ∧
      proof.blindingNonce = some (generateNonce sha256 request.claim) ∧
        proof.commitment =
            some (sha256 (request.claim ++ generateNonce sha256 request.claim)) ∧
          Hides sha256 request proof := by
  simp only [generatePrivateProof] at h
  split at h
  case h_1 set index hset hindex =>
    cases hdata : generateInclusion sha256 set set.length index with
    | error e =>
      rw [hdata] at h
      cases h
    | ok result =>
      obtain ⟨data, root⟩ := result
      obtain ⟨mp, rfl, rfl, hleaf, hroot, hverify⟩ := generateInclusion_ok hdata
      rw [hdata] at h
      cases h
      exact ⟨rfl, rfl, rfl, .inl ⟨mp, rfl, by rw [hroot], hverify,
        set, index, mp.leaf, hset, hindex, hleaf, .inl ⟨hlevel, rfl, hroot⟩⟩⟩
  case h_2 =>
    cases h
    exact ⟨rfl, rfl, rfl, .inr ⟨_, rfl, rfl⟩⟩

theorem generateZkProof_ok (hlevel : request.privacyLevel = .zeroKnowledge)
    (h : generateZkProof sha256 now request = .ok proof) :
    proof.privacyLevel = .zeroKnowledge ∧
      proof.blindingNonce = some (generateNonce sha256 request.claim) ∧
        proof.commitment =
            some (sha256 (request.claim ++ generateNonce sha256 request.claim)) ∧
          Hides sha256 request proof := by
  simp only [generateZkProof] at h
  split at h
  case h_1 set index hset hindex =>
    cases hdata : generateInclusion sha256
        (blind sha256 (generateNonce sha256 request.claim) set) set.length index with
    | error e =>
      rw [hdata] at h
      cases h
    | ok result =>
      obtain ⟨data, root⟩ := result
      obtain ⟨mp, rfl, rfl, hleaf, hroot, hverify⟩ := generateInclusion_ok hdata
      rw [hdata] at h
      cases h
      rw [blind, List.getElem?_map, Option.map_eq_some_iff] at hleaf
      obtain ⟨element, helement, hblinded⟩ := hleaf
      exact ⟨rfl, rfl, rfl, .inl ⟨mp, rfl, by rw [hroot], hverify,
        set, index, element, hset, hindex, helement, .inr ⟨hlevel, hblinded.symm, hroot⟩⟩⟩
  case h_2 =>
    cases h
    exact ⟨rfl, rfl, rfl, .inr ⟨_, rfl, rfl⟩⟩

/-! ### Verification of generated proofs -/

theorem verifyPrivateProof_iff {nonce : Bytes} {digest : Digest} {claim : Bytes}
    (hnonce : proof.blindingNonce = some nonce) (hcommitment : proof.commitment = some digest)
    (hhides : Hides sha256 request proof) :
    verifyPrivateProof sha256 proof claim = true ↔ sha256 (claim ++ nonce) = digest := by
  rw [verifyPrivateProof, hnonce, hcommitment]
  rcases hhides with ⟨mp, hdata, -, hverify, -⟩ | ⟨digest', hdata, -⟩
  · simp only [hdata, hverify, commit, Bool.and_true]
    exact decide_eq_true_iff
  · simp only [hdata, commit, Bool.and_true]
    exact decide_eq_true_iff

theorem verifyZkProof_of_hides (h : Hides sha256 request proof) :
    verifyZkProof sha256 proof = true := by
  rw [verifyZkProof]
  rcases h with ⟨mp, hdata, -, hverify, -⟩ | ⟨digest, hdata, -⟩
  · rw [hdata]
    exact hverify
  · rw [hdata]

/-- The string by whose digest a proof binds a claim, if it does. -/
def bindingString (sha256 : Bytes → Digest) (request : ZkpProofRequest) (claim : Bytes) :
    Option Bytes :=
  match request.privacyLevel with
  | .publicLevel => some claim
  | .privateLevel => some (claim ++ generateNonce sha256 request.claim)
  | .zeroKnowledge => none

theorem bindingString_inj {c d : Bytes} {s : Bytes} (hc : bindingString sha256 request c = some s)
    (hd : bindingString sha256 request d = some s) : c = d := by
  cases hlevel : request.privacyLevel with
  | publicLevel =>
    simp only [bindingString, hlevel, Option.some.injEq] at hc hd
    rw [hc, hd]
  | privateLevel =>
    simp only [bindingString, hlevel, Option.some.injEq] at hc hd
    exact List.append_cancel_right (hc.trans hd.symm)
  | zeroKnowledge =>
    simp only [bindingString, hlevel] at hc
    cases hc

/-- A generated proof is accepted for the claims whose strings have the digest of its own. -/
theorem verifyZkp_generated (h : generateZkp sha256 now request = .ok proof) (c : Bytes) :
    verifyZkp sha256 proof c = true ↔
      (bindingString sha256 request c).map sha256 =
        (bindingString sha256 request request.claim).map sha256 := by
  unfold generateZkp at h
  cases hlevel : request.privacyLevel with
  | publicLevel =>
    simp only [hlevel] at h
    cases h
    simp only [verifyZkp, verifyProof, bindingString, hlevel, constantTimeEq_toList,
      Option.map_some, Option.some.injEq]
    exact eq_comm
  | privateLevel =>
    simp only [hlevel] at h
    obtain ⟨hproof, hnonce, hcommitment, hhides⟩ := generatePrivateProof_ok hlevel h
    simp only [verifyZkp, hproof, bindingString, hlevel, Option.map_some, Option.some.injEq]
    exact verifyPrivateProof_iff hnonce hcommitment hhides
  | zeroKnowledge =>
    simp only [hlevel] at h
    obtain ⟨hproof, -, -, hhides⟩ := generateZkProof_ok hlevel h
    simp only [verifyZkp, hproof, bindingString, hlevel, Option.map_none, iff_true]
    exact verifyZkProof_of_hides hhides

/-- A Merkle root comes with an inclusion proof about the element at the index. -/
theorem about_of_merkleRoot (h : generateZkp sha256 now request = .ok proof) {root : Digest}
    (hroot : proof.merkleRoot = some root) :
    ∃ mp, proof.proofData = .merkleInclusion mp ∧ mp.root = root ∧ About sha256 request mp := by
  have hhides : Hides sha256 request proof := by
    unfold generateZkp at h
    cases hlevel : request.privacyLevel with
    | publicLevel =>
      simp only [hlevel] at h
      cases h
      cases hroot
    | privateLevel =>
      simp only [hlevel] at h
      exact (generatePrivateProof_ok hlevel h).2.2.2
    | zeroKnowledge =>
      simp only [hlevel] at h
      exact (generateZkProof_ok hlevel h).2.2.2
  rcases hhides with ⟨mp, hdata, hmp, -, habout⟩ | ⟨digest, -, hnone⟩
  · rw [hroot, Option.some.injEq] at hmp
    exact ⟨mp, hdata, hmp.symm, habout⟩
  · rw [hroot] at hnone
    cases hnone

/-- A generated proof is accepted for its claim, at the first two levels for no other up to
collisions, and at the last level for every claim. Its Merkle root is that of an inclusion
proof about the element of the set at the index. -/
theorem proof_speaks (sha256 : Bytes → Digest) (now : String) (request : ZkpProofRequest)
    (proof : ZkpProof) (h : generateZkp sha256 now request = .ok proof) :
    verifyZkp sha256 proof request.claim = true ∧
      (∀ c, c ≠ request.claim → verifyZkp sha256 proof c = true →
        request.privacyLevel = .zeroKnowledge ∨
          Collides sha256 ((bindingString sha256 request request.claim).toList ++
            (bindingString sha256 request c).toList)) ∧
      (request.privacyLevel = .zeroKnowledge → ∀ c, verifyZkp sha256 proof c = true) ∧
      ∀ root, proof.merkleRoot = some root →
        ∃ mp, proof.proofData = .merkleInclusion mp ∧ mp.root = root ∧
          About sha256 request mp := by
  refine ⟨(verifyZkp_generated h _).2 rfl, fun c hne hverify => ?_, fun hlevel c => ?_,
    fun root => about_of_merkleRoot h⟩
  · rw [verifyZkp_generated h c] at hverify
    cases hown : bindingString sha256 request request.claim with
    | none =>
      left
      unfold bindingString at hown
      split at hown
      · cases hown
      · cases hown
      · assumption
    | some own =>
      right
      rw [hown, Option.map_some, Option.map_eq_some_iff] at hverify
      obtain ⟨other, hother, hdigest⟩ := hverify
      rw [hother]
      refine ⟨own, by simp, other, by simp, ?_, hdigest.symm⟩
      rintro rfl
      exact hne (bindingString_inj hother hown)
  · rw [verifyZkp_generated h c]
    simp [bindingString, hlevel]

/-- The check of a circuit adds its result to the proof, and nothing that is verified. -/
theorem verifyZkp_withCircuit {registry : CircuitRegistry}
    (h : generateZkpWithCircuit sha256 now request registry = .ok proof) :
    ∃ plain, generateZkp sha256 now request = .ok plain ∧
      ∀ c, verifyZkp sha256 proof c = verifyZkp sha256 plain c := by
  unfold generateZkpWithCircuit at h
  cases hplain : generateZkp sha256 now request with
  | error e =>
    rw [hplain] at h
    cases h
  | ok plain =>
    refine ⟨plain, rfl, fun c => ?_⟩
    simp only [hplain, bind, Except.bind] at h
    cases hname : request.circuitName with
    | none =>
      simp only [hname] at h
      cases h
      rfl
    | some name =>
      simp only [hname] at h
      split at h
      · cases h
      · cases h
        rfl

end claims

/-! ### Two requests about one claim -/

def nonceA : Digest := #v[198, 59, 132, 203, 133, 243, 134, 11, 20, 26, 115, 183, 39, 102, 166,
  68, 236, 230, 182, 249, 90, 99, 220, 155, 100, 126, 53, 18, 233, 36, 46, 189]

def commitmentA : Digest := #v[31, 211, 141, 148, 233, 191, 193, 183, 192, 33, 171, 46, 68, 135,
  154, 120, 122, 172, 99, 17, 173, 149, 23, 31, 102, 69, 210, 91, 227, 246, 62, 77]

/-- The strings hashed for the claim `a` and the set of `b` alone, with their SHA-256. -/
def hashedForA : List (Bytes × Digest) :=
  [([97], digestA), ([98], digestB), (digestA.toList ++ nonceSeparator, nonceA),
    ([97] ++ nonceA.toList, commitmentA)]

def sha256OfA (bytes : Bytes) : Digest := (hashedForA.lookup bytes).getD zeroDigest

/-- The claim `a`, with a set and an index. -/
def requestA (privacyLevel : PrivacyLevel) (set : Option (List Bytes)) (index : Option ℕ) :
    ZkpProofRequest where
  claim := [97]
  privacyLevel := privacyLevel
  circuitName := none
  witness := none
  publicInputs := none
  membershipSet := set
  membershipIndex := index

def noon : String := "2026-01-01T12:00:00+00:00"

/-- The proof of the claim `a` without a set. -/
def proofA (privacyLevel : PrivacyLevel) : ZkpProof where
  privacyLevel := privacyLevel
  proofData := .commitment commitmentA
  blindingNonce := some nonceA.toList
  commitment := some commitmentA
  merkleRoot := none
  circuitResult := none
  generatedAt := noon

theorem proof_speaks_a :
    verifyZkp sha256OfA (proofA .privateLevel) [97] = true ∧
      (verifyZkp sha256OfA (proofA .privateLevel) [98] = true →
        Collides sha256OfA [[97] ++ nonceA.toList, [98] ++ nonceA.toList]) := by
  have h := proof_speaks sha256OfA noon (requestA .privateLevel none none)
    (proofA .privateLevel) rfl
  have hnonce : generateNonce sha256OfA [97] = nonceA.toList := by decide
  refine ⟨h.1, fun hverify => ?_⟩
  rcases h.2.1 [98] (by decide) hverify with hlevel | hcollides
  · cases hlevel
  · simp only [bindingString, requestA, hnonce] at hcollides
    exact hcollides

/-- At the last level the proof of `a` is accepted for `b`; and a proof of `a` carries the root
of a set without it. -/
theorem silent_proofs :
    ¬ Collides sha256OfA (hashedForA.map Prod.fst) ∧
      (generateZkp sha256OfA noon (requestA .zeroKnowledge none none) =
          .ok (proofA .zeroKnowledge) ∧
        verifyZkp sha256OfA (proofA .zeroKnowledge) [98] = true) ∧
      ∃ p, generateZkp sha256OfA noon (requestA .privateLevel (some [[98]]) (some 0)) = .ok p ∧
        p.merkleRoot.isSome = true ∧ [97] ∉ ([[98]] : List Bytes) :=
  ⟨by decide, ⟨rfl, rfl⟩, _, rfl, rfl, by decide⟩

end NextgenDatabases.Semantic
