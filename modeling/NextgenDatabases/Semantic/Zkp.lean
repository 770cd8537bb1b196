import NextgenDatabases.Foundations.Bytes
import NextgenDatabases.Foundations.Merkle
import Mathlib.Data.List.Forall2

/-!
# Proof primitives of the semantic store

Hash commitments, Merkle inclusion proofs and the verification of stored proofs. The hash
is a parameter; a hasher that is fed twice hashes what it was fed in a row.
-/
namespace NextgenDatabases.Semantic

open Foundations (Bytes Digest)
open Foundations.Merkle (Step pad siblingIdx)

def zeroDigest : Digest := Vector.replicate 32 0

/-- Comparison without an early exit. -/
def constantTimeEq (a b : Bytes) : Bool :=
  if a.length ≠ b.length then false
  else (a.zip b).foldl (fun diff p => diff ||| (p.1 ^^^ p.2)) 0 == 0

theorem foldl_diff_eq_zero (ps : List (UInt8 × UInt8)) (diff : UInt8) :
    ps.foldl (fun diff p => diff ||| (p.1 ^^^ p.2)) diff = 0 ↔
      diff = 0 ∧ ∀ p ∈ ps, p.1 = p.2 := by
  induction ps generalizing diff with
  | nil => simp
  | cons p ps ih =>
    rw [List.foldl_cons, ih, UInt8.or_eq_zero_iff, UInt8.xor_eq_zero_iff, List.forall_mem_cons,
      and_assoc]

theorem constantTimeEq_iff (a b : Bytes) : constantTimeEq a b = true ↔ a = b := by
  unfold constantTimeEq
  split_ifs with h
  · constructor
    · nofun
    · rintro rfl
      exact absurd rfl h
  · have hlength : a.length = b.length := not_not.mp h
    rw [beq_iff_eq, foldl_diff_eq_zero, ← List.forall₂_eq_eq_eq, List.forall₂_iff_zip]
    simp [hlength]

theorem constantTimeEq_toList (a b : Digest) :
    constantTimeEq a.toList b.toList = true ↔ a = b := by
  rw [constantTimeEq_iff, Vector.toList_inj]

/-! ### Commitments -/

structure HashCommitment where
  commitment : Digest
  deriving DecidableEq

/-! ### Merkle trees -/

/-- An element of the path of a Merkle proof. -/
structure MerklePathElement where
  hash : Digest
  isLeft : Bool
  deriving DecidableEq

structure MerkleProof where
  leaf : Bytes
  path : List MerklePathElement
  root : Digest
  deriving DecidableEq

inductive VerifiableProofData
  | commitment (commitment : Digest)
  | reveal (commitment : Digest) (secret : Bytes)
  | merkleInclusion (proof : MerkleProof)
  | contentIntegrity (contentHash : Digest)
  deriving DecidableEq

section hashing

variable (sha256 : Bytes → Digest)

def commit (claim secret : Bytes) : HashCommitment := ⟨sha256 (claim ++ secret)⟩

def verifyCommitment (commitment : HashCommitment) (claim secret : Bytes) : Bool :=
  constantTimeEq commitment.commitment.toList (commit sha256 claim secret).commitment.toList

def hashPair (left right : Digest) : Digest := sha256 (left.toList ++ right.toList)

/-- The chunks of two of an even level, hashed. -/
def nextLevel : List Digest → List Digest
  | left :: right :: rest => hashPair sha256 left right :: nextLevel rest
  | [_] => []
  | [] => []

theorem length_nextLevel (level : List Digest) :
    (nextLevel sha256 level).length = level.length / 2 := by
  induction level using nextLevel.induct with
  | case1 left right rest ih =>
    rw [nextLevel, List.length_cons, ih, List.length_cons, List.length_cons]
    omega
  | case2 a => simp [nextLevel]
  | case3 => simp [nextLevel]

theorem length_nextLevel_lt {level : List Digest} (h : 1 < level.length) :
    (nextLevel sha256 (pad level)).length < level.length := by
  rw [length_nextLevel, Foundations.Merkle.length_pad]
  omega

/-- The loop of `merkle_root`. -/
def rootOfLevel (level : List Digest) : Digest :=
  if 1 < level.length then rootOfLevel (nextLevel sha256 (pad level))
  else level.headD zeroDigest
termination_by level.length
decreasing_by exact length_nextLevel_lt sha256 ‹_›

def merkleRoot (leaves : List Bytes) : Digest :=
  if leaves = [] then zeroDigest else rootOfLevel sha256 (leaves.map sha256)

/-- The loop of `merkle_proof`; the sibling of a position is always there. -/
def pathOfLevel (level : List Digest) (idx : ℕ) : List MerklePathElement :=
  if 1 < level.length then
    ⟨(pad level).getD (siblingIdx idx) zeroDigest, idx % 2 ≠ 0⟩ ::
      pathOfLevel (nextLevel sha256 (pad level)) (idx / 2)
  else []
termination_by level.length
decreasing_by exact length_nextLevel_lt sha256 ‹_›

def merkleProof (leaves : List Bytes) (index : ℕ) : Option MerkleProof :=
  leaves[index]?.map fun leaf =>
    ⟨leaf, pathOfLevel sha256 (leaves.map sha256) index, merkleRoot sha256 leaves⟩

/-- One level up. -/
def climb (current : Digest) (element : MerklePathElement) : Digest :=
  if element.isLeft then hashPair sha256 element.hash current
  else hashPair sha256 current element.hash

def verifyMerkleProof (proof : MerkleProof) : Bool :=
  constantTimeEq (proof.path.foldl (climb sha256) (sha256 proof.leaf)).toList proof.root.toList

/-- Verify a stored proof against its claim. -/
def verifyProof (data : VerifiableProofData) (claim : Bytes) : Bool :=
  match data with
  | .commitment _ => true
  | .reveal commitment secret =>
    constantTimeEq commitment.toList (commit sha256 claim secret).commitment.toList
  | .merkleInclusion proof => verifyMerkleProof sha256 proof
  | .contentIntegrity contentHash => constantTimeEq contentHash.toList (sha256 claim).toList

end hashing

end NextgenDatabases.Semantic
