import NextgenDatabases.Semantic.Zkp

/-!
# Merkle membership

Generated proofs are accepted. An accepted proof speaks about a leaf, except where it joins
the tree elsewhere: leaves and inner nodes are hashed alike, so that a proof may start at the
string of an inner node, or run below a leaf that reads like one.
-/
namespace NextgenDatabases.Semantic

open Foundations (Bytes Digest)
open Foundations.Merkle

/-! ### The tree of the library -/

/-- The string of an inner node. -/
def joined (left right : Digest) : Bytes := left.toList ++ right.toList

theorem joined_inj {a b c d : Digest} (h : joined a b = joined c d) : a = c ∧ b = d := by
  have hlength : a.toList.length = c.toList.length := by simp
  obtain ⟨hac, hbd⟩ := List.append_inj h hlength
  exact ⟨Vector.toList_inj.mp hac, Vector.toList_inj.mp hbd⟩

def MerklePathElement.step (e : MerklePathElement) : Step Digest := ⟨e.hash, e.isLeft⟩

section tree

variable (sha256 : Bytes → Digest)

theorem nextLevel_eq (level : List Digest) :
    nextLevel sha256 level = (pairs joined level).map sha256 := by
  induction level using nextLevel.induct with
  | case1 left right rest ih =>
    rw [nextLevel, pairs, List.map_cons, ih]
    rfl
  | case2 a => rfl
  | case3 => rfl

theorem nextLevel_pad (row : List Bytes) :
    nextLevel sha256 (pad (row.map sha256)) = (above sha256 joined row).map sha256 :=
  nextLevel_eq sha256 _

theorem rootOfLevel_eq {row : List Bytes} (h : row ≠ []) :
    some (rootOfLevel sha256 (row.map sha256)) = root sha256 joined row := by
  induction row using root.induct sha256 joined with
  | case1 row hlt ih =>
    rw [rootOfLevel, List.length_map, if_pos hlt, nextLevel_pad, root_of_lt sha256 joined hlt]
    exact ih (above_ne_nil sha256 joined hlt)
  | case2 row hle =>
    obtain ⟨s, rest, rfl⟩ := List.exists_cons_of_ne_nil h
    rw [rootOfLevel, List.length_map, if_neg hle, root, if_neg hle]
    rfl

theorem merkleRoot_eq {leaves : List Bytes} (h : leaves ≠ []) :
    some (merkleRoot sha256 leaves) = root sha256 joined leaves := by
  rw [merkleRoot, if_neg h]
  exact rootOfLevel_eq sha256 h

theorem climb_eq (s : Bytes) (e : MerklePathElement) :
    climb sha256 (sha256 s) e = sha256 (join sha256 joined s e.step) := by
  obtain ⟨hash, isLeft⟩ := e
  cases isLeft <;> rfl

theorem foldl_climb (s : Bytes) (path : List MerklePathElement) :
    path.foldl (climb sha256) (sha256 s) =
      sha256 (arrive sha256 joined s (path.map MerklePathElement.step)) := by
  induction path generalizing s with
  | nil => rfl
  | cons e path ih =>
    rw [List.foldl_cons, climb_eq, ih]
    rfl

/-- A proof is accepted if its path leads to its root. -/
theorem verifyMerkleProof_iff (p : MerkleProof) :
    verifyMerkleProof sha256 p = true ↔
      sha256 (arrive sha256 joined p.leaf (p.path.map MerklePathElement.step)) = p.root := by
  rw [verifyMerkleProof, constantTimeEq_toList, foldl_climb]

theorem pathOfLevel_eq {row : List Bytes} {i : ℕ} (h : i < (pad row).length) :
    (pathOfLevel sha256 (row.map sha256) i).map MerklePathElement.step =
      siblings sha256 joined row i := by
  induction row using root.induct sha256 joined generalizing i with
  | case1 row hlt ih =>
    obtain ⟨t, ht, habove⟩ :=
      @exists_pair Bytes Digest sha256 joined row i _ (List.getElem?_eq_getElem h)
    have hbound := (List.getElem?_eq_some_iff.mp habove).1
    have hpad : (pad (row.map sha256)).getD (siblingIdx i) zeroDigest = sha256 t := by
      rw [pad_map, List.getD_eq_getElem?_getD, List.getElem?_map, ht]
      rfl
    rw [pathOfLevel, List.length_map, if_pos hlt, List.map_cons, hpad, nextLevel_pad,
      siblings_of_lt hlt ht, ih]
    · rfl
    · rw [length_pad]
      omega
  | case2 row hle =>
    rw [pathOfLevel, List.length_map, if_neg hle, siblings, if_neg hle]
    rfl

/-! ### Membership -/

/-- The byte strings that `merkle_root` hashes. -/
def hashedByRoot (leaves : List Bytes) : List Bytes := hashed sha256 joined leaves

/-- The byte strings that `verify_merkle_proof` hashes. -/
def hashedByProof (p : MerkleProof) : List Bytes :=
  trail sha256 joined p.leaf (p.path.map MerklePathElement.step)

/-- The leaf of the proof is no leaf of the tree, but the proof starts at the string of an
inner node, or comes after some steps to a string that is a leaf, and from there its path runs
to the root. -/
def Disguised (leaves : List Bytes) (p : MerkleProof) : Prop :=
  p.leaf ∉ leaves ∧ ∃ height first rest, p.path = first ++ rest ∧
    (height = 0 ∨ first = []) ∧
      Node sha256 joined leaves height
        (arrive sha256 joined p.leaf (first.map MerklePathElement.step))
        (rest.map MerklePathElement.step)

variable {sha256}

theorem verify_of_disguised {leaves : List Bytes} {p : MerkleProof} (hleaves : leaves ≠ [])
    (hroot : p.root = merkleRoot sha256 leaves) (h : Disguised sha256 leaves p) :
    verifyMerkleProof sha256 p = true := by
  obtain ⟨-, height, first, rest, hpath, -, hnode⟩ := h
  have harrive := hnode.hash_arrive
  rw [← arrive_append, ← List.map_append, ← hpath, ← merkleRoot_eq sha256 hleaves] at harrive
  rw [verifyMerkleProof_iff, hroot]
  exact Option.some.inj harrive

theorem joins_of_verify {leaves : List Bytes} {p : MerkleProof} (hleaves : leaves ≠ [])
    (hroot : p.root = merkleRoot sha256 leaves) (hverify : verifyMerkleProof sha256 p = true)
    (hinj : ¬ Collides sha256 (hashedByRoot sha256 leaves ++ hashedByProof sha256 p)) :
    p.leaf ∈ leaves ∨ Disguised sha256 leaves p := by
  rw [verifyMerkleProof_iff, hroot] at hverify
  obtain ⟨height, first, rest, hpath, hjoin, hnode⟩ := joins_of_root joined_inj
    ((congrArg some hverify).trans (merkleRoot_eq sha256 hleaves)) hinj
  obtain ⟨first, rest, hsplit, rfl, rfl⟩ := List.map_eq_append_iff.mp hpath
  by_cases hmem : p.leaf ∈ leaves
  · exact .inl hmem
  · exact .inr ⟨hmem, height, first, rest, hsplit, hjoin.imp_right List.map_eq_nil_iff.mp, hnode⟩

/-- The proof of a leaf. -/
theorem merkleProof_spec {leaves : List Bytes} {i : ℕ} (hi : i < leaves.length) :
    ∃ p, merkleProof sha256 leaves i = some p ∧ p.leaf = leaves[i] ∧
      p.root = merkleRoot sha256 leaves ∧ verifyMerkleProof sha256 p = true := by
  refine ⟨_, by rw [merkleProof, List.getElem?_eq_getElem hi]; rfl, rfl, rfl, ?_⟩
  have hleaves : leaves ≠ [] := List.ne_nil_of_length_pos (by omega)
  have hs : (pad leaves)[i]? = some leaves[i] := by
    rw [pad_getElem? hi, List.getElem?_eq_getElem hi]
  have hbound := (List.getElem?_eq_some_iff.mp hs).1
  have harrive := (@climb_siblings Bytes Digest sha256 joined leaves i _ hs).hash_arrive
  rw [← merkleRoot_eq sha256 hleaves] at harrive
  rw [verifyMerkleProof_iff]
  dsimp only
  rw [pathOfLevel_eq sha256 hbound]
  exact Option.some.inj harrive

/-- Every leaf has a proof that is accepted; and a proof with the root of the leaves that is
accepted is about one of them exactly if it is not disguised, up to collisions. -/
theorem membership_exact (sha256 : Bytes → Digest) (leaves : List Bytes) (hleaves : leaves ≠ []) :
    (∀ i (hi : i < leaves.length), ∃ p, merkleProof sha256 leaves i = some p ∧
      p.leaf = leaves[i] ∧ p.root = merkleRoot sha256 leaves ∧
        verifyMerkleProof sha256 p = true) ∧
      ∀ p : MerkleProof, p.root = merkleRoot sha256 leaves →
        ((verifyMerkleProof sha256 p = true → p.leaf ∈ leaves ∨
            Collides sha256 (hashedByRoot sha256 leaves ++ hashedByProof sha256 p)) ↔
          (Disguised sha256 leaves p →
            Collides sha256 (hashedByRoot sha256 leaves ++ hashedByProof sha256 p))) := by
  constructor
  · intro i hi
    exact merkleProof_spec hi
  · intro p hroot
    constructor
    · intro h hdisguised
      rcases h (verify_of_disguised hleaves hroot hdisguised) with hmem | hcollides
      · exact absurd hmem hdisguised.1
      · exact hcollides
    · intro h hverify
      by_cases hinj : Collides sha256 (hashedByRoot sha256 leaves ++ hashedByProof sha256 p)
      · exact .inr hinj
      · rcases joins_of_verify hleaves hroot hverify hinj with hmem | hdisguised
        · exact .inl hmem
        · exact .inr (h hdisguised)

end tree

/-! ### A forged proof -/

/-- The leaves `a` and `b`. -/
def letters : List Bytes := [[97], [98]]

def digestA : Digest := #v[202, 151, 129, 18, 202, 27, 189, 202, 250, 194, 49, 179, 154, 35, 220,
  77, 167, 134, 239, 248, 20, 124, 78, 114, 185, 128, 119, 133, 175, 238, 72, 187]

def digestB : Digest := #v[62, 35, 232, 22, 0, 57, 89, 74, 51, 137, 79, 101, 100, 225, 177, 52,
  139, 189, 122, 0, 136, 212, 44, 74, 203, 115, 238, 174, 213, 156, 0, 157]

def digestAB : Digest := #v[229, 160, 31, 238, 20, 224, 237, 92, 72, 113, 79, 34, 24, 15, 37, 173,
  131, 101, 181, 63, 151, 121, 247, 157, 196, 163, 215, 233, 57, 99, 249, 74]

/-- SHA-256 on the strings that the tree over the two letters hashes. -/
def sha256OfLetters (bytes : Bytes) : Digest :=
  if bytes = [97] then digestA
  else if bytes = [98] then digestB
  else if bytes = joined digestA digestB then digestAB
  else zeroDigest

/-- The concatenated digests of the two leaves, as a leaf. -/
def forged : MerkleProof := ⟨joined digestA digestB, [], digestAB⟩

theorem root_letters : merkleRoot sha256OfLetters letters = digestAB := by
  have hlevel : nextLevel sha256OfLetters (pad (letters.map sha256OfLetters)) = [digestAB] := by
    decide
  rw [merkleRoot, if_neg (by decide), rootOfLevel, if_pos (by decide), hlevel, rootOfLevel,
    if_neg (by decide)]
  rfl

theorem hashed_letters :
    hashedByRoot sha256OfLetters letters = [[97], [98], joined digestA digestB] := by
  have habove : above sha256OfLetters joined letters = [joined digestA digestB] := by decide
  rw [hashedByRoot, hashed_of_lt sha256OfLetters joined (by decide), habove, hashed,
    if_neg (by decide)]
  rfl

theorem membership_exact_letters :
    (∃ p, merkleProof sha256OfLetters letters 1 = some p ∧ p.leaf = [98] ∧
        p.root = merkleRoot sha256OfLetters letters ∧
          verifyMerkleProof sha256OfLetters p = true) ∧
      ((verifyMerkleProof sha256OfLetters forged = true → forged.leaf ∈ letters ∨
          Collides sha256OfLetters
            (hashedByRoot sha256OfLetters letters ++ hashedByProof sha256OfLetters forged)) ↔
        (Disguised sha256OfLetters letters forged → Collides sha256OfLetters
          (hashedByRoot sha256OfLetters letters ++ hashedByProof sha256OfLetters forged))) :=
  ⟨(membership_exact sha256OfLetters letters (by decide)).1 1 (by decide),
    (membership_exact sha256OfLetters letters (by decide)).2 forged root_letters.symm⟩

/-- The digests of two leaves, concatenated, pass for a leaf. -/
theorem forged_accepted :
    forged.root = merkleRoot sha256OfLetters letters ∧
      verifyMerkleProof sha256OfLetters forged = true ∧ forged.leaf ∉ letters ∧
        ¬ Collides sha256OfLetters
          (hashedByRoot sha256OfLetters letters ++ hashedByProof sha256OfLetters forged) := by
  refine ⟨root_letters.symm, by decide, by decide, ?_⟩
  rw [hashed_letters]
  decide

end NextgenDatabases.Semantic
