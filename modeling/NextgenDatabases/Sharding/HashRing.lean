import NextgenDatabases.Sharding.Manager
import Mathlib.Algebra.Group.Nat.Defs
import Mathlib.Data.List.Sort

/-!
# Consistent hashing

A node that is added takes keys over from others, and no key moves between the others.
-/
namespace NextgenDatabases.Sharding

open Foundations

variable {config : ShardingConfig} {nodes nodes' : List String} {m m' : ShardManager}

/-! ### The ring in order -/

theorem compareHash_eq {a b : HashRingNode} (ha : a.hash < 2 ^ 31) (hb : b.hash < 2 ^ 31) :
    compareHash a b = a.hash - b.hash := by
  have hsmall : ∀ {n : ℕ}, n < 2 ^ 31 → (BitVec.ofNat 32 n).toInt = n := by
    intro n hn
    rw [BitVec.toInt_ofNat', Int.bmod_eq_of_le] <;> omega
  rw [compareHash, BitVec.toInt_sub, hsmall ha, hsmall hb, Int.bmod_eq_of_le] <;> omega

/-- Hashes that are less than 2^31 are sorted in their order. -/
theorem sorted_mergeSort {l : List HashRingNode} (h : ∀ e ∈ l, e.hash < 2 ^ 31) :
    (l.mergeSort fun a b => decide (compareHash a b ≤ 0)).Pairwise fun a b => a.hash ≤ b.hash := by
  have hcompare : ∀ a ∈ l, ∀ b ∈ l, decide (compareHash a b ≤ 0) = decide (a.hash ≤ b.hash) := by
    intro a ha b hb
    rw [compareHash_eq (h a ha) (h b hb), decide_eq_decide]
    omega
  have hsame := List.map_mergeSort (f := fun a : HashRingNode => a) hcompare
  rw [List.map_id', List.map_id'] at hsame
  rw [hsame]
  refine (List.pairwise_mergeSort ?_ ?_ l).imp fun hab => by simpa using hab
  · intro a b c hab hbc
    simp only [decide_eq_true_eq] at hab hbc ⊢
    omega
  · intro a b
    simp only [Bool.or_eq_true, decide_eq_true_eq]
    omega

/-- The position and the node of a virtual node. -/
def point (e : HashRingNode) : ℕ × String := (e.hash, e.nodeId)

theorem mem_newRing {a : ℕ × String} : a ∈ (newRing config nodes).map point ↔
    a.2 ∈ nodes ∧ ∃ v < config.virtualNodes, a.1 = hashKey (virtualKey a.2 v) := by
  simp only [newRing, virtualNodesOf, List.mem_map, List.mem_flatMap, List.mem_range]
  constructor
  · rintro ⟨e, ⟨⟨node, i⟩, hnode, v, hv, rfl⟩, rfl⟩
    exact ⟨List.fst_mem_of_mem_zipIdx hnode, v, hv, rfl⟩
  · rintro ⟨hnode, v, hv, hhash⟩
    obtain ⟨i, hi⟩ := List.mem_iff_getElem?.mp hnode
    exact ⟨_, ⟨(a.2, i), List.mem_zipIdx_iff_getElem?.mpr hi, v, hv, rfl⟩, Prod.ext hhash.symm rfl⟩

/-- No two nodes have virtual nodes with one hash, and all hashes are in the range in which their
difference is that of integers. -/
structure Separated (config : ShardingConfig) (nodes : List String) : Prop where
  apart : ∀ n ∈ nodes, ∀ n' ∈ nodes, ∀ v < config.virtualNodes, ∀ v' < config.virtualNodes,
    hashKey (virtualKey n v) = hashKey (virtualKey n' v') → n = n'
  small : ∀ n ∈ nodes, ∀ v < config.virtualNodes, hashKey (virtualKey n v) < 2 ^ 31

/-- The node of a key is that of its successor on the ring. -/
theorem getNodeForKey_eq (hsorted : m.hashRing.Pairwise fun a b => a.hash ≤ b.hash)
    (hne : m.hashRing ≠ []) (key : String) : ∃ e, getNodeForKey m key = some e.nodeId ∧
      IsSuccessor HashRingNode.hash m.hashRing (hashKey key) e := by
  obtain ⟨e, he, hsucc⟩ := isSuccessor_of_search hsorted hne (hashKey key)
  refine ⟨e, ?_, hsucc⟩
  rw [getNodeForKey, if_neg (mt List.length_eq_zero_iff.mp hne)]
  simp only [he, Option.map_some]

/-- The ring of a manager that is initialized once. -/
theorem ring_of_shards (hsmall : ∀ n ∈ nodes, ∀ v < config.virtualNodes,
    hashKey (virtualKey n v) < 2 ^ 31) (h : initializeShards (make config) nodes = some m) :
    (m.hashRing.Pairwise fun a b => a.hash ≤ b.hash) ∧
      ∀ a, a ∈ m.hashRing.map point ↔ a ∈ (newRing config nodes).map point := by
  rw [initializeShards] at h
  split_ifs at h with hnodes hshards
  · cases h
    obtain rfl := List.length_eq_zero_iff.mp hnodes
    exact ⟨.nil, fun a => by simp [make, newRing]⟩
  · obtain ⟨nodeToShards, -, rfl⟩ := Option.map_eq_some_iff.mp h
    constructor
    · refine sorted_mergeSort fun e he => ?_
      obtain ⟨hnode, v, hv, hhash⟩ := mem_newRing.mp (List.mem_map_of_mem (f := point) he)
      have hlt := hsmall _ hnode v hv
      rwa [← hhash] at hlt
    · intro a
      simp [make]

/-- Where every key goes is a matter of the nodes, not of their order, and a key goes elsewhere
when nodes are added only if it goes to one of them. -/
theorem moves_only_to_added (config : ShardingConfig) {nodes nodes' : List String}
    (hsub : nodes ⊆ nodes') (hsep : Separated config nodes') {m m' : ShardManager}
    (h : initializeShards (make config) nodes = some m)
    (h' : initializeShards (make config) nodes' = some m') (key : String) :
    getNodeForKey m' key = getNodeForKey m key ∨
      ∃ node ∈ nodes', node ∉ nodes ∧ getNodeForKey m' key = some node := by
  obtain ⟨hsorted, hring⟩ := ring_of_shards (fun n hn => hsep.small n (hsub hn)) h
  obtain ⟨hsorted', hring'⟩ := ring_of_shards hsep.small h'
  have hpoints : m.hashRing.map point ⊆ m'.hashRing.map point := by
    intro a ha
    obtain ⟨hnode, v, hv, hhash⟩ := mem_newRing.mp ((hring a).mp ha)
    exact (hring' a).mpr (mem_newRing.mpr ⟨hsub hnode, v, hv, hhash⟩)
  by_cases hne' : m'.hashRing = []
  · have hne : m.hashRing = [] := by
      rw [hne', List.map_nil] at hpoints
      exact List.map_eq_nil_iff.mp (List.subset_nil.mp hpoints)
    left
    simp [getNodeForKey, hne, hne']
  · obtain ⟨e', he', hsucc'⟩ := getNodeForKey_eq hsorted' hne' key
    have hpoint' := hsucc'.map point Prod.fst fun _ => rfl
    obtain ⟨hnode', v', hv', hhash'⟩ := mem_newRing.mp ((hring' _).mp hpoint'.mem)
    by_cases hnode : e'.nodeId ∈ nodes
    · -- the successor among all nodes is one among the old ones
      have hmem : point e' ∈ m.hashRing.map point :=
        (hring _).mpr (mem_newRing.mpr ⟨hnode, v', hv', hhash'⟩)
      have hne : m.hashRing ≠ [] := by
        rintro hnil
        rw [hnil] at hmem
        cases hmem
      obtain ⟨e, he, hsucc⟩ := getNodeForKey_eq hsorted hne key
      have hpoint := hsucc.map point Prod.fst fun _ => rfl
      obtain ⟨hnode₁, v, hv, hhash⟩ := mem_newRing.mp ((hring _).mp hpoint.mem)
      have hpos : (point e).1 = (point e').1 := hpoint.pos_eq (hpoint'.subset hpoints hmem)
      rw [hhash, hhash'] at hpos
      left
      rw [he, he', show e.nodeId = e'.nodeId from
        hsep.apart _ (hsub hnode₁) _ hnode' v hv v' hv' hpos]
    · exact .inr ⟨e'.nodeId, hnode', hnode, he'⟩

/-! ### Two nodes -/

def twice : ShardingConfig where
  strategy := .hash
  numShards := 2
  replicationFactor := 2
  virtualNodes := 2

theorem separated_two : Separated twice ["b", "a"] where
  apart := by decide +kernel
  small := by decide +kernel

/-- The manager of the nodes. -/
def initialized (nodes : List String) : ShardManager :=
  (initializeShards (make twice) nodes).getD (make twice)

theorem moves_only_to_added_two :
    getNodeForKey (initialized ["b", "a"]) "octad" = getNodeForKey (initialized ["a"]) "octad" ∨
      ∃ node ∈ ["b", "a"], node ∉ ["a"] ∧
        getNodeForKey (initialized ["b", "a"]) "octad" = some node :=
  moves_only_to_added twice (by simp) separated_two rfl rfl "octad"

end NextgenDatabases.Sharding
