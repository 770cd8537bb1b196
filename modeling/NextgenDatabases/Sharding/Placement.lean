import NextgenDatabases.Sharding.HashRing
import Mathlib.Data.List.GetD
import Mathlib.Data.List.Nodup
import Mathlib.Data.Nat.ModEq

/-!
# The placement of shards

Every key has a shard, its holders are as many different nodes as the replication factor asks for,
and each of them lists it.
-/
namespace NextgenDatabases.Sharding

open Foundations

variable {config : ShardingConfig} {m m' : ShardManager}

/-- The nodes that hold a shard. -/
def ShardInfo.holders (shard : ShardInfo) : List String := shard.primaryNode :: shard.replicaNodes

/-! ### The holders of a shard -/

section Holders

variable {nodes : List String} {i : ℕ}

theorem holders_newShard (hnodes : nodes ≠ []) (i : ℕ) :
    (newShard config nodes i).holders =
      (List.range (min (config.replicationFactor - 1) (nodes.length - 1) + 1)).map fun j =>
        nodes.getD ((i % nodes.length + j) % nodes.length) "" := by
  have hlength : 0 < nodes.length := List.length_pos_iff.mpr hnodes
  rw [List.range_succ_eq_map, List.map_cons, List.map_map, Nat.add_zero, Nat.mod_mod]
  rfl

theorem length_holders (hnodes : nodes ≠ []) (i : ℕ) :
    (newShard config nodes i).holders.length = min (max config.replicationFactor 1) nodes.length := by
  have hlength : 0 < nodes.length := List.length_pos_iff.mpr hnodes
  rw [holders_newShard hnodes, List.length_map, List.length_range]
  omega

theorem holders_subset (hnodes : nodes ≠ []) (i : ℕ) :
    (newShard config nodes i).holders ⊆ nodes := by
  intro node hnode
  rw [holders_newShard hnodes] at hnode
  obtain ⟨j, -, rfl⟩ := List.mem_map.mp hnode
  have hlt := Nat.mod_lt (i % nodes.length + j) (List.length_pos_iff.mpr hnodes)
  rw [List.getD_eq_getElem _ _ hlt]
  exact List.getElem_mem _

theorem nodup_holders (hnodup : nodes.Nodup) (hnodes : nodes ≠ []) (i : ℕ) :
    (newShard config nodes i).holders.Nodup := by
  have hlength : 0 < nodes.length := List.length_pos_iff.mpr hnodes
  rw [holders_newShard hnodes]
  refine List.nodup_range.map_on fun j hj j' hj' heq => ?_
  rw [List.mem_range] at hj hj'
  have hlt := Nat.mod_lt (i % nodes.length + j) hlength
  have hlt' := Nat.mod_lt (i % nodes.length + j') hlength
  rw [List.getD_eq_getElem _ _ hlt, List.getD_eq_getElem _ _ hlt', hnodup.getElem_inj_iff] at heq
  -- the steps from the primary node on are fewer than the nodes
  have hmod : j ≡ j' [MOD nodes.length] := Nat.ModEq.add_left_cancel' _ heq
  exact hmod.eq_of_lt_of_lt (by omega) (by omega)

end Holders

/-! ### The shards of a node -/

theorem addShard_eq {d d' : String → Option (List ℕ)} {node : String} {id : ℕ}
    (h : addShard id d node = some d') :
    d' = Function.update d node (some ((d node).getD [] ++ [id])) := by
  rw [addShard] at h
  split at h
  · next shards hshards =>
    rw [hshards]
    exact (Option.some.inj h).symm
  · next hnone =>
    split_ifs at h
    rw [hnone]
    exact (Option.some.inj h).symm

theorem mem_addShard {d d' : String → Option (List ℕ)} {node node' : String} {id id' : ℕ}
    (h : addShard id d node = some d') :
    id' ∈ (d' node').getD [] ↔ id' ∈ (d node').getD [] ∨ id' = id ∧ node' = node := by
  obtain rfl := addShard_eq h
  by_cases hnode : node' = node
  · subst hnode
    simp
  · rw [Function.update_of_ne hnode]
    simp [hnode]

theorem mem_foldlM_addShard {holders : List String} {d d' : String → Option (List ℕ)}
    {node : String} {id id' : ℕ} (h : holders.foldlM (addShard id) d = some d') :
    id' ∈ (d' node).getD [] ↔ id' ∈ (d node).getD [] ∨ id' = id ∧ node ∈ holders := by
  induction holders generalizing d with
  | nil =>
    cases h
    simp
  | cons holder holders ih =>
    rw [List.foldlM_cons] at h
    obtain ⟨d₁, hd₁, hrest⟩ := Option.bind_eq_some_iff.mp h
    rw [ih hrest, mem_addShard hd₁, List.mem_cons]
    tauto

theorem mem_foldlM_mapShard {shards : List ShardInfo} {d d' : String → Option (List ℕ)}
    {node : String} {id : ℕ} (h : shards.foldlM mapShard d = some d') :
    id ∈ (d' node).getD [] ↔
      id ∈ (d node).getD [] ∨ ∃ shard ∈ shards, shard.id = id ∧ node ∈ shard.holders := by
  induction shards generalizing d with
  | nil =>
    cases h
    simp
  | cons shard shards ih =>
    rw [List.foldlM_cons] at h
    obtain ⟨d₁, hd₁, hrest⟩ := Option.bind_eq_some_iff.mp h
    rw [ih hrest, mem_foldlM_addShard hd₁, or_assoc]
    simp only [List.mem_cons, exists_eq_or_imp, ShardInfo.holders, @eq_comm _ id]

/-- A node that is named like no property of every object has a list of shards. -/
theorem getShardsForNode_of_own {node : String} (hnode : Dict.isObjectName node = false) :
    getShardsForNode m node = some ((m.nodeToShards node).getD []) := by
  rw [getShardsForNode]
  cases m.nodeToShards node with
  | some shards => rfl
  | none => simp [hnode]

/-! ### Managers after any number of initializations -/

/-- The shards are those of the node lists, and each is listed by its holders. -/
structure Placed (config : ShardingConfig) (calls : List (List String)) (m : ShardManager) :
    Prop where
  config_eq : m.config = config
  made : ∀ shard ∈ m.shards, ∃ nodes ∈ calls, nodes ≠ [] ∧ ∃ i, shard = newShard config nodes i
  indexed : ∀ i < config.numShards, m.shards ≠ [] → ∃ shard, m.shards[i]? = some shard ∧ shard.id = i
  listed : ∀ node id, id ∈ (m.nodeToShards node).getD [] ↔
    ∃ shard ∈ m.shards, shard.id = id ∧ node ∈ shard.holders
  some_call : (∃ nodes ∈ calls, nodes ≠ []) → m.shards ≠ [] ∧ 0 < config.numShards

theorem placed_make (config : ShardingConfig) : Placed config [] (make config) where
  config_eq := rfl
  made shard h := by cases h
  indexed i _ h := absurd rfl h
  listed node id := by simp [make]
  some_call := by rintro ⟨nodes, h, -⟩; cases h

theorem Placed.again {calls : List (List String)} (h : Placed config calls m)
    {nodes : List String} (hinit : initializeShards m nodes = some m') :
    Placed config (calls ++ [nodes]) m' := by
  rw [initializeShards, h.config_eq] at hinit
  split_ifs at hinit with hlength hshards
  · cases hinit
    obtain rfl := List.length_eq_zero_iff.mp hlength
    refine ⟨h.config_eq, fun shard hshard => ?_, h.indexed, h.listed, ?_⟩
    · obtain ⟨nodes, hcall, hmade⟩ := h.made shard hshard
      exact ⟨nodes, List.mem_append_left _ hcall, hmade⟩
    · rintro ⟨nodes, hcall, hne⟩
      rcases List.mem_append.mp hcall with hcall | hcall
      · exact h.some_call ⟨nodes, hcall, hne⟩
      · exact absurd (List.mem_singleton.mp hcall) hne
  · obtain ⟨nodeToShards, hmapped, rfl⟩ := Option.map_eq_some_iff.mp hinit
    have hnodes : nodes ≠ [] := fun hnil => hlength (List.length_eq_zero_iff.mpr hnil)
    refine ⟨rfl, fun shard hshard => ?_, fun i hi _ => ?_, fun node id => ?_, fun _ => ⟨?_, by omega⟩⟩
    · rcases List.mem_append.mp hshard with hshard | hshard
      · obtain ⟨nodes', hcall, hmade⟩ := h.made shard hshard
        exact ⟨nodes', List.mem_append_left _ hcall, hmade⟩
      · obtain ⟨i, -, rfl⟩ := List.mem_map.mp hshard
        exact ⟨nodes, by simp, hnodes, i, rfl⟩
    · by_cases hold : m.shards = []
      · refine ⟨newShard config nodes i, ?_, rfl⟩
        simp [hold, newShards, hi]
      · obtain ⟨shard, hshard, hid⟩ := h.indexed i hi hold
        exact ⟨shard, List.getElem?_append_left (List.getElem?_eq_some_iff.mp hshard).1 ▸ hshard, hid⟩
    · rw [mem_foldlM_mapShard hmapped, h.listed node id]
      simp only [List.mem_append, or_and_right, exists_or, or_self_left]
    · intro hnil
      have hnone := (List.append_eq_nil_iff.mp hnil).2
      rw [newShards, List.map_eq_nil_iff, List.range_eq_nil] at hnone
      exact hshards hnone

theorem Placed.all {calls calls' : List (List String)} (h : Placed config calls m)
    (hall : initializeAll m calls' = some m') : Placed config (calls ++ calls') m' := by
  induction calls' generalizing calls m with
  | nil =>
    cases hall
    rwa [List.append_nil]
  | cons nodes calls' ih =>
    obtain ⟨m₁, hm₁, hrest⟩ := Option.bind_eq_some_iff.mp hall
    have hplaced := ih (h.again hm₁) hrest
    rwa [List.append_assoc] at hplaced

/-- However often shards were initialized, each time with different nodes: a key has a shard, its
holders are different nodes of one list, as many as the replication factor says or all there are,
and the shards of a node are those that it holds, unless the node is named like a property that
every object has. -/
theorem every_key_placed (config : ShardingConfig) {calls : List (List String)}
    (hnodup : ∀ nodes ∈ calls, nodes.Nodup) (hnodes : ∃ nodes ∈ calls, nodes ≠ [])
    (h : initializeAll (make config) calls = some m) :
    (∀ key, ∃ shard, getShardForKey m key = some (some shard) ∧
      shard.id = shardNumber m key % config.numShards ∧
        ∃ nodes ∈ calls, shard.holders ⊆ nodes ∧ shard.holders.Nodup ∧
          shard.holders.length = min (max config.replicationFactor 1) nodes.length) ∧
      ∀ node, Dict.isObjectName node = false → ∃ ids, getShardsForNode m node = some ids ∧
        ∀ id, id ∈ ids ↔ ∃ shard ∈ m.shards, shard.id = id ∧ node ∈ shard.holders := by
  have hplaced : Placed config calls m := (placed_make config).all h
  refine ⟨fun key => ?_, fun node hnode =>
    ⟨_, getShardsForNode_of_own hnode, hplaced.listed node⟩⟩
  obtain ⟨hne, hpos⟩ := hplaced.some_call hnodes
  obtain ⟨shard, hshard, hid⟩ :=
    hplaced.indexed _ (Nat.mod_lt (shardNumber m key) hpos) hne
  obtain ⟨nodes, hcall, hnonempty, i, rfl⟩ := hplaced.made shard (List.mem_of_getElem? hshard)
  refine ⟨_, ?_, hid, nodes, hcall, holders_subset hnonempty i,
    nodup_holders (hnodup nodes hcall) hnonempty i, length_holders hnonempty i⟩
  rw [getShardForKey, hplaced.config_eq, if_neg hpos.ne', hshard]

/-- Shards of two nodes, and then shards of a third. -/
def grown : ShardManager := (initializeShards (initialized ["a", "b"]) ["c"]).getD (make twice)

theorem every_key_placed_grown : (∃ shard, getShardForKey grown "octad" = some (some shard) ∧
    shard.id = shardNumber grown "octad" % twice.numShards) ∧
    ∃ ids, getShardsForNode grown "c" = some ids ∧
      ∀ id, id ∈ ids ↔ ∃ shard ∈ grown.shards, shard.id = id ∧ "c" ∈ shard.holders := by
  have hgrown : initializeAll (make twice) [["a", "b"], ["c"]] = some grown := rfl
  obtain ⟨hkeys, hnodes⟩ := every_key_placed twice (by simp) (by simp) hgrown
  obtain ⟨shard, hshard, hid, -⟩ := hkeys "octad"
  exact ⟨⟨shard, hshard, hid⟩, hnodes "c" (by decide)⟩

end NextgenDatabases.Sharding
