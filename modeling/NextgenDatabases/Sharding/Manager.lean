import NextgenDatabases.Foundations.Json
import NextgenDatabases.Foundations.Rings
import Mathlib.Logic.Function.Basic

/-!
# The shard manager

Shards with a primary node and replicas, a ring of virtual nodes, and the shards that each node has.
A key has a shard by its hash and a node by the ring.
-/
namespace NextgenDatabases.Sharding

open Foundations

inductive ShardStatus
  | initializing | active | migrating | inactive
  deriving DecidableEq

structure ShardInfo where
  id : ℕ
  status : ShardStatus
  primaryNode : String
  replicaNodes : List String
  keyRangeStart : ℤ
  keyRangeEnd : ℤ
  documentCount : ℕ
  deriving DecidableEq

inductive ShardingStrategy
  | hash | range | directory

structure ShardingConfig where
  strategy : ShardingStrategy
  numShards : ℕ
  replicationFactor : ℕ
  virtualNodes : ℕ

def defaultConfig : ShardingConfig where
  strategy := .hash
  numShards := 16
  replicationFactor := 3
  virtualNodes := 150

structure HashRingNode where
  hash : ℕ
  nodeId : String
  shardId : ℕ
  deriving DecidableEq

structure ShardManager where
  config : ShardingConfig
  shards : List ShardInfo
  hashRing : List HashRingNode
  nodeToShards : String → Option (List ℕ)

/-! ### Hashes -/

/-- The UTF-16 code units of a character. -/
def codeUnits (c : Char) : List ℕ :=
  if c.toNat < 0x10000 then [c.toNat]
  else [0xD800 + (c.toNat - 0x10000) / 0x400, 0xDC00 + (c.toNat - 0x10000) % 0x400]

/-- `hashKey`; integers are 32 bits wide, so the literal `2166136261` is a negative one. -/
def hashKey (key : String) : ℕ :=
  ((key.toList.flatMap codeUnits).foldl
    (fun hash charCode => (hash ^^^ BitVec.ofNat 32 charCode) * 16777619#32)
    2166136261#32).toInt.natAbs

/-- The comparison of the ring: the difference of the hashes as a 32-bit integer. -/
def compareHash (a b : HashRingNode) : ℤ := (BitVec.ofNat 32 a.hash - BitVec.ofNat 32 b.hash).toInt

/-! ### The manager -/

def make (config : ShardingConfig) : ShardManager where
  config := config
  shards := []
  hashRing := []
  nodeToShards _ := none

section

variable (config : ShardingConfig) (nodes : List String)

def replicaNodes (primaryIdx : ℕ) : List String :=
  (List.range (min (config.replicationFactor - 1) (nodes.length - 1))).map fun j =>
    nodes.getD ((primaryIdx + (j + 1)) % nodes.length) ""

/-- The shard that is created in round `i`. -/
def newShard (i : ℕ) : ShardInfo where
  id := i
  status := .active
  primaryNode := nodes.getD (i % nodes.length) ""
  replicaNodes := replicaNodes config nodes (i % nodes.length)
  keyRangeStart := i * (2147483647 / config.numShards : ℕ)
  keyRangeEnd := (i + 1) * (2147483647 / config.numShards : ℕ) - 1
  documentCount := 0

def newShards : List ShardInfo := (List.range config.numShards).map (newShard config nodes)

def virtualKey (node : String) (v : ℕ) : String := node ++ ":" ++ toString v

def virtualNodesOf (node : String) (nodeIdx : ℕ) : List HashRingNode :=
  (List.range config.virtualNodes).map fun v =>
    ⟨hashKey (virtualKey node v), node, nodeIdx % config.numShards⟩

def newRing : List HashRingNode :=
  nodes.zipIdx.flatMap fun a => virtualNodesOf config a.1 a.2

end

/-- A shard is added to those of a node. What every object has under the name of the node is no
array, and `none` is the exception of pushing to it. -/
def addShard (id : ℕ) (nodeToShards : String → Option (List ℕ)) (node : String) :
    Option (String → Option (List ℕ)) :=
  match nodeToShards node with
  | some shards => some (Function.update nodeToShards node (some (shards ++ [id])))
  | none =>
    if Dict.isObjectName node then none
    else some (Function.update nodeToShards node (some [id]))

/-- The primary node and the replicas of a shard get it. -/
def mapShard (nodeToShards : String → Option (List ℕ)) (shard : ShardInfo) :
    Option (String → Option (List ℕ)) :=
  (shard.primaryNode :: shard.replicaNodes).foldlM (addShard shard.id) nodeToShards

/-- `initializeShards`; `none` is the exception of a division by zero or of a node that is named
like a property that every object has. -/
def initializeShards (manager : ShardManager) (nodes : List String) : Option ShardManager :=
  if nodes.length = 0 then some manager
  else if manager.config.numShards = 0 then none
  else
    let shards := manager.shards ++ newShards manager.config nodes
    (shards.foldlM mapShard manager.nodeToShards).map fun nodeToShards =>
      { manager with
        shards := shards
        hashRing := (manager.hashRing ++ newRing manager.config nodes).mergeSort
          fun a b => decide (compareHash a b ≤ 0)
        nodeToShards := nodeToShards }

/-! ### Look-ups -/

/-- The index of the shard, before it is reduced by the number of shards. -/
def shardNumber (manager : ShardManager) (key : String) : ℕ :=
  match manager.config.strategy with
  | .hash => hashKey key
  | .range => (key.toList.flatMap codeUnits).headD 0
  | .directory => hashKey key

/-- `none` is the exception of a division by zero. -/
def getShardForKey (manager : ShardManager) (key : String) : Option (Option ShardInfo) :=
  if manager.config.numShards = 0 then none
  else some manager.shards[shardNumber manager key % manager.config.numShards]?

def getNodeForKey (manager : ShardManager) (key : String) : Option String :=
  let ringLen := manager.hashRing.length
  if ringLen = 0 then none
  else
    let hash := hashKey key
    let idx := binarySearch (fun i => manager.hashRing[i]?) (fun node => decide (node.hash < hash))
      0 ringLen
    manager.hashRing[if idx ≥ ringLen then 0 else idx]?.map HashRingNode.nodeId

/-- `none` is a property that every object has, which is no array. -/
def getShardsForNode (manager : ShardManager) (nodeId : String) : Option (List ℕ) :=
  match manager.nodeToShards nodeId with
  | some shards => some shards
  | none => if Dict.isObjectName nodeId then none else some []

/-- The managers that are made by calls of `initializeShards`. -/
def initializeAll (manager : ShardManager) : List (List String) → Option ShardManager
  | [] => some manager
  | nodes :: calls => (initializeShards manager nodes).bind fun m => initializeAll m calls

example : hashKey "octad" = 847203220 := by decide

example : hashKey "" = 2128831035 := by decide

end NextgenDatabases.Sharding
