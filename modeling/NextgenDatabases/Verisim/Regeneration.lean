import NextgenDatabases.Verisim.Data
import NextgenDatabases.Foundations.Runs
import Mathlib.Data.List.Nodup

/-!
# The regeneration engine

A modality that has drifted is written anew from others of its entity, or the entity is put on a
queue for a person. Calls of the engine go on in any order, each up to the next place where it waits.
-/
namespace NextgenDatabases.Verisim.Regeneration

open Foundations
open Wal (DateTime)

def defaultAuthorityOrder : List Modality :=
  [.document, .semantic, .provenance, .graph, .vector, .tensor, .spatial, .temporal]

def isPresentOn (octad : Octad) : Modality → Bool
  | .document => octad.document.isSome
  | .semantic => octad.semantic.isSome
  | .graph => octad.graphNode.isSome
  | .vector => octad.embedding.isSome
  | .tensor => octad.tensor.isSome
  | .temporal => octad.versionCount > 0
  | .provenance => octad.provenanceChainLength > 0
  | .spatial => octad.spatialData.isSome

inductive RegenerationStrategy
  | fromAuthoritative
  | merge
  | userResolve
  deriving DecidableEq

structure RegenerationConfig where
  authorityOrder : List Modality
  defaultStrategy : RegenerationStrategy
  modalityStrategies : Modality → Option RegenerationStrategy
  driftThreshold : F64

/-- `a <= b`, which never holds of numbers that are none. -/
def atMost : F64 → F64 → Bool
  | .nan, _ => false
  | _, .nan => false
  | .negInf, _ => true
  | _, .posInf => true
  | .finite a, .finite b => decide (a ≤ b)
  | _, _ => false

namespace RegenerationConfig

/-- The threshold is the double next to `0.3`. -/
def standard : RegenerationConfig where
  authorityOrder := defaultAuthorityOrder
  defaultStrategy := .fromAuthoritative
  modalityStrategies _ := none
  driftThreshold := .finite (5404319552844595 / 18014398509481984)

def strategyFor (config : RegenerationConfig) (modality : Modality) : RegenerationStrategy :=
  (config.modalityStrategies modality).getD config.defaultStrategy

/-- The first modality has the greatest weight, and one that is not ranked has none. -/
def authorityWeight (config : RegenerationConfig) (modality : Modality) : ℕ :=
  if modality ∈ config.authorityOrder then
    config.authorityOrder.length - config.authorityOrder.idxOf modality
  else 0

/-- The ranked modalities that the drifted one can be written from. -/
def usable (octad : Octad) (drifted m : Modality) : Bool := m ≠ drifted && isPresentOn octad m

def source (config : RegenerationConfig) (octad : Octad) (drifted : Modality) : Option Modality :=
  config.authorityOrder.find? (usable octad drifted)

def sources (config : RegenerationConfig) (octad : Octad) (drifted : Modality) :
    List (Modality × ℕ) :=
  (config.authorityOrder.filter (usable octad drifted)).map fun m => (m, config.authorityWeight m)

end RegenerationConfig

structure NormalizationEvent where
  entityId : String
  driftedModality : Modality
  strategyUsed : RegenerationStrategy
  sourceModality : Option Modality
  preDriftScore : F64
  postDriftScore : Option F64
  timestamp : DateTime
  success : Bool
  deriving DecidableEq

inductive RegenerationResult
  | repaired (event : NormalizationEvent)
  | pendingResolution (entityId reason : String)
  | noActionNeeded
  | failed (error : String)
  deriving DecidableEq

structure PendingNormalization where
  entityId : String
  driftedModality : Modality
  driftScore : F64
  queuedAt : DateTime
  deriving DecidableEq

structure RegenerationEngine where
  config : RegenerationConfig
  queue : List PendingNormalization
  events : List NormalizationEvent

/-! ### Calls -/

/-- The arguments of a call of `regenerate`. -/
structure Attempt where
  octad : Octad
  driftedModality : Modality
  driftScore : F64

/-- What the regenerator is asked for. -/
inductive Order
  | regenerateFrom (source : Modality)
  | mergeInto (sources : List (Modality × ℕ))
  deriving DecidableEq

def Order.strategy : Order → RegenerationStrategy
  | regenerateFrom _ => .fromAuthoritative
  | mergeInto _ => .merge

def Order.source : Order → Option Modality
  | regenerateFrom source => some source
  | mergeInto _ => none

/-- Where a call waits: for the regenerator, or for a lock. -/
inductive Stage
  | regenerating (order : Order)
  | measuring (order : Order)
  | enqueueing (item : PendingNormalization)
  | recording (event : NormalizationEvent) (result : RegenerationResult)
  | done (result : RegenerationResult)
  deriving DecidableEq

def Attempt.event (a : Attempt) (strategy : RegenerationStrategy) (source : Option Modality)
    (post : Option F64) (success : Bool) (now : DateTime) : NormalizationEvent :=
  ⟨a.octad.id, a.driftedModality, strategy, source, a.driftScore, post, now, success⟩

def executeFromAuthoritative (config : RegenerationConfig) (a : Attempt) (now : DateTime) : Stage :=
  match config.source a.octad a.driftedModality with
  | some source => .regenerating (.regenerateFrom source)
  | none => .recording (a.event .fromAuthoritative none none false now)
      (.failed (s!"No authoritative source available for {a.driftedModality.name} " ++
        s!"on entity {a.octad.id}"))

def executeMerge (config : RegenerationConfig) (a : Attempt) (now : DateTime) : Stage :=
  match config.sources a.octad a.driftedModality with
  | [] => .recording (a.event .merge none none false now)
      (.failed (s!"No source modalities available for merge into {a.driftedModality.name} " ++
        s!"on entity {a.octad.id}"))
  | sources => .regenerating (.mergeInto sources)

def executeUserResolve (a : Attempt) (now : DateTime) : Stage :=
  .enqueueing ⟨a.octad.id, a.driftedModality, a.driftScore, now⟩

/-- `regenerate`, up to where it waits first. -/
def regenerate (config : RegenerationConfig) (a : Attempt) (now : DateTime) : Stage :=
  if atMost a.driftScore config.driftThreshold then .done .noActionNeeded
  else
    match config.strategyFor a.driftedModality with
    | .fromAuthoritative => executeFromAuthoritative config a now
    | .merge => executeMerge config a now
    | .userResolve => executeUserResolve a now

/-- The regenerator has answered with a summary or an error. -/
def regenerated (a : Attempt) (order : Order) (now : DateTime) : Except String String → Stage
  | .ok _ => .measuring order
  | .error e => .recording (a.event order.strategy order.source none false now) (.failed e)

def measured (a : Attempt) (order : Order) (post : Option F64) (now : DateTime) : Stage :=
  let event := a.event order.strategy order.source post true now
  .recording event (.repaired event)

/-- `score` is printed with three digits. -/
def enqueued (score : F64 → String) (a : Attempt) (now : DateTime) : Stage :=
  .recording (a.event .userResolve none none true now)
    (.pendingResolution a.octad.id
      (s!"{a.driftedModality.name} drift (score {score a.driftScore}) " ++
        "requires manual resolution per strategy config"))

def Stage.orders : Stage → List Order
  | regenerating order => [order]
  | _ => []

/-! ### The engine in use -/

/-- The engine, its calls, what the regenerator has been asked in each call, the items that have
come to the queue, each with its call, and those that have been handed out. -/
structure System where
  engine : RegenerationEngine
  calls : ℕ → Option (Attempt × Stage)
  asked : List (ℕ × Order)
  arrived : List (ℕ × PendingNormalization)
  taken : List PendingNormalization

inductive Act
  | call (i : ℕ) (a : Attempt) (now : DateTime)
  | regenerated (i : ℕ) (answer : Except String String) (now : DateTime)
  | measured (i : ℕ) (post : Option F64) (now : DateTime)
  | enqueue (i : ℕ) (now : DateTime)
  | record (i : ℕ)
  | resolve (entityId : String) (modality : Modality)
  | drain

namespace System

def new (config : RegenerationConfig) : System := ⟨⟨config, [], []⟩, fun _ => none, [], [], []⟩

def put (s : System) (i : ℕ) (a : Attempt) (stage : Stage) : System :=
  { s with calls := Function.update s.calls i (some (a, stage)) }

def enqueue (s : System) (i : ℕ) (item : PendingNormalization) : System :=
  { s with
    engine := { s.engine with queue := s.engine.queue ++ [item] }
    arrived := s.arrived ++ [(i, item)] }

def recordEvent (s : System) (event : NormalizationEvent) : System :=
  { s with engine := { s.engine with events := s.engine.events ++ [event] } }

/-- The oldest item of the entity and the modality is handed out. -/
def resolve (s : System) (entityId : String) (modality : Modality) : System :=
  let isItem (p : PendingNormalization) := p.entityId = entityId && p.driftedModality = modality
  { s with
    engine := { s.engine with queue := s.engine.queue.eraseP isItem }
    taken := s.taken ++ (s.engine.queue.find? isItem).toList }

def drain (s : System) : System :=
  { s with
    engine := { s.engine with queue := [] }
    taken := s.taken ++ s.engine.queue }

def step (score : F64 → String) (s : System) : Act → Option System
  | .call i a now =>
    match s.calls i with
    | none =>
      let stage := regenerate s.engine.config a now
      some { s.put i a stage with asked := s.asked ++ stage.orders.map (i, ·) }
    | some _ => none
  | .regenerated i answer now =>
    match s.calls i with
    | some (a, .regenerating order) => some (s.put i a (regenerated a order now answer))
    | _ => none
  | .measured i post now =>
    match s.calls i with
    | some (a, .measuring order) => some (s.put i a (measured a order post now))
    | _ => none
  | .enqueue i now =>
    match s.calls i with
    | some (a, .enqueueing item) => some ((s.enqueue i item).put i a (enqueued score a now))
    | _ => none
  | .record i =>
    match s.calls i with
    | some (a, .recording event result) => some ((s.recordEvent event).put i a (.done result))
    | _ => none
  | .resolve entityId modality => some (s.resolve entityId modality)
  | .drain => some s.drain

end System

/-! ### What a modality is written from -/

open RegenerationConfig

variable {config : RegenerationConfig} {octad : Octad} {m drifted : Modality} {a : Attempt}

/-- The most authoritative modality that is there, never the one that has drifted. -/
structure Best (config : RegenerationConfig) (octad : Octad) (drifted m : Modality) : Prop where
  ne : m ≠ drifted
  present : isPresentOn octad m = true
  first : ∃ before after, config.authorityOrder = before ++ m :: after ∧
    ∀ n ∈ before, n = drifted ∨ isPresentOn octad n = false

theorem usable_iff : usable octad drifted m = true ↔ m ≠ drifted ∧ isPresentOn octad m = true := by
  simp [usable]

theorem best_of_source (h : config.source octad drifted = some m) :
    Best config octad drifted m := by
  obtain ⟨husable, before, after, horder, hbefore⟩ := List.find?_eq_some_iff_append.mp h
  obtain ⟨hne, hpresent⟩ := usable_iff.mp husable
  refine ⟨hne, hpresent, before, after, horder, fun n hn => ?_⟩
  have hnot := hbefore n hn
  by_contra hboth
  rw [not_or, Bool.not_eq_false] at hboth
  rw [usable_iff.mpr hboth] at hnot
  cases hnot

theorem idxOf_lt_of_pairwise {l : List Modality} (hl : l.Nodup) :
    l.Pairwise fun x y => l.idxOf x < l.idxOf y := by
  rw [List.pairwise_iff_getElem]
  intro i j hi hj hij
  rwa [hl.idxOf_getElem i hi, hl.idxOf_getElem j hj]

/-- A merge weighs its sources by their rank. -/
theorem sources_pairwise (hnodup : config.authorityOrder.Nodup) (octad : Octad)
    (drifted : Modality) : (config.sources octad drifted).Pairwise fun x y => y.2 < x.2 := by
  rw [sources, List.pairwise_map]
  -- what a filter keeps stays in the order of the ranking
  have hall := (idxOf_lt_of_pairwise hnodup).imp_of_mem
    (S := fun x y => config.authorityWeight y < config.authorityWeight x) fun {x y} hx hy hlt => by
      have hy' := List.idxOf_lt_length_of_mem hy
      rw [authorityWeight, authorityWeight, if_pos hx, if_pos hy]
      omega
  exact hall.filter _

/-! ### Calls and their events -/

/-- What a call answers is what its event says. -/
def Tells (e : NormalizationEvent) : RegenerationResult → Prop
  | .repaired e' => e' = e ∧ e.success = true ∧ e.strategyUsed ≠ .userResolve
  | .pendingResolution entityId _ =>
    entityId = e.entityId ∧ e.success = true ∧ e.strategyUsed = .userResolve
  | .noActionNeeded => False
  | .failed _ => e.success = false ∧ e.strategyUsed ≠ .userResolve

/-- The event is that of the call, which answers with the result. -/
structure Accounts (config : RegenerationConfig) (a : Attempt) (e : NormalizationEvent)
    (r : RegenerationResult) : Prop where
  drifted : atMost a.driftScore config.driftThreshold = false
  entityId : e.entityId = a.octad.id
  driftedModality : e.driftedModality = a.driftedModality
  preDriftScore : e.preDriftScore = a.driftScore
  strategyUsed : e.strategyUsed = config.strategyFor a.driftedModality
  sourceModality : e.sourceModality =
    if e.strategyUsed = .fromAuthoritative then config.source a.octad a.driftedModality else none
  tells : Tells e r

/-- The order that a call gives the regenerator. -/
def Ordered (config : RegenerationConfig) (a : Attempt) : Order → Prop
  | .regenerateFrom m => config.strategyFor a.driftedModality = .fromAuthoritative ∧
      config.source a.octad a.driftedModality = some m
  | .mergeInto sources => config.strategyFor a.driftedModality = .merge ∧ sources ≠ [] ∧
      sources = config.sources a.octad a.driftedModality

/-- The item is that of a call whose modality is left to a person. -/
structure Queues (config : RegenerationConfig) (a : Attempt) (item : PendingNormalization) :
    Prop where
  strategy : config.strategyFor a.driftedModality = .userResolve
  entityId : item.entityId = a.octad.id
  driftedModality : item.driftedModality = a.driftedModality
  driftScore : item.driftScore = a.driftScore

/-- What is known of a call by where it waits. -/
def Fits (config : RegenerationConfig) (a : Attempt) : Stage → Prop
  | .regenerating order =>
    atMost a.driftScore config.driftThreshold = false ∧ Ordered config a order
  | .measuring order => atMost a.driftScore config.driftThreshold = false ∧ Ordered config a order
  | .enqueueing item => atMost a.driftScore config.driftThreshold = false ∧ Queues config a item
  | .recording e r => Accounts config a e r
  | .done r => r = .noActionNeeded ∧ atMost a.driftScore config.driftThreshold = true ∨
      ∃ e, Accounts config a e r

theorem accounts_ordered {order : Order} {post : Option F64} {success : Bool} {now : DateTime}
    {r : RegenerationResult} (hdrifted : atMost a.driftScore config.driftThreshold = false)
    (horder : Ordered config a order)
    (htells : Tells (a.event order.strategy order.source post success now) r) :
    Accounts config a (a.event order.strategy order.source post success now) r where
  drifted := hdrifted
  entityId := rfl
  driftedModality := rfl
  preDriftScore := rfl
  strategyUsed := by
    cases order with
    | regenerateFrom m => exact horder.1.symm
    | mergeInto sources => exact horder.1.symm
  sourceModality := by
    cases order with
    | regenerateFrom m => exact horder.2.symm
    | mergeInto sources => rfl
  tells := htells

theorem fits_regenerate (config : RegenerationConfig) (a : Attempt) (now : DateTime) :
    Fits config a (regenerate config a now) := by
  rw [regenerate]
  split_ifs with hmost
  · exact .inl ⟨rfl, hmost⟩
  have hdrifted : atMost a.driftScore config.driftThreshold = false := by simpa using hmost
  cases hstrategy : config.strategyFor a.driftedModality with
  | fromAuthoritative =>
    simp only [executeFromAuthoritative]
    cases hsource : config.source a.octad a.driftedModality with
    | some m => exact ⟨hdrifted, hstrategy, hsource⟩
    | none =>
      exact ⟨hdrifted, rfl, rfl, rfl, hstrategy.symm, hsource.symm, rfl, nofun⟩
  | merge =>
    simp only [executeMerge]
    cases hsources : config.sources a.octad a.driftedModality with
    | nil => exact ⟨hdrifted, rfl, rfl, rfl, hstrategy.symm, rfl, rfl, nofun⟩
    | cons x sources => exact ⟨hdrifted, hstrategy, nofun, hsources.symm⟩
  | userResolve => exact ⟨hdrifted, hstrategy, rfl, rfl, rfl⟩

theorem fits_regenerated {order : Order} (h : Fits config a (.regenerating order)) (now : DateTime)
    (answer : Except String String) : Fits config a (regenerated a order now answer) := by
  obtain ⟨hdrifted, horder⟩ := h
  cases answer with
  | ok summary => exact ⟨hdrifted, horder⟩
  | error e =>
    refine accounts_ordered hdrifted horder ⟨rfl, ?_⟩
    cases order <;> nofun

theorem fits_measured {order : Order} (h : Fits config a (.measuring order)) (post : Option F64)
    (now : DateTime) : Fits config a (measured a order post now) := by
  obtain ⟨hdrifted, horder⟩ := h
  refine accounts_ordered hdrifted horder ⟨rfl, rfl, ?_⟩
  cases order <;> nofun

theorem fits_enqueued {item : PendingNormalization} (h : Fits config a (.enqueueing item))
    (score : F64 → String) (now : DateTime) : Fits config a (enqueued score a now) :=
  ⟨h.1, rfl, rfl, rfl, h.2.strategy.symm, rfl, rfl, rfl, rfl⟩

/-! ### Steps -/

variable {score : F64 → String} {s s' : System} {act : Act} {i j : ℕ} {b : Attempt}
  {stage stage' : Stage}

/-- Items are handed out of the queue, each once. -/
structure Hands (s s' : System) : Prop where
  calls : s'.calls = s.calls
  asked : s'.asked = s.asked
  arrived : s'.arrived = s.arrived
  config : s'.engine.config = s.engine.config
  events : s'.engine.events = s.engine.events
  all : (s'.taken ++ s'.engine.queue).Perm (s.taken ++ s.engine.queue)
  rest : s'.engine.queue.Sublist s.engine.queue

theorem hands_resolve (s : System) (entityId : String) (modality : Modality) :
    Hands s (s.resolve entityId modality) where
  calls := rfl
  asked := rfl
  arrived := rfl
  config := rfl
  events := rfl
  all := by
    simp only [System.resolve]
    generalize hp : (fun p : PendingNormalization =>
      decide (p.entityId = entityId) && decide (p.driftedModality = modality)) = isItem
    rw [List.append_assoc]
    refine List.Perm.append_left s.taken ?_
    cases hfind : s.engine.queue.find? isItem with
    | none =>
      have hnone : ∀ x ∈ s.engine.queue, ¬ isItem x = true := by simpa using hfind
      rw [List.eraseP_of_forall_not hnone]
      exact .refl _
    | some item =>
      obtain ⟨hitem, before, after, hqueue, hbefore⟩ := List.find?_eq_some_iff_append.mp hfind
      have hnot : ∀ x ∈ before, ¬ isItem x = true := fun x hx => by simpa using hbefore x hx
      -- the item that is erased is the one that is found
      rw [hqueue, List.eraseP_append_right _ hnot, List.eraseP_cons_of_pos hitem]
      change (item :: (before ++ after)).Perm (before ++ item :: after)
      exact List.perm_middle.symm
  rest := List.eraseP_sublist

theorem hands_drain (s : System) : Hands s s.drain where
  calls := rfl
  asked := rfl
  arrived := rfl
  config := rfl
  events := rfl
  all := by simp [System.drain]
  rest := List.nil_sublist _

/-- What a step does. -/
inductive Moves (score : F64 → String) (s : System) : System → Prop
  | starts {i : ℕ} (a : Attempt) (now : DateTime) (hfree : s.calls i = none) :
    Moves score s { s.put i a (regenerate s.engine.config a now) with
      asked := s.asked ++ (regenerate s.engine.config a now).orders.map (i, ·) }
  | answers {i : ℕ} {a : Attempt} {order : Order} (now : DateTime) (answer : Except String String)
    (hcall : s.calls i = some (a, .regenerating order)) :
    Moves score s (s.put i a (regenerated a order now answer))
  | measures {i : ℕ} {a : Attempt} {order : Order} (post : Option F64) (now : DateTime)
    (hcall : s.calls i = some (a, .measuring order)) :
    Moves score s (s.put i a (measured a order post now))
  | enqueues {i : ℕ} {a : Attempt} {item : PendingNormalization} (now : DateTime)
    (hcall : s.calls i = some (a, .enqueueing item)) :
    Moves score s ((s.enqueue i item).put i a (enqueued score a now))
  | records {i : ℕ} {a : Attempt} {e : NormalizationEvent} {r : RegenerationResult}
    (hcall : s.calls i = some (a, .recording e r)) :
    Moves score s ((s.recordEvent e).put i a (.done r))
  | hands {s' : System} (hhands : Hands s s') : Moves score s s'

theorem moves_of_step (h : s.step score act = some s') : Moves score s s' := by
  cases act with
  | call i a now =>
    rw [System.step] at h
    split at h
    · next hfree =>
      obtain rfl := Option.some.inj h
      exact .starts a now hfree
    · cases h
  | regenerated i answer now =>
    rw [System.step] at h
    split at h
    · next hcall =>
      obtain rfl := Option.some.inj h
      exact .answers now answer hcall
    · cases h
  | measured i post now =>
    rw [System.step] at h
    split at h
    · next hcall =>
      obtain rfl := Option.some.inj h
      exact .measures post now hcall
    · cases h
  | enqueue i now =>
    rw [System.step] at h
    split at h
    · next hcall =>
      obtain rfl := Option.some.inj h
      exact .enqueues now hcall
    · cases h
  | record i =>
    rw [System.step] at h
    split at h
    · next hcall =>
      obtain rfl := Option.some.inj h
      exact .records hcall
    · cases h
  | resolve entityId modality =>
    obtain rfl := Option.some.inj h
    exact .hands (hands_resolve s entityId modality)
  | drain =>
    obtain rfl := Option.some.inj h
    exact .hands (hands_drain s)

theorem System.put_self (s : System) (i : ℕ) (a : Attempt) (stage : Stage) :
    (s.put i a stage).calls i = some (a, stage) :=
  Function.update_self ..

theorem System.put_of_ne (s : System) (a : Attempt) (stage : Stage) (h : j ≠ i) :
    (s.put i a stage).calls j = s.calls j :=
  Function.update_of_ne h ..

theorem System.put_cases (h : (s.put i a stage).calls j = some (b, stage')) :
    j = i ∧ b = a ∧ stage' = stage ∨ j ≠ i ∧ s.calls j = some (b, stage') := by
  rcases eq_or_ne j i with rfl | hne
  · rw [System.put_self, Option.some.injEq, Prod.mk.injEq] at h
    exact .inl ⟨rfl, h.1.symm, h.2.symm⟩
  · rw [System.put_of_ne s a stage hne] at h
    exact .inr ⟨hne, h⟩

theorem same_call (h : s.calls i = some (a, stage)) (h' : s.calls i = some (b, stage')) :
    a = b ∧ stage = stage' := by
  rw [h, Option.some.injEq, Prod.mk.injEq] at h'
  exact h'

/-- Calls are in none of the lists before they get there. -/
theorem not_mem_fst {β : Type} {l : List (ℕ × β)} (h : ∀ x, (i, x) ∉ l) : i ∉ l.map Prod.fst := by
  intro hi
  obtain ⟨⟨_, x⟩, hx, rfl⟩ := List.mem_map.mp hi
  exact h x hx

theorem nodup_fst_concat {β : Type} {l : List (ℕ × β)} (h : (l.map Prod.fst).Nodup)
    (hnew : i ∉ l.map Prod.fst) (x : β) : ((l ++ [(i, x)]).map Prod.fst).Nodup := by
  rw [List.map_append]
  exact List.Nodup.append h (List.nodup_singleton i) (List.disjoint_singleton.mpr hnew)

/-! ### Where calls are -/

/-- Every call is where its arguments and the configuration lead it. -/
def Fitted (s : System) : Prop :=
  ∀ i a stage, s.calls i = some (a, stage) → Fits s.engine.config a stage

theorem Fitted.put (h : Fitted s) (hstage : Fits s.engine.config a stage) :
    Fitted (s.put i a stage) := by
  intro j b stage' hj
  rcases System.put_cases hj with ⟨-, rfl, rfl⟩ | ⟨-, hj⟩
  · exact hstage
  · exact h j b stage' hj

theorem Fitted.moves (h : Fitted s) (hmoves : Moves score s s') : Fitted s' := by
  cases hmoves with
  | starts a now hfree => exact h.put (fits_regenerate s.engine.config a now)
  | answers now answer hcall => exact h.put (fits_regenerated (h _ _ _ hcall) now answer)
  | measures post now hcall => exact h.put (fits_measured (h _ _ _ hcall) post now)
  | enqueues now hcall =>
    exact Fitted.put (s := s.enqueue _ _) h (fits_enqueued (h _ _ _ hcall) score now)
  | records hcall =>
    exact Fitted.put (s := s.recordEvent _) h (.inr ⟨_, h _ _ _ hcall⟩)
  | hands hhands =>
    intro i a stage hi
    rw [hhands.calls] at hi
    rw [hhands.config]
    exact h i a stage hi

/-! ### The audit trail -/

/-- Each event is of a call of its own that is over, and each such call has one unless there was
nothing to do. -/
structure Trailed (s : System) (trail : List (ℕ × NormalizationEvent)) : Prop where
  events : s.engine.events = trail.map Prod.snd
  nodup : (trail.map Prod.fst).Nodup
  call : ∀ i e, (i, e) ∈ trail → ∃ a r, s.calls i = some (a, .done r) ∧
    Accounts s.engine.config a e r
  all : ∀ i a r, s.calls i = some (a, .done r) → r ≠ .noActionNeeded → i ∈ trail.map Prod.fst

variable {trail : List (ℕ × NormalizationEvent)} {r : RegenerationResult}

theorem regenerate_done {now : DateTime} (h : regenerate config a now = .done r) :
    r = .noActionNeeded := by
  rw [regenerate] at h
  split_ifs at h
  · exact (Stage.done.inj h).symm
  · split at h
    · rw [executeFromAuthoritative] at h
      split at h <;> cases h
    · rw [executeMerge] at h
      split at h <;> cases h
    · cases h

theorem regenerated_ne_done {order : Order} {now : DateTime} {answer : Except String String} :
    regenerated a order now answer ≠ .done r := by
  cases answer <;> nofun

theorem measured_ne_done {order : Order} {post : Option F64} {now : DateTime} :
    measured a order post now ≠ .done r := by
  rw [measured]
  nofun

theorem enqueued_ne_done {now : DateTime} : enqueued score a now ≠ .done r := by
  rw [enqueued]
  nofun

theorem not_done (hcall : s.calls i = some (a, stage)) (hstage : ∀ r, stage ≠ .done r) (b : Attempt)
    (r : RegenerationResult) : s.calls i ≠ some (b, .done r) :=
  fun hdone => hstage r (same_call hcall hdone).2

theorem Trailed.put (h : Trailed s trail) (hopen : ∀ b r, s.calls i ≠ some (b, .done r))
    (hstage : ∀ r, stage = .done r → r = .noActionNeeded) : Trailed (s.put i a stage) trail where
  events := h.events
  nodup := h.nodup
  call j e hj := by
    obtain ⟨b, r, hcall, haccounts⟩ := h.call j e hj
    have hne : j ≠ i := by
      rintro rfl
      exact hopen b r hcall
    exact ⟨b, r, (System.put_of_ne s a stage hne).trans hcall, haccounts⟩
  all j b r hj hr := by
    rcases System.put_cases hj with ⟨-, -, hdone⟩ | ⟨-, hj⟩
    · exact absurd (hstage r hdone.symm) hr
    · exact h.all j b r hj hr

theorem Trailed.record (h : Trailed s trail) {e : NormalizationEvent}
    (hcall : s.calls i = some (a, .recording e r)) (haccounts : Accounts s.engine.config a e r) :
    Trailed ((s.recordEvent e).put i a (.done r)) (trail ++ [(i, e)]) := by
  have hnew : i ∉ trail.map Prod.fst := not_mem_fst fun e' hmem => by
    obtain ⟨b, r', hdone, -⟩ := h.call i e' hmem
    rw [hcall] at hdone
    cases hdone
  exact {
    events := by
      rw [List.map_append, ← h.events]
      rfl
    nodup := nodup_fst_concat h.nodup hnew _
    call := fun j e' hj => by
      rcases List.mem_append.mp hj with hj | hj
      · obtain ⟨b, r', hdone, haccounts'⟩ := h.call j e' hj
        have hne : j ≠ i := fun heq => hnew (heq ▸ List.mem_map_of_mem hj)
        exact ⟨b, r', (System.put_of_ne (s.recordEvent e) a (.done r) hne).trans hdone, haccounts'⟩
      · obtain ⟨rfl, rfl⟩ := Prod.mk.inj (List.mem_singleton.mp hj)
        exact ⟨a, r, System.put_self .., haccounts⟩
    all := fun j b r' hj hr => by
      rw [List.map_append]
      rcases System.put_cases hj with ⟨rfl, -, -⟩ | ⟨-, hj⟩
      · exact List.mem_append_right _ (List.mem_singleton_self j)
      · exact List.mem_append_left _ (h.all j b r' hj hr) }

theorem Trailed.moves (h : Trailed s trail) (hfits : Fitted s) (hmoves : Moves score s s') :
    ∃ trail', Trailed s' trail' := by
  cases hmoves with
  | @starts i a now hfree =>
    have hopen (b : Attempt) (r : RegenerationResult) : s.calls i ≠ some (b, .done r) := by
      rw [hfree]
      nofun
    have hput : Trailed (s.put i a (regenerate s.engine.config a now)) trail :=
      h.put hopen fun r hdone => regenerate_done hdone
    exact ⟨trail, { hput with }⟩
  | answers now answer hcall =>
    have hopen := not_done hcall fun r hdone => Stage.noConfusion hdone
    exact ⟨trail, h.put hopen fun r hdone => absurd hdone regenerated_ne_done⟩
  | measures post now hcall =>
    have hopen := not_done hcall fun r hdone => Stage.noConfusion hdone
    exact ⟨trail, h.put hopen fun r hdone => absurd hdone measured_ne_done⟩
  | @enqueues i a item now hcall =>
    have hopen := not_done hcall fun r hdone => Stage.noConfusion hdone
    have hsame : Trailed (s.enqueue i item) trail := { h with }
    exact ⟨trail, hsame.put hopen fun r hdone => absurd hdone enqueued_ne_done⟩
  | records hcall => exact ⟨_, h.record hcall (hfits _ _ _ hcall)⟩
  | hands hhands =>
    exact ⟨trail, {
      events := hhands.events.trans h.events
      nodup := h.nodup
      call := fun i e hi => by
        rw [hhands.calls, hhands.config]
        exact h.call i e hi
      all := fun i a r hi => h.all i a r (hhands.calls ▸ hi) }⟩

/-! ### Runs -/

/-- What has been shown of every state that the engine gets to. -/
structure Reached (config : RegenerationConfig) (s : System) : Prop where
  config : s.engine.config = config
  fitted : Fitted s
  trailed : ∃ trail, Trailed s trail

theorem Moves.config_eq (hmoves : Moves score s s') : s'.engine.config = s.engine.config := by
  cases hmoves with
  | hands hhands => exact hhands.config
  | _ => rfl

theorem new_calls_ne (config : RegenerationConfig) (i : ℕ) (a : Attempt) (stage : Stage) :
    (System.new config).calls i ≠ some (a, stage) := by
  rw [System.new]
  exact Option.some_ne_none _ ∘ Eq.symm

theorem reached_new (config : RegenerationConfig) : Reached config (.new config) where
  config := rfl
  fitted i a stage hcall := absurd hcall (new_calls_ne config i a stage)
  trailed := ⟨[], {
    events := rfl
    nodup := List.nodup_nil
    call := fun _ _ hi => absurd hi List.not_mem_nil
    all := fun i a _ hcall => absurd hcall (new_calls_ne config i a _) }⟩

theorem Reached.step (h : Reached config s) (hstep : s.step score act = some s') :
    Reached config s' := by
  have hmoves := moves_of_step hstep
  obtain ⟨trail, htrail⟩ := h.trailed
  exact ⟨hmoves.config_eq.trans h.config, h.fitted.moves hmoves, htrail.moves h.fitted hmoves⟩

theorem reached_run (h : Run (System.step score) (fun _ _ => True) (.new config) s) :
    Reached config s :=
  h.invariant (fun _ _ _ hs _ hstep => hs.step hstep) (reached_new config)

theorem Accounts.ne_noActionNeeded {e : NormalizationEvent} (h : Accounts config a e r) :
    r ≠ .noActionNeeded := by
  rintro rfl
  exact h.tells

theorem noActionNeeded_iff (h : Fits config a (.done r)) :
    r = .noActionNeeded ↔ atMost a.driftScore config.driftThreshold = true := by
  rcases h with ⟨hnone, hmost⟩ | ⟨e, he⟩
  · exact ⟨fun _ => hmost, fun _ => hnone⟩
  · refine ⟨fun hnone => absurd hnone he.ne_noActionNeeded, fun hmost => ?_⟩
    rw [he.drifted] at hmost
    cases hmost

/-- The events are those of the calls that are over, one each, and they say what the calls answered.
Only a call whose drift is at most the threshold answers without one. -/
theorem regenerations_audited
    (h : Run (System.step score) (fun _ _ => True) (.new config) s) :
    s.engine.config = config ∧ (∃ trail, Trailed s trail) ∧
      ∀ i a r, s.calls i = some (a, .done r) →
        (r = .noActionNeeded ↔ atMost a.driftScore config.driftThreshold = true) := by
  have hreached := reached_run h
  refine ⟨hreached.config, hreached.trailed, fun i a r hcall => ?_⟩
  have hfits := hreached.fitted i a _ hcall
  rw [hreached.config] at hfits
  exact noActionNeeded_iff hfits

def epoch : DateTime := DateTime.unixEpoch

/-- An entity with a document and no graph. -/
def documented : Octad :=
  ⟨"e1", ⟨"e1", epoch, epoch, none, 1, { document := true }⟩, none, none, none, none,
    some ⟨"e1", "title", "body", []⟩, 0, 0, none⟩

def strict : RegenerationConfig := { RegenerationConfig.standard with driftThreshold := .finite 0 }

/-- Its graph is repaired, and found in order afterwards. -/
def repairing : List Act :=
  [.call 0 ⟨documented, .graph, .finite 1⟩ epoch, .regenerated 0 (.ok "graph") epoch,
    .measured 0 (some (.finite 0)) epoch, .record 0, .call 1 ⟨documented, .graph, .finite 0⟩ epoch]

theorem regenerations_audited_repairing : ∃ s,
    exec (System.step fun _ => "1.000") (.new strict) repairing = some s ∧
    s.engine.events.length = 1 ∧ ∃ trail, Trailed s trail := by
  obtain ⟨s, hs, hlength⟩ : ∃ s,
      exec (System.step fun _ => "1.000") (.new strict) repairing = some s ∧
      s.engine.events.length = 1 := ⟨_, rfl, rfl⟩
  exact ⟨s, hs, hlength, (regenerations_audited (run_of_steps hs)).2.1⟩

/-! ### What the regenerator is asked -/

/-- What it may be asked in a call: to write the modality from the most authoritative one, or from
all that are ranked, weighed by their rank. -/
def Serves (config : RegenerationConfig) (a : Attempt) : Order → Prop
  | .regenerateFrom m => Best config a.octad a.driftedModality m
  | .mergeInto sources => sources ≠ [] ∧
      (∀ m w, (m, w) ∈ sources ↔ m ∈ config.authorityOrder ∧ m ≠ a.driftedModality ∧
        isPresentOn a.octad m = true ∧ w = config.authorityWeight m) ∧
      (config.authorityOrder.Nodup → sources.Pairwise fun x y => y.2 < x.2)

theorem mem_sources {w : ℕ} : (m, w) ∈ config.sources octad drifted ↔
    m ∈ config.authorityOrder ∧ m ≠ drifted ∧ isPresentOn octad m = true ∧
      w = config.authorityWeight m := by
  rw [sources, List.mem_map]
  constructor
  · rintro ⟨n, hn, hpair⟩
    obtain ⟨rfl, rfl⟩ := Prod.mk.inj hpair
    obtain ⟨hmem, husable⟩ := List.mem_filter.mp hn
    obtain ⟨hne, hpresent⟩ := usable_iff.mp husable
    exact ⟨hmem, hne, hpresent, rfl⟩
  · rintro ⟨hmem, hne, hpresent, rfl⟩
    exact ⟨m, List.mem_filter.mpr ⟨hmem, usable_iff.mpr ⟨hne, hpresent⟩⟩, rfl⟩

theorem Ordered.serves {order : Order} (h : Ordered config a order) : Serves config a order := by
  cases order with
  | regenerateFrom m => exact best_of_source h.2
  | mergeInto sources =>
    obtain ⟨-, hne, rfl⟩ := h
    exact ⟨hne, fun m w => mem_sources, fun hnodup => sources_pairwise hnodup ..⟩

theorem Ordered.strategyFor {order : Order} (h : Ordered config a order) :
    config.strategyFor a.driftedModality = order.strategy := by
  cases order with
  | regenerateFrom m => exact h.1
  | mergeInto sources => exact h.1

/-- The event of a call that has given an order names its strategy and its source. -/
theorem Ordered.event {order : Order} {e : NormalizationEvent} (h : Ordered config a order)
    (he : Accounts config a e r) :
    e.strategyUsed = order.strategy ∧ e.sourceModality = order.source := by
  have hstrategy := he.strategyUsed.trans h.strategyFor
  refine ⟨hstrategy, ?_⟩
  rw [he.sourceModality, hstrategy]
  cases order with
  | regenerateFrom m => exact h.2
  | mergeInto sources => rfl

/-- What has been asked where a call waits. -/
def Backed (asked : List (ℕ × Order)) (i : ℕ) : Stage → Prop
  | .regenerating order => (i, order) ∈ asked
  | .measuring order => (i, order) ∈ asked
  | .enqueueing _ => True
  | .recording _ r => ∀ e, r = .repaired e → ∃ order, (i, order) ∈ asked
  | .done r => ∀ e, r = .repaired e → ∃ order, (i, order) ∈ asked

/-- A call asks once at most, what its arguments lead to, and repairs nothing without asking. -/
structure Asked (s : System) : Prop where
  nodup : (s.asked.map Prod.fst).Nodup
  call : ∀ i order, (i, order) ∈ s.asked → ∃ a stage, s.calls i = some (a, stage) ∧
    stage ≠ .done .noActionNeeded ∧ Ordered s.engine.config a order
  backed : ∀ i a stage, s.calls i = some (a, stage) → Backed s.asked i stage

/-- A call goes on. -/
theorem Asked.put (h : Asked s) (hcall : s.calls i = some (a, stage))
    (hstage : stage' ≠ .done .noActionNeeded) (hbacked : Backed s.asked i stage') :
    Asked (s.put i a stage') where
  nodup := h.nodup
  call j order hj := by
    obtain ⟨b, stage'', hb, hne, hordered⟩ := h.call j order hj
    rcases eq_or_ne j i with rfl | hji
    · obtain ⟨rfl, -⟩ := same_call hcall hb
      exact ⟨a, stage', System.put_self .., hstage, hordered⟩
    · exact ⟨b, stage'', (System.put_of_ne s a stage' hji).trans hb, hne, hordered⟩
  backed j b stage'' hj := by
    rcases System.put_cases hj with ⟨rfl, -, rfl⟩ | ⟨-, hj⟩
    · exact hbacked
    · exact h.backed j b stage'' hj

theorem Backed.mono {asked asked' : List (ℕ × Order)} (h : Backed asked i stage)
    (hsub : asked ⊆ asked') : Backed asked' i stage := by
  cases stage with
  | regenerating order => exact hsub h
  | measuring order => exact hsub h
  | enqueueing item => trivial
  | recording event r => exact fun e hr => (h e hr).imp fun order hmem => hsub hmem
  | done r => exact fun e hr => (h e hr).imp fun order hmem => hsub hmem

/-- What a call asks at once, before which nothing is repaired. -/
theorem backed_regenerate (config : RegenerationConfig) (a : Attempt) (now : DateTime) (i : ℕ) :
    Backed ((regenerate config a now).orders.map (i, ·)) i (regenerate config a now) := by
  rw [regenerate]
  split_ifs
  · exact fun e hr => RegenerationResult.noConfusion hr
  split
  · rw [executeFromAuthoritative]
    split
    · exact List.mem_singleton_self _
    · exact fun e hr => RegenerationResult.noConfusion hr
  · rw [executeMerge]
    split
    · exact fun e hr => RegenerationResult.noConfusion hr
    · exact List.mem_singleton_self _
  · trivial

theorem backed_enqueued (score : F64 → String) (asked : List (ℕ × Order)) (i : ℕ) (a : Attempt)
    (now : DateTime) :
    Backed asked i (enqueued score a now) := by
  rw [enqueued]
  exact fun e hr => RegenerationResult.noConfusion hr

theorem backed_measured {order : Order} {asked : List (ℕ × Order)} (h : (i, order) ∈ asked)
    (post : Option F64) (now : DateTime) : Backed asked i (measured a order post now) :=
  fun _ _ => ⟨order, h⟩

theorem backed_regenerated {order : Order} {asked : List (ℕ × Order)} (h : (i, order) ∈ asked)
    (now : DateTime) (answer : Except String String) :
    Backed asked i (regenerated a order now answer) := by
  cases answer with
  | ok summary => exact h
  | error e => exact fun _ _ => ⟨order, h⟩

theorem Asked.starts (h : Asked s) (hfree : s.calls i = none)
    (hfits : Fits s.engine.config a stage) (hbacked : Backed (stage.orders.map (i, ·)) i stage) :
    Asked { s.put i a stage with asked := s.asked ++ stage.orders.map (i, ·) } where
  nodup := by
    have hnew : i ∉ s.asked.map Prod.fst := not_mem_fst fun order hmem => by
      obtain ⟨b, stage', hb, -⟩ := h.call i order hmem
      rw [hfree] at hb
      cases hb
    -- only a call that waits for the regenerator has asked it
    cases stage with
    | regenerating order => exact nodup_fst_concat h.nodup hnew order
    | _ => simpa [Stage.orders] using h.nodup
  call j order hj := by
    rcases List.mem_append.mp hj with hj | hj
    · obtain ⟨b, stage', hb, hne, hordered⟩ := h.call j order hj
      have hji : j ≠ i := by
        rintro rfl
        rw [hfree] at hb
        cases hb
      exact ⟨b, stage', (System.put_of_ne s a stage hji).trans hb, hne, hordered⟩
    · cases stage with
      | regenerating order' =>
        obtain ⟨rfl, rfl⟩ := Prod.mk.inj (List.mem_singleton.mp hj)
        exact ⟨a, _, System.put_self .., fun hdone => Stage.noConfusion hdone, hfits.2⟩
      | _ => cases hj
  backed j b stage' hj := by
    rcases System.put_cases hj with ⟨rfl, -, rfl⟩ | ⟨-, hj⟩
    · exact hbacked.mono (List.subset_append_right _ _)
    · exact (h.backed j b stage' hj).mono (List.subset_append_left _ _)

theorem Asked.moves (h : Asked s) (hfits : Fitted s) (hmoves : Moves score s s') : Asked s' := by
  cases hmoves with
  | starts a now hfree =>
    exact h.starts hfree (fits_regenerate _ a now) (backed_regenerate _ a now _)
  | answers now answer hcall =>
    exact h.put hcall regenerated_ne_done (backed_regenerated (h.backed _ _ _ hcall) now answer)
  | measures post now hcall =>
    exact h.put hcall measured_ne_done (backed_measured (h.backed _ _ _ hcall) post now)
  | @enqueues i a item now hcall =>
    have hsame : Asked (s.enqueue i item) := { h with }
    exact hsame.put hcall enqueued_ne_done (backed_enqueued score _ i a now)
  | @records i a e r hcall =>
    have hsame : Asked (s.recordEvent e) := { h with }
    have haccounts : Accounts s.engine.config a e r := hfits _ _ _ hcall
    have hbacked : Backed s.asked i (.recording e r) := h.backed i a _ hcall
    exact hsame.put hcall (fun hdone => haccounts.ne_noActionNeeded (Stage.done.inj hdone)) hbacked
  | hands hhands =>
    exact {
      nodup := by
        rw [hhands.asked]
        exact h.nodup
      call := by
        rw [hhands.asked, hhands.calls, hhands.config]
        exact h.call
      backed := by
        rw [hhands.asked, hhands.calls]
        exact h.backed }

theorem asked_new (config : RegenerationConfig) : Asked (.new config) where
  nodup := List.nodup_nil
  call _ _ hi := absurd hi List.not_mem_nil
  backed i a stage hcall := absurd hcall (new_calls_ne config i a stage)

theorem asked_run (h : Run (System.step score) (fun _ _ => True) (.new config) s) : Asked s := by
  have hboth := h.invariant (I := fun s => Reached config s ∧ Asked s)
    (fun _ _ _ hs _ hstep =>
      ⟨hs.1.step hstep, hs.2.moves hs.1.fitted (moves_of_step hstep)⟩)
    ⟨reached_new config, asked_new config⟩
  exact hboth.2

/-- The regenerator is asked once at most in a call, from the right sources, and an event tells of
each order once its call is over. -/
theorem orders_audited (h : Run (System.step score) (fun _ _ => True) (.new config) s) :
    (s.asked.map Prod.fst).Nodup ∧
    (∀ i order, (i, order) ∈ s.asked → ∃ a stage, s.calls i = some (a, stage) ∧
      Serves config a order ∧ ∀ r, stage = .done r → ∃ e ∈ s.engine.events, Accounts config a e r ∧
        e.strategyUsed = order.strategy ∧ e.sourceModality = order.source) ∧
    ∀ i a e, s.calls i = some (a, .done (.repaired e)) → ∃ order, (i, order) ∈ s.asked := by
  have hreached := reached_run h
  have hasked := asked_run h
  obtain ⟨trail, htrail⟩ := hreached.trailed
  refine ⟨hasked.nodup, fun i order hmem => ?_, fun i a e hcall => hasked.backed i a _ hcall e rfl⟩
  obtain ⟨a, stage, hcall, hne, hordered⟩ := hasked.call i order hmem
  rw [hreached.config] at hordered
  refine ⟨a, stage, hcall, hordered.serves, ?_⟩
  rintro r rfl
  -- a call that is over and has asked has an event, which is of this call
  have hin := htrail.all i a r hcall fun hr => hne (congrArg Stage.done hr)
  obtain ⟨⟨_, e⟩, he, rfl⟩ := List.mem_map.mp hin
  obtain ⟨b, r', hcall', haccounts⟩ := htrail.call _ e he
  obtain ⟨rfl, hsame⟩ := same_call hcall hcall'
  obtain rfl := Stage.done.inj hsame
  rw [hreached.config] at haccounts
  have hevent : e ∈ s.engine.events := by
    rw [htrail.events]
    exact List.mem_map_of_mem he
  exact ⟨e, hevent, haccounts, hordered.event haccounts⟩

theorem orders_audited_repairing : ∃ s,
    exec (System.step fun _ => "1.000") (.new strict) repairing = some s ∧
    Best strict documented .graph .document ∧
    ∃ e ∈ s.engine.events, e.sourceModality = some .document := by
  obtain ⟨s, hs, hasked, r, hcall⟩ : ∃ s,
      exec (System.step fun _ => "1.000") (.new strict) repairing = some s ∧
      (0, .regenerateFrom .document) ∈ s.asked ∧
      ∃ r, s.calls 0 = some (⟨documented, .graph, .finite 1⟩, .done r) :=
    ⟨_, rfl, List.mem_singleton_self _, _, rfl⟩
  obtain ⟨-, horders, -⟩ := orders_audited (run_of_steps hs)
  obtain ⟨b, stage, hb, hserves, hdone⟩ := horders 0 _ hasked
  obtain ⟨rfl, rfl⟩ := same_call hcall hb
  obtain ⟨e, he, -, -, hsource⟩ := hdone r rfl
  exact ⟨s, hs, hserves, e, he, hsource⟩

/-! ### What is left to a person -/

/-- The call has put its item on the queue. -/
def Stage.isPending : Stage → Bool
  | .recording _ (.pendingResolution _ _) => true
  | .done (.pendingResolution _ _) => true
  | _ => false

/-- The items that came are those of the calls that have been left to a person, one each. Each is
still on the queue, or has been handed out once, and the queue is in the order in which they came. -/
structure Queued (s : System) : Prop where
  all : (s.taken ++ s.engine.queue).Perm (s.arrived.map Prod.snd)
  order : s.engine.queue.Sublist (s.arrived.map Prod.snd)
  nodup : (s.arrived.map Prod.fst).Nodup
  call : ∀ i item, (i, item) ∈ s.arrived → ∃ a stage, s.calls i = some (a, stage) ∧
    stage.isPending = true ∧ Queues s.engine.config a item
  pending : ∀ i a stage, s.calls i = some (a, stage) → stage.isPending = true →
    i ∈ s.arrived.map Prod.fst

variable {item : PendingNormalization}

theorem regenerate_not_pending (config : RegenerationConfig) (a : Attempt) (now : DateTime) :
    (regenerate config a now).isPending = false := by
  rw [regenerate]
  split_ifs
  · rfl
  split
  · rw [executeFromAuthoritative]
    split <;> rfl
  · rw [executeMerge]
    split <;> rfl
  · rfl

theorem regenerated_not_pending (a : Attempt) (order : Order) (now : DateTime)
    (answer : Except String String) : (regenerated a order now answer).isPending = false := by
  cases answer <;> rfl

/-- A call that has nothing to do with the queue, before and after. -/
theorem Queued.put (h : Queued s)
    (hopen : ∀ b stage', s.calls i = some (b, stage') → stage'.isPending = false)
    (hstage : stage.isPending = false) : Queued (s.put i a stage) where
  all := h.all
  order := h.order
  nodup := h.nodup
  call j item hj := by
    obtain ⟨b, stage', hb, hpending, hitem⟩ := h.call j item hj
    have hne : j ≠ i := by
      rintro rfl
      rw [hopen b stage' hb] at hpending
      cases hpending
    exact ⟨b, stage', (System.put_of_ne s a stage hne).trans hb, hpending, hitem⟩
  pending j b stage' hj hpending := by
    rcases System.put_cases hj with ⟨-, -, rfl⟩ | ⟨-, hj⟩
    · rw [hstage] at hpending
      cases hpending
    · exact h.pending j b stage' hj hpending

/-- A call that stays pending, or stays apart. -/
theorem Queued.keep (h : Queued s) (hcall : s.calls i = some (a, stage))
    (hsame : stage'.isPending = stage.isPending) : Queued (s.put i a stage') where
  all := h.all
  order := h.order
  nodup := h.nodup
  call j item hj := by
    obtain ⟨b, stage'', hb, hpending, hitem⟩ := h.call j item hj
    rcases eq_or_ne j i with rfl | hne
    · obtain ⟨rfl, rfl⟩ := same_call hcall hb
      exact ⟨a, stage', System.put_self .., hsame.trans hpending, hitem⟩
    · exact ⟨b, stage'', (System.put_of_ne s a stage' hne).trans hb, hpending, hitem⟩
  pending j b stage'' hj hpending := by
    rcases System.put_cases hj with ⟨rfl, -, rfl⟩ | ⟨-, hj⟩
    · exact h.pending j a stage hcall (hsame.symm.trans hpending)
    · exact h.pending j b stage'' hj hpending

theorem Queued.enqueue (h : Queued s) (hcall : s.calls i = some (a, .enqueueing item))
    (hqueues : Queues s.engine.config a item) (hstage : stage.isPending = true) :
    Queued ((s.enqueue i item).put i a stage) := by
  have hnew : i ∉ s.arrived.map Prod.fst := not_mem_fst fun item' hmem => by
    obtain ⟨b, stage', hb, hpending, -⟩ := h.call i item' hmem
    rw [← (same_call hcall hb).2] at hpending
    cases hpending
  exact {
    all := by
      change (s.taken ++ (s.engine.queue ++ [item])).Perm ((s.arrived ++ [(i, item)]).map Prod.snd)
      rw [List.map_append, ← List.append_assoc]
      exact h.all.append_right [item]
    order := by
      change (s.engine.queue ++ [item]).Sublist ((s.arrived ++ [(i, item)]).map Prod.snd)
      rw [List.map_append]
      exact h.order.append (List.Sublist.refl [item])
    nodup := nodup_fst_concat h.nodup hnew _
    call := fun j item' hj => by
      rcases List.mem_append.mp hj with hj | hj
      · obtain ⟨b, stage', hb, hpending, hitem⟩ := h.call j item' hj
        have hne : j ≠ i := fun heq => hnew (heq ▸ List.mem_map_of_mem hj)
        exact ⟨b, stage', (System.put_of_ne (s.enqueue i item) a stage hne).trans hb, hpending, hitem⟩
      · obtain ⟨rfl, rfl⟩ := Prod.mk.inj (List.mem_singleton.mp hj)
        exact ⟨a, stage, System.put_self .., hstage, hqueues⟩
    pending := fun j b stage' hj hpending => by
      change j ∈ (s.arrived ++ [(i, item)]).map Prod.fst
      rw [List.map_append]
      rcases System.put_cases hj with ⟨rfl, -, -⟩ | ⟨-, hj⟩
      · exact List.mem_append_right _ (List.mem_singleton_self j)
      · exact List.mem_append_left _ (h.pending j b stage' hj hpending) }

theorem not_pending (hcall : s.calls i = some (a, stage)) (hstage : stage.isPending = false)
    (b : Attempt) (stage' : Stage) (hb : s.calls i = some (b, stage')) :
    stage'.isPending = false := by
  rw [← (same_call hcall hb).2, hstage]

theorem isPending_done (event : NormalizationEvent) (r : RegenerationResult) :
    (Stage.done r).isPending = (Stage.recording event r).isPending := by
  cases r <;> rfl

theorem Queued.moves (h : Queued s) (hfits : Fitted s) (hmoves : Moves score s s') :
    Queued s' := by
  cases hmoves with
  | @starts i a now hfree =>
    have hopen (b : Attempt) (stage' : Stage) (hb : s.calls i = some (b, stage')) :
        stage'.isPending = false := by
      rw [hfree] at hb
      cases hb
    exact { h.put hopen (regenerate_not_pending s.engine.config a now) with }
  | @answers i a order now answer hcall =>
    exact h.put (not_pending hcall rfl) (regenerated_not_pending a order now answer)
  | measures post now hcall => exact h.put (not_pending hcall rfl) rfl
  | enqueues now hcall => exact h.enqueue hcall (hfits _ _ _ hcall).2 rfl
  | @records i a e r hcall =>
    have hsame : Queued (s.recordEvent e) := { h with }
    exact hsame.keep hcall (isPending_done e r)
  | hands hhands =>
    exact {
      all := by
        rw [hhands.arrived]
        exact hhands.all.trans h.all
      order := by
        rw [hhands.arrived]
        exact hhands.rest.trans h.order
      nodup := by
        rw [hhands.arrived]
        exact h.nodup
      call := by
        rw [hhands.arrived, hhands.calls, hhands.config]
        exact h.call
      pending := by
        rw [hhands.arrived, hhands.calls]
        exact h.pending }

/-- Items come at the end of those that came before. -/
theorem Moves.arrived (hmoves : Moves score s s') : s.arrived <+: s'.arrived := by
  cases hmoves with
  | enqueues now hcall => exact List.prefix_append _ _
  | hands hhands => exact hhands.arrived.symm ▸ List.prefix_refl s.arrived
  | starts | answers | measures | records => exact List.prefix_refl _

theorem arrived_run (h : Run (System.step score) (fun _ _ => True) s s') :
    s.arrived <+: s'.arrived :=
  h.invariant (I := fun t => s.arrived <+: t.arrived)
    (fun _ _ _ hs _ hstep => hs.trans (moves_of_step hstep).arrived) (List.prefix_refl _)

theorem queued_new (config : RegenerationConfig) : Queued (.new config) where
  all := .refl _
  order := .refl _
  nodup := List.nodup_nil
  call _ _ hi := absurd hi List.not_mem_nil
  pending i a stage hcall := absurd hcall (new_calls_ne config i a stage)

/-- Nothing that is left to a person is lost, nothing is handed out twice, and the queue keeps the
order of arrival, however calls, resolutions and drains come. -/
theorem queue_exact (h : Run (System.step score) (fun _ _ => True) (.new config) s) :
    s.engine.config = config ∧ Queued s ∧
      ∀ s', Run (System.step score) (fun _ _ => True) s s' → s.arrived <+: s'.arrived := by
  have hboth := h.invariant (I := fun s => Reached config s ∧ Queued s)
    (fun _ _ _ ⟨hreached, hqueued⟩ _ hstep =>
      ⟨hreached.step hstep, hqueued.moves hreached.fitted (moves_of_step hstep)⟩)
    ⟨reached_new config, queued_new config⟩
  exact ⟨hboth.1.config, hboth.2, fun s' hs' => arrived_run hs'⟩

/-- Three calls put their items on the queue, the second before the first, and the oldest is handed
out. -/
def resolving : List Act :=
  [.call 0 ⟨documented, .graph, .finite 1⟩ epoch, .call 1 ⟨documented, .vector, .finite 1⟩ epoch,
    .enqueue 1 epoch, .call 2 ⟨documented, .tensor, .finite 1⟩ epoch, .enqueue 0 epoch, .record 1,
    .enqueue 2 epoch, .resolve "e1" .vector]

theorem queue_exact_resolving : ∃ s,
    exec (System.step fun _ => "1.000") (.new { strict with defaultStrategy := .userResolve })
      resolving = some s ∧
    s.taken.map PendingNormalization.driftedModality = [.vector] ∧
    s.engine.queue.map PendingNormalization.driftedModality = [.graph, .tensor] ∧
    s.arrived.map Prod.fst = [1, 0, 2] ∧ Queued s := by
  obtain ⟨s, hs, htaken, hqueue, harrived⟩ : ∃ s,
      exec (System.step fun _ => "1.000") (.new { strict with defaultStrategy := .userResolve })
        resolving = some s ∧
      s.taken.map PendingNormalization.driftedModality = [.vector] ∧
      s.engine.queue.map PendingNormalization.driftedModality = [.graph, .tensor] ∧
      s.arrived.map Prod.fst = [1, 0, 2] := ⟨_, rfl, rfl, rfl, rfl⟩
  exact ⟨s, hs, htaken, hqueue, harrived, (queue_exact (run_of_steps hs)).2.1⟩

end NextgenDatabases.Verisim.Regeneration
