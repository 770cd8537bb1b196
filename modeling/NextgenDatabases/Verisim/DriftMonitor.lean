import NextgenDatabases.Foundations.Runs
import Mathlib.Algebra.Order.Field.Rat
import Mathlib.Data.Finset.Card
import Mathlib.Logic.Function.Basic

/-!
# The drift monitor

Entities report drift, and the monitor starts a task for each entity that has to be normalized. Tasks
send their results back to it; reports, sweeps, tasks and results come in any order.
-/
namespace NextgenDatabases.Verisim.Drift

open Foundations

inductive DriftType
  | semanticVector
  | graphDocument
  | temporalConsistency
  | tensor
  | schema
  | quality
  | other (name : String)
  deriving DecidableEq

structure Thresholds where
  warning : ℚ
  critical : ℚ

structure Config where
  maxConcurrentNormalizations : ℕ
  thresholds : DriftType → Option Thresholds

def defaultConfig : Config where
  maxConcurrentNormalizations := 10
  thresholds
    | .semanticVector => some ⟨3 / 10, 7 / 10⟩
    | .graphDocument => some ⟨4 / 10, 8 / 10⟩
    | .temporalConsistency => some ⟨2 / 10, 6 / 10⟩
    | .tensor => some ⟨35 / 100, 75 / 100⟩
    | .schema => some ⟨1 / 10, 5 / 10⟩
    | .quality => some ⟨25 / 100, 65 / 100⟩
    | .other _ => none

def Config.thresholdsOf (config : Config) (driftType : DriftType) : Thresholds :=
  (config.thresholds driftType).getD ⟨5 / 10, 8 / 10⟩

inductive NormalizationResult
  | success
  | failure
  deriving DecidableEq

/-- The state of the monitor, the tasks that run and their messages that the monitor has not read. An
entity has a drift score for each type reported. -/
structure System (ι : Type) where
  config : Config
  driftScores : DriftType → List ℚ
  entityDrift : ι → DriftType → Option ℚ
  pendingNormalizations : Finset ι
  tasks : List ι
  messages : List (ι × NormalizationResult)

section

variable {ι : Type} [DecidableEq ι]

def init (config : Config) : System ι where
  config := config
  driftScores _ := []
  entityDrift _ _ := none
  pendingNormalizations := ∅
  tasks := []
  messages := []

/-- `Map.update(scores, type, [score], &[score | Enum.take(&1, 99)])` -/
def noteScore (scores : DriftType → List ℚ) (driftType : DriftType) (score : ℚ) :
    DriftType → List ℚ :=
  Function.update scores driftType (score :: (scores driftType).take 99)

def triggerNormalization (s : System ι) (entityId : ι) : System ι :=
  if s.pendingNormalizations.card < s.config.maxConcurrentNormalizations then
    { s with
      pendingNormalizations := insert entityId s.pendingNormalizations
      tasks := s.tasks ++ [entityId] }
  else s

/-- A score at the warning level is only logged. -/
def maybeTriggerNormalization (s : System ι) (entityId : ι) (score : ℚ) (driftType : DriftType) :
    System ι :=
  if (s.config.thresholdsOf driftType).critical ≤ score ∧ entityId ∉ s.pendingNormalizations then
    triggerNormalization s entityId
  else s

def reportDrift (s : System ι) (entityId : ι) (score : ℚ) (driftType : DriftType) : System ι :=
  maybeTriggerNormalization
    { s with
      entityDrift := Function.update s.entityDrift entityId
        (Function.update (s.entityDrift entityId) driftType (some score))
      driftScores := noteScore s.driftScores driftType score }
    entityId score driftType

def metricType : String → Option DriftType
  | "SemanticVectorDrift" => some .semanticVector
  | "GraphDocumentDrift" => some .graphDocument
  | "TemporalConsistencyDrift" => some .temporalConsistency
  | "TensorDrift" => some .tensor
  | "SchemaDrift" => some .schema
  | "QualityDrift" => some .quality
  | _ => none

def noteMetric (scores : DriftType → List ℚ) (metric : String × Option ℚ) : DriftType → List ℚ :=
  match metricType metric.1 with
  | some driftType => noteScore scores driftType (metric.2.getD 0)
  | none => scores

/-- The entities with their scores, in the order in which the map is folded, and the metrics that the
Rust core answers, if it does. -/
def performSweep (s : System ι) (entities : List (ι × List (DriftType × ℚ)))
    (metrics : Option (List (String × Option ℚ))) : System ι :=
  let swept := entities.foldl (fun acc entity =>
    entity.2.foldl (fun inner drift => maybeTriggerNormalization inner entity.1 drift.2 drift.1) acc) s
  match metrics with
  | some metrics => { swept with driftScores := metrics.foldl noteMetric swept.driftScores }
  | none => swept

/-- `EntityServer.normalize` only casts, so that it always answers `:ok`. -/
def runTask (s : System ι) (entityId : ι) : System ι :=
  { s with
    tasks := s.tasks.erase entityId
    messages := s.messages ++ [(entityId, .success)] }

def normalizationComplete (s : System ι) (entityId : ι) (result : NormalizationResult) : System ι :=
  { s with
    messages := s.messages.erase (entityId, result)
    pendingNormalizations := s.pendingNormalizations.erase entityId
    entityDrift :=
      if result = .success then Function.update s.entityDrift entityId fun _ => none
      else s.entityDrift }

inductive Event (ι : Type)
  | reportDrift (entityId : ι) (score : ℚ) (driftType : DriftType)
  | entityChanged (entityId : ι)
  | sweep (entities : List (ι × List (DriftType × ℚ))) (metrics : Option (List (String × Option ℚ)))
  | task (entityId : ι)
  | complete (entityId : ι) (result : NormalizationResult)

def step (s : System ι) : Event ι → Option (System ι)
  | .reportDrift entityId score driftType => some (reportDrift s entityId score driftType)
  | .entityChanged _ => some s
  | .sweep entities metrics => some (performSweep s entities metrics)
  | .task entityId => if entityId ∈ s.tasks then some (runTask s entityId) else none
  | .complete entityId result =>
    if (entityId, result) ∈ s.messages then some (normalizationComplete s entityId result) else none

/-- A sweep goes through the scores that there are. -/
def Enumerates (s : System ι) (entities : List (ι × List (DriftType × ℚ))) : Prop :=
  ∀ e k score, s.entityDrift e k = some score ↔ ∃ drifts, (e, drifts) ∈ entities ∧ (k, score) ∈ drifts

def Faithful (s : System ι) : Event ι → Prop
  | .sweep entities _ => Enumerates s entities
  | _ => True

/-- The entities whose task runs or has sent its result. -/
def System.inFlight (s : System ι) : List ι := s.tasks ++ s.messages.map Prod.fst

variable {s t : System ι} {e : ι} {score : ℚ} {k : DriftType} {config : Config}
  {entities : List (ι × List (DriftType × ℚ))} {metrics : Option (List (String × Option ℚ))}

/-! ### Tasks in flight -/

/-- The entities that are pending are those in flight, each once, and no more than may be. -/
structure Exact (config : Config) (s : System ι) : Prop where
  config_eq : s.config = config
  nodup : s.inFlight.Nodup
  mem_pending : ∀ e, e ∈ s.pendingNormalizations ↔ e ∈ s.inFlight
  card_le : s.pendingNormalizations.card ≤ config.maxConcurrentNormalizations

omit [DecidableEq ι] in
theorem exact_init : Exact config (init config : System ι) :=
  ⟨rfl, .nil, by simp [init, System.inFlight], Nat.zero_le _⟩

/-- Normalization is triggered for an entity that is not pending, where there is room. -/
theorem maybeTrigger_cases (s : System ι) (e : ι) (score : ℚ) (k : DriftType) :
    maybeTriggerNormalization s e score k = s ∨ e ∉ s.pendingNormalizations ∧
      s.pendingNormalizations.card < s.config.maxConcurrentNormalizations ∧
      maybeTriggerNormalization s e score k =
        { s with
          pendingNormalizations := insert e s.pendingNormalizations
          tasks := s.tasks ++ [e] } := by
  unfold maybeTriggerNormalization triggerNormalization
  split_ifs with hcritical hroom
  · exact .inr ⟨hcritical.2, hroom, rfl⟩
  · exact .inl rfl
  · exact .inl rfl

omit [DecidableEq ι] in
theorem exact_of_perm (h : Exact config s) (hconfig : t.config = s.config)
    (hpending : t.pendingNormalizations = s.pendingNormalizations)
    (hperm : t.inFlight.Perm s.inFlight) : Exact config t where
  config_eq := hconfig.trans h.config_eq
  nodup := hperm.nodup_iff.mpr h.nodup
  mem_pending e := by rw [hpending, h.mem_pending, hperm.mem_iff]
  card_le := hpending ▸ h.card_le

theorem Exact.maybeTrigger (h : Exact config s) (e : ι) (score : ℚ) (k : DriftType) :
    Exact config (maybeTriggerNormalization s e score k) := by
  obtain heq | ⟨hpending, hroom, heq⟩ := maybeTrigger_cases s e score k
  · rwa [heq]
  have hperm : (s.tasks ++ [e] ++ s.messages.map Prod.fst).Perm (e :: s.inFlight) := by
    rw [List.append_assoc]
    exact List.perm_middle
  rw [heq]
  refine ⟨h.config_eq, hperm.nodup_iff.mpr (List.nodup_cons.mpr ⟨?_, h.nodup⟩), fun e' => ?_, ?_⟩
  · exact fun hmem => hpending ((h.mem_pending e).mpr hmem)
  · rw [Finset.mem_insert, h.mem_pending]
    exact List.mem_cons.symm.trans hperm.mem_iff.symm
  · rw [Finset.card_insert_of_notMem hpending]
    exact h.config_eq ▸ hroom

/-- The scores that a sweep goes through. -/
def visits (entities : List (ι × List (DriftType × ℚ))) : List (ι × DriftType × ℚ) :=
  entities.flatMap fun entity => entity.2.map fun drift => (entity.1, drift)

def visit (s : System ι) (v : ι × DriftType × ℚ) : System ι :=
  maybeTriggerNormalization s v.1 v.2.2 v.2.1

theorem foldl_visits (entities : List (ι × List (DriftType × ℚ))) (s : System ι) :
    entities.foldl (fun acc entity => entity.2.foldl (fun inner drift =>
      maybeTriggerNormalization inner entity.1 drift.2 drift.1) acc) s =
      (visits entities).foldl visit s := by
  rw [visits, List.foldl_flatMap]
  simp only [List.foldl_map, visit]

theorem Exact.visits (h : Exact config s) (vs : List (ι × DriftType × ℚ)) :
    Exact config (vs.foldl visit s) := by
  induction vs generalizing s with
  | nil => exact h
  | cons v vs ih => exact ih (h.maybeTrigger v.1 v.2.2 v.2.1)

/-- A sweep goes through the scores and takes note of the metrics. -/
theorem exists_performSweep (s : System ι) (entities : List (ι × List (DriftType × ℚ)))
    (metrics : Option (List (String × Option ℚ))) : ∃ scores, performSweep s entities metrics =
      { (visits entities).foldl visit s with driftScores := scores } := by
  rw [← foldl_visits]
  cases metrics with
  | none => exact ⟨_, rfl⟩
  | some metrics => exact ⟨_, rfl⟩

theorem Exact.sweep (h : Exact config s) : Exact config (performSweep s entities metrics) := by
  obtain ⟨scores, heq⟩ := exists_performSweep s entities metrics
  rw [heq]
  refine exact_of_perm (h.visits (Drift.visits entities)) ?_ ?_ ?_ <;> rfl

theorem Exact.task (h : Exact config s) (he : e ∈ s.tasks) : Exact config (runTask s e) := by
  refine exact_of_perm h rfl rfl ?_
  have hmessages : (s.tasks.erase e ++ (s.messages ++ [(e, NormalizationResult.success)]).map
      Prod.fst).Perm (e :: (s.tasks.erase e ++ s.messages.map Prod.fst)) := by
    rw [List.map_append, ← List.append_assoc]
    exact List.perm_append_singleton _ _
  exact hmessages.trans ((List.perm_cons_erase he).symm.append_right _)

theorem Exact.complete {result : NormalizationResult} (h : Exact config s)
    (he : (e, result) ∈ s.messages) : Exact config (normalizationComplete s e result) := by
  have hmessages := (List.perm_cons_erase he).map Prod.fst
  have hperm : s.inFlight.Perm (e :: (normalizationComplete s e result).inFlight) :=
    (hmessages.append_left s.tasks).trans List.perm_middle
  have hnodup := List.nodup_cons.mp (hperm.nodup_iff.mp h.nodup)
  refine ⟨h.config_eq, hnodup.2, fun e' => ?_, (Finset.card_erase_le).trans h.card_le⟩
  rw [normalizationComplete, Finset.mem_erase, h.mem_pending, hperm.mem_iff, List.mem_cons]
  constructor
  · rintro ⟨hne, rfl | hmem⟩
    · exact absurd rfl hne
    · exact hmem
  · intro hmem
    refine ⟨?_, .inr hmem⟩
    rintro rfl
    exact hnodup.1 hmem

theorem Exact.step {event : Event ι} (h : Exact config s) (hst : step s event = some t) :
    Exact config t := by
  cases event with
  | reportDrift e score k =>
    obtain rfl := Option.some.inj hst
    refine Exact.maybeTrigger (exact_of_perm h ?_ ?_ ?_) e score k <;> rfl
  | entityChanged e =>
    obtain rfl := Option.some.inj hst
    exact h
  | sweep entities metrics =>
    obtain rfl := Option.some.inj hst
    exact h.sweep
  | task e =>
    rw [Drift.step] at hst
    split_ifs at hst with he
    obtain rfl := Option.some.inj hst
    exact h.task he
  | complete e result =>
    rw [Drift.step] at hst
    split_ifs at hst with he
    obtain rfl := Option.some.inj hst
    exact h.complete he

theorem exact_run (h : Run step Faithful (init config : System ι) s) : Exact config s :=
  Run.invariant (fun _ _ _ hs _ hst => hs.step hst) h exact_init

theorem Exact.card_eq (h : Exact config s) : s.pendingNormalizations.card = s.inFlight.length := by
  have heq : s.pendingNormalizations = s.inFlight.toFinset := by
    ext e
    rw [h.mem_pending, List.mem_toFinset]
  rw [heq, List.toFinset_card_of_nodup h.nodup]

/-- In any order of reports, sweeps, tasks and results, the pending entities are those whose task is
in flight, with one task for each and no more tasks than may be. -/
theorem pending_exact (h : Run step Faithful (init config : System ι) s) :
    s.inFlight.Nodup ∧ (∀ e, e ∈ s.pendingNormalizations ↔ e ∈ s.inFlight) ∧
      s.inFlight.length ≤ config.maxConcurrentNormalizations := by
  have hexact := exact_run h
  exact ⟨hexact.nodup, hexact.mem_pending, hexact.card_eq ▸ hexact.card_le⟩

/-- A report is kept as it is, also where it triggers a normalization. -/
theorem reportDrift_entityDrift (s : System ι) (e : ι) (score : ℚ) (k : DriftType) :
    (reportDrift s e score k).entityDrift = Function.update s.entityDrift e
      (Function.update (s.entityDrift e) k (some score)) := by
  rw [reportDrift]
  obtain heq | ⟨-, -, heq⟩ := maybeTrigger_cases _ e score k <;> rw [heq]

/-- The default, with two normalizations at a time. -/
def twoAtATime : Config := { defaultConfig with maxConcurrentNormalizations := 2 }

/-- Three entities report critical scores. The third report finds no room, and the tasks that the
other two started are done. -/
def deferred : System ℕ :=
  let reported := reportDrift (reportDrift (reportDrift (init twoAtATime)
    1 (9 / 10) .quality) 2 (9 / 10) .quality) 3 (9 / 10) .quality
  let first := normalizationComplete (runTask reported 1) 1 .success
  normalizationComplete (runTask first 2) 2 .success

theorem deferred_run : Run step Faithful (init twoAtATime) deferred :=
  (Run.single (e := .reportDrift 1 (9 / 10) .quality) trivial rfl).trans <|
  (Run.single (e := .reportDrift 2 (9 / 10) .quality) trivial rfl).trans <|
  (Run.single (e := .reportDrift 3 (9 / 10) .quality) trivial rfl).trans <|
  (Run.single (e := .task 1) trivial (if_pos (by decide +kernel))).trans <|
  (Run.single (e := .complete 1 .success) trivial (if_pos (by decide +kernel))).trans <|
  (Run.single (e := .task 2) trivial (if_pos (by decide +kernel))).trans <|
  Run.single (e := .complete 2 .success) trivial (if_pos (by decide +kernel))

theorem deferred_enumerates : Enumerates deferred [(3, [(.quality, 9 / 10)])] := by
  intro e k score
  simp only [deferred, normalizationComplete, runTask, reportDrift_entityDrift, init, if_true]
  by_cases h3 : e = 3
  · by_cases hk : k = .quality <;> simp [h3, hk, eq_comm]
  · by_cases h2 : e = 2 <;> by_cases h1 : e = 1 <;> simp [h1, h2, h3]

/-- The sweep starts the task of the third. -/
theorem pending_exact_deferred :
    let s := performSweep deferred [(3, [(.quality, 9 / 10)])] none
    s.inFlight.Nodup ∧ (∀ e, e ∈ s.pendingNormalizations ↔ e ∈ s.inFlight) ∧
      s.inFlight.length ≤ 2 :=
  pending_exact (deferred_run.trans
    (Run.single (e := .sweep [(3, [(.quality, 9 / 10)])] none) deferred_enumerates rfl))

/-! ### Sweeps -/

theorem visits_mono (vs : List (ι × DriftType × ℚ)) (s : System ι) :
    s.pendingNormalizations ⊆ (vs.foldl visit s).pendingNormalizations ∧
      (vs.foldl visit s).config = s.config := by
  induction vs generalizing s with
  | nil => exact ⟨Finset.Subset.refl _, rfl⟩
  | cons v vs ih =>
    obtain ⟨hmono, hconfig⟩ := ih (visit s v)
    obtain heq | ⟨-, -, heq⟩ := maybeTrigger_cases s v.1 v.2.2 v.2.1
    · rw [visit, heq] at hmono hconfig
      exact ⟨by rwa [List.foldl_cons, visit, heq], by rwa [List.foldl_cons, visit, heq]⟩
    · rw [List.foldl_cons]
      refine ⟨Finset.Subset.trans ?_ hmono, hconfig.trans ?_⟩ <;> rw [visit, heq]
      exact Finset.subset_insert _ _

/-- A score that a sweep goes through is acted on, or every place is taken. -/
theorem visits_critical {vs : List (ι × DriftType × ℚ)} {v : ι × DriftType × ℚ} (hv : v ∈ vs)
    (hcritical : (s.config.thresholdsOf v.2.1).critical ≤ v.2.2) :
    s.config.maxConcurrentNormalizations ≤ (vs.foldl visit s).pendingNormalizations.card ∨
      v.1 ∈ (vs.foldl visit s).pendingNormalizations := by
  induction vs generalizing s with
  | nil => cases hv
  | cons w vs ih =>
    obtain ⟨-, hconfig⟩ := visits_mono [w] s
    obtain ⟨hmono, -⟩ := visits_mono vs (visit s w)
    rw [List.foldl_cons]
    rcases List.mem_cons.mp hv with rfl | hv
    · by_cases hpending : v.1 ∈ s.pendingNormalizations
      · obtain ⟨hvisit, -⟩ := visits_mono [v] s
        exact .inr (hmono (hvisit hpending))
      · by_cases hroom : s.pendingNormalizations.card < s.config.maxConcurrentNormalizations
        · refine .inr (hmono ?_)
          rw [visit, maybeTriggerNormalization, if_pos ⟨hcritical, hpending⟩, triggerNormalization,
            if_pos hroom]
          exact Finset.mem_insert_self _ _
        · obtain ⟨hall, -⟩ := visits_mono (v :: vs) s
          exact .inl ((not_lt.mp hroom).trans (Finset.card_le_card hall))
    · have hih := ih hv (s := visit s w) (by rwa [show (visit s w).config = s.config from hconfig])
      rwa [show (visit s w).config = s.config from hconfig] at hih

/-- After a sweep as many tasks are in flight as may be, or one for each entity with a critical score. -/
theorem sweep_complete (h : Run step Faithful (init config : System ι) s)
    (henum : Enumerates s entities) (metrics : Option (List (String × Option ℚ))) :
    (performSweep s entities metrics).inFlight.length = config.maxConcurrentNormalizations ∨
      ∀ e k score, s.entityDrift e k = some score → (config.thresholdsOf k).critical ≤ score →
        e ∈ (performSweep s entities metrics).inFlight := by
  have hexact := exact_run h
  have hsweep : Exact config (performSweep s entities metrics) := hexact.sweep
  obtain ⟨scores, heq⟩ := exists_performSweep s entities metrics
  rw [← hsweep.card_eq]
  by_cases hfull : config.maxConcurrentNormalizations ≤
      (performSweep s entities metrics).pendingNormalizations.card
  · exact .inl (hsweep.card_le.antisymm hfull)
  · refine .inr fun e k score hscore hcritical => ?_
    obtain ⟨drifts, hentity, hdrift⟩ := (henum e k score).mp hscore
    have hv : (e, k, score) ∈ visits entities :=
      List.mem_flatMap.mpr ⟨(e, drifts), hentity, List.mem_map.mpr ⟨(k, score), hdrift, rfl⟩⟩
    refine (hsweep.mem_pending e).mp ?_
    rw [← hexact.config_eq] at hcritical hfull
    rw [heq] at hfull ⊢
    exact (visits_critical hv hcritical).resolve_left hfull

theorem sweep_complete_deferred :
    3 ∉ deferred.inFlight ∧
      3 ∈ (performSweep deferred [(3, [(.quality, 9 / 10)])] none).inFlight := by
  have hscore : deferred.entityDrift 3 .quality = some (9 / 10) :=
    (deferred_enumerates 3 .quality (9 / 10)).mpr ⟨_, .head _, .head _⟩
  have hroom : (performSweep deferred [(3, [(.quality, 9 / 10)])] none).inFlight.length ≠ 2 := by
    decide +kernel
  exact ⟨by decide +kernel, (sweep_complete deferred_run deferred_enumerates none).resolve_left
    hroom 3 .quality (9 / 10) hscore (by decide +kernel)⟩

end

end NextgenDatabases.Verisim.Drift
