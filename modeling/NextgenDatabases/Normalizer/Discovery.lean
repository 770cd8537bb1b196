import Mathlib.Data.List.AList
import Mathlib.Data.List.Sort
import Mathlib.Data.List.Sublists
import Mathlib.Data.Rat.Defs
import Mathlib.Algebra.Order.Ring.Rat

/-!
# Discovery of functional dependencies

The search of the normalizer for the determinants of every attribute, with its sets of
visited pairs and discovered dependencies, and exactly for which tables it finds the minimal
determinants. Rows are hash tables, absent values and `f` are one value, and the conversion
of ratios to floating point numbers is a parameter.
-/
namespace NextgenDatabases.Normalizer

/-- A hash table from attributes to values; `none` is `f`. -/
abbrev Row (V : Type*) := AList fun _ : String => Option V

/-- `at`, which is `f` for an absent key. -/
def Row.at {V : Type*} (row : Row V) (a : String) : Option V := (row.lookup a).join

structure FunctionalDependency (F : Type*) where
  determinant : List String
  dependent : List String
  confidence : F
  discoveredAt : ℕ
  sampleSize : ℕ
  deriving DecidableEq

structure FdDiscoveryConfig (F : Type*) where
  sampleSize : ℕ
  confidenceThreshold : F
  algorithm : String
  maxLhsSize : ℕ

structure SampleInfo where
  rows : ℕ
  attributes : ℕ
  algorithm : String

structure FdDiscoveryResult (F : Type*) where
  collection : String
  dependencies : List (FunctionalDependency F)
  probableFds : List (FunctionalDependency F)
  dataWarnings : List (FunctionalDependency F)
  discoveryTime : ℕ
  sampleInfo : SampleInfo

structure DfdState (V F : Type*) where
  data : List (Row V)
  attributes : List String
  discovered : List (FunctionalDependency F)
  visited : List (List String × String)

/-! ### Sequences -/

/-- An object that `remove` looks for in a sequence of names. -/
inductive Elt
  | index (i : ℕ)
  | name (s : String)
  deriving DecidableEq

def remove (elt : Elt) (seq : List String) : List String := seq.filter fun s => elt ≠ .name s

/-- The range from `a` to `b`, downwards if `b` is the smaller one. -/
def interval (a b : ℕ) : List ℕ :=
  if a ≤ b then List.range' a (b - a + 1) else (List.range' b (a - b + 1)).reverse

/-- The combinations of `n` elements, in lexicographic order of their positions. -/
def combinations {α : Type*} : List α → ℕ → List (List α)
  | _, 0 => [[]]
  | [], _ + 1 => []
  | x :: xs, n + 1 => (combinations xs n).map (x :: ·) ++ combinations xs (n + 1)

def subsetsOfSize (attrs : List String) (n : ℕ) : List (List String) := combinations attrs n

section discovery

variable {V F : Type*} [BEq V] [LinearOrder F] (toFloat : ℚ → F)

/-! ### One dependency -/

/-- The hash table from values of the left side to values of the right side, and the rows
that contradict it. -/
structure Scan (V : Type*) where
  lhsToRhs : List (List (Option V) × Option V)
  violations : ℕ

def scanRow (lhs : List String) (rhs : String) (s : Scan V) (row : Row V) : Scan V :=
  let lhsVal := lhs.map row.at
  let rhsVal := row.at rhs
  match (s.lhsToRhs.lookup lhsVal).join with
  | some existing =>
    if some existing == rhsVal then s else { s with violations := s.violations + 1 }
  | none => { s with lhsToRhs := (lhsVal, rhsVal) :: s.lhsToRhs }

def checkFdHolds (data : List (Row V)) (lhs : List String) (rhs : String) : F :=
  let total := data.length
  if total = 0 then toFloat 1
  else
    let violations := (data.foldl (scanRow lhs rhs) ⟨[], 0⟩).violations
    toFloat (((total : ℚ) - violations) / total)

/-- The positions, and not the attributes at them, are removed from the left side. -/
def isMinimalFd (data : List (Row V)) (lhs : List String) (rhs : String) : Bool :=
  decide (lhs.length ≤ 1) ||
    !((List.range (lhs.length - 1)).any fun i =>
      decide (toFloat 0.99 ≤ checkFdHolds toFloat data (remove (.index i) lhs) rhs))

/-! ### The search -/

def initDfdState (data : List (Row V)) : Option (DfdState V F) :=
  data.head?.map fun first =>
    { data := data
      attributes := first.keys.insertionSort (· ≤ ·)
      discovered := []
      visited := [] }

def visit (rhs : String) (config : FdDiscoveryConfig F) (state : DfdState V F)
    (lhs : List String) : DfdState V F :=
  if (lhs, rhs) ∈ state.visited then state
  else
    let visited := (lhs, rhs) :: state.visited
    let conf := checkFdHolds toFloat state.data lhs rhs
    if config.confidenceThreshold ≤ conf ∧ isMinimalFd toFloat state.data lhs rhs = true then
      { state with
        visited := visited
        discovered := state.discovered ++
          [{ determinant := lhs
             dependent := [rhs]
             confidence := conf
             discoveredAt := 0
             sampleSize := state.data.length }] }
    else { state with visited := visited }

def discoverFdsForRhs (config : FdDiscoveryConfig F) (state : DfdState V F) (rhs : String) :
    DfdState V F :=
  let candidates := remove (.name rhs) state.attributes
  (interval 1 config.maxLhsSize).foldl
    (fun state size => (subsetsOfSize candidates size).foldl (visit toFloat rhs config) state)
    state

def search (data : List (Row V)) (config : FdDiscoveryConfig F) : Option (DfdState V F) :=
  (initDfdState data).map fun state =>
    state.attributes.foldl (discoverFdsForRhs toFloat config) state

/-- The sample info is read as meant: the literal of the source has `data` and `state` with the words
after them in place of the lengths. Nothing reads it. -/
def runDfd (data : List (Row V)) (config : FdDiscoveryConfig F) : Option (FdDiscoveryResult F) :=
  (search toFloat data config).map fun state =>
    let allFds := state.discovered
    { collection := "unknown"
      dependencies := allFds.filter fun fd => toFloat 0.99 ≤ fd.confidence
      probableFds := allFds.filter fun fd =>
        toFloat 0.95 ≤ fd.confidence ∧ fd.confidence < toFloat 0.99
      dataWarnings := allFds.filter fun fd => fd.confidence < toFloat 0.95
      discoveryTime := 0
      sampleInfo :=
        { rows := data.length
          attributes := state.attributes.length
          algorithm := "dfd" } }

/-! ### What is enumerated -/

theorem mem_combinations {α : Type*} {l s : List α} {n : ℕ} :
    s ∈ combinations l n ↔ s.Sublist l ∧ s.length = n := by
  induction l generalizing s n with
  | nil =>
    cases n with
    | zero => simp [combinations, List.sublist_nil]
    | succ n =>
      simp only [combinations, List.not_mem_nil, List.sublist_nil, false_iff, not_and]
      rintro rfl
      simp
  | cons x xs ih =>
    cases n with
    | zero =>
      simp only [combinations, List.mem_singleton, List.length_eq_zero_iff]
      constructor
      · rintro rfl
        exact ⟨List.nil_sublist _, rfl⟩
      · exact And.right
    | succ n =>
      simp only [combinations, List.mem_append, List.mem_map, ih, List.sublist_cons_iff]
      constructor
      · rintro (⟨t, ⟨hsub, hlen⟩, rfl⟩ | ⟨hsub, hlen⟩)
        · exact ⟨.inr ⟨t, rfl, hsub⟩, by simp [hlen]⟩
        · exact ⟨.inl hsub, hlen⟩
      · rintro ⟨hsub | ⟨t, rfl, hsub⟩, hlen⟩
        · exact .inr ⟨hsub, hlen⟩
        · exact .inl ⟨t, ⟨hsub, by simpa using hlen⟩, rfl⟩

theorem mem_interval_one {n size : ℕ} :
    size ∈ interval 1 n ↔ 1 ≤ size ∧ size ≤ n ∨ n = 0 ∧ size ≤ 1 := by
  unfold interval
  split_ifs with h
  · rw [List.mem_range'_1]
    omega
  · rw [List.mem_reverse, List.mem_range'_1]
    omega

@[simp] theorem remove_index (i : ℕ) (seq : List String) : remove (.index i) seq = seq := by
  simp [remove]

theorem sublist_remove_name {attrs s : List String} {a : String} :
    s.Sublist (remove (.name a) attrs) ↔ s.Sublist attrs ∧ a ∉ s := by
  unfold remove
  constructor
  · intro h
    refine ⟨h.trans List.filter_sublist, fun hmem => ?_⟩
    have hne := (List.mem_filter.mp (h.subset hmem)).2
    simp at hne
  · rintro ⟨hsub, hnot⟩
    have hself : s.filter (fun b => decide (Elt.name a ≠ .name b)) = s := by
      rw [List.filter_eq_self]
      intro b hb
      simp only [ne_eq, Elt.name.injEq, decide_not, Bool.not_eq_true', decide_eq_false_iff_not]
      rintro rfl
      exact hnot hb
    rw [← hself]
    exact hsub.filter _

/-! ### What is reported -/

variable {toFloat} {data : List (Row V)} {config : FdDiscoveryConfig F} {attrs X : List String}
  {A : String} {state : DfdState V F}

/-- The attributes determine the other one with a confidence of 0.99. -/
def Determines (toFloat : ℚ → F) (data : List (Row V)) (X : List String) (A : String) : Prop :=
  toFloat 0.99 ≤ checkFdHolds toFloat data X A

/-- Two or more attributes are minimal for the code if they do not determine the other one. -/
theorem isMinimalFd_iff :
    isMinimalFd toFloat data X A = true ↔ X.length ≤ 1 ∨ ¬ Determines toFloat data X A := by
  rw [isMinimalFd, Bool.or_eq_true, decide_eq_true_iff, Bool.not_eq_true', ← Bool.not_eq_true,
    List.any_eq_true]
  simp only [remove_index, decide_eq_true_iff, Determines]
  by_cases hlen : X.length ≤ 1
  · simp [hlen]
  · have hzero : 0 ∈ List.range (X.length - 1) := List.mem_range.mpr (by omega)
    simp only [hlen, false_or]
    exact not_congr ⟨fun ⟨_, _, h⟩ => h, fun h => ⟨0, hzero, h⟩⟩

/-- The record of a dependency. -/
def report (toFloat : ℚ → F) (data : List (Row V)) (p : List String × String) :
    FunctionalDependency F where
  determinant := p.1
  dependent := [p.2]
  confidence := checkFdHolds toFloat data p.1 p.2
  discoveredAt := 0
  sampleSize := data.length

def Reports (toFloat : ℚ → F) (data : List (Row V)) (config : FdDiscoveryConfig F)
    (p : List String × String) : Prop :=
  config.confidenceThreshold ≤ checkFdHolds toFloat data p.1 p.2 ∧
    isMinimalFd toFloat data p.1 p.2 = true

omit [LinearOrder F] in
theorem report_injective : Function.Injective (report toFloat data) := by
  rintro ⟨X, A⟩ ⟨Y, B⟩ h
  simp only [report, FunctionalDependency.mk.injEq, List.cons.injEq, and_true] at h
  rw [h.1, h.2.1]

/-- What is discovered are the reported ones of the visited pairs. -/
structure Explored (toFloat : ℚ → F) (data : List (Row V)) (attrs : List String)
    (config : FdDiscoveryConfig F) (state : DfdState V F) : Prop where
  same_data : state.data = data
  same_attributes : state.attributes = attrs
  mem_discovered : ∀ fd, fd ∈ state.discovered ↔
    ∃ p ∈ state.visited, Reports toFloat data config p ∧ report toFloat data p = fd
  nodup : state.discovered.Nodup

theorem visited_visit {rhs : String} {lhs : List String} (p : List String × String) :
    p ∈ (visit toFloat rhs config state lhs).visited ↔ p = (lhs, rhs) ∨ p ∈ state.visited := by
  unfold visit
  dsimp only
  split_ifs with hvisited
  · exact ⟨.inr, fun h => h.elim (fun heq => heq ▸ hvisited) id⟩
  all_goals exact List.mem_cons

theorem Explored.visit (h : Explored toFloat data attrs config state) (rhs : String)
    (lhs : List String) : Explored toFloat data attrs config (visit toFloat rhs config state lhs) := by
  obtain rfl := h.same_data
  have hmem := h.mem_discovered
  unfold Normalizer.visit
  dsimp only
  split_ifs with hvisited hreport
  · exact h
  · change Explored toFloat state.data attrs config { state with
      visited := (lhs, rhs) :: state.visited
      discovered := state.discovered ++ [report toFloat state.data (lhs, rhs)] }
    have hnew : report toFloat state.data (lhs, rhs) ∉ state.discovered := by
      intro hold
      obtain ⟨p, hp, -, heq⟩ := (hmem _).mp hold
      exact hvisited (report_injective heq ▸ hp)
    refine ⟨rfl, h.same_attributes, fun fd => ?_, ?_⟩
    · simp only [List.mem_append, List.mem_cons, List.not_mem_nil, or_false, hmem]
      constructor
      · rintro (⟨p, hp, hfd⟩ | rfl)
        · exact ⟨p, .inr hp, hfd⟩
        · exact ⟨(lhs, rhs), .inl rfl, hreport, rfl⟩
      · rintro ⟨p, rfl | hp, hreported, rfl⟩
        · exact .inr rfl
        · exact .inl ⟨p, hp, hreported, rfl⟩
    · rw [List.nodup_append]
      refine ⟨h.nodup, List.nodup_singleton _, fun fd hfd fd' hfd' heq => ?_⟩
      rw [List.mem_singleton.mp hfd'] at heq
      exact hnew (heq ▸ hfd)
  · refine ⟨rfl, h.same_attributes, fun fd => ?_, h.nodup⟩
    simp only [List.mem_cons, hmem]
    constructor
    · rintro ⟨p, hp, hfd⟩
      exact ⟨p, .inr hp, hfd⟩
    · rintro ⟨p, rfl | hp, hreported, rfl⟩
      · exact absurd hreported hreport
      · exact ⟨p, hp, hreported, rfl⟩

/-- The invariant and the visited pairs of a fold over steps that visit given pairs. -/
theorem Explored.foldl {β : Type} {step : DfdState V F → β → DfdState V F}
    {pairs : β → List String × String → Prop}
    (hstep : ∀ state b, Explored toFloat data attrs config state →
      Explored toFloat data attrs config (step state b) ∧
        ∀ p, p ∈ (step state b).visited ↔ pairs b p ∨ p ∈ state.visited)
    (l : List β) (h : Explored toFloat data attrs config state) :
    Explored toFloat data attrs config (l.foldl step state) ∧
      ∀ p, p ∈ (l.foldl step state).visited ↔ (∃ b ∈ l, pairs b p) ∨ p ∈ state.visited := by
  induction l generalizing state with
  | nil => exact ⟨h, fun p => by simp⟩
  | cons b l ih =>
    obtain ⟨hnext, hvisited⟩ := hstep state b h
    obtain ⟨hlast, hall⟩ := ih hnext
    refine ⟨hlast, fun p => ?_⟩
    rw [List.foldl_cons, hall, hvisited]
    simp only [List.mem_cons, exists_eq_or_imp]
    rw [or_left_comm, or_assoc]

theorem Explored.discover (h : Explored toFloat data attrs config state) (rhs : String) :
    Explored toFloat data attrs config (discoverFdsForRhs toFloat config state rhs) ∧
      ∀ p, p ∈ (discoverFdsForRhs toFloat config state rhs).visited ↔
        (∃ size ∈ interval 1 config.maxLhsSize, ∃ lhs ∈ subsetsOfSize (remove (.name rhs) attrs) size,
          p = (lhs, rhs)) ∨ p ∈ state.visited := by
  unfold discoverFdsForRhs
  rw [h.same_attributes]
  refine Explored.foldl (fun state size h => ?_) _ h
  exact Explored.foldl (fun state lhs h => ⟨h.visit rhs lhs, visited_visit⟩) _ h

/-- The pairs that the search looks at. -/
def Candidate (attrs : List String) (config : FdDiscoveryConfig F) (X : List String)
    (A : String) : Prop :=
  X.Sublist attrs ∧ A ∈ attrs ∧ A ∉ X ∧ X.length ∈ interval 1 config.maxLhsSize

/-- The names of the attributes, in order. -/
def attributesOf (data : List (Row V)) : List String :=
  (data.head?.map fun first => first.keys.insertionSort (· ≤ ·)).getD []

/-- The search reports each candidate that passes its tests, once. -/
theorem search_spec (hdata : data ≠ []) : ∃ state, search toFloat data config = some state ∧
    state.discovered.Nodup ∧ ∀ fd, fd ∈ state.discovered ↔
      ∃ X A, Candidate (attributesOf data) config X A ∧ Reports toFloat data config (X, A) ∧
        report toFloat data (X, A) = fd := by
  obtain ⟨first, rest, rfl⟩ := List.exists_cons_of_ne_nil hdata
  let start : DfdState V F :=
    { data := first :: rest
      attributes := attributesOf (first :: rest)
      discovered := []
      visited := [] }
  have hstart : Explored toFloat (first :: rest) (attributesOf (first :: rest)) config start :=
    ⟨rfl, rfl, by simp [start], List.nodup_nil⟩
  obtain ⟨hend, hvisited⟩ := Explored.foldl (fun state rhs h => h.discover rhs)
    (attributesOf (first :: rest)) hstart
  generalize hfinal : start.attributes.foldl (discoverFdsForRhs toFloat config) start = final
    at hend hvisited
  refine ⟨final, congrArg some hfinal, hend.nodup, fun fd => (hend.mem_discovered fd).trans ?_⟩
  have hpair (p : List String × String) : p ∈ final.visited ↔
      Candidate (attributesOf (first :: rest)) config p.1 p.2 := by
    rw [hvisited p]
    simp only [start, List.not_mem_nil, or_false, subsetsOfSize, mem_combinations, sublist_remove_name,
      Candidate]
    constructor
    · rintro ⟨rhs, hrhs, size, hsize, lhs, ⟨⟨hsub, hnot⟩, rfl⟩, rfl⟩
      exact ⟨hsub, hrhs, hnot, hsize⟩
    · rintro ⟨hsub, hrhs, hnot, hsize⟩
      exact ⟨p.2, hrhs, _, hsize, p.1, ⟨⟨hsub, hnot⟩, rfl⟩, rfl⟩
  constructor
  · rintro ⟨⟨X, A⟩, hp, hfd⟩
    exact ⟨X, A, (hpair _).mp hp, hfd⟩
  · rintro ⟨X, A, hcandidate, hfd⟩
    exact ⟨(X, A), (hpair (X, A)).mpr hcandidate, hfd⟩

/-! ### The minimal determinants -/

/-- The set is a minimal determinant of the attribute. -/
structure MinimalFd (toFloat : ℚ → F) (data : List (Row V)) (maxLhsSize : ℕ) (X : List String)
    (A : String) : Prop where
  sublist : X.Sublist (attributesOf data)
  dependent : A ∈ attributesOf data
  apart : A ∉ X
  nonempty : 1 ≤ X.length
  bounded : X.length ≤ maxLhsSize
  determines : Determines toFloat data X A
  minimal : ∀ X', X'.Sublist X → X' ≠ [] → X' ≠ X → ¬ Determines toFloat data X' A

/-- The dependencies of the result are the minimal determinants, each listed once. -/
def ListsMinimal (toFloat : ℚ → F) (data : List (Row V)) (config : FdDiscoveryConfig F) : Prop :=
  ∃ result, runDfd toFloat data config = some result ∧
    (result.dependencies.map fun fd => (fd.determinant, fd.dependent)).Nodup ∧
    ∀ X A, (X, [A]) ∈ result.dependencies.map (fun fd => (fd.determinant, fd.dependent)) ↔
      MinimalFd toFloat data config.maxLhsSize X A

/-- Whatever several attributes determine, one of them determines already. -/
structure SingleSuffice (toFloat : ℚ → F) (data : List (Row V)) (maxLhsSize : ℕ) : Prop where
  single : ∀ X A, X.Sublist (attributesOf data) → A ∈ attributesOf data → A ∉ X →
    2 ≤ X.length → X.length ≤ maxLhsSize → Determines toFloat data X A →
    ∃ x ∈ X, Determines toFloat data [x] A
  /-- No size is asked for, but the range runs down from one. -/
  none : maxLhsSize = 0 → ∀ X A, X.Sublist (attributesOf data) → A ∈ attributesOf data →
    A ∉ X → X.length ≤ 1 → ¬ Determines toFloat data X A

/-- A set that determines the attribute has a minimal part that does. -/
theorem exists_minimalFd {n : ℕ} (hsub : X.Sublist (attributesOf data))
    (hdependent : A ∈ attributesOf data) (hapart : A ∉ X) (hnonempty : 1 ≤ X.length)
    (hbounded : X.length ≤ n) (h : Determines toFloat data X A) :
    ∃ X', X'.Sublist X ∧ MinimalFd toFloat data n X' A := by
  induction hlen : X.length using Nat.strong_induction_on generalizing X with
  | _ k ih =>
    by_cases hmin : ∀ X', X'.Sublist X → X' ≠ [] → X' ≠ X → ¬ Determines toFloat data X' A
    · exact ⟨X, .refl X, hsub, hdependent, hapart, hnonempty, hbounded, h, hmin⟩
    · push Not at hmin
      obtain ⟨X', hsub', hne, hproper, h'⟩ := hmin
      have hlt : X'.length < k := by
        rw [← hlen]
        exact lt_of_le_of_ne hsub'.length_le fun heq => hproper (hsub'.eq_of_length heq)
      obtain ⟨Y, hY, hminimal⟩ := ih _ hlt (hsub'.trans hsub) (fun hmem => hapart (hsub'.subset hmem))
        (List.length_pos_iff.mpr hne) (by omega) h' rfl
      exact ⟨Y, hY.trans hsub', hminimal⟩

/-- The dependencies of the code are the candidates of at most one attribute that determine. -/
theorem mem_dependencies {result : FdDiscoveryResult F}
    (hthreshold : config.confidenceThreshold ≤ toFloat 0.99) (hdata : data ≠ [])
    (hrun : runDfd toFloat data config = some result) (X : List String) (A : String) :
    (X, [A]) ∈ result.dependencies.map (fun fd => (fd.determinant, fd.dependent)) ↔
      Candidate (attributesOf data) config X A ∧ X.length ≤ 1 ∧ Determines toFloat data X A := by
  obtain ⟨state, hsearch, -, hmem⟩ := @search_spec _ _ _ _ toFloat _ config hdata
  rw [runDfd, hsearch] at hrun
  cases hrun
  simp only [List.mem_map, List.mem_filter, decide_eq_true_iff, hmem]
  constructor
  · rintro ⟨fd, ⟨⟨X', A', hcandidate, hreports, rfl⟩, hexact⟩, heq⟩
    simp only [report, Prod.mk.injEq, List.cons.injEq, and_true] at heq hexact
    obtain ⟨rfl, rfl⟩ := heq
    exact ⟨hcandidate, (isMinimalFd_iff.mp hreports.2).resolve_right (not_not.mpr hexact), hexact⟩
  · rintro ⟨hcandidate, hlen, hexact⟩
    exact ⟨_, ⟨⟨X, A, hcandidate, ⟨hthreshold.trans hexact, isMinimalFd_iff.mpr (.inl hlen)⟩, rfl⟩,
      hexact⟩, rfl⟩

/-- The dependencies are the minimal determinants, exactly where single attributes suffice. -/
theorem lists_minimal_iff (hdata : data ≠ [])
    (hthreshold : config.confidenceThreshold ≤ toFloat 0.99) :
    ListsMinimal toFloat data config ↔ SingleSuffice toFloat data config.maxLhsSize := by
  obtain ⟨state, hsearch, hnodup, hmem⟩ := @search_spec _ _ _ _ toFloat _ config hdata
  obtain ⟨result, hrun⟩ : ∃ result, runDfd toFloat data config = some result := by
    rw [runDfd, hsearch]
    exact ⟨_, rfl⟩
  have hdependencies := mem_dependencies hthreshold hdata hrun
  constructor
  · rintro ⟨result', hrun', -, hlists⟩
    obtain rfl := Option.some.inj (hrun.symm.trans hrun')
    constructor
    · intro X A hsub hdependent hapart htwo hbounded h
      obtain ⟨Y, hY, hminimal⟩ := exists_minimalFd hsub hdependent hapart (by omega) hbounded h
      obtain ⟨-, hone, hdetermines⟩ := (hdependencies Y A).mp ((hlists Y A).mpr hminimal)
      obtain ⟨y, rfl⟩ := List.length_eq_one_iff.mp (le_antisymm hone hminimal.nonempty)
      exact ⟨y, hY.subset (List.mem_singleton_self y), hdetermines⟩
    · intro hzero X A hsub hdependent hapart hone h
      have hcandidate : Candidate (attributesOf data) config X A :=
        ⟨hsub, hdependent, hapart, mem_interval_one.mpr (.inr ⟨hzero, hone⟩)⟩
      have hminimal := (hlists X A).mp ((hdependencies X A).mpr ⟨hcandidate, hone, h⟩)
      have hnonempty := hminimal.nonempty
      have hbounded := hminimal.bounded
      omega
  · intro h
    refine ⟨result, hrun, ?_, fun X A => (hdependencies X A).trans ⟨?_, ?_⟩⟩
    · rw [runDfd, hsearch] at hrun
      cases hrun
      refine (hnodup.filter _).map_on fun fd hfd fd' hfd' heq => ?_
      obtain ⟨X, A, -, -, rfl⟩ := (hmem fd).mp (List.mem_filter.mp hfd).1
      obtain ⟨X', A', -, -, rfl⟩ := (hmem fd').mp (List.mem_filter.mp hfd').1
      simp only [report, Prod.mk.injEq, List.cons.injEq, and_true] at heq
      rw [heq.1, heq.2]
    · rintro ⟨⟨hsub, hdependent, hapart, hsize⟩, hone, hdetermines⟩
      rcases mem_interval_one.mp hsize with ⟨hnonempty, hbounded⟩ | ⟨hzero, -⟩
      · refine ⟨hsub, hdependent, hapart, hnonempty, hbounded, hdetermines, ?_⟩
        intro X' hsub' hne hproper
        have hlt : X'.length < X.length :=
          lt_of_le_of_ne hsub'.length_le fun heq => hproper (hsub'.eq_of_length heq)
        have hpos := List.length_pos_iff.mpr hne
        omega
      · exact absurd hdetermines (h.none hzero X A hsub hdependent hapart hone)
    · intro hminimal
      have hone : X.length ≤ 1 := by
        by_contra hmany
        obtain ⟨x, hx, hdetermines⟩ := h.single X A hminimal.sublist hminimal.dependent
          hminimal.apart (by omega) hminimal.bounded hminimal.determines
        refine hminimal.minimal [x] (List.singleton_sublist.mpr hx) (List.cons_ne_nil _ _) ?_
          hdetermines
        rintro rfl
        exact hmany le_rfl
      have hsize : X.length ∈ interval 1 config.maxLhsSize :=
        mem_interval_one.mpr (.inl ⟨hminimal.nonempty, hminimal.bounded⟩)
      exact ⟨⟨hminimal.sublist, hminimal.dependent, hminimal.apart, hsize⟩, hone,
        hminimal.determines⟩

end discovery

/-! ### Two tables -/

def defaultFdConfig : FdDiscoveryConfig ℚ where
  sampleSize := 10000
  confidenceThreshold := 0.95
  algorithm := "dfd"
  maxLhsSize := 5

def Row.of (columns : List (String × ℕ)) : Row ℕ :=
  (columns.map fun column => ⟨column.1, some column.2⟩).toAList

instance (data : List (Row ℕ)) (X : List String) (A : String) :
    Decidable (Determines id data X A) :=
  inferInstanceAs (Decidable ((0.99 : ℚ) ≤ _))

/-- Two columns with the same values, and a third one that they determine. -/
def mirrored : List (Row ℕ) :=
  [.of [("a", 0), ("b", 0), ("c", 0)], .of [("a", 1), ("b", 1), ("c", 1)],
    .of [("a", 2), ("b", 2), ("c", 1)]]

theorem attributesOf_mirrored : attributesOf mirrored = ["a", "b", "c"] := by decide +kernel

theorem lists_minimal_mirrored :
    Determines id mirrored ["a", "b"] "c" ∧ ListsMinimal id mirrored defaultFdConfig := by
  refine ⟨by decide +kernel, (lists_minimal_iff (by decide) (by decide +kernel)).mpr ⟨?_, ?_⟩⟩
  · intro X A hsub hdependent hapart htwo _ _
    rw [attributesOf_mirrored] at hsub hdependent
    have hA : A = "a" ∨ A = "b" ∨ A = "c" := by simpa using hdependent
    by_cases ha : "a" ∈ X
    · refine ⟨"a", ha, ?_⟩
      rcases hA with rfl | rfl | rfl
      · exact absurd ha hapart
      · decide +kernel
      · decide +kernel
    · have hrest : X.Sublist ["b", "c"] := by
        cases hsub with
        | cons _ h => exact h
        | cons_cons => simp at ha
      obtain rfl := hrest.eq_of_length_le htwo
      refine ⟨"b", List.mem_cons_self .., ?_⟩
      rcases hA with rfl | rfl | rfl
      · decide +kernel
      · simp at hapart
      · simp at hapart
  · intro hzero
    cases hzero

/-- The third column is the sum of the other two, modulo two. -/
def parity : List (Row ℕ) :=
  [.of [("a", 0), ("b", 0), ("c", 0)], .of [("a", 0), ("b", 1), ("c", 1)],
    .of [("a", 1), ("b", 0), ("c", 1)], .of [("a", 1), ("b", 1), ("c", 0)]]

theorem attributesOf_parity : attributesOf parity = ["a", "b", "c"] := by decide +kernel

/-- Two columns together determine the third one, and the code does not list them. -/
theorem minimal_not_listed :
    MinimalFd id parity defaultFdConfig.maxLhsSize ["a", "b"] "c" ∧
      ¬ ListsMinimal id parity defaultFdConfig := by
  have hminimal : MinimalFd id parity defaultFdConfig.maxLhsSize ["a", "b"] "c" := by
    refine ⟨?_, ?_, by decide, by decide, by decide, by decide +kernel, ?_⟩
    · rw [attributesOf_parity]
      decide
    · rw [attributesOf_parity]
      decide
    · intro X hsub hne hproper
      have hmem : X ∈ [[], ["a"], ["b"], ["a", "b"]] := List.mem_sublists.mpr hsub
      simp only [List.mem_cons, List.not_mem_nil, or_false] at hmem
      rcases hmem with rfl | rfl | rfl | rfl
      · exact absurd rfl hne
      · decide +kernel
      · decide +kernel
      · exact absurd rfl hproper
  refine ⟨hminimal, ?_⟩
  rintro ⟨result, hrun, -, hlists⟩
  have hlisted := (hlists ["a", "b"] "c").mpr hminimal
  have hone := ((mem_dependencies (by decide +kernel) (by decide) hrun _ _).mp hlisted).2.1
  simp at hone

end NextgenDatabases.Normalizer
