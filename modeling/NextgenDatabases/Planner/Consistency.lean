import NextgenDatabases.Planner.Prepared

/-!
# Consistency of the plan cache

The two maps of the cache stay paired as long as statements do not expire in the middle of a call.
-/
namespace NextgenDatabases.Planner

open Foundations

/-- The fingerprints are those of the statements, and there are not too many. -/
structure Consistent {P : Type} (config : CacheConfig) (lib : Lib) (cache : PlanCache P) : Prop where
  paired : ∀ fp id, cache.fingerprints.get fp = some id ↔
    ∃ stmt, cache.statements.get id = some stmt ∧ fingerprint lib stmt.originalQuery = fp
  bounded : cache.statements.entries.length ≤ config.maxEntries

/-- The id is accepted now. -/
structure Accepted (V : Type) {P : Type} (config : CacheConfig) (s : State P) (id : PreparedId) :
    Prop where
  get : ∃ stmt, s.cache.get config s.clock id = some (some stmt)
  execute : ∀ params : SortedMap Str V,
    (∀ stmt, s.cache.statements.get id = some stmt → PlanCache.Matching stmt params) →
      ∃ stmt cache, s.cache.executePrepared config s.clock id params = some (.ok stmt, cache)

section Runs

variable {P V : Type} (config : CacheConfig) (lib : Lib)

/-- The id that prepare returns after this section. -/
def returned (s : State P) : Event P V → Option PreparedId
  | .refreshPrepared call =>
    match s.calls call with
    | some (.found query) => some (fingerprint lib query)
    | _ => none
  | .insertPrepared call _ =>
    match s.calls call with
    | some (.stamped query _ _) => some (fingerprint lib query)
    | _ => none
  | _ => none

/-- Nothing is executed after it expired, prepare finds what it refreshes still there and not
expired, and inserts before what it inserts expires. -/
def InTime (s : State P) : Event P V → Prop
  | .executePrepared id _ => ∀ stmt, s.cache.statements.get id = some stmt →
      PlanCache.isExpired config s.clock stmt ≠ some true
  | .refreshPrepared call => ∀ query, s.calls call = some (.found query) →
      ∃ stmt, s.cache.statements.get (fingerprint lib query) = some stmt ∧
        PlanCache.isExpired config s.clock stmt = some false
  | .insertPrepared call _ => ∀ query plan now, s.calls call = some (.stamped query plan now) →
      ∃ ttl, config.ttl = some ttl ∧ s.clock - now ≤ ttl
  | _ => True

/-- A run, each event with the state after it. -/
def IsRun (s : State P) : List (Event P V × State P) → Prop
  | [] => True
  | (e, s') :: run => Step config lib s e s' ∧ IsRun s' run

/-- The cache is consistent at every point of the run, and accepts the ids that prepare returns. -/
def StaysConsistent (s : State P) : List (Event P V × State P) → Prop
  | [] => True
  | (e, s') :: run => (Consistent config lib s'.cache ∧
      ∀ id, returned lib s e = some id → Accepted V config s' id) ∧ StaysConsistent s' run

def AllInTime (s : State P) : List (Event P V × State P) → Prop
  | [] => True
  | (e, s') :: run => InTime config lib s e ∧ AllInTime s' run

def stateAfter (s : State P) : List (Event P V × State P) → State P
  | [] => s
  | (_, s') :: run => stateAfter s' run

end Runs

/-! ### Statements under their fingerprints -/

section Invariants

variable {P V : Type} {config : CacheConfig} {lib : Lib}

/-- Each statement is under the fingerprint of its query. -/
def Keyed (lib : Lib) (cache : PlanCache P) : Prop :=
  ∀ id stmt, cache.statements.get id = some stmt → fingerprint lib stmt.originalQuery = id

/-- Each fingerprint is that of a statement. -/
def Paired (cache : PlanCache P) : Prop :=
  ∀ fp id, cache.fingerprints.get fp = some id ↔ fp = id ∧ (cache.statements.get id).isSome

namespace Keyed

variable {cache : PlanCache P}

theorem empty : Keyed lib (PlanCache.new : PlanCache P) :=
  fun _ _ h => absurd h (by simp [PlanCache.new, SortedMap.get_empty])

theorem insert (h : Keyed lib cache) {id : PreparedId} {stmt : PreparedStatement P}
    (hstmt : fingerprint lib stmt.originalQuery = id) (fps : SortedMap Str PreparedId) :
    Keyed lib ⟨cache.statements.insert id stmt, fps⟩ := by
  intro id' stmt' hget
  simp only [SortedMap.get_insert] at hget
  split_ifs at hget with hid
  · obtain rfl := Option.some.inj hget
    exact hstmt.trans hid.symm
  · exact h id' stmt' hget

theorem insertStatement (h : Keyed lib cache) (query : Str) (plan : LogicalPlan) (now : ℤ)
    (fps : SortedMap Str PreparedId) :
    Keyed lib ⟨cache.statements.insert (fingerprint lib query)
      (PlanCache.statement lib query plan now), fps⟩ := by
  refine h.insert ?_ fps
  rw [PlanCache.statement]

theorem removeStatement (h : Keyed lib cache) (id : PreparedId) (fps : SortedMap Str PreparedId) :
    Keyed lib ⟨cache.statements.remove id, fps⟩ := by
  intro id' stmt' hget
  simp only [SortedMap.get_remove] at hget
  split_ifs at hget
  exact h id' stmt' hget

theorem remove (h : Keyed lib cache) (id : PreparedId) : Keyed lib (cache.remove lib id) := by
  unfold PlanCache.remove
  split
  case h_1 => exact h.removeStatement id _
  case h_2 => exact h

theorem evictLruInner (h : Keyed lib cache) (oldest : PreparedId) :
    Keyed lib (cache.evictLruInner lib oldest) := by
  unfold PlanCache.evictLruInner
  split_ifs
  · exact h
  · exact h.remove oldest

theorem executePrepared (h : Keyed lib cache) {cache' : PlanCache P} {now : ℤ} {id : PreparedId}
    {params : SortedMap Str V} {answer : Except CacheError (PreparedStatement P)}
    (hexecute : cache.executePrepared config now id params = some (answer, cache')) :
    Keyed lib cache' := by
  unfold PlanCache.executePrepared at hexecute
  split at hexecute
  case h_1 =>
    obtain ⟨-, rfl⟩ := Prod.mk.inj (Option.some.inj hexecute)
    exact h
  case h_2 stmt hstmt =>
    obtain ⟨expired, -, hif⟩ := Option.map_eq_some_iff.mp hexecute
    split_ifs at hif
    · obtain ⟨-, rfl⟩ := Prod.mk.inj hif
      exact h.removeStatement id _
    · obtain ⟨-, rfl⟩ := Prod.mk.inj hif
      refine h.insert ?_ _
      exact h id stmt hstmt
    · obtain ⟨-, rfl⟩ := Prod.mk.inj hif
      exact h

theorem evictExpired (h : Keyed lib cache) (now ttl : ℤ) :
    Keyed lib (cache.evictExpired lib now ttl).2 := by
  rw [PlanCache.evictExpired]
  generalize cache.expiredIds now ttl = ids
  induction ids generalizing cache with
  | nil => exact h
  | cons id ids ih => exact ih (h.remove id)

theorem step {s s' : State P} {e : Event P V} (h : Keyed lib s.cache) (hstep : Step config lib s e s') : Keyed lib s'.cache := by
  cases hstep with
  | wait | callPrepare | checkFound | checkMissed | stampPrepared | get | executePanics
  | lookupByQuery | callEvictExpired | callEvictPanics => exact h
  | @refreshPrepared call query hcall =>
    change Keyed lib (s.cache.refresh lib s.clock query)
    unfold PlanCache.refresh
    split
    case h_1 stmt hstmt =>
      refine h.insert ?_ _
      exact h _ stmt hstmt
    case h_2 => exact h
  | @insertPrepared call query plan now oldest hcall holdest =>
    change Keyed lib (s.cache.insert config lib query plan now oldest)
    unfold PlanCache.insert
    split_ifs
    · exact (h.evictLruInner oldest).insertStatement query plan now _
    · exact h.insertStatement query plan now _
  | executePrepared hexecute => exact h.executePrepared hexecute
  | @cachePlan id plan =>
    change Keyed lib (s.cache.cachePlan id plan)
    unfold PlanCache.cachePlan
    split
    case h_1 stmt hstmt =>
      refine h.insert ?_ _
      exact h id stmt hstmt
    case h_2 => exact h
  | invalidate => exact h.remove _
  | invalidateAll => exact empty
  | evictExpired => exact h.evictExpired _ _
  | @evictLru oldest holdest =>
    change Keyed lib (s.cache.evictLru config lib oldest)
    unfold PlanCache.evictLru
    split_ifs
    · exact h
    · exact h.evictLruInner oldest

end Keyed

theorem Keyed.paired_iff {cache : PlanCache P} (h : Keyed lib cache) :
    (∀ fp id, cache.fingerprints.get fp = some id ↔
      ∃ stmt, cache.statements.get id = some stmt ∧ fingerprint lib stmt.originalQuery = fp) ↔
        Paired cache := by
  refine forall₂_congr fun fp id => iff_congr Iff.rfl ?_
  constructor
  · rintro ⟨stmt, hstmt, rfl⟩
    exact ⟨h id stmt hstmt, by rw [hstmt]; rfl⟩
  · rintro ⟨rfl, hsome⟩
    obtain ⟨stmt, hstmt⟩ := Option.isSome_iff_exists.mp hsome
    exact ⟨stmt, hstmt, h fp stmt hstmt⟩

/-- What every section keeps when no statement expires in it. -/
structure Good (config : CacheConfig) (lib : Lib) (cache : PlanCache P) : Prop where
  keyed : Keyed lib cache
  paired : Paired cache
  bounded : cache.statements.entries.length ≤ config.maxEntries

theorem Good.consistent {cache : PlanCache P} (h : Good config lib cache) :
    Consistent config lib cache :=
  ⟨h.keyed.paired_iff.mpr h.paired, h.bounded⟩

namespace Good

variable {cache : PlanCache P}

theorem empty : Good config lib (PlanCache.new : PlanCache P) where
  keyed := .empty
  paired fp id := by simp [PlanCache.new, SortedMap.get_empty]
  bounded := Nat.zero_le _

theorem remove (h : Good config lib cache) (id : PreparedId) :
    Good config lib (cache.remove lib id) := by
  unfold PlanCache.remove
  split
  case h_2 => exact h
  case h_1 stmt hstmt =>
    rw [h.keyed id stmt hstmt]
    constructor
    · exact h.keyed.removeStatement id _
    · intro fp id'
      simp only [SortedMap.get_remove]
      split_ifs with hfp hid hid
      · simp
      · simp only [false_iff, not_and]
        rintro rfl
        exact absurd hfp hid
      · simp only [Option.isSome_none, Bool.false_eq_true, and_false, iff_false]
        intro hget
        exact hfp (((h.paired fp id').mp hget).1.trans hid)
      · exact h.paired fp id'
    · exact SortedMap.length_remove_le.trans h.bounded

theorem length_remove {id : PreparedId} (hid : (cache.statements.get id).isSome) :
    (cache.remove lib id).statements.entries.length + 1 = cache.statements.entries.length := by
  obtain ⟨stmt, hstmt⟩ := Option.isSome_iff_exists.mp hid
  rw [PlanCache.remove, hstmt]
  exact SortedMap.length_remove hid

/-- A statement is replaced by one of the same query. -/
theorem replace (h : Good config lib cache) {id : PreparedId} {stmt stmt' : PreparedStatement P}
    (hstmt : cache.statements.get id = some stmt)
    (hquery : stmt'.originalQuery = stmt.originalQuery) :
    Good config lib { cache with statements := cache.statements.insert id stmt' } where
  keyed := h.keyed.insert (by rw [hquery, h.keyed id stmt hstmt]) _
  paired fp id' := by
    rw [h.paired fp id', SortedMap.get_insert]
    split_ifs with hid
    · rw [hid, hstmt]
      simp
    · rfl
  bounded := by
    rw [SortedMap.length_insert_of_mem (by rw [hstmt]; rfl)]
    exact h.bounded

theorem evictLruInner (h : Good config lib cache) (oldest : PreparedId) :
    Good config lib (cache.evictLruInner lib oldest) := by
  unfold PlanCache.evictLruInner
  split_ifs
  · exact h
  · exact h.remove oldest

theorem refresh (h : Good config lib cache) (now : ℤ) (query : Str) :
    Good config lib (cache.refresh lib now query) := by
  unfold PlanCache.refresh
  split
  case h_1 stmt hstmt => exact h.replace hstmt rfl
  case h_2 => exact h

theorem cachePlan (h : Good config lib cache) (id : PreparedId) (plan : P) :
    Good config lib (cache.cachePlan id plan) := by
  unfold PlanCache.cachePlan
  split
  case h_1 stmt hstmt => exact h.replace hstmt rfl
  case h_2 => exact h

theorem evictExpired (h : Good config lib cache) (now ttl : ℤ) :
    Good config lib (cache.evictExpired lib now ttl).2 := by
  rw [PlanCache.evictExpired]
  generalize cache.expiredIds now ttl = ids
  induction ids generalizing cache with
  | nil => exact h
  | cons id ids ih => exact ih (h.remove id)

theorem evictLru (h : Good config lib cache) (oldest : PreparedId) :
    Good config lib (cache.evictLru config lib oldest) := by
  unfold PlanCache.evictLru
  split_ifs
  · exact h
  · exact h.evictLruInner oldest

/-- After the eviction there is room for a statement. -/
theorem room (h : Good config lib cache) (hmax : 1 ≤ config.maxEntries) {oldest : PreparedId}
    (holdest : cache.IsOldest oldest) (hfull : config.maxEntries ≤ cache.statements.entries.length) :
    (cache.evictLruInner lib oldest).statements.entries.length + 1 ≤ config.maxEntries := by
  have hne : cache.statements.entries ≠ [] := by
    intro hnil
    rw [hnil, List.length_nil] at hfull
    omega
  obtain ⟨stmt, hstmt, -⟩ := holdest hne
  rw [PlanCache.evictLruInner, if_neg hne, length_remove (by rw [hstmt]; rfl)]
  exact h.bounded

theorem insert (h : Good config lib cache) (hmax : 1 ≤ config.maxEntries) (query : Str)
    (plan : LogicalPlan) (now : ℤ) {oldest : PreparedId} (holdest : cache.IsOldest oldest) :
    Good config lib (cache.insert config lib query plan now oldest) := by
  unfold PlanCache.insert
  obtain ⟨cache', hcache', hgood, hroom⟩ : ∃ cache', (if config.maxEntries ≤
      cache.statements.entries.length then cache.evictLruInner lib oldest else cache) = cache' ∧
        Good config lib cache' ∧ cache'.statements.entries.length + 1 ≤ config.maxEntries := by
    split_ifs with hfull
    · exact ⟨_, rfl, h.evictLruInner oldest, h.room hmax holdest hfull⟩
    · exact ⟨_, rfl, h, by omega⟩
  simp only [hcache']
  constructor
  · exact hgood.keyed.insertStatement query plan now _
  · intro fp id
    simp only [SortedMap.get_insert]
    split_ifs with hfp hid hid
    · simp [hfp, hid]
    · simp only [Option.some.injEq]
      constructor
      · rintro rfl
        exact absurd rfl hid
      · rintro ⟨rfl, -⟩
        exact absurd hfp hid
    · simp only [Option.isSome_some, and_true]
      rw [hgood.paired]
      constructor
      · exact fun hand => hand.1
      · rintro rfl
        exact absurd hid hfp
    · exact hgood.paired fp id
  · rw [SortedMap.length_insert]
    have hle := SortedMap.length_remove_le (m := cache'.statements) (k := fingerprint lib query)
    omega

end Good

/-! ### Sections -/

theorem accepted_iff {s : State P} {id : PreparedId} :
    Accepted V config s id ↔ ∃ stmt, s.cache.statements.get id = some stmt ∧
      PlanCache.isExpired config s.clock stmt = some false := by
  constructor
  · rintro ⟨⟨stmt, hget⟩, -⟩
    unfold PlanCache.get at hget
    split at hget
    case h_1 stmt' hstmt' =>
      obtain ⟨expired, hexpired, hif⟩ := Option.map_eq_some_iff.mp hget
      cases expired with
      | true => simp at hif
      | false => exact ⟨stmt', hstmt', hexpired⟩
    case h_2 => simp at hget
  · rintro ⟨stmt, hstmt, hexpired⟩
    constructor
    · exact ⟨stmt, by simp [PlanCache.get, hstmt, hexpired]⟩
    · intro params hmatching
      simp [PlanCache.executePrepared, hstmt, hexpired, hmatching stmt hstmt]

theorem isExpired_eq_false {now : ℤ} {stmt : PreparedStatement P} :
    PlanCache.isExpired config now stmt = some false ↔
      ∃ ttl, config.ttl = some ttl ∧ now - stmt.createdAt ≤ ttl := by
  simp [PlanCache.isExpired]

theorem get_refresh {cache : PlanCache P} {now : ℤ} {query : Str} {stmt : PreparedStatement P} :
    (cache.refresh lib now query).statements.get (fingerprint lib query) = some stmt ↔
      ∃ stmt', cache.statements.get (fingerprint lib query) = some stmt' ∧
        { stmt' with lastUsed := now } = stmt := by
  unfold PlanCache.refresh
  split
  case h_1 stmt' hstmt' => simp [SortedMap.get_insert, hstmt']
  case h_2 hnone => simp [hnone]

theorem get_insert {cache : PlanCache P} {query : Str} {plan : LogicalPlan} {now : ℤ}
    {oldest : PreparedId} :
    (cache.insert config lib query plan now oldest).statements.get (fingerprint lib query) =
      some (PlanCache.statement lib query plan now) := by
  simp [PlanCache.insert, SortedMap.get_insert]

theorem Good.executePrepared {cache cache' : PlanCache P} (h : Good config lib cache) {now : ℤ}
    {id : PreparedId} {params : SortedMap Str V} {answer : Except CacheError (PreparedStatement P)}
    (hexpired : ∀ stmt, cache.statements.get id = some stmt →
      PlanCache.isExpired config now stmt ≠ some true)
    (hexecute : cache.executePrepared config now id params = some (answer, cache')) :
    Good config lib cache' := by
  unfold PlanCache.executePrepared at hexecute
  split at hexecute
  case h_1 =>
    obtain ⟨-, rfl⟩ := Prod.mk.inj (Option.some.inj hexecute)
    exact h
  case h_2 stmt hstmt =>
    obtain ⟨expired, hsome, hif⟩ := Option.map_eq_some_iff.mp hexecute
    split_ifs at hif with htrue hmatching
    · rw [htrue] at hsome
      exact absurd hsome (hexpired stmt hstmt)
    · obtain ⟨-, rfl⟩ := Prod.mk.inj hif
      exact h.replace hstmt rfl
    · obtain ⟨-, rfl⟩ := Prod.mk.inj hif
      exact h

/-- An expired statement that is executed leaves its fingerprint behind. -/
theorem Good.expired_unpaired {cache cache' : PlanCache P} (h : Good config lib cache) {now : ℤ}
    {id : PreparedId} {params : SortedMap Str V} {answer : Except CacheError (PreparedStatement P)}
    (hexecute : cache.executePrepared config now id params = some (answer, cache'))
    (hconsistent : Consistent config lib cache') (stmt : PreparedStatement P)
    (hstmt : cache.statements.get id = some stmt) :
    PlanCache.isExpired config now stmt ≠ some true := by
  intro hexpired
  simp only [PlanCache.executePrepared, hstmt, hexpired, Option.map_some, if_true,
    Option.some.injEq, Prod.mk.injEq] at hexecute
  obtain ⟨-, rfl⟩ := hexecute
  have hfp : cache.fingerprints.get id = some id :=
    (h.paired id id).mpr ⟨rfl, by rw [hstmt]; rfl⟩
  obtain ⟨stmt', hget, -⟩ := (hconsistent.paired id id).mp hfp
  simp [SortedMap.get_remove] at hget

section Steps

variable {s s' : State P} {e : Event P V}

theorem Step.good (h : Good config lib s.cache) (hmax : 1 ≤ config.maxEntries)
    (hstep : Step config lib s e s') (htime : InTime config lib s e) :
    Good config lib s'.cache := by
  cases hstep with
  | wait | callPrepare | checkFound | checkMissed | stampPrepared | get | executePanics
  | lookupByQuery | callEvictExpired | callEvictPanics => exact h
  | refreshPrepared => exact h.refresh _ _
  | insertPrepared _ holdest => exact h.insert hmax _ _ _ holdest
  | executePrepared hexecute => exact h.executePrepared htime hexecute
  | cachePlan => exact h.cachePlan _ _
  | invalidate => exact h.remove _
  | invalidateAll => exact .empty
  | evictExpired => exact h.evictExpired _ _
  | evictLru => exact h.evictLru _

theorem Step.accepted (hstep : Step config lib s e s') (htime : InTime config lib s e)
    {id : PreparedId} (hreturned : returned lib s e = some id) : Accepted V config s' id := by
  cases hstep with
  | refreshPrepared hcall =>
    simp only [returned, hcall, Option.some.injEq] at hreturned
    obtain rfl := hreturned
    obtain ⟨stmt, hstmt, hexpired⟩ := htime _ hcall
    exact accepted_iff.mpr ⟨_, get_refresh.mpr ⟨stmt, hstmt, rfl⟩, hexpired⟩
  | insertPrepared hcall =>
    simp only [returned, hcall, Option.some.injEq] at hreturned
    obtain rfl := hreturned
    exact accepted_iff.mpr ⟨_, get_insert, isExpired_eq_false.mpr (htime _ _ _ hcall)⟩
  | _ => simp [returned] at hreturned

theorem Step.inTime (h : Good config lib s.cache) (hstep : Step config lib s e s')
    (hconsistent : Consistent config lib s'.cache)
    (haccepted : ∀ id, returned lib s e = some id → Accepted V config s' id) :
    InTime config lib s e := by
  cases hstep with
  | @refreshPrepared call query hcall =>
    intro query' hcall'
    have hquery := Pending.found.inj (Option.some.inj (hcall.symm.trans hcall'))
    have hret : returned lib s (.refreshPrepared call : Event P V) = some (fingerprint lib query) := by
      simp only [returned, hcall]
    obtain ⟨stmt, hget, hexpired⟩ := accepted_iff.mp (haccepted _ hret)
    obtain ⟨stmt', hstmt', rfl⟩ := get_refresh.mp hget
    rw [← hquery]
    exact ⟨stmt', hstmt', hexpired⟩
  | @insertPrepared call query plan now oldest hcall =>
    intro query' plan' now' hcall'
    obtain ⟨-, -, hnow⟩ := Pending.stamped.inj (Option.some.inj (hcall.symm.trans hcall'))
    have hret : returned lib s (.insertPrepared call oldest : Event P V) =
        some (fingerprint lib query) := by
      simp only [returned, hcall]
    obtain ⟨stmt, hget, hexpired⟩ := accepted_iff.mp (haccepted _ hret)
    obtain rfl := Option.some.inj (get_insert.symm.trans hget)
    rw [← hnow]
    exact isExpired_eq_false.mp hexpired
  | executePrepared hexecute => exact h.expired_unpaired hexecute hconsistent
  | executePanics hpanics =>
    intro stmt hstmt hexpired
    simp [PlanCache.executePrepared, hstmt, hexpired] at hpanics
  | _ => trivial

end Steps

/-! ### Runs -/

theorem keyed_stateAfter {s : State P} (h : Keyed lib s.cache) {run : List (Event P V × State P)}
    (hrun : IsRun config lib s run) : Keyed lib (stateAfter s run).cache := by
  induction run generalizing s with
  | nil => exact h
  | cons a run ih => exact ih (h.step hrun.1) hrun.2

theorem staysConsistent_iff_of_good {s : State P} (h : Good config lib s.cache)
    (hmax : 1 ≤ config.maxEntries) {run : List (Event P V × State P)}
    (hrun : IsRun config lib s run) :
    StaysConsistent config lib s run ↔ AllInTime config lib s run := by
  induction run generalizing s with
  | nil => exact Iff.rfl
  | cons a run ih =>
    obtain ⟨e, s'⟩ := a
    obtain ⟨hstep, hrest⟩ := hrun
    rw [StaysConsistent, AllInTime]
    constructor
    · rintro ⟨⟨hconsistent, haccepted⟩, hstays⟩
      have htime := hstep.inTime h hconsistent haccepted
      exact ⟨htime, (ih (hstep.good h hmax htime) hrest).mp hstays⟩
    · rintro ⟨htime, hall⟩
      have hgood := hstep.good h hmax htime
      exact ⟨⟨hgood.consistent, fun _ => hstep.accepted htime⟩, (ih hgood hrest).mpr hall⟩

/-- The cache stays consistent and accepts what prepare returns exactly when no statement expires
or goes away in the middle of a call. -/
theorem staysConsistent_iff (clock : ℤ) (hmax : 1 ≤ config.maxEntries)
    (run : List (Event P V × State P)) (hrun : IsRun config lib (.new P clock) run) :
    StaysConsistent config lib (.new P clock) run ↔ AllInTime config lib (.new P clock) run :=
  staysConsistent_iff_of_good .empty hmax hrun

end Invariants

/-! ### One statement with a TTL of 0 s -/

namespace OneStatement

def config : CacheConfig := ⟨1, 0⟩

def lib : Lib := ⟨id, Char.isAlphanum⟩

def query : Str := ['a']

def plan : LogicalPlan := ⟨.octad, [], []⟩

def preparing : State Unit := (State.new Unit 0).setCall 0 (some (.preparing query plan))

def missed : State Unit := preparing.setCall 0 (some (.missed query plan))

def stamped : State Unit := missed.setCall 0 (some (.stamped query plan 0))

def inserted : State Unit :=
  (stamped.setCache (stamped.cache.insert config lib query plan 0 [])).setCall 0 none

def prepare : List (Event Unit Unit × State Unit) :=
  [(.callPrepare 0 query plan, preparing), (.checkPrepared 0, missed), (.stampPrepared 0, stamped),
    (.insertPrepared 0 [], inserted)]

theorem prepare_isRun : IsRun config lib (.new Unit 0) prepare :=
  ⟨.callPrepare rfl, @Step.checkMissed _ _ _ _ _ _ query plan rfl rfl,
    @Step.stampPrepared _ _ _ _ _ _ query plan rfl,
    @Step.insertPrepared _ _ _ _ _ _ query plan 0 _ rfl (fun h => absurd rfl h), trivial⟩

def called : State Unit := inserted.setCall 1 (some (.preparing query plan))

def found : State Unit := called.setCall 1 (some (.found query))

def refreshed : State Unit := (found.setCache (found.cache.refresh lib 0 query)).setCall 1 none

def used : State Unit :=
  refreshed.setCache
    (((refreshed.cache.executePrepared config 0 ['a'] (.empty : SortedMap Str Unit)).map
      Prod.snd).getD refreshed.cache)

def preparingOther : State Unit := used.setCall 0 (some (.preparing ['b'] plan))

def missedOther : State Unit := preparingOther.setCall 0 (some (.missed ['b'] plan))

def stampedOther : State Unit := missedOther.setCall 0 (some (.stamped ['b'] plan 0))

def evicted : State Unit :=
  (stampedOther.setCache (stampedOther.cache.insert config lib ['b'] plan 0 ['a'])).setCall 0 none

/-- The statement is prepared again, executed, and makes room for another one. -/
def reuse : List (Event Unit Unit × State Unit) :=
  [(.callPrepare 1 query plan, called), (.checkPrepared 1, found), (.refreshPrepared 1, refreshed),
    (.executePrepared ['a'] .empty, used), (.callPrepare 0 ['b'] plan, preparingOther),
    (.checkPrepared 0, missedOther), (.stampPrepared 0, stampedOther),
    (.insertPrepared 0 ['a'], evicted)]

theorem reuse_isRun : IsRun config lib (.new Unit 0) (prepare ++ reuse) := by
  obtain ⟨hcall, hcheck, hstamp, hinsert, -⟩ := prepare_isRun
  have hexecute : refreshed.cache.executePrepared config 0 ['a'] (.empty : SortedMap Str Unit) =
      some (.ok _, used.cache) := rfl
  have holdest : stampedOther.cache.IsOldest ['a'] := fun _ => ⟨_, rfl, fun a ha => by
    obtain rfl := List.mem_singleton.mp ha
    exact le_rfl⟩
  exact ⟨hcall, hcheck, hstamp, hinsert, .callPrepare rfl,
    @Step.checkFound _ _ _ _ _ _ query plan rfl rfl, @Step.refreshPrepared _ _ _ _ _ _ query rfl,
    .executePrepared hexecute, .callPrepare rfl, @Step.checkMissed _ _ _ _ _ _ ['b'] plan rfl rfl,
    @Step.stampPrepared _ _ _ _ _ _ ['b'] plan rfl,
    @Step.insertPrepared _ _ _ _ _ _ ['b'] plan 0 _ rfl holdest, trivial⟩

def later : State Unit := { inserted with clock := 1 }

def executed : State Unit :=
  later.setCache { later.cache with
    statements := later.cache.statements.remove (fingerprint lib query) }

end OneStatement

theorem prepared_staysConsistent :
    StaysConsistent OneStatement.config OneStatement.lib (.new Unit 0)
      (OneStatement.prepare ++ OneStatement.reuse) := by
  refine (staysConsistent_iff 0 le_rfl _ OneStatement.reuse_isRun).mpr
    ⟨trivial, trivial, trivial, ?_, trivial, trivial, ?_, ?_, trivial, trivial, trivial, ?_, trivial⟩
  · rintro query plan now hcall
    obtain ⟨-, -, rfl⟩ := Pending.stamped.inj (Option.some.inj hcall)
    exact ⟨0, rfl, le_rfl⟩
  · rintro query hcall
    obtain rfl := Pending.found.inj (Option.some.inj hcall)
    exact ⟨_, rfl, rfl⟩
  · rintro stmt hstmt
    obtain rfl := Option.some.inj hstmt
    decide
  · rintro query plan now hcall
    obtain ⟨-, -, rfl⟩ := Pending.stamped.inj (Option.some.inj hcall)
    exact ⟨0, rfl, le_rfl⟩

/-- Execution after the TTL leaves a fingerprint without a statement, and no call in progress. -/
theorem expired_inconsistent :
    IsRun OneStatement.config OneStatement.lib (.new Unit 0) (OneStatement.prepare ++
      [(.wait 1, OneStatement.later), (.executePrepared ['a'] .empty, OneStatement.executed)]) ∧
    (OneStatement.executed.calls = fun _ => none) ∧
    ¬ Consistent OneStatement.config OneStatement.lib OneStatement.executed.cache := by
  have hget : OneStatement.later.cache.executePrepared OneStatement.config 1 ['a']
      (.empty : SortedMap Str Unit) =
        some (.error (.expired ['a']), OneStatement.executed.cache) := rfl
  obtain ⟨hcall, hcheck, hstamp, hinsert, -⟩ := OneStatement.prepare_isRun
  refine ⟨⟨hcall, hcheck, hstamp, hinsert, .wait 1, .executePrepared hget, trivial⟩, ?_, ?_⟩
  · funext call
    cases call <;> rfl
  · intro hconsistent
    obtain ⟨stmt, hstmt, -⟩ := (hconsistent.paired ['a'] ['a']).mp rfl
    have hnone : OneStatement.executed.cache.statements.get ['a'] = none := rfl
    rw [hnone] at hstmt
    exact absurd hstmt (by simp)

end NextgenDatabases.Planner
