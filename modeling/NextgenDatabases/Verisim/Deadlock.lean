import NextgenDatabases.Foundations.Search
import NextgenDatabases.Verisim.Locking

/-!
# Deadlocks

A transaction is blocked by those that hold the key of its refused request in a
conflicting mode. The wait-for graph of the lock table records the first of them only, so
it finds a deadlock if every blocker has been recorded.
-/
namespace NextgenDatabases.Verisim

open Foundations (Run exec cycleSearch not_cyclic_of_cycleSearch ClosedWalk SearchEnds
  searchEnds_of_fuel frontier_start remaining)

namespace LockTable

/-! ### The wait-for graph -/

variable {t : LockTable} {transactionId u v : Uuid} {key : LockKey} {lockType : LockType}

theorem lookup_filter (waitFor : List (Uuid × List Uuid)) (transactionId u : Uuid) :
    (waitFor.filter fun w => w.1 ≠ transactionId).lookup u =
      if u = transactionId then none else waitFor.lookup u := by
  induction waitFor with
  | nil => simp
  | cons w rest ih =>
    obtain ⟨key, blockers⟩ := w
    rw [List.filter_cons]
    grind

theorem waits_removeWait :
    (t.removeWait transactionId).waits u = if u = transactionId then [] else t.waits u := by
  unfold waits removeWait
  rw [lookup_filter]
  split <;> rfl

theorem mem_waits_addWait {blocker : Uuid} :
    v ∈ (t.addWait transactionId blocker).waits u ↔
      v ∈ t.waits u ∨ u = transactionId ∧ v = blocker := by
  by_cases h : u = transactionId
  · subst h
    have hself : (t.addWait u blocker).waits u =
        if blocker ∈ t.waits u then t.waits u else t.waits u ++ [blocker] := by
      simp [waits, addWait]
    rw [hself]
    split
    · next hmem =>
      exact ⟨.inl, fun hor => hor.elim id fun heq => heq.2 ▸ hmem⟩
    · simp
  · have hkept : (t.addWait transactionId blocker).waits u = t.waits u := by
      have hne : (u == transactionId) = false := by simpa using h
      simp only [waits, addWait, List.lookup_cons, hne]
      rw [lookup_filter, if_neg h]
    rw [hkept]
    simp [h]

theorem lookup_map (waitFor : List (Uuid × List Uuid)) (f : List Uuid → List Uuid) (u : Uuid) :
    (waitFor.map fun w => (w.1, f w.2)).lookup u = (waitFor.lookup u).map f := by
  induction waitFor with
  | nil => rfl
  | cons w rest ih =>
    obtain ⟨key, blockers⟩ := w
    rw [List.map_cons]
    grind

theorem mem_waits_releaseAll :
    v ∈ (t.releaseAll transactionId).waits u ↔
      v ∈ t.waits u ∧ u ≠ transactionId ∧ v ≠ transactionId := by
  unfold waits releaseAll
  dsimp only
  rw [lookup_map _ (fun blockers => blockers.filter fun w => w ≠ transactionId), lookup_filter]
  by_cases h : u = transactionId
  · simp [h]
  · rw [if_neg h]
    cases t.waitFor.lookup u with
    | none => simp
    | some blockers => simp [h]

/-- Every transaction has one entry in the graph. -/
def Mapped (t : LockTable) : Prop := (t.waitFor.map Prod.fst).Nodup

theorem Mapped.filter (h : t.Mapped) (p : Uuid × List Uuid → Bool) :
    ((t.waitFor.filter p).map Prod.fst).Nodup :=
  h.sublist (List.filter_sublist.map _)

theorem Mapped.removeWait (h : t.Mapped) : (t.removeWait transactionId).Mapped :=
  h.filter _

theorem Mapped.addWait (h : t.Mapped) (blocker : Uuid) :
    (t.addWait transactionId blocker).Mapped := by
  unfold Mapped LockTable.addWait
  rw [List.map_cons, List.nodup_cons]
  exact ⟨by simp, h.filter _⟩

theorem Mapped.releaseAll (h : t.Mapped) : (t.releaseAll transactionId).Mapped := by
  unfold Mapped LockTable.releaseAll
  rw [List.map_map]
  exact h.filter _

/-- The search of the lock table is the generic one. -/
theorem search_eq (t : LockTable) (start : Uuid) (fuel : ℕ) (queue : List (List Uuid))
    (visited : List Uuid) :
    t.search start fuel queue visited = cycleSearch t.waits start fuel queue visited := by
  induction fuel generalizing queue visited with
  | zero => rfl
  | succ fuel ih =>
    cases queue with
    | nil => rfl
    | cons path queue =>
      unfold search cycleSearch
      simp only [ih]
      cases path.getLast? with
      | none => rfl
      | some current => rfl

theorem mem_keys (h : t.waits u ≠ []) : u ∈ (t.waitFor.map Prod.fst).toFinset := by
  by_contra hmem
  have hlookup : t.waitFor.lookup u = none := by
    rw [List.lookup_eq_none_iff]
    intro w hw
    refine bne_iff_ne.mpr ?_
    rintro rfl
    exact hmem (List.mem_toFinset.mpr (List.mem_map_of_mem hw))
  simp [waits, hlookup] at h

/-- The waits of all transactions are not more than the graph has entries. -/
theorem sum_lookup_le (waitFor : List (Uuid × List Uuid)) :
    ∑ u ∈ (waitFor.map Prod.fst).toFinset, ((waitFor.lookup u).getD []).length ≤
      (waitFor.map fun w => w.2.length).sum := by
  induction waitFor with
  | nil => simp
  | cons w rest ih =>
    obtain ⟨key, blockers⟩ := w
    have hother : ∀ u ∈ (rest.map Prod.fst).toFinset.erase key,
        ((((key, blockers) :: rest).lookup u).getD []).length =
          ((rest.lookup u).getD []).length := by
      intro u hu
      have hne : (u == key) = false := beq_eq_false_iff_ne.mpr (Finset.ne_of_mem_erase hu)
      rw [List.lookup_cons, hne]
    have hinsert : insert key (rest.map Prod.fst).toFinset =
        insert key ((rest.map Prod.fst).toFinset.erase key) := by
      ext u
      simp only [Finset.mem_insert, Finset.mem_erase]
      tauto
    rw [List.map_cons, List.toFinset_cons, hinsert,
      Finset.sum_insert (Finset.notMem_erase key _), Finset.sum_congr rfl hother, List.map_cons,
      List.sum_cons, List.lookup_cons_self]
    exact Nat.add_le_add_left
      ((Finset.sum_le_sum_of_subset (Finset.erase_subset key _)).trans ih) _

/-- The search of a cycle ends. -/
theorem detectCycle_ends (t : LockTable) (start : Uuid) : SearchEnds t.waits start
    ((t.waits start).map fun next => [start, next]) [] (t.detectCycle start) := by
  unfold detectCycle
  rw [search_eq]
  refine searchEnds_of_fuel (fun u => mem_keys) (Nat.lt_succ_of_le ?_)
  refine le_trans ?_ (sum_lookup_le t.waitFor)
  have hwaits := @Foundations.length_add_remaining _ _ t.waits start
    (t.waitFor.map Prod.fst).toFinset (fun u => mem_keys)
  rw [List.length_map, hwaits]
  rfl

/-- A transaction for which no cycle is detected is on no cycle of the graph. -/
theorem not_cyclic_of_none (hnone : t.detectCycle transactionId = none) :
    ¬ Relation.TransGen (fun u v => v ∈ t.waits u) transactionId transactionId := by
  unfold detectCycle at hnone
  rw [search_eq] at hnone
  exact not_cyclic_of_cycleSearch (fun u => mem_keys)
    (Nat.lt_succ_of_le (sum_lookup_le t.waitFor)) hnone

/-- `detect_cycle` ends. It finds a cycle if there is one through the start, and a shortest one. -/
theorem detectCycle_exact (t : LockTable) (start : Uuid) :
    SearchEnds t.waits start ((t.waits start).map fun next => [start, next]) []
        (t.detectCycle start) ∧
      ((∃ path, t.detectCycle start = some path) ↔ ∃ walk, ClosedWalk t.waits start walk) ∧
      ∀ path, t.detectCycle start = some path → ClosedWalk t.waits start path ∧
        ∀ walk, ClosedWalk t.waits start walk → path.length ≤ walk.length := by
  have hends := detectCycle_ends t start
  have hspec := hends.shortest frontier_start
  refine ⟨hends, ⟨?_, ?_⟩, ?_⟩
  · rintro ⟨path, hpath⟩
    rw [hpath] at hspec
    exact ⟨path, hspec.1⟩
  · rintro ⟨walk, hwalk⟩
    cases hresult : t.detectCycle start with
    | none =>
      rw [hresult] at hspec
      exact absurd hwalk (hspec walk)
    | some path => exact ⟨path, rfl⟩
  · intro path hpath
    rw [hpath] at hspec
    exact hspec

end LockTable

namespace LockTable

/-! ### What a refused request meets -/

variable {t : LockTable} {transactionId : Uuid} {key : LockKey} {lockType : LockType}

/-- The other transactions that hold a key in a conflicting mode. -/
def blockers (t : LockTable) (transactionId : Uuid) (key : LockKey) (lockType : LockType) :
    List Uuid :=
  ((t.foreign transactionId key).filter fun info =>
    ¬ info.lockType.Compatible lockType).map LockInfo.holder

theorem mem_blockers {blocker : Uuid} :
    blocker ∈ t.blockers transactionId key lockType ↔ blocker ≠ transactionId ∧
      ∃ held : LockType, ¬ held.Compatible lockType ∧ ⟨blocker, held⟩ ∈ t.locks key := by
  simp only [blockers, List.mem_map, List.mem_filter, mem_foreign, decide_eq_true_eq]
  constructor
  · rintro ⟨info, ⟨⟨hinfo, hne⟩, hconflict⟩, rfl⟩
    exact ⟨hne, info.lockType, hconflict, hinfo⟩
  · rintro ⟨hne, held, hconflict, hinfo⟩
    exact ⟨⟨blocker, held⟩, ⟨⟨hinfo, hne⟩, hconflict⟩, rfl⟩

/-- A transaction that shares a key with others is blocked by them when it asks for an
exclusive lock. -/
theorem exists_blocker (hcoherent : Coherent (t.locks key)) (hlength : (t.locks key).length ≠ 1)
    (hmem : ⟨transactionId, .shared⟩ ∈ t.locks key) :
    ∃ blocker, blocker ∈ t.blockers transactionId key .exclusive := by
  have hother : ∃ info ∈ t.locks key, info.holder ≠ transactionId := by
    by_contra hnone
    have hself : ∀ info ∈ t.locks key, info.holder = transactionId := by
      intro info hinfo
      by_contra hne
      exact hnone ⟨info, hinfo, hne⟩
    match hlocks : t.locks key with
    | [] => simp [hlocks] at hmem
    | [info] => simp [hlocks] at hlength
    | first :: second :: rest =>
      have hnodup := hcoherent.nodup
      rw [hlocks] at hself hnodup
      simp [hself first, hself second] at hnodup
  obtain ⟨info, hinfo, hne⟩ := hother
  exact ⟨info.holder, mem_blockers.mpr ⟨hne, info.lockType, by simp [LockType.Compatible], hinfo⟩⟩

/-- A request that no other transaction blocks is met. -/
theorem acquire_of_unblocked {entityId modality : String}
    (hcoherent : Coherent (t.locks (entityId, modality)))
    (hnil : t.blockers transactionId (entityId, modality) lockType = []) :
    t.acquire transactionId entityId modality lockType = (.ok (), t) ∨
      t.acquire transactionId entityId modality lockType =
        (.ok (), t.grant transactionId (entityId, modality) lockType) := by
  have hmeaning := decide_meaning (t.locks (entityId, modality)) transactionId lockType
    (t.locks (entityId, modality))
  unfold acquire
  dsimp only
  cases haction : decide (t.locks (entityId, modality)) transactionId lockType
      (t.locks (entityId, modality)) with
  | alreadyHeld => exact .inl rfl
  | upgrade => exact .inr rfl
  | upgradeConflict otherHolder =>
    rw [haction] at hmeaning
    obtain ⟨rfl, hlength, hmem⟩ := hmeaning
    obtain ⟨blocker, hblocker⟩ := exists_blocker hcoherent hlength hmem
    rw [hnil] at hblocker
    cases hblocker
  | conflict blocker =>
    rw [haction] at hmeaning
    have hblocker := mem_blockers.mpr hmeaning
    rw [hnil] at hblocker
    cases hblocker
  | grant => exact .inr rfl

/-- The scan stops at the first conflicting holder, unless it meets the transaction first. -/
theorem decide_of_blocked {blocker : Uuid} {rest : List Uuid} (hcoherent : Coherent (t.locks key))
    (hblockers : t.blockers transactionId key lockType = blocker :: rest)
    (hfirst : ∀ info ∈ (t.locks key).head?, info.holder ≠ transactionId) :
    decide (t.locks key) transactionId lockType (t.locks key) = .conflict blocker := by
  cases hlocks : t.locks key with
  | nil => simp [blockers, foreign, hlocks] at hblockers
  | cons info others =>
    have hne : info.holder ≠ transactionId := hfirst info (by simp [hlocks])
    by_cases hcompatible : info.lockType.Compatible lockType
    · -- the lock is shared, and no holder conflicts with a shared request
      have hmem : blocker ∈ t.blockers transactionId key lockType := by
        rw [hblockers]
        exact List.mem_cons_self
      obtain ⟨-, held, hconflict, hheld⟩ := mem_blockers.mp hmem
      refine absurd ⟨?_, hcompatible.2⟩ hconflict
      rw [hlocks] at hheld hcoherent
      rcases List.mem_cons.mp hheld with heq | hothers
      · rw [← hcompatible.1, ← heq]
      · refine hcoherent.shared ?_ _ (List.mem_cons_of_mem _ hothers)
        have hpos := List.length_pos_of_mem hothers
        rw [List.length_cons]
        omega
    · have hhead : blocker = info.holder := by
        simp only [blockers, foreign, hlocks, List.filter_cons, ne_eq, hne, not_false_eq_true,
          decide_true, if_true, hcompatible, List.map_cons, List.cons.injEq] at hblockers
        exact hblockers.1.symm
      rw [hhead, decide, if_neg hne]
      exact if_pos hcompatible

/-- A request that the scan refuses is registered, and refused as a deadlock if a cycle is
detected. -/
theorem acquire_of_blocked {entityId modality : String} {blocker : Uuid} {rest : List Uuid}
    (hcoherent : Coherent (t.locks (entityId, modality)))
    (hblockers : t.blockers transactionId (entityId, modality) lockType = blocker :: rest)
    (hfirst : ∀ info ∈ (t.locks (entityId, modality)).head?, info.holder ≠ transactionId) :
    (∃ cycle, t.acquire transactionId entityId modality lockType =
        (.error (.deadlockDetected transactionId cycle),
          (t.addWait transactionId blocker).removeWait transactionId)) ∨
      (t.addWait transactionId blocker).detectCycle transactionId = none ∧
        t.acquire transactionId entityId modality lockType =
          (.error (.lockConflict entityId modality blocker),
            t.addWait transactionId blocker) := by
  unfold acquire
  dsimp only
  rw [decide_of_blocked hcoherent hblockers hfirst]
  dsimp only
  split
  · next cycle _ => exact .inl ⟨cycle, rfl⟩
  · next hnone => exact .inr ⟨hnone, rfl⟩

end LockTable

/-! ### Blocked transactions -/

/-- A lock table and the transactions whose last request was refused. -/
structure Watched where
  table : LockTable
  /-- The request that was refused, until the transaction is granted a lock or ends. -/
  refused : Uuid → Option (LockKey × LockType)
  /-- Whether it was refused as a deadlock. -/
  told : Uuid → Bool

namespace Watched

def new : Watched := ⟨.empty, fun _ => none, fun _ => false⟩

/-- What a transaction is left with after its request. -/
def note (s : Watched) (table : LockTable) (transactionId : Uuid)
    (request : Option (LockKey × LockType)) (deadlock : Bool) : Watched where
  table := table
  refused := Function.update s.refused transactionId request
  told := Function.update s.told transactionId deadlock

def step (s : Watched) : LockTable.Call → Option Watched
  | .acquire transactionId entityId modality lockType =>
    let r := s.table.acquire transactionId entityId modality lockType
    match r.1 with
    | .ok () => some (s.note r.2 transactionId none false)
    | .error (.deadlockDetected _ _) =>
      some (s.note r.2 transactionId (some ((entityId, modality), lockType)) true)
    | .error _ => some (s.note r.2 transactionId (some ((entityId, modality), lockType)) false)
  | .releaseAll transactionId =>
    some (s.note (s.table.releaseAll transactionId) transactionId none false)

/-- Another transaction holds the key of the refused request in a conflicting mode. -/
def BlockedBy (s : Watched) (transactionId blocker : Uuid) : Prop :=
  blocker ≠ transactionId ∧ ∃ key lockType, s.refused transactionId = some (key, lockType) ∧
    ∃ held : LockType, ¬ held.Compatible lockType ∧ ⟨blocker, held⟩ ∈ s.table.locks key

/-- The transaction is on a cycle of blocked ones. -/
def Deadlocked (s : Watched) (transactionId : Uuid) : Prop :=
  Relation.TransGen s.BlockedBy transactionId transactionId

/-- The request, if it is refused. -/
def asking (s : Watched) (transactionId : Uuid) (key : LockKey) (lockType : LockType) : Watched :=
  s.note s.table transactionId (some (key, lockType)) false

/-- The request, if it is refused, closes a cycle through another transaction that has been told
of a deadlock before. -/
def MeetsTold (s : Watched) (transactionId : Uuid) (key : LockKey) (lockType : LockType) : Prop :=
  ∃ other, other ≠ transactionId ∧ s.told other = true ∧
    Relation.TransGen (s.asking transactionId key lockType).BlockedBy transactionId other ∧
    Relation.TransGen (s.asking transactionId key lockType).BlockedBy other transactionId

/-- The request leaves no blocker unrecorded. If nobody blocks it, it blocks only those that
wait for its transaction already. If it is blocked, its transaction is not the first holder of
the key, waits for all blockers but the first already, and closes no cycle through a
transaction that was told of a deadlock. -/
def Recorded (s : Watched) : LockTable.Call → Prop
  | .releaseAll _ => True
  | .acquire transactionId entityId modality lockType =>
    match s.table.blockers transactionId (entityId, modality) lockType with
    | [] =>
      ∀ other, other ≠ transactionId → s.told other = false →
        ∀ requested, s.refused other = some ((entityId, modality), requested) →
          ¬ lockType.Compatible requested → transactionId ∈ s.table.waits other
    | _ :: rest =>
      (∀ info ∈ (s.table.locks (entityId, modality)).head?, info.holder ≠ transactionId) ∧
        (∀ blocker ∈ rest, blocker ∈ s.table.waits transactionId) ∧
        ¬ s.MeetsTold transactionId (entityId, modality) lockType

/-- Every blocker of a transaction that has not been told of a deadlock is recorded. -/
structure Tracked (s : Watched) : Prop where
  mapped : s.table.Mapped
  coherent : ∀ key, Coherent (s.table.locks key)
  recorded : ∀ u v, s.told u = false → s.BlockedBy u v → v ∈ s.table.waits u

variable {s s' : Watched} {transactionId u v : Uuid} {entityId modality : String}
  {lockType : LockType} {table : LockTable} {request : Option (LockKey × LockType)}
  {deadlock : Bool}

theorem note_told (hne : u ≠ transactionId) :
    (s.note table transactionId request deadlock).told u = s.told u :=
  Function.update_of_ne hne _ _

/-- A transaction that made no request is blocked by those that blocked it, and by those that
got a lock. -/
theorem BlockedBy.of_note (h : (s.note table transactionId request deadlock).BlockedBy u v)
    (hne : u ≠ transactionId) :
    v ≠ u ∧ ∃ key lockType, s.refused u = some (key, lockType) ∧
      ∃ held : LockType, ¬ held.Compatible lockType ∧ ⟨v, held⟩ ∈ table.locks key := by
  obtain ⟨hvu, key, lockType, hrefused, held, hconflict, hheld⟩ := h
  refine ⟨hvu, key, lockType, ?_, held, hconflict, hheld⟩
  exact (Function.update_of_ne hne _ _).symm.trans hrefused

theorem not_blockedBy_of_note (h : (s.note table transactionId none deadlock).BlockedBy u v) :
    u ≠ transactionId := by
  rintro rfl
  obtain ⟨-, key, lockType, hrefused, -⟩ := h
  simp [note] at hrefused

theorem tracked_new : Tracked new where
  mapped := List.nodup_nil
  coherent := LockTable.coherent_empty
  recorded := by
    intro u v _ h
    obtain ⟨-, key, lockType, hrefused, -⟩ := h
    cases hrefused

theorem Tracked.releaseAll (h : s.Tracked) :
    (s.note (s.table.releaseAll transactionId) transactionId none false).Tracked where
  mapped := h.mapped.releaseAll
  coherent := LockTable.coherent_releaseAll h.coherent
  recorded := by
    intro u v htold hblocked
    have hne := not_blockedBy_of_note hblocked
    obtain ⟨hvu, key, lockType, hrefused, held, hconflict, hheld⟩ := hblocked.of_note hne
    obtain ⟨hheld, hv⟩ := LockTable.mem_releaseAll.mp hheld
    rw [note_told hne] at htold
    exact LockTable.mem_waits_releaseAll.mpr
      ⟨h.recorded u v htold ⟨hvu, key, lockType, hrefused, held, hconflict, hheld⟩, hne, hv⟩

/-- A request that is met by what its transaction holds changes no lock. -/
theorem Tracked.held (h : s.Tracked) : (s.note s.table transactionId none false).Tracked where
  mapped := h.mapped
  coherent := h.coherent
  recorded := by
    intro u v htold hblocked
    have hne := not_blockedBy_of_note hblocked
    rw [note_told hne] at htold
    exact h.recorded u v htold (hblocked.of_note hne)

theorem Tracked.granted {key : LockKey} (h : s.Tracked)
    (hcoherent : ∀ k, Coherent ((s.table.grant transactionId key lockType).locks k))
    (hwaits : ∀ other, other ≠ transactionId → s.told other = false →
      ∀ requested, s.refused other = some (key, requested) →
        ¬ lockType.Compatible requested → transactionId ∈ s.table.waits other) :
    (s.note (s.table.grant transactionId key lockType) transactionId none false).Tracked where
  mapped := h.mapped.removeWait
  coherent := hcoherent
  recorded := by
    intro u v htold hblocked
    have hne := not_blockedBy_of_note hblocked
    obtain ⟨hvu, k, requested, hrefused, held, hconflict, hheld⟩ := hblocked.of_note hne
    rw [note_told hne] at htold
    have hkept : (s.table.grant transactionId key lockType).waits u = s.table.waits u := by
      refine LockTable.waits_removeWait.trans ?_
      rw [if_neg hne]
      rfl
    refine (congrArg (v ∈ ·) hkept).mpr ?_
    rcases LockTable.mem_grant.mp hheld with ⟨hheld, -⟩ | ⟨rfl, heq⟩
    · exact h.recorded u v htold ⟨hvu, k, requested, hrefused, held, hconflict, hheld⟩
    · cases heq
      exact hwaits u hne htold requested hrefused hconflict

/-- A refused request is recorded for its first blocker. -/
theorem Tracked.refused {blocker : Uuid} {rest : List Uuid} (h : s.Tracked)
    (hblockers : s.table.blockers transactionId (entityId, modality) lockType = blocker :: rest)
    (hrest : ∀ other ∈ rest, other ∈ s.table.waits transactionId) :
    (s.note (s.table.addWait transactionId blocker) transactionId
      (some ((entityId, modality), lockType)) false).Tracked where
  mapped := h.mapped.addWait blocker
  coherent := h.coherent
  recorded := by
    intro u v htold hblocked
    refine LockTable.mem_waits_addWait.mpr ?_
    by_cases hne : u = transactionId
    · subst hne
      obtain ⟨hvu, key, requested, hrefused, held, hconflict, hheld⟩ := hblocked
      simp only [note, Function.update_self, Option.some.injEq, Prod.mk.injEq] at hrefused
      obtain ⟨rfl, rfl⟩ := hrefused
      have hmem : v ∈ s.table.blockers u (entityId, modality) lockType :=
        LockTable.mem_blockers.mpr ⟨hvu, held, hconflict, hheld⟩
      rw [hblockers] at hmem
      rcases List.mem_cons.mp hmem with rfl | hmem
      · exact .inr ⟨rfl, rfl⟩
      · exact .inl (hrest v hmem)
    · rw [note_told hne] at htold
      exact .inl (h.recorded u v htold (hblocked.of_note hne))

/-- A transaction that is told of a deadlock waits for nobody. -/
theorem Tracked.told {blocker : Uuid} (h : s.Tracked) :
    (s.note ((s.table.addWait transactionId blocker).removeWait transactionId) transactionId
      (some ((entityId, modality), lockType)) true).Tracked where
  mapped := (h.mapped.addWait blocker).removeWait
  coherent := h.coherent
  recorded := by
    intro u v htold hblocked
    have hne : u ≠ transactionId := by
      rintro rfl
      simp [note] at htold
    rw [note_told hne] at htold
    refine (congrArg (v ∈ ·) LockTable.waits_removeWait).mpr ?_
    rw [if_neg hne]
    exact LockTable.mem_waits_addWait.mpr (.inl (h.recorded u v htold (hblocked.of_note hne)))

/-- What a recorded request does. -/
theorem step_acquire (h : s.Tracked)
    (hrecorded : s.Recorded (.acquire transactionId entityId modality lockType))
    (hstep : s.step (.acquire transactionId entityId modality lockType) = some s') :
    s'.Tracked ∧
      ((s.table.acquire transactionId entityId modality lockType).1 = .ok () ∨
        (∃ cycle, (s.table.acquire transactionId entityId modality lockType).1 =
          .error (.deadlockDetected transactionId cycle)) ∨
        ¬ s.MeetsTold transactionId (entityId, modality) lockType ∧
          ∃ table : LockTable, table.locks = s.table.locks ∧
            table.detectCycle transactionId = none ∧
            s' = s.note table transactionId (some ((entityId, modality), lockType)) false) := by
  unfold Recorded at hrecorded
  dsimp only at hrecorded
  split at hrecorded
  · next hnil =>
    rcases LockTable.acquire_of_unblocked (h.coherent _) hnil with heq | heq
    · rw [step, heq] at hstep
      cases hstep
      exact ⟨h.held, .inl (by rw [heq])⟩
    · have hcoherent : ∀ key, Coherent
          ((s.table.grant transactionId (entityId, modality) lockType).locks key) := by
        intro key
        have hacquire : Coherent
            ((s.table.acquire transactionId entityId modality lockType).2.locks key) :=
          LockTable.coherent_acquire h.coherent key
        rwa [heq] at hacquire
      rw [step, heq] at hstep
      cases hstep
      exact ⟨h.granted hcoherent hrecorded, .inl (by rw [heq])⟩
  · next blocker rest hblockers =>
    obtain ⟨hfirst, hrest, hmeets⟩ := hrecorded
    rcases LockTable.acquire_of_blocked (h.coherent _) hblockers hfirst with
      ⟨cycle, heq⟩ | ⟨hnone, heq⟩
    · rw [step, heq] at hstep
      cases hstep
      exact ⟨h.told, .inr (.inl ⟨cycle, by rw [heq]⟩)⟩
    · rw [step, heq] at hstep
      cases hstep
      exact ⟨h.refused hblockers hrest, .inr (.inr
        ⟨hmeets, s.table.addWait transactionId blocker, rfl, hnone, rfl⟩)⟩

theorem step_tracked {call : LockTable.Call} (h : s.Tracked) (hrecorded : s.Recorded call)
    (hstep : s.step call = some s') : s'.Tracked := by
  cases call with
  | acquire transactionId entityId modality lockType => exact (step_acquire h hrecorded hstep).1
  | releaseAll transactionId =>
    cases hstep
    exact h.releaseAll

theorem tracked_of_run (r : Run step Recorded new s) : s.Tracked :=
  r.invariant (fun _ _ _ h hrecorded hstep => step_tracked h hrecorded hstep) tracked_new

/-- On a cycle of recorded blockers every transaction waits for the next one. -/
theorem Tracked.waits_of_cycle (h : s.Tracked)
    (htold : ∀ u, u = transactionId ∨ Relation.TransGen s.BlockedBy transactionId u →
      Relation.TransGen s.BlockedBy u transactionId → s.told u = false)
    (hcycle : s.Deadlocked transactionId) :
    Relation.TransGen (fun u v => v ∈ s.table.waits u) transactionId transactionId := by
  have hwaits : ∀ u, Relation.TransGen s.BlockedBy u transactionId →
      u = transactionId ∨ Relation.TransGen s.BlockedBy transactionId u →
      Relation.TransGen (fun u v => v ∈ s.table.waits u) u transactionId := by
    intro u hu
    induction hu using Relation.TransGen.head_induction_on with
    | single hedge =>
      intro hon
      exact .single (h.recorded _ _ (htold _ hon (.single hedge)) hedge)
    | head hedge hrest ih =>
      intro hon
      have hnext : Relation.TransGen s.BlockedBy transactionId _ :=
        hon.elim (fun heq => .single (heq ▸ hedge)) fun hpath => hpath.tail hedge
      exact .head (h.recorded _ _ (htold _ hon (.head hedge hrest)) hedge) (ih (.inr hnext))
  exact hwaits transactionId hcycle (.inl rfl)

/-- In a run whose requests are all recorded, a refused request that closes a cycle of blocked
transactions is refused as a deadlock. -/
theorem deadlocks_reported (r : Run step Recorded new s)
    (hrecorded : s.Recorded (.acquire transactionId entityId modality lockType))
    (hstep : s.step (.acquire transactionId entityId modality lockType) = some s')
    (hrefused : (s.table.acquire transactionId entityId modality lockType).1 ≠ .ok ())
    (hcycle : s'.Deadlocked transactionId) :
    ∃ cycle, (s.table.acquire transactionId entityId modality lockType).1 =
      .error (.deadlockDetected transactionId cycle) := by
  obtain ⟨htracked, hok | hdeadlock | ⟨hmeets, table, hlocks, hnone, rfl⟩⟩ :=
    step_acquire (tracked_of_run r) hrecorded hstep
  · exact absurd hok hrefused
  · exact hdeadlock
  · have hblocked : (s.note table transactionId (some ((entityId, modality), lockType))
        false).BlockedBy = (s.asking transactionId (entityId, modality) lockType).BlockedBy := by
      funext u v
      simp only [BlockedBy, asking, note, hlocks]
    refine absurd (htracked.waits_of_cycle ?_ hcycle) (LockTable.not_cyclic_of_none hnone)
    intro u hfrom hback
    by_cases hne : u = transactionId
    · rw [hne]
      exact Function.update_self _ _ _
    · rw [note_told hne]
      by_contra htold
      rw [hblocked] at hfrom hback
      exact hmeets ⟨u, hne, eq_true_of_ne_false htold, hfrom.resolve_left hne, hback⟩

/-- Two writers that each want what the other has. -/
theorem deadlocks_reported_crossed :
    ∃ s, exec step new [.acquire "a" "e" "graph" .exclusive, .acquire "b" "e" "vector" .exclusive,
        .acquire "a" "e" "vector" .exclusive] = some s ∧
      ∃ cycle, (s.table.acquire "b" "e" "graph" .exclusive).1 =
        .error (.deadlockDetected "b" cycle) := by
  have hnone : ∀ (u v : Uuid) (f : Uuid → Option (LockKey × LockType)), (∀ w, f w = none) →
      Function.update f u none v = none := by
    intro u v f hf
    rw [Function.update_apply]
    split
    · rfl
    · exact hf v
  have hfalse : ∀ (u v : Uuid) (f : Uuid → Bool), (∀ w, f w = false) →
      Function.update f u false v = false := by
    intro u v f hf
    rw [Function.update_apply]
    split
    · rfl
    · exact hf v
  refine ⟨_, rfl, deadlocks_reported (.tail (.tail (.single
    ⟨.acquire "a" "e" "graph" .exclusive, ?_, rfl⟩)
    ⟨.acquire "b" "e" "vector" .exclusive, ?_, rfl⟩)
    ⟨.acquire "a" "e" "vector" .exclusive, ?_, rfl⟩) ?_ rfl ?_ ?_⟩
  · intro other _ _ requested h
    cases h
  · intro other _ _ requested h
    exact absurd (h.symm.trans (hnone _ _ _ fun _ => rfl)) (by simp)
  · refine ⟨?_, ?_, ?_⟩
    · intro info hinfo
      cases hinfo
      decide
    · intro blocker hblocker
      cases hblocker
    · rintro ⟨other, -, htold, -⟩
      exact absurd (htold.symm.trans (hfalse _ _ _ (hfalse _ · _ fun _ => rfl))) (by simp)
  · refine ⟨?_, ?_, ?_⟩
    · intro info hinfo
      cases hinfo
      decide
    · intro blocker hblocker
      cases hblocker
    · rintro ⟨other, -, htold, -⟩
      exact absurd (htold.symm.trans
        (hfalse _ _ _ (hfalse _ · _ (hfalse _ · _ fun _ => rfl)))) (by simp)
  · decide
  · refine .head (b := "a") ⟨by decide, ("e", "graph"), .exclusive, rfl, .exclusive, by decide,
      by decide⟩ (.single ⟨by decide, ("e", "vector"), .exclusive, rfl, .exclusive, by decide,
      by decide⟩)

/-- Two readers that both want to write: the second request closes the cycle and is refused as
a mere conflict. -/
theorem upgrade_deadlock_missed :
    ∃ s s', Run step (fun _ _ => True) new s ∧ ¬ s.Deadlocked "b" ∧
      s.step (.acquire "b" "e" "graph" .exclusive) = some s' ∧ s'.Deadlocked "b" ∧
      (s.table.acquire "b" "e" "graph" .exclusive).1 =
        .error (.lockConflict "e" "graph" "a") := by
  refine ⟨_, _, .tail (.tail (.single ⟨.acquire "a" "e" "graph" .shared, trivial, rfl⟩)
    ⟨.acquire "b" "e" "graph" .shared, trivial, rfl⟩)
    ⟨.acquire "a" "e" "graph" .exclusive, trivial, rfl⟩, ?_, rfl, ?_, rfl⟩
  · intro h
    obtain ⟨v, ⟨-, key, lockType, hrefused, -⟩, -⟩ := Relation.TransGen.head'_iff.mp h
    have hnone : none = some (key, lockType) := hrefused
    cases hnone
  · exact .head (b := "a") ⟨by decide, ("e", "graph"), .exclusive, rfl, .shared, by decide,
      by decide⟩ (.single ⟨by decide, ("e", "graph"), .exclusive, rfl, .shared, by decide,
      by decide⟩)

end Watched

end NextgenDatabases.Verisim
