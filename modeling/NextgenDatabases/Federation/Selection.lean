import NextgenDatabases.Federation.Registry
import Mathlib.Data.List.MinMax
import Mathlib.Data.Rat.Floor
import Mathlib.Tactic.Linarith
import Mathlib.Tactic.Ring

/-!
# The best store

The scores are compared by whole thousandths. Whatever the order in which the dictionary lists its
stores, a store with the greatest score is chosen as long as every store that offers the modality
with a smaller score compares as smaller than it.
-/
namespace NextgenDatabases.Federation

open Foundations (Dict toInt stableSortBy stableSortBy_perm)
open Foundations.StableSort (Wins led_stableSortBy head?_stableSortBy_blocked)

/-! ### The comparison -/

/-- The difference of the scores is at least a thousandth, as a 32-bit number of thousandths. -/
def Leads (best s : ℚ) : Prop := 0 < (toInt ((best - s) * 1000)).toInt

theorem toInt_eq (n : ℚ) : (toInt n).toInt = (n.num.tdiv n.den).bmod (2 ^ 32) := Int32.toInt_ofInt

theorem not_leads_of_leads {a b : ℚ} (h : Leads a b) : ¬ Leads b a := by
  have hneg : (b - a) * 1000 = -((a - b) * 1000) := by ring
  rw [Leads, toInt_eq] at h
  rw [Leads, hneg, toInt_eq, Rat.num_neg_eq_neg_num, Rat.den_neg_eq_den, Int.neg_tdiv]
  generalize ((a - b) * 1000).num.tdiv ((a - b) * 1000).den = z at h ⊢
  rw [Int.bmod_def] at h ⊢
  omega

/-- Within the range of 32 bits, a lead is a thousandth. -/
theorem leads_iff {a b : ℚ} (hlo : b ≤ a) (hhi : a < b + 2147483) :
    Leads a b ↔ b + 1 / 1000 ≤ a := by
  obtain ⟨q, hq⟩ : ∃ q, q = (a - b) * 1000 := ⟨_, rfl⟩
  have hq0 : 0 ≤ q := by rw [hq]; linarith
  have hqhi : q < 2147483000 := by rw [hq]; linarith
  have hnum : 0 ≤ q.num := Rat.num_nonneg.mpr hq0
  have hfloor : q.num.tdiv q.den = ⌊q⌋ := by
    rw [Int.tdiv_eq_ediv_of_nonneg hnum, Rat.floor_def']
  have hlt : ⌊q⌋ < 2147483000 := Int.floor_lt.mpr (by exact_mod_cast hqhi)
  have hnonneg : 0 ≤ ⌊q⌋ := Int.floor_nonneg.mpr hq0
  have hthousandth : b + 1 / 1000 ≤ a ↔ 1 ≤ q := by
    rw [hq]
    constructor <;> intro h <;> linarith
  rw [Leads, ← hq, toInt_eq, hfloor, hthousandth, Int.bmod_def]
  have hone : 1 ≤ q ↔ 1 ≤ ⌊q⌋ := by rw [Int.le_floor, Int.cast_one]
  rw [hone]
  omega

/-! ### Which store is chosen -/

section choice

variable {registry : RegistryState} {modality : ModalityType}

theorem mem_findStoresByModality {s : StoreLocation} :
    s ∈ findStoresByModality registry modality ↔
      s ∈ registry.stores.values ∧ s.offers modality = true := List.mem_filter

/-- The stores with their scores, as they are sorted. -/
def scoredReverse (candidates : List StoreLocation) : List (StoreLocation × ℚ) :=
  (candidates.map fun store => (store, score store)).reverse

theorem mem_scoredReverse {candidates : List StoreLocation} {p : StoreLocation × ℚ} :
    p ∈ scoredReverse candidates ↔ p.1 ∈ candidates ∧ p.2 = score p.1 := by
  rw [scoredReverse, List.mem_reverse, List.mem_map]
  constructor
  · rintro ⟨s, hs, rfl⟩
    exact ⟨hs, rfl⟩
  · rintro ⟨hp, hscore⟩
    exact ⟨p.1, hp, Prod.ext rfl hscore.symm⟩

theorem selectBestStore_eq : selectBestStore registry modality =
    (stableSortBy compareScores (scoredReverse (findStoresByModality registry modality))).head?.map
      Prod.fst := by
  unfold selectBestStore
  by_cases hnil : findStoresByModality registry modality = []
  · have hsorted := (@stableSortBy_perm _ compareScores (scoredReverse [])).eq_nil
    rw [hnil, hsorted]
    rfl
  · have hlength : ¬ (findStoresByModality registry modality).length = 0 := by simpa using hnil
    simp only [if_neg hlength, List.head?_eq_getElem?]
    rfl

/-- The stores as the choice is to be made: a store with the greatest score among those that
offer the modality, if there are any. -/
structure Optimal (registry : RegistryState) (modality : ModalityType) : Prop where
  none_iff : selectBestStore registry modality = none ↔
    ∀ s ∈ registry.stores.values, s.offers modality = false
  best : ∀ b, selectBestStore registry modality = some b →
    b ∈ registry.stores.values ∧ b.offers modality = true ∧
      ∀ s ∈ registry.stores.values, s.offers modality = true → score s ≤ score b

/-- The greatest score leads every smaller one among the stores that offer the modality. -/
def ClearBest (registry : RegistryState) (modality : ModalityType) : Prop :=
  ∀ b ∈ registry.stores.values, b.offers modality = true →
    (∀ s ∈ registry.stores.values, s.offers modality = true → score s ≤ score b) →
    ∀ s ∈ registry.stores.values, s.offers modality = true → score s < score b →
      Leads (score b) (score s)

theorem optimal_of_clearBest (h : ClearBest registry modality) : Optimal registry modality := by
  have hselect := @selectBestStore_eq registry modality
  cases hbest : (findStoresByModality registry modality).argmax score with
  | none =>
    have hnil := List.argmax_eq_none.mp hbest
    have hnone : selectBestStore registry modality = none := by simp [selectBestStore, hnil]
    constructor
    · refine iff_of_true hnone fun s hs => ?_
      by_contra hoffers
      have hmem := mem_findStoresByModality.mpr ⟨hs, (Bool.not_eq_false _).mp hoffers⟩
      rw [hnil] at hmem
      cases hmem
    · intro b hb
      rw [hnone] at hb
      cases hb
  | some b =>
    have hb := List.argmax_mem hbest
    obtain ⟨hvalues, hoffers⟩ := mem_findStoresByModality.mp hb
    have hmax : ∀ s ∈ registry.stores.values, s.offers modality = true → score s ≤ score b :=
      fun s hs hso => List.le_of_mem_argmax (mem_findStoresByModality.mpr ⟨hs, hso⟩) hbest
    have hwins : Wins compareScores (fun p => p.2 = score b)
        (scoredReverse (findStoresByModality registry modality)) := by
      intro p hp q hq hpb hqb
      obtain ⟨hq, hqscore⟩ := mem_scoredReverse.mp hq
      obtain ⟨hqvalues, hqoffers⟩ := mem_findStoresByModality.mp hq
      have hlt : score q.1 < score b :=
        lt_of_le_of_ne (hmax q.1 hqvalues hqoffers) (hqscore ▸ hqb)
      have hleads := h b hvalues hoffers hmax q.1 hqvalues hqoffers hlt
      rw [← hpb, ← hqscore] at hleads
      exact ⟨hleads, not_leads_of_leads hleads⟩
    obtain ⟨p, hhead, hpb⟩ :=
      led_stableSortBy hwins ⟨(b, score b), mem_scoredReverse.mpr ⟨hb, rfl⟩, rfl⟩
    have hp := (stableSortBy_perm _).mem_iff.mp (List.mem_of_mem_head? hhead)
    obtain ⟨hp, hpscore⟩ := mem_scoredReverse.mp hp
    obtain ⟨hpvalues, hpoffers⟩ := mem_findStoresByModality.mp hp
    rw [hhead, Option.map_some] at hselect
    constructor
    · rw [hselect]
      refine iff_of_false (by simp) fun hall => ?_
      rw [hall b hvalues] at hoffers
      cases hoffers
    · intro b' hb'
      rw [hselect] at hb'
      cases hb'
      refine ⟨hpvalues, hpoffers, fun s hs hso => ?_⟩
      rw [← hpscore, hpb]
      exact hmax s hs hso

end choice

/-! ### Orders of the stores -/

section orders

variable {registry : RegistryState} {modality : ModalityType}

/-- The same stores, in the order of the given entries. -/
def RegistryState.listed (registry : RegistryState) (entries : List (String × StoreLocation))
    (h : entries.Perm registry.stores.entries) : RegistryState :=
  { registry with
    stores :=
      { entries := entries
        nodup := (h.map Prod.fst).nodup_iff.mpr registry.stores.nodup
        own := fun hmem => registry.stores.own ((h.map Prod.fst).mem_iff.mp hmem) } }

theorem ClearBest.listed {r : RegistryState} (h : ClearBest registry modality)
    (hperm : r.stores.entries.Perm registry.stores.entries) : ClearBest r modality := by
  have hmem (s : StoreLocation) : s ∈ r.stores.values ↔ s ∈ registry.stores.values :=
    (hperm.map Prod.snd).mem_iff
  unfold ClearBest
  simp only [hmem]
  exact h

/-- The stores of some entries that offer the modality, with their scores. -/
def scoredEntries (modality : ModalityType) (l : List (String × StoreLocation)) :
    List (StoreLocation × ℚ) :=
  ((l.map Prod.snd).filter (·.offers modality)).map fun store => (store, score store)

theorem exists_of_mem_scoredEntries {l : List (String × StoreLocation)} {p : StoreLocation × ℚ}
    (hp : p ∈ scoredEntries modality l) : ∃ e ∈ l, p = (e.2, score e.2) := by
  obtain ⟨c, hc, rfl⟩ := List.mem_map.mp hp
  obtain ⟨e, he, rfl⟩ := List.mem_map.mp (List.mem_filter.mp hc).1
  exact ⟨e, he, rfl⟩

/-- The sort sees the stores in the reverse of their order in the dictionary. -/
theorem selectBestStore_listed {l : List (String × StoreLocation)}
    (h : l.reverse.Perm registry.stores.entries) :
    selectBestStore (registry.listed l.reverse h) modality =
      (stableSortBy compareScores (scoredEntries modality l)).head?.map Prod.fst := by
  have hfind : findStoresByModality (registry.listed l.reverse h) modality =
      ((l.map Prod.snd).filter (·.offers modality)).reverse := by
    rw [findStoresByModality, ← List.filter_reverse, ← List.map_reverse]
    rfl
  rw [selectBestStore_eq, hfind, scoredReverse, List.map_reverse, List.reverse_reverse,
    scoredEntries]

/-- The score of the store is that of `b`. -/
def isBest (b : StoreLocation) (e : String × StoreLocation) : Bool := score e.2 = score b

/-- Listed after all others, a store that the greatest score does not lead makes the choice go
wrong. -/
theorem exists_not_optimal {b s : StoreLocation} (hb : b ∈ registry.stores.values)
    (hbo : b.offers modality = true)
    (hmax : ∀ c ∈ registry.stores.values, c.offers modality = true → score c ≤ score b)
    (hs : s ∈ registry.stores.values) (hso : s.offers modality = true) (hlt : score s < score b)
    (hnot : ¬ Leads (score b) (score s)) :
    ∃ r : RegistryState, r.stores.entries.Perm registry.stores.entries ∧
      ¬ Optimal r modality := by
  obtain ⟨te, hte, rfl⟩ := List.mem_map.mp hs
  obtain ⟨before, after, hsplit⟩ := List.append_of_mem hte
  obtain ⟨l, hl⟩ : ∃ l, l = te :: ((before ++ after).filter (isBest b) ++
      (before ++ after).filter fun e => !isBest b e) := ⟨_, rfl⟩
  have hperm : l.reverse.Perm registry.stores.entries := by
    refine (List.reverse_perm l).trans ?_
    rw [hl, hsplit]
    exact ((List.filter_append_perm (isBest b) _).cons te).trans List.perm_middle.symm
  refine ⟨registry.listed l.reverse hperm, hperm, fun hoptimal => ?_⟩
  have hmem (c : StoreLocation) : c ∈ (registry.listed l.reverse hperm).stores.values ↔
      c ∈ registry.stores.values := (hperm.map Prod.snd).mem_iff
  have hscored : scoredEntries modality l = (te.2, score te.2) ::
      (scoredEntries modality ((before ++ after).filter (isBest b)) ++
        scoredEntries modality ((before ++ after).filter fun e => !isBest b e)) := by
    simp [scoredEntries, hl, hso]
  obtain ⟨p, hhead, hpb, -⟩ := @head?_stableSortBy_blocked _ compareScores
    (fun p => p.2 = score b) _ hlt.ne _ _ _ hscored
    (by
      intro q hq
      obtain ⟨e, he, rfl⟩ := exists_of_mem_scoredEntries hq
      have hscore : score e.2 = score b := by simpa [isBest] using (List.mem_filter.mp he).2
      refine ⟨hscore, ?_⟩
      change ¬ Leads (score e.2) (score te.2)
      rwa [hscore])
    (by
      intro q hq
      obtain ⟨e, he, rfl⟩ := exists_of_mem_scoredEntries hq
      simpa [isBest] using (List.mem_filter.mp he).2)
  have hselect := @selectBestStore_listed _ modality _ hperm
  rw [hhead, Option.map_some] at hselect
  obtain ⟨-, hpo, hpmax⟩ := hoptimal.best p.1 hselect
  have hp := (hoptimal.best p.1 hselect).1
  obtain ⟨e, -, rfl⟩ := exists_of_mem_scoredEntries
    ((stableSortBy_perm _).mem_iff.mp (List.mem_of_mem_head? hhead))
  exact hpb (le_antisymm (hmax _ ((hmem _).mp hp) hpo) (hpmax b ((hmem b).mpr hb) hbo))

theorem best_store_iff (registry : RegistryState) (modality : ModalityType) :
    (∀ r : RegistryState, r.stores.entries.Perm registry.stores.entries → Optimal r modality) ↔
      ClearBest registry modality := by
  constructor
  · intro h b hb hbo hmax s hs hso hlt
    by_contra hnot
    obtain ⟨r, hperm, hr⟩ := exists_not_optimal hb hbo hmax hs hso hlt hnot
    exact hr (h r hperm)
  · intro h r hperm
    exact optimal_of_clearBest (h.listed hperm)

end orders

/-! ### A near tie -/

def trusted (trustLevel : ℚ) : StoreLocation :=
  ⟨"s", "http://s", [.graph], trustLevel, none, none⟩

/-- The first store has a score that is greater by 0.0007. -/
def nearTie : RegistryState where
  mappings := .empty
  stores := .fromArray [("a", trusted (501 / 1000)), ("b", trusted (1 / 2))]
  config := defaultConfig

theorem nearTie_second : ¬ Optimal nearTie .graph := by
  intro h
  have hselect : selectBestStore nearTie .graph = some (trusted (1 / 2)) := by
    rw [selectBestStore_eq, stableSortBy, if_pos (by decide)]
    decide +kernel
  have hle := (h.best _ hselect).2.2 (trusted (501 / 1000)) (by decide +kernel) rfl
  exact absurd hle (by decide +kernel)

end NextgenDatabases.Federation
