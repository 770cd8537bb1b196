import NextgenDatabases.Federation.Registry
import Mathlib.Tactic.FieldSimp

/-!
# Quorum reads

A read returns the value of the first store that has answered, and counts the stores that have
answered with any value.
-/
namespace NextgenDatabases.Federation

variable {α : Type} {registry : RegistryState} {results : List (String × Option α)}

/-- The values that the listed stores have returned, in the order of the list. -/
def responses (results : List (String × Option α)) : List α := results.filterMap Prod.snd

/-- The number of listed stores that have returned the value. -/
def votes [DecidableEq α] (results : List (String × Option α)) (value : α) : ℕ :=
  results.countP (·.2 = some value)

/-- A value that is returned is that of as many stores as the mode asks for, and the agreement is
their share. -/
def QuorumRead [DecidableEq α] (registry : RegistryState) (results : List (String × Option α)) :
    Prop :=
  ∀ r, achieveConsensus registry results = some r →
    quorumThreshold registry.config.consistencyMode results.length ≤ votes results r.value ∧
      r.agreement = (votes results r.value : ℚ) / results.length

theorem votes_eq_count [DecidableEq α] (value : α) :
    votes results value = (responses results).count value := by
  unfold votes responses
  induction results with
  | nil => rfl
  | cons r results ih =>
    rw [List.countP_cons, ih, List.filterMap_cons]
    cases hr : r.2 with
    | none => simp
    | some v => simp [List.count_cons]

theorem map_snd_successful :
    (results.filterMap fun r => r.2.map fun val => (r.1, val)).map Prod.snd =
      responses results := by
  rw [List.map_filterMap, responses]
  refine List.filterMap_congr fun r _ => ?_
  cases r.2 <;> rfl

theorem length_successful :
    (results.filterMap fun r => r.2.map fun val => (r.1, val)).length =
      (responses results).length := by
  rw [← map_snd_successful, List.length_map]

theorem achieveConsensus_some {r : ConsensusResult α}
    (h : achieveConsensus registry results = some r) :
    (responses results).head? = some r.value ∧
      quorumThreshold registry.config.consistencyMode results.length ≤
        (responses results).length ∧
      r.agreement = ((responses results).length : ℚ) / results.length := by
  have hsnd := @map_snd_successful _ results
  have hlength := @length_successful _ results
  unfold achieveConsensus at h
  cases hs : results.filterMap fun r => r.2.map fun val => (r.1, val) with
  | nil =>
    rw [hs] at h
    cases h
  | cons e rest =>
    rw [hs] at h hsnd hlength
    dsimp only at h
    split_ifs at h with hquorum
    cases h
    rw [← hlength]
    refine ⟨?_, hquorum, rfl⟩
    rw [← hsnd]
    rfl

/-- With enough responses, the first one is returned. -/
theorem exists_achieveConsensus {v : α} {rest : List α} (hresponses : responses results = v :: rest)
    (hquorum : quorumThreshold registry.config.consistencyMode results.length ≤
      (responses results).length) :
    ∃ r, achieveConsensus registry results = some r ∧ r.value = v := by
  have hsnd := @map_snd_successful _ results
  rw [← length_successful] at hquorum
  unfold achieveConsensus
  cases hs : results.filterMap fun r => r.2.map fun val => (r.1, val) with
  | nil =>
    rw [hs, hresponses] at hsnd
    cases hsnd
  | cons e es =>
    rw [hs, hresponses, List.map_cons, List.cons.injEq] at hsnd
    rw [hs] at hquorum
    exact ⟨_, if_pos hquorum, hsnd.1⟩

theorem quorum_read_iff [DecidableEq α] (registry : RegistryState)
    (results : List (String × Option α)) : QuorumRead registry results ↔
      (responses results).length <
        quorumThreshold registry.config.consistencyMode results.length ∨
      ∀ v ∈ responses results, ∀ w ∈ responses results, v = w := by
  constructor
  · intro h
    by_cases hquorum : (responses results).length <
        quorumThreshold registry.config.consistencyMode results.length
    · exact .inl hquorum
    · right
      cases hresponses : responses results with
      | nil => simp
      | cons v rest =>
        obtain ⟨r, hr, rfl⟩ := exists_achieveConsensus hresponses (not_lt.mp hquorum)
        have hagreement := (achieveConsensus_some hr).2.2
        rw [(h r hr).2] at hagreement
        have hpos : (results.length : ℚ) ≠ 0 := by
          have hle : (responses results).length ≤ results.length := List.length_filterMap_le ..
          rw [hresponses, List.length_cons] at hle
          exact Nat.cast_ne_zero.mpr (by omega)
        have hcount : votes results r.value = (responses results).length := by
          field_simp at hagreement
          exact_mod_cast hagreement
        rw [votes_eq_count, List.count_eq_length, hresponses] at hcount
        intro v hv w hw
        exact (hcount v hv).symm.trans (hcount w hw)
  · intro h r hr
    obtain ⟨hhead, hquorum, hagreement⟩ := achieveConsensus_some hr
    have hall := h.resolve_left (not_lt.mpr hquorum)
    have hcount : votes results r.value = (responses results).length := by
      rw [votes_eq_count, List.count_eq_length]
      exact hall _ (List.mem_of_mem_head? hhead)
    rw [hcount]
    exact ⟨hquorum, hagreement⟩

/-- A registry without stores in the default mode. -/
def quorumRegistry : RegistryState := ⟨.empty, .empty, defaultConfig⟩

/-- Two of three stores return 2, and the one that is listed first returns 1. -/
def divided : List (String × Option ℕ) := [("a", some 1), ("b", some 2), ("c", some 2)]

theorem divided_minority : ¬ QuorumRead quorumRegistry divided := by
  intro h
  have hread : achieveConsensus quorumRegistry divided = some ⟨1, 3 / 3, ["a", "b", "c"]⟩ := rfl
  exact absurd (h _ hread).1 (by decide)

end NextgenDatabases.Federation
