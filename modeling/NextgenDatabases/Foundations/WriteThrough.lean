import Mathlib.Logic.Function.Basic
import Mathlib.Data.Option.Basic

/-!
# Write-through tables

A write changes the durable table, and the cached one in a later step. As long as no two writes of
one key are on the way together, the durable table has what the cached one has, and what is on the
way to it.
-/
namespace NextgenDatabases.Foundations

variable {ι K V W : Type*}

/-- A durable table and one in memory. -/
structure WriteThrough (ι K V W : Type*) where
  durable : K → Option W
  cached : K → Option V
  /-- The writes that the cached table does not have yet; `none` removes the key. -/
  calls : ι → Option (K × Option V)

namespace WriteThrough

/-- A write of the key is on the way. -/
def Busy (s : WriteThrough ι K V W) (k : K) : Prop := ∃ i v, s.calls i = some (k, v)

/-- Memory is lost and loaded from the durable table. -/
def reload (s : WriteThrough ι K V W) (load : W → Option V) : WriteThrough ι K V W where
  durable := s.durable
  cached k := (s.durable k).bind load
  calls _ := none

/-- What the durable table would be loaded as is the cached table after all writes on the way. -/
structure Ahead (save : V → W) (load : W → Option V) (s : WriteThrough ι K V W) : Prop where
  idle : ∀ k, ¬ s.Busy k → (s.durable k).bind load = s.cached k
  saved : ∀ i k v, s.calls i = some (k, v) → s.durable k = v.map save
  loaded : ∀ i k v, s.calls i = some (k, v) → (v.map save).bind load = v
  alone : ∀ i j k v w, s.calls i = some (k, v) → s.calls j = some (k, w) → i = j

theorem not_busy_reload (s : WriteThrough ι K V W) (load : W → Option V) (k : K) :
    ¬ (s.reload load).Busy k := by
  rintro ⟨i, v, h⟩
  cases h

theorem Ahead.reload (s : WriteThrough ι K V W) (save : V → W) (load : W → Option V) :
    Ahead save load (s.reload load) where
  idle _ _ := rfl
  saved _ _ _ h := by cases h
  loaded _ _ _ h := by cases h
  alone _ _ _ _ _ h := by cases h

variable [DecidableEq ι] [DecidableEq K]

def write (s : WriteThrough ι K V W) (save : V → W) (i : ι) (k : K) (v : Option V) :
    WriteThrough ι K V W :=
  { s with
    durable := Function.update s.durable k (v.map save)
    calls := Function.update s.calls i (some (k, v)) }

def finish (s : WriteThrough ι K V W) (i : ι) (k : K) (v : Option V) : WriteThrough ι K V W :=
  { s with
    cached := Function.update s.cached k v
    calls := Function.update s.calls i none }

variable {s : WriteThrough ι K V W} {load : W → Option V} {save : V → W} {i : ι} {k : K}
  {v : Option V}

theorem busy_write {k' : K} (hfree : s.calls i = none) :
    (s.write save i k v).Busy k' ↔ k' = k ∨ s.Busy k' := by
  constructor
  · rintro ⟨j, w, hj⟩
    by_cases hji : j = i
    · subst hji
      simp only [write, Function.update_self, Option.some.injEq, Prod.mk.injEq] at hj
      exact .inl hj.1.symm
    · exact .inr ⟨j, w, (Function.update_of_ne hji _ _).symm.trans hj⟩
  · rintro (rfl | ⟨j, w, hj⟩)
    · exact ⟨i, v, Function.update_self _ _ _⟩
    · have hji : j ≠ i := by
        rintro rfl
        rw [hfree] at hj
        cases hj
      exact ⟨j, w, (Function.update_of_ne hji _ _).trans hj⟩

theorem Busy.of_finish {k' : K} (h : (s.finish i k v).Busy k') : s.Busy k' := by
  obtain ⟨j, w, hj⟩ := h
  by_cases hji : j = i
  · subst hji
    simp [finish] at hj
  · exact ⟨j, w, (Function.update_of_ne hji _ _).symm.trans hj⟩

/-- A write of a key that has none on the way, with a value that is loaded as it was. -/
theorem Ahead.write (h : Ahead save load s) (hfree : s.calls i = none) (hidle : ¬ s.Busy k)
    (hload : ∀ a ∈ v, load (save a) = some a) : Ahead save load (s.write save i k v) := by
  have hv : (v.map save).bind load = v := by
    cases v with
    | none => rfl
    | some a => exact hload a rfl
  have hother : ∀ {j k' w}, j ≠ i → (s.write save i k v).calls j = some (k', w) →
      s.calls j = some (k', w) := fun hji hj => (Function.update_of_ne hji _ _).symm.trans hj
  have hself : ∀ {k' w}, (s.write save i k v).calls i = some (k', w) → k = k' ∧ v = w := by
    intro k' w hi
    simpa [WriteThrough.write] using hi
  refine ⟨fun k' hk' => ?_, fun j k' w hj => ?_, fun j k' w hj => ?_, fun j j' k' w w' hj hj' => ?_⟩
  · rw [busy_write hfree, not_or] at hk'
    simpa [WriteThrough.write, hk'.1] using h.idle k' hk'.2
  · by_cases hji : j = i
    · subst hji
      obtain ⟨rfl, rfl⟩ := hself hj
      exact Function.update_self _ _ _
    · have hne : k' ≠ k := by
        rintro rfl
        exact hidle ⟨j, w, hother hji hj⟩
      simpa [WriteThrough.write, hne] using h.saved j k' w (hother hji hj)
  · by_cases hji : j = i
    · subst hji
      obtain ⟨rfl, rfl⟩ := hself hj
      exact hv
    · exact h.loaded j k' w (hother hji hj)
  · by_cases hji : j = i
    · subst hji
      by_cases hji' : j' = j
      · exact hji'.symm
      · obtain ⟨rfl, -⟩ := hself hj
        exact absurd ⟨j', w', hother hji' hj'⟩ hidle
    · by_cases hji' : j' = i
      · subst hji'
        obtain ⟨rfl, -⟩ := hself hj'
        exact absurd ⟨j, w, hother hji hj⟩ hidle
      · exact h.alone j j' k' w w' (hother hji hj) (hother hji' hj')

theorem not_busy_finish (h : Ahead save load s) (hcall : s.calls i = some (k, v)) :
    ¬ (s.finish i k v).Busy k := by
  rintro ⟨j, w, hj⟩
  by_cases hji : j = i
  · subst hji
    simp [finish] at hj
  · exact hji (h.alone j i k w v ((Function.update_of_ne hji _ _).symm.trans hj) hcall)

theorem Ahead.finish (h : Ahead save load s) (hcall : s.calls i = some (k, v)) :
    Ahead save load (s.finish i k v) := by
  have hother : ∀ {j k' w}, (s.finish i k v).calls j = some (k', w) →
      s.calls j = some (k', w) := by
    intro j k' w hj
    by_cases hji : j = i
    · subst hji
      simp [WriteThrough.finish] at hj
    · exact (Function.update_of_ne hji _ _).symm.trans hj
  refine ⟨fun k' hk' => ?_, fun j k' w hj => h.saved j k' w (hother hj),
    fun j k' w hj => h.loaded j k' w (hother hj),
    fun j j' k' w w' hj hj' => h.alone j j' k' w w' (hother hj) (hother hj')⟩
  by_cases hkey : k' = k
  · subst hkey
    have hloaded := h.loaded i k' v hcall
    rw [← h.saved i k' v hcall] at hloaded
    simpa [WriteThrough.finish] using hloaded
  · have hidle : ¬ s.Busy k' := by
      rintro ⟨j, w, hj⟩
      have hji : j ≠ i := by
        rintro rfl
        rw [hcall] at hj
        cases hj
        exact hkey rfl
      exact hk' ⟨j, w, (Function.update_of_ne hji _ _).trans hj⟩
    simpa [WriteThrough.finish, hkey] using h.idle k' hidle

end WriteThrough

end NextgenDatabases.Foundations
