import Mathlib.Data.List.Nodup
import Mathlib.Logic.Function.Basic

/-!
# Lists with a key

A list that holds at most one entry for each key, in the order in which the keys came. What `find?`,
`replaceF`, `filter` and `++` do to such a list is a change of the entry of one key.
-/
namespace NextgenDatabases.Foundations

open Function (update)

variable {κ β : Type}

/-- The entries of the keys that have one. -/
def entries (f : κ → Option β) (keys : List κ) : List β := keys.filterMap f

/-- Every entry has its key. -/
def IsKeyed (key : β → κ) (f : κ → Option β) : Prop := ∀ k b, f k = some b → key b = k

variable {key : β → κ} {f : κ → Option β} {keys : List κ} {k : κ} {b : β}

@[simp] theorem mem_entries : b ∈ entries f keys ↔ ∃ k ∈ keys, f k = some b := List.mem_filterMap

theorem entries_congr {g : κ → Option β} (h : ∀ k ∈ keys, f k = g k) :
    entries f keys = entries g keys := List.filterMap_congr h

section

variable [DecidableEq κ]

theorem entries_update_of_notMem {x : Option β} (h : k ∉ keys) :
    entries (update f k x) keys = entries f keys := by
  refine entries_congr fun k' hk' => Function.update_of_ne ?_ _ _
  rintro rfl
  exact h hk'

end

namespace IsKeyed

theorem mem_iff (h : IsKeyed key f) : b ∈ entries f keys ↔ key b ∈ keys ∧ f (key b) = some b := by
  rw [mem_entries]
  constructor
  · rintro ⟨k, hk, hb⟩
    obtain rfl := h k b hb
    exact ⟨hk, hb⟩
  · rintro ⟨hk, hb⟩
    exact ⟨key b, hk, hb⟩

theorem map_key (h : IsKeyed key f) :
    (entries f keys).map key = keys.filter fun k => (f k).isSome := by
  induction keys with
  | nil => rfl
  | cons k keys ih =>
    rw [entries] at ih ⊢
    cases hb : f k with
    | none => simp [hb, ih]
    | some b => simp [hb, ih, h k b hb]

theorem nodup (h : IsKeyed key f) (hkeys : keys.Nodup) : ((entries f keys).map key).Nodup := by
  rw [h.map_key]
  exact hkeys.filter _

variable [DecidableEq κ]

theorem set (h : IsKeyed key f) {x : Option β} (hx : ∀ b, x = some b → key b = k) :
    IsKeyed key (update f k x) := by
  intro k' b hb
  rcases eq_or_ne k' k with rfl | hne
  · exact hx b (by simpa using hb)
  · exact h k' b (by simpa [hne] using hb)

theorem find?_eq (h : IsKeyed key f) :
    (entries f keys).find? (fun b => key b = k) = if k ∈ keys then f k else none := by
  induction keys with
  | nil => rfl
  | cons k' keys ih =>
    rw [entries] at ih ⊢
    cases hb : f k' with
    | none =>
      rw [List.filterMap_cons_none hb, ih]
      rcases eq_or_ne k k' with rfl | hne
      · simp [hb]
      · simp [hne]
    | some b =>
      rw [List.filterMap_cons_some hb, List.find?_cons]
      rcases eq_or_ne k k' with rfl | hne
      · simp [h k b hb, hb]
      · simp [h k' b hb, hne, hne.symm, ih]

theorem replaceF_eq (h : IsKeyed key f) (hkeys : keys.Nodup) (hsome : (f k).isSome) (b : β) :
    (entries f keys).replaceF (fun c => if key c = k then some b else none) =
      entries (update f k (some b)) keys := by
  induction keys with
  | nil => rfl
  | cons k' keys ih =>
    obtain ⟨hnew, hkeys⟩ := List.nodup_cons.mp hkeys
    rcases eq_or_ne k' k with rfl | hne
    · obtain ⟨c, hc⟩ := Option.isSome_iff_exists.mp hsome
      have hrest : entries (update f k' (some b)) keys = entries f keys :=
        entries_update_of_notMem hnew
      unfold entries at hrest ⊢
      rw [List.filterMap_cons_some hc, List.filterMap_cons_some (Function.update_self ..), hrest,
        List.replaceF_cons_of_some _ (by rw [if_pos (h k' c hc)])]
    · have hsame : update f k (some b) k' = f k' := Function.update_of_ne hne _ _
      have hrest := ih hkeys
      unfold entries at hrest ⊢
      cases hc : f k' with
      | none => rw [List.filterMap_cons_none hc, List.filterMap_cons_none (hsame.trans hc), hrest]
      | some c =>
        rw [List.filterMap_cons_some hc, List.filterMap_cons_some (hsame.trans hc),
          List.replaceF_cons_of_none _ (by rw [if_neg (h k' c hc ▸ hne)]), hrest]

theorem filter_eq (h : IsKeyed key f) :
    (entries f keys).filter (fun b => key b ≠ k) = entries (update f k none) keys := by
  rw [entries, List.filter_filterMap]
  refine List.filterMap_congr fun k' _ => ?_
  rcases eq_or_ne k' k with rfl | hne
  · rw [Function.update_self]
    cases hb : f k' with
    | none => rfl
    | some b => simp [h k' b hb]
  · rw [Function.update_of_ne hne]
    cases hb : f k' with
    | none => rfl
    | some b => simp [h k' b hb, hne]

end IsKeyed

/-- A new key comes last. -/
theorem entries_concat [DecidableEq κ] (h : k ∉ keys) (b : β) :
    entries (update f k (some b)) (keys ++ [k]) = entries f keys ++ [b] := by
  have hold : entries (update f k (some b)) keys = entries f keys := entries_update_of_notMem h
  rw [entries] at hold
  rw [entries, List.filterMap_append, hold, List.filterMap_cons_some (Function.update_self ..)]
  rfl

end NextgenDatabases.Foundations
