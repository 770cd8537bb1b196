import Mathlib.Logic.Function.Basic
import Mathlib.Data.List.Induction
import Mathlib.Data.List.Nodup

/-!
# Edits of a keyed store

A transaction that buffers its edits may keep what it writes and what it deletes apart, and apply
all writes before all deletions. This is the order of the program when no key is written after it
was deleted, which holds when every edit names a key that is there and inserted keys are new.
-/
namespace NextgenDatabases.Foundations

variable {κ ν : Type*}

inductive Edit (κ ν : Type*)
  | insert (key : κ) (value : ν)
  | update (key : κ) (value : ν)
  | delete (key : κ)

namespace Edit

def key : Edit κ ν → κ
  | insert k _ | update k _ | delete k => k

/-- What the key holds afterwards. -/
def value : Edit κ ν → Option ν
  | insert _ v | update _ v => some v
  | delete _ => none

/-- An update or deletion names a key that is in the store. -/
def Names (m : κ → Option ν) : Edit κ ν → Prop
  | insert _ _ => True
  | update k _ | delete k => (m k).isSome

def inserts : List (Edit κ ν) → List κ :=
  List.filterMap fun
    | insert k _ => some k
    | _ => none

/-- The keys of the updates and deletions. -/
def changes : List (Edit κ ν) → List κ :=
  List.filterMap fun
    | insert _ _ => none
    | update k _ | delete k => some k

def writes : List (Edit κ ν) → List (κ × ν) :=
  List.filterMap fun
    | insert k v | update k v => some (k, v)
    | delete _ => none

def deletes : List (Edit κ ν) → List κ :=
  List.filterMap fun
    | delete k => some k
    | _ => none

variable [DecidableEq κ]

def run (m : κ → Option ν) (e : Edit κ ν) : κ → Option ν := Function.update m e.key e.value

end Edit

open Edit

variable [DecidableEq κ]

/-- The edits in program order. -/
def replay (m : κ → Option ν) (es : List (Edit κ ν)) : κ → Option ν := es.foldl Edit.run m

def putAll (m : κ → Option ν) (ws : List (κ × ν)) : κ → Option ν :=
  ws.foldl (fun m w => Function.update m w.1 (some w.2)) m

def eraseAll (m : κ → Option ν) (ds : List κ) : κ → Option ν :=
  ds.foldl (fun m k => Function.update m k none) m

/-- Every edit names a key that is there when it is made. -/
def Live : (κ → Option ν) → List (Edit κ ν) → Prop
  | _, [] => True
  | m, e :: es => e.Names m ∧ Live (e.run m) es

variable {m m' : κ → Option ν} {k : κ}

@[simp] theorem replay_nil : replay m [] = m := rfl

@[simp] theorem replay_cons (e : Edit κ ν) (es : List (Edit κ ν)) :
    replay m (e :: es) = replay (e.run m) es := rfl

theorem replay_append (es fs : List (Edit κ ν)) :
    replay m (es ++ fs) = replay (replay m es) fs :=
  List.foldl_append

theorem live_append {es fs : List (Edit κ ν)} :
    Live m (es ++ fs) ↔ Live m es ∧ Live (replay m es) fs := by
  induction es generalizing m with
  | nil => simp [Live]
  | cons e es ih => simp [Live, ih, and_assoc]

theorem run_same (e : Edit κ ν) : e.run m e.key = e.value := Function.update_self ..

theorem run_of_ne {e : Edit κ ν} (h : k ≠ e.key) : e.run m k = m k := Function.update_of_ne h ..

/-! ### One key at a time -/

theorem run_congr (e : Edit κ ν) (h : m k = m' k) : e.run m k = e.run m' k := by
  by_cases hk : k = e.key
  · rw [hk, run_same, run_same]
  · rw [run_of_ne hk, run_of_ne hk, h]

theorem replay_congr (es : List (Edit κ ν)) (h : m k = m' k) : replay m es k = replay m' es k := by
  induction es generalizing m m' with
  | nil => exact h
  | cons e es ih => exact ih (run_congr e h)

theorem replay_of_forall_ne {es : List (Edit κ ν)} (h : ∀ e ∈ es, k ≠ e.key) :
    replay m es k = m k := by
  induction es generalizing m with
  | nil => rfl
  | cons e es ih =>
    rw [replay_cons, ih fun f hf => h f (.tail _ hf), run_of_ne (h e (.head _))]

/-- Where a key was edited, the store before does not matter. -/
theorem replay_of_mem {es : List (Edit κ ν)} {e : Edit κ ν} (he : e ∈ es) :
    replay m es e.key = replay m' es e.key := by
  induction es generalizing m m' with
  | nil => cases he
  | cons f es ih =>
    rcases List.mem_cons.mp he with rfl | he
    · exact replay_congr es (by rw [run_same, run_same])
    · exact ih he

theorem putAll_concat (ws : List (κ × ν)) (w : κ × ν) :
    putAll m (ws ++ [w]) = Function.update (putAll m ws) w.1 (some w.2) := by
  rw [putAll, List.foldl_append]
  rfl

theorem putAll_congr (ws : List (κ × ν)) (h : m k = m' k) : putAll m ws k = putAll m' ws k := by
  induction ws generalizing m m' with
  | nil => exact h
  | cons w ws ih =>
    refine @ih (Function.update m w.1 _) (Function.update m' w.1 _) ?_
    by_cases hk : k = w.1
    · subst hk
      rw [Function.update_self, Function.update_self]
    · rw [Function.update_of_ne hk, Function.update_of_ne hk, h]

theorem putAll_of_notMem {ws : List (κ × ν)} (h : k ∉ ws.map Prod.fst) :
    putAll m ws k = m k := by
  induction ws generalizing m with
  | nil => rfl
  | cons w ws ih =>
    rw [List.map_cons, List.mem_cons, not_or] at h
    exact (ih h.2).trans (Function.update_of_ne h.1 ..)

/-- A key holds what was written to it last. -/
theorem putAll_last {pre post : List (κ × ν)} {w : κ × ν} (h : w.1 ∉ post.map Prod.fst) :
    putAll m (pre ++ w :: post) w.1 = some w.2 := by
  rw [putAll, List.foldl_append, List.foldl_cons, ← putAll, putAll_of_notMem h,
    Function.update_self]

theorem putAll_isSome {ws : List (κ × ν)} (h : k ∈ ws.map Prod.fst) :
    (putAll m ws k).isSome := by
  induction ws generalizing m with
  | nil => cases h
  | cons w ws ih =>
    by_cases hk : k ∈ ws.map Prod.fst
    · exact ih hk
    · have hkw : k = w.1 := by simpa [hk] using h
      subst hkw
      have hlast : putAll m ([] ++ w :: ws) w.1 = some w.2 := putAll_last hk
      rw [List.nil_append] at hlast
      rw [hlast]
      rfl

theorem putAll_eq_or (ws : List (κ × ν)) :
    putAll m ws k = (putAll (fun _ => none) ws k).or (m k) := by
  induction ws using List.reverseRec with
  | nil => rfl
  | append_singleton ws w ih =>
    rw [putAll_concat, putAll_concat]
    by_cases hk : k = w.1
    · subst hk
      rw [Function.update_self, Function.update_self]
      rfl
    · rw [Function.update_of_ne hk, Function.update_of_ne hk, ih]

/-- Writes of different keys are all there. -/
theorem putAll_eq_some {ws : List (κ × ν)}
    (h : (ws.map Prod.fst).Nodup) {v : ν} :
    putAll (fun _ => none) ws k = some v ↔ (k, v) ∈ ws := by
  induction ws using List.reverseRec with
  | nil => simp [putAll]
  | append_singleton ws w ih =>
    rw [List.map_append, List.nodup_append] at h
    rw [putAll_concat, List.mem_append, List.mem_singleton]
    by_cases hk : k = w.1
    · subst hk
      have hnew : (w.1, v) ∉ ws := fun hmem =>
        h.2.2 w.1 (List.mem_map.mpr ⟨_, hmem, rfl⟩) w.1 (by simp) rfl
      rw [Function.update_self, Option.some.injEq]
      simp [hnew, Prod.ext_iff, eq_comm]
    · have hne : (k, v) ≠ w := fun heq => hk (congrArg Prod.fst heq)
      rw [Function.update_of_ne hk, ih h.1]
      simp [hne]

theorem eraseAll_apply (ds : List κ) : eraseAll m ds k = if k ∈ ds then none else m k := by
  induction ds generalizing m with
  | nil => rfl
  | cons d ds ih =>
    rw [eraseAll, List.foldl_cons, ← eraseAll, ih]
    by_cases hk : k = d
    · simp [hk]
    · simp [hk]

/-! ### Writes before deletions -/

/-- No key is written after it was deleted. -/
def Ordered (es : List (Edit κ ν)) : Prop :=
  es.Pairwise fun e f => e.value = none → f.value ≠ none → f.key ≠ e.key

theorem eraseAll_update {ds : List κ} {v : Option ν} (h : k ∉ ds) :
    eraseAll (Function.update m k v) ds = Function.update (eraseAll m ds) k v := by
  funext j
  by_cases hj : j = k
  · subst hj
    simp [eraseAll_apply, h]
  · simp [eraseAll_apply, Function.update_of_ne hj]

omit [DecidableEq κ] in
theorem writes_append (es fs : List (Edit κ ν)) : writes (es ++ fs) = writes es ++ writes fs :=
  List.filterMap_append

omit [DecidableEq κ] in
theorem deletes_append (es fs : List (Edit κ ν)) : deletes (es ++ fs) = deletes es ++ deletes fs :=
  List.filterMap_append

omit [DecidableEq κ] in
theorem inserts_append (es fs : List (Edit κ ν)) : inserts (es ++ fs) = inserts es ++ inserts fs :=
  List.filterMap_append

omit [DecidableEq κ] in
theorem mem_deletes {es : List (Edit κ ν)} : k ∈ deletes es ↔ Edit.delete k ∈ es := by
  rw [deletes, List.mem_filterMap]
  constructor
  · intro ⟨e, he, hk⟩
    cases e with
    | delete j =>
      cases hk
      exact he
    | insert | update => cases hk
  · exact fun h => ⟨_, h, rfl⟩

omit [DecidableEq κ] in
theorem mem_writes {es : List (Edit κ ν)} {w : κ × ν} (h : w ∈ writes es) :
    ∃ e ∈ es, e.key = w.1 := by
  obtain ⟨e, he, hw⟩ := List.mem_filterMap.mp h
  refine ⟨e, he, ?_⟩
  cases e with
  | insert k v | update k v =>
    cases hw
    rfl
  | delete k => cases hw

/-- Writing first and deleting afterwards is what the edits do in program order. -/
theorem eraseAll_putAll {es : List (Edit κ ν)} (h : Ordered es) :
    eraseAll (putAll m (writes es)) (deletes es) = replay m es := by
  induction es using List.reverseRec with
  | nil => rfl
  | append_singleton es e ih =>
    obtain ⟨hes, -, he⟩ := List.pairwise_append.mp h
    rw [replay_append, ← ih hes, writes_append, deletes_append]
    have hwrite (k : κ) (v : ν) (hek : e.key = k) (hev : e.value = some v) :
        eraseAll (putAll m (writes es ++ [(k, v)])) (deletes es)
          = e.run (eraseAll (putAll m (writes es)) (deletes es)) := by
      have hk : k ∉ deletes es := by
        intro hk
        exact he _ (mem_deletes.mp hk) e (.head _) rfl (by simp [hev]) hek
      rw [putAll_concat, eraseAll_update hk, Edit.run, hek, hev]
    cases e with
    | insert k v => simpa [writes, deletes] using hwrite k v rfl rfl
    | update k v => simpa [writes, deletes] using hwrite k v rfl rfl
    | delete k => simp [writes, deletes, eraseAll, Edit.run, Edit.key, Edit.value]

omit [DecidableEq κ] in
theorem mem_inserts {es : List (Edit κ ν)} : k ∈ inserts es ↔ ∃ v, Edit.insert k v ∈ es := by
  rw [inserts, List.mem_filterMap]
  constructor
  · intro ⟨e, he, hk⟩
    cases e with
    | insert j v =>
      cases hk
      exact ⟨v, he⟩
    | update | delete => cases hk
  · exact fun ⟨v, h⟩ => ⟨_, h, rfl⟩

omit [DecidableEq κ] in
/-- What names a key that is not there inserts it. -/
theorem Edit.Names.mem_inserts {e : Edit κ ν} (h : e.Names m) (hk : m e.key = none)
    (es : List (Edit κ ν)) : e.key ∈ inserts (e :: es) := by
  cases e with
  | insert => simp [inserts, Edit.key]
  | update j _ | delete j =>
    have hsome : (m j).isSome := h
    rw [show m j = none from hk] at hsome
    cases hsome

/-- Live edits do not touch a key that is neither there nor inserted. -/
theorem Live.key_ne {es : List (Edit κ ν)} (hlive : Live m es) (hk : m k = none)
    (hins : k ∉ inserts es) : ∀ e ∈ es, e.key ≠ k := by
  induction es generalizing m with
  | nil => simp
  | cons e es ih =>
    have hne : e.key ≠ k := by
      rintro rfl
      exact hins (hlive.1.mem_inserts hk es)
    have hins' : k ∉ inserts es := by
      intro h
      obtain ⟨v, hv⟩ := mem_inserts.mp h
      exact hins (mem_inserts.mpr ⟨v, .tail _ hv⟩)
    have hrest := ih hlive.2 (by rw [run_of_ne hne.symm, hk]) hins'
    simpa [hne] using hrest

omit [DecidableEq κ] in
theorem changes_append (es fs : List (Edit κ ν)) : changes (es ++ fs) = changes es ++ changes fs :=
  List.filterMap_append

/-- Only the keys that are updated or deleted matter. -/
theorem Live.congr {es : List (Edit κ ν)} (hlive : Live m es)
    (h : ∀ k ∈ changes es, m k = m' k) : Live m' es := by
  induction es generalizing m m' with
  | nil => trivial
  | cons e es ih =>
    rw [← List.singleton_append, changes_append] at h
    refine ⟨?_, ih hlive.2 fun k hk => run_congr e (h k (List.mem_append_right _ hk))⟩
    have hself := hlive.1
    cases e with
    | insert => trivial
    | update k _ | delete k =>
      have hk := h k (List.mem_append_left _ (by simp [changes]))
      exact (congrArg Option.isSome hk).symm.trans hself

theorem Live.replay_none {es : List (Edit κ ν)} (hlive : Live m es) (hk : m k = none)
    (hins : k ∉ inserts es) : replay m es k = none := by
  rw [replay_of_forall_ne fun e he => (hlive.key_ne hk hins e he).symm, hk]

/-- Live edits whose inserted keys are new never write a key after deleting it. -/
theorem Live.ordered {es : List (Edit κ ν)} (hlive : Live m es)
    (hnew : ∀ k ∈ inserts es, m k = none) (hnodup : (inserts es).Nodup) : Ordered es := by
  induction es generalizing m with
  | nil => exact .nil
  | cons e es ih =>
    rw [← List.singleton_append, inserts_append] at hnew hnodup
    have hdisj := (List.nodup_append.mp hnodup).2.2
    have hfresh : ∀ k ∈ inserts es, k ≠ e.key := by
      rintro k hk rfl
      have hself := hlive.1.mem_inserts (hnew _ (List.mem_append_right _ hk)) []
      exact hdisj _ hself _ hk rfl
    refine List.pairwise_cons.mpr ⟨?_, ih hlive.2 ?_ hnodup.of_append_right⟩
    · intro f hf he _
      have hrun : e.run m e.key = none := by rw [run_same, he]
      exact hlive.2.key_ne hrun (fun hk => hfresh _ hk rfl) f hf
    · intro k hk
      rw [run_of_ne (hfresh k hk), hnew k (List.mem_append_right _ hk)]

end NextgenDatabases.Foundations
