import NextgenDatabases.Conflicts.Resolver
import NextgenDatabases.Foundations.Keyed

/-!
# The life of a conflict

A conflict is detected once and finished at most once. The active conflicts are those that have been
detected and not yet removed, in the order of their detection.
-/
namespace NextgenDatabases.Conflicts

open Foundations
open Verisim (Modality)
open Wal (DateTime)
open Function (update)

variable {ι D : Type}

namespace Conflict

def IsLive (c : Conflict D) : Prop := c.status = .opened ∨ c.status = .inProgress

/-- The conflict as it was when it was detected. -/
def asDetected (c : Conflict D) : Conflict D := { c with status := .opened, resolution := none }

theorem asDetected_eq {c d : Conflict D} (h : c.asDetected = d.asDetected) :
    c.id = d.id ∧ c.entityId = d.entityId ∧ c.driftScore = d.driftScore := by
  obtain ⟨hid, hentity, -, -, hdrift, -⟩ := Conflict.mk.inj h
  exact ⟨hid, hentity, hdrift⟩

end Conflict

def Call.detects : Call D → Option (Conflict D)
  | .detectConflict id now entityId modalities driftScore description =>
    some ⟨id, entityId, now, modalities, driftScore, description, .opened, none⟩
  | _ => none

def Answer.isOk : Answer D → Bool
  | .resolution (.ok _) | .dismissed (.ok _) => true
  | _ => false

@[simp] theorem Ending.isOk_accept (ending : Ending) (r : ConflictResolution) :
    (ending.accept r : Answer D).isOk = true := by cases ending <;> rfl

@[simp] theorem Ending.isOk_refuse (ending : Ending) (error : ConflictError) :
    (ending.refuse error : Answer D).isOk = false := by cases ending <;> rfl

/-! ### What a call does to a conflict -/

section settle

variable [LE D] [DecidableLE D] [ToString D] {config : ConflictConfig D} {now : DateTime}
  {ending : Ending} {c d : Conflict D} {error : ConflictError} {r : ConflictResolution}

/-- The three ways to finish a conflict begin with the same guard. -/
theorem Ending.settle_of_not_live (h : ¬ c.IsLive) :
    ending.settle config now c = .refused c (.alreadyResolved c.id) := by
  have hstatus : c.status = .resolved ∨ c.status = .dismissed := by
    unfold Conflict.IsLive at h
    cases hs : c.status <;> simp_all
  cases ending <;>
    simp [settle, Conflict.resolve, Conflict.resolveManual, Conflict.dismiss, hstatus]

theorem Ending.settle_refused (h : ending.settle config now c = .refused d error) :
    d = c ∨ c.IsLive ∧ d = { c with status := .inProgress } := by
  by_cases hlive : c.IsLive
  · cases ending with
    | resolve policy =>
      simp only [settle, Conflict.resolve] at h
      split_ifs at h with hdone hdrift
      · cases h
        exact .inl rfl
      · cases h
        exact .inr ⟨hlive, rfl⟩
      · split at h <;> cases h
        all_goals exact .inr ⟨hlive, rfl⟩
    | resolveManual winningModality resolver notes =>
      simp only [settle, Conflict.resolveManual] at h
      split_ifs at h <;> cases h
      all_goals exact .inl rfl
    | dismiss reason =>
      simp only [settle, Conflict.dismiss] at h
      split_ifs at h
      cases h
      exact .inl rfl
  · rw [settle_of_not_live hlive] at h
    cases h
    exact .inl rfl

theorem Ending.settle_finished (h : ending.settle config now c = .finished d r) :
    c.IsLive ∧ ¬ d.IsLive ∧ d.asDetected = c.asDetected := by
  have hlive : c.IsLive := by
    by_contra hnot
    rw [settle_of_not_live hnot] at h
    cases h
  refine ⟨hlive, ?_⟩
  cases ending with
  | resolve policy =>
    simp only [settle, Conflict.resolve] at h
    split_ifs at h
    split at h <;> cases h
    all_goals exact ⟨by simp [Conflict.IsLive], rfl⟩
  | resolveManual winningModality resolver notes =>
    simp only [settle, Conflict.resolveManual] at h
    split_ifs at h
    cases h
    exact ⟨by simp [Conflict.IsLive], rfl⟩
  | dismiss reason =>
    simp only [settle, Conflict.dismiss] at h
    split_ifs at h
    cases h
    exact ⟨by simp [Conflict.IsLive], rfl⟩

/-- A policy does not resolve a conflict with a high drift. -/
theorem Conflict.not_le_of_resolve {policy : Option ConflictPolicy}
    (h : c.resolve config now policy = .finished d r) :
    ¬ config.requireManualAbove ≤ c.driftScore := by
  intro hle
  simp only [resolve, if_pos hle] at h
  split_ifs at h

end settle

/-! ### Lives -/

/-- How far a call that finishes a conflict has come. -/
inductive Stage
  | marked | removed | done
  deriving DecidableEq

def Reached.stage : Reached D → Option Stage
  | .marked _ _ => some .marked
  | .removed _ _ => some .removed
  | .answered answer | .returned answer => if answer.isOk then some .done else none
  | .begun | .reading _ => none

/-- What the call holds of a conflict that it finishes. -/
def Reached.Carries (after : Conflict D) (ok : Answer D) : Reached D → Prop
  | .marked c answer | .removed c answer => c = after ∧ answer = ok
  | .answered answer | .returned answer => answer = ok
  | .begun | .reading _ => False

/-- The call has a section of this kind. -/
def Reached.Fits (call : Call D) : Reached D → Prop
  | .marked _ _ | .removed _ _ => ∃ now id ending, call = .finish now id ending
  | .reading entityId => call = .byEntity entityId
  | .begun | .answered _ | .returned _ => True

/-- Where an identifier stands. -/
inductive Life (ι D : Type)
  | undetected
  | live (c : Conflict D)
  /-- The call `i` has found the conflict as `before` and made `after` of it. -/
  | finishing (i : ι) (stage : Stage) (before after : Conflict D)

namespace Life

/-- The conflict in the list of active conflicts. -/
def shown : Life ι D → Option (Conflict D)
  | undetected => none
  | live c => some c
  | finishing _ .marked _ after => some after
  | finishing _ .removed _ _ | finishing _ .done _ _ => none

/-- The conflict in that list if calls that have not returned had not begun. -/
def pending : Life ι D → Option (Conflict D)
  | undetected => none
  | live c => some c
  | finishing _ .marked before _ | finishing _ .removed before _ => some before
  | finishing _ .done _ _ => none

def conflict : Life ι D → Option (Conflict D)
  | undetected => none
  | live c => some c
  | finishing _ _ _ after => some after

end Life

namespace System

variable {s : System ι D}

/-- A call has detected the conflict, whatever has become of it. -/
def Detected (s : System ι D) (c : Conflict D) : Prop :=
  ∃ i call reached, s.calls i = some (call, reached) ∧ reached ≠ .begun ∧
    call.detects = some c.asDetected

/-- Identifiers are drawn once. -/
def Fresh (s : System ι D) : Act ι D → Prop
  | .invoke _ call => ∀ c, call.detects = some c →
    ∀ j call' reached c', s.calls j = some (call', reached) → call'.detects = some c' → c'.id ≠ c.id
  | .proceed _ | .respond _ => True

/-! ### Steps -/

section step

variable [DecidableEq ι] [LE D] [DecidableLE D] [ToString D]

/-- What a step does. -/
inductive Moves (config : ConflictConfig D) (s : System ι D) : Act ι D → System ι D → Prop
  | invoke (i : ι) (call : Call D) (hi : s.calls i = none) : Moves config s (.invoke i call)
    ⟨s.resolver, s.readers, update s.calls i (some (call, .begun)), s.seen ++ [.invoke i call]⟩
  | proceed (i : ι) (call : Call D) (reached reached' : Reached D) (resolver : Resolver D)
    (readers : ℕ) (hi : s.calls i = some (call, reached))
    (hnext : s.resolver.next config call reached = some (reached', resolver)) :
    Moves config s (.proceed i)
      ⟨resolver, readers, update s.calls i (some (call, reached')), s.seen⟩
  | respond (i : ι) (call : Call D) (answer : Answer D)
    (hi : s.calls i = some (call, .answered answer)) : Moves config s (.respond i)
    ⟨s.resolver, s.readers, update s.calls i (some (call, .returned answer)),
      s.seen ++ [.respond i answer]⟩

theorem step_moves {config : ConflictConfig D} {a : Act ι D} {t : System ι D}
    (h : s.step config a = some t) : s.Moves config a t := by
  cases a with
  | invoke i call =>
    simp only [step] at h
    split at h
    · cases h
    · next hi =>
      cases h
      exact .invoke i call hi
  | proceed i =>
    simp only [step] at h
    split at h
    · cases h
    · next call reached hi =>
      split_ifs at h
      obtain ⟨⟨reached', resolver⟩, hnext, rfl⟩ := Option.map_eq_some_iff.mp h
      exact .proceed i call reached reached' resolver _ hi hnext
  | respond i =>
    simp only [step] at h
    split at h
    · next call answer hi =>
      cases h
      exact .respond i call answer hi
    · cases h

end step

/-- The same calls are there, and none of them is back at its beginning. -/
def Continues (s t : System ι D) : Prop :=
  ∀ j call reached, s.calls j = some (call, reached) →
    ∃ reached', t.calls j = some (call, reached') ∧ (reached ≠ .begun → reached' ≠ .begun)

theorem Detected.mono {t : System ι D} {c : Conflict D} (hc : s.Detected c) (h : s.Continues t) :
    t.Detected c := by
  obtain ⟨i, call, reached, hi, hbegun, hcall⟩ := hc
  obtain ⟨reached', hi', hbegun'⟩ := h i call reached hi
  exact ⟨i, call, reached', hi', hbegun' hbegun, hcall⟩

section continues

variable [DecidableEq ι] {t : System ι D} {i : ι} {call : Call D} {reached reached' : Reached D}

theorem continues_of_update (hi : s.calls i = some (call, reached)) (hbegun : reached' ≠ .begun)
    (ht : t.calls = update s.calls i (some (call, reached'))) : s.Continues t := by
  intro j call' r hj
  rw [ht]
  rcases eq_or_ne j i with rfl | hne
  · rw [hi] at hj
    cases hj
    exact ⟨reached', Function.update_self .., fun _ => hbegun⟩
  · exact ⟨r, by rwa [Function.update_of_ne hne], id⟩

theorem continues_of_invoke (hi : s.calls i = none)
    (ht : t.calls = update s.calls i (some (call, .begun))) : s.Continues t := by
  intro j call' r hj
  rw [ht]
  rcases eq_or_ne j i with rfl | hne
  · rw [hi] at hj
    cases hj
  · exact ⟨r, by rwa [Function.update_of_ne hne], id⟩

end continues

/-- A conflict is new, or was detected before. -/
theorem Detected.of_update [DecidableEq ι] {t : System ι D} {c : Conflict D} {i : ι} {call : Call D}
    {reached' : Reached D} (ht : t.calls = update s.calls i (some (call, reached')))
    (hc : t.Detected c) :
    s.Detected c ∨ reached' ≠ .begun ∧ call.detects = some c.asDetected := by
  obtain ⟨j, call', r, hj, hbegun, hcall⟩ := hc
  rw [ht] at hj
  rcases eq_or_ne j i with rfl | hne
  · rw [Function.update_self] at hj
    cases hj
    exact .inr ⟨hbegun, hcall⟩
  · exact .inl ⟨j, call', r, by rwa [Function.update_of_ne hne] at hj, hbegun, hcall⟩

end System

/-! ### The invariant -/

theorem Life.conflict_of_shown {l : Life ι D} {c : Conflict D} (h : l.shown = some c) :
    l.conflict = some c := by
  cases l with
  | undetected => cases h
  | live => exact h
  | finishing i stage => cases stage <;> first | exact h | cases h

/-- What a call that finishes a conflict finds. -/
theorem Resolver.settle_entries {f : String → Option (Conflict D)} {ids : List String}
    (hf : IsKeyed Conflict.id f) (hids : ids.Nodup) {id : String} (hnone : id ∉ ids → f id = none)
    (history : List (Conflict D)) (g : Conflict D → Settled D) :
    (⟨entries f ids, history⟩ : Resolver D).settle id g = (f id).map fun c =>
      (g c, ⟨entries (update f id (some (g c).conflict)) ids, history⟩) := by
  have hfind : (if id ∈ ids then f id else none) = f id := by
    split_ifs with hid
    · rfl
    · exact (hnone hid).symm
  unfold settle
  rw [hf.find?_eq, hfind]
  refine Option.map_congr fun c hc => ?_
  rw [hf.replaceF_eq hids (by rw [hc]; rfl)]

variable [LE D] [DecidableLE D] [ToString D]

/-- The identifiers in the order of detection, and the life of each. -/
structure Track (config : ConflictConfig D) (s : System ι D) (ids : List String)
    (life : String → Life ι D) : Prop where
  nodup : ids.Nodup
  known : ∀ id, (life id).conflict.isSome ↔ id ∈ ids
  active : s.resolver.activeConflicts = entries (Life.shown ∘ life) ids
  ident : ∀ id c, (life id).conflict = some c → c.id = id
  isLive : ∀ id c, life id = .live c → c.IsLive
  detected : ∀ id c, (life id).conflict = some c → s.Detected c
  present : ∀ c, s.Detected c → c.id ∈ ids
  drawn : ∀ i j call call' reached reached' c c', s.calls i = some (call, reached) →
    s.calls j = some (call', reached') → call.detects = some c → call'.detects = some c' →
    c.id = c'.id → i = j
  finishing : ∀ id i stage before after, life id = .finishing i stage before after →
    ∃ now ending reached r, s.calls i = some (.finish now id ending, reached) ∧
      reached.stage = some stage ∧ ending.settle config now before = .finished after r ∧
      reached.Carries after (ending.accept r)
  calls : ∀ i now id ending reached stage, s.calls i = some (.finish now id ending, reached) →
    reached.stage = some stage → ∃ before after, life id = .finishing i stage before after
  fits : ∀ i call reached, s.calls i = some (call, reached) → reached.Fits call
  history : ∀ c ∈ s.resolver.history, ∃ i before, life c.id = .finishing i .done before c
  historyNodup : (s.resolver.history.map Conflict.id).Nodup

theorem track_new {config : ConflictConfig D} :
    Track config (System.new : System ι D) [] fun _ => .undetected where
  nodup := List.nodup_nil
  known := by simp [Life.conflict]
  active := rfl
  ident := by simp [Life.conflict]
  isLive := by simp
  detected := by simp [Life.conflict]
  present := by
    rintro c ⟨i, call, reached, hi, -⟩
    cases hi
  drawn := by
    intro i j call call' reached reached' c c' hi
    cases hi
  finishing := by simp
  calls := by
    intro i now id ending reached stage hi
    cases hi
  fits := by
    intro i call reached hi
    cases hi
  history := by simp [System.new, Resolver.new]
  historyNodup := List.nodup_nil

namespace Track

variable [DecidableEq ι] {config : ConflictConfig D} {s t : System ι D} {ids : List String}
  {life : String → Life ι D} {i : ι} {call : Call D} {reached reached' : Reached D} {id : String}
  {now : DateTime} {ending : Ending}

omit [DecidableEq ι] in
theorem keyed (h : Track config s ids life) : IsKeyed Conflict.id (Life.shown ∘ life) :=
  fun id c hc => h.ident id c (Life.conflict_of_shown hc)

omit [DecidableEq ι] in
/-- A call that is about to detect a conflict has an identifier of its own. -/
theorem new_id (h : Track config s ids life) {c : Conflict D} (hi : s.calls i = some (call, .begun))
    (hc : call.detects = some c) : c.id ∉ ids := by
  intro hmem
  obtain ⟨d, hd⟩ := Option.isSome_iff_exists.mp ((h.known c.id).mpr hmem)
  obtain ⟨j, call', r, hj, hbegun, hcall⟩ := h.detected c.id d hd
  obtain rfl := h.drawn i j call call' _ _ c _ hi hj hc hcall (h.ident c.id d hd).symm
  rw [hi] at hj
  cases hj
  exact hbegun rfl

theorem drawn_of_update (h : Track config s ids life) (hi : s.calls i = some (call, reached))
    (ht : t.calls = update s.calls i (some (call, reached'))) (j k : ι) (call₁ call₂ : Call D)
    (r₁ r₂ : Reached D) (c₁ c₂ : Conflict D) (hj : t.calls j = some (call₁, r₁))
    (hk : t.calls k = some (call₂, r₂)) (h₁ : call₁.detects = some c₁)
    (h₂ : call₂.detects = some c₂) (hid : c₁.id = c₂.id) : j = k := by
  have hold : ∀ {k call' r}, t.calls k = some (call', r) → ∃ r, s.calls k = some (call', r) := by
    intro k call' r hk
    rw [ht, Function.update_apply] at hk
    split_ifs at hk with hki
    · cases hk
      exact ⟨reached, hki ▸ hi⟩
    · exact ⟨r, hk⟩
  obtain ⟨r₁, hj⟩ := hold hj
  obtain ⟨r₂, hk⟩ := hold hk
  exact h.drawn j k call₁ call₂ r₁ r₂ c₁ c₂ hj hk h₁ h₂ hid

theorem fits_of_update (h : Track config s ids life)
    (ht : t.calls = update s.calls i (some (call, reached'))) (hfits : reached'.Fits call) (j : ι)
    (call' : Call D) (r : Reached D) (hj : t.calls j = some (call', r)) : r.Fits call' := by
  rw [ht, Function.update_apply] at hj
  split_ifs at hj
  · cases hj
    exact hfits
  · exact h.fits j call' r hj

omit [DecidableEq ι] in
/-- The life of a conflict belongs to the call that finishes it. -/
theorem eq_of_finishing (h : Track config s ids life) {stage : Stage} {before after : Conflict D}
    (hi : s.calls i = some (.finish now id ending, reached)) {id' : String}
    (hlife : life id' = .finishing i stage before after) :
    id' = id ∧ reached.stage = some stage ∧
      ∃ r, ending.settle config now before = .finished after r ∧
        reached.Carries after (ending.accept r) := by
  obtain ⟨now', ending', reached', r, hi', hstage, hsettle, hcarries⟩ := h.finishing _ _ _ _ _ hlife
  rw [hi] at hi'
  cases hi'
  exact ⟨rfl, hstage, r, hsettle, hcarries⟩

/-- A section that finishes nothing and leaves the lists alone. -/
theorem quiet (h : Track config s ids life) (hi : s.calls i = some (call, reached))
    (ht : t.calls = update s.calls i (some (call, reached'))) (hbegun : reached' ≠ .begun)
    (hfits : reached'.Fits call) (hdetects : call.detects = none ∨ reached ≠ .begun)
    (hactive : t.resolver.activeConflicts = s.resolver.activeConflicts)
    (hhistory : t.resolver.history = s.resolver.history)
    (hstage : reached'.stage = reached.stage)
    (hcarries : ∀ after ok, reached.Carries after ok → reached'.Carries after ok) :
    Track config t ids life where
  nodup := h.nodup
  known := h.known
  active := hactive.trans h.active
  ident := h.ident
  isLive := h.isLive
  detected := fun id c hc => (h.detected id c hc).mono (System.continues_of_update hi hbegun ht)
  present := by
    intro c hc
    rcases hc.of_update ht with hold | ⟨-, hnew⟩
    · exact h.present c hold
    · rcases hdetects with hnone | hne
      · rw [hnone] at hnew
        cases hnew
      · exact h.present c ⟨i, call, reached, hi, hne, hnew⟩
  drawn := h.drawn_of_update hi ht
  finishing := by
    intro id j stage before after hlife
    obtain ⟨now, ending, r, res, hj, hst, hsettle, hcar⟩ := h.finishing id j stage before after hlife
    rw [ht]
    rcases eq_or_ne j i with rfl | hne
    · rw [hi] at hj
      cases hj
      exact ⟨now, ending, reached', res, Function.update_self .., hstage.trans hst, hsettle,
        hcarries _ _ hcar⟩
    · exact ⟨now, ending, r, res, by rwa [Function.update_of_ne hne], hst, hsettle, hcar⟩
  calls := by
    intro j now id ending r stage hj hst
    rw [ht, Function.update_apply] at hj
    split_ifs at hj with hji
    · cases hj
      exact hji ▸ h.calls i now id ending reached stage hi (hstage ▸ hst)
    · exact h.calls j now id ending r stage hj hst
  fits := h.fits_of_update ht hfits
  history := hhistory ▸ h.history
  historyNodup := hhistory ▸ h.historyNodup

/-- A section of a call that finishes a conflict. -/
theorem change (h : Track config s ids life)
    (hi : s.calls i = some (.finish now id ending, reached))
    (ht : t.calls = update s.calls i (some (.finish now id ending, reached')))
    (hbegun : reached' ≠ .begun) (hfits : reached'.Fits (.finish now id ending)) {l : Life ι D}
    {c : Conflict D} (hc : l.conflict = some c) (hid : c.id = id)
    (hdetected : s.Detected c) (hlive : ∀ c, l = .live c → c.IsLive)
    (hactive : t.resolver.activeConflicts = entries (update (Life.shown ∘ life) id l.shown) ids)
    (hown : ∀ j stage before after, life id = .finishing j stage before after → j = i)
    (hfinishing : ∀ j stage before after, l = .finishing j stage before after → j = i ∧
      reached'.stage = some stage ∧ ∃ r, ending.settle config now before = .finished after r ∧
        reached'.Carries after (ending.accept r))
    (hcalls : ∀ stage, reached'.stage = some stage → ∃ before after,
      l = .finishing i stage before after)
    (hhistory : ∀ c ∈ t.resolver.history, ∃ j before,
      update life id l c.id = .finishing j .done before c)
    (hnodup : (t.resolver.history.map Conflict.id).Nodup) :
    Track config t ids (update life id l) where
  nodup := h.nodup
  known := by
    intro id'
    rcases eq_or_ne id' id with rfl | hne
    · simp only [Function.update_self, hc, Option.isSome_some, true_iff]
      exact hid ▸ h.present c hdetected
    · rw [Function.update_of_ne hne]
      exact h.known id'
  active := by rw [Function.comp_update, hactive]
  ident := by
    intro id' c' hc'
    rcases eq_or_ne id' id with rfl | hne
    · rw [Function.update_self, hc] at hc'
      cases hc'
      exact hid
    · exact h.ident id' c' (by rwa [Function.update_of_ne hne] at hc')
  isLive := by
    intro id' c' hl
    rcases eq_or_ne id' id with rfl | hne
    · exact hlive c' (by rwa [Function.update_self] at hl)
    · exact h.isLive id' c' (by rwa [Function.update_of_ne hne] at hl)
  detected := by
    intro id' c' hc'
    refine System.Detected.mono ?_ (System.continues_of_update hi hbegun ht)
    rcases eq_or_ne id' id with rfl | hne
    · rw [Function.update_self, hc] at hc'
      cases hc'
      exact hdetected
    · exact h.detected id' c' (by rwa [Function.update_of_ne hne] at hc')
  present := by
    intro c' hc'
    rcases hc'.of_update ht with hold | ⟨-, hnew⟩
    · exact h.present c' hold
    · cases hnew
  drawn := h.drawn_of_update hi ht
  finishing := by
    intro id' j stage before after hl
    rcases eq_or_ne id' id with rfl | hne
    · rw [Function.update_self] at hl
      obtain ⟨rfl, hstage, r, hsettle, hcarries⟩ := hfinishing j stage before after hl
      exact ⟨now, ending, reached', r, by rw [ht, Function.update_self], hstage, hsettle, hcarries⟩
    · rw [Function.update_of_ne hne] at hl
      obtain ⟨now', ending', r, res, hj, hst, hsettle, hcar⟩ :=
        h.finishing id' j stage before after hl
      have hji : j ≠ i := by
        rintro rfl
        exact hne (h.eq_of_finishing hi hl).1
      exact ⟨now', ending', r, res, by rw [ht, Function.update_of_ne hji, hj], hst, hsettle, hcar⟩
  calls := by
    intro j now' id' ending' r stage hj hst
    rw [ht] at hj
    rcases eq_or_ne j i with rfl | hne
    · rw [Function.update_self] at hj
      cases hj
      rw [Function.update_self]
      exact hcalls stage hst
    · rw [Function.update_of_ne hne] at hj
      obtain ⟨before, after, hl⟩ := h.calls j now' id' ending' r stage hj hst
      refine ⟨before, after, ?_⟩
      rw [Function.update_of_ne, hl]
      rintro rfl
      exact hne (hown j stage before after hl)
  fits := h.fits_of_update ht hfits
  history := hhistory
  historyNodup := hnodup

/-! ### Each step keeps it -/

theorem invoke (h : Track config s ids life) (hi : s.calls i = none)
    (hfresh : s.Fresh (.invoke i call)) :
    Track config ⟨s.resolver, s.readers, update s.calls i (some (call, .begun)),
      s.seen ++ [.invoke i call]⟩ ids life where
  nodup := h.nodup
  known := h.known
  active := h.active
  ident := h.ident
  isLive := h.isLive
  detected := fun id c hc => (h.detected id c hc).mono (System.continues_of_invoke hi rfl)
  present := by
    intro c hc
    rcases hc.of_update rfl with hold | ⟨hbegun, -⟩
    · exact h.present c hold
    · exact absurd rfl hbegun
  drawn := by
    intro j k call₁ call₂ r₁ r₂ c₁ c₂ hj hk h₁ h₂ hid
    simp only [Function.update_apply] at hj hk
    split_ifs at hj hk with hji hki hki
    · exact hji.trans hki.symm
    · cases hj
      exact absurd hid.symm (hfresh c₁ h₁ k call₂ r₂ c₂ hk h₂)
    · cases hk
      exact absurd hid (hfresh c₂ h₂ j call₁ r₁ c₁ hj h₁)
    · exact h.drawn j k call₁ call₂ r₁ r₂ c₁ c₂ hj hk h₁ h₂ hid
  finishing := by
    intro id j stage before after hl
    obtain ⟨now, ending, r, res, hj, hst, hsettle, hcar⟩ := h.finishing id j stage before after hl
    have hji : j ≠ i := by
      rintro rfl
      rw [hi] at hj
      cases hj
    exact ⟨now, ending, r, res, (Function.update_of_ne hji _ _).trans hj, hst, hsettle, hcar⟩
  calls := by
    intro j now id ending r stage hj hst
    simp only [Function.update_apply] at hj
    split_ifs at hj with hji
    · cases hj
      cases hst
    · exact h.calls j now id ending r stage hj hst
  fits := h.fits_of_update rfl trivial
  history := h.history
  historyNodup := h.historyNodup

theorem detect (h : Track config s ids life) {c : Conflict D} {readers : ℕ}
    (hi : s.calls i = some (call, .begun)) (hc : call.detects = some c) :
    Track config ⟨s.resolver.detectConflict c, readers,
      update s.calls i (some (call, .answered (.conflict c))), s.seen⟩
      (ids ++ [c.id]) (update life c.id (.live c)) := by
  have hnew := h.new_id hi hc
  have hopen : c.status = .opened ∧ c.asDetected = c := by
    cases call <;> cases hc
    exact ⟨rfl, rfl⟩
  have hkept : ∀ {id}, id ∈ ids → update life c.id (.live c) id = life id := by
    intro id hid
    refine Function.update_of_ne ?_ _ _
    rintro rfl
    exact hnew hid
  have hfin : ∀ {id j stage before after}, life id = .finishing j stage before after → id ∈ ids := by
    intro id j stage before after hl
    exact (h.known id).mp (by rw [hl]; rfl)
  have hcontinues : s.Continues ⟨s.resolver.detectConflict c, readers,
      update s.calls i (some (call, .answered (.conflict c))), s.seen⟩ :=
    System.continues_of_update hi (by simp) rfl
  refine ⟨?_, ?_, ?_, ?_, ?_, ?_, ?_, h.drawn_of_update hi rfl, ?_, ?_, h.fits_of_update rfl trivial,
    ?_, h.historyNodup⟩
  · exact List.nodup_append.mpr ⟨h.nodup, List.nodup_singleton _, by
      rintro id hid _ hmem rfl
      exact hnew (List.mem_singleton.mp hmem ▸ hid)⟩
  · intro id
    rcases eq_or_ne id c.id with rfl | hne
    · simp [Life.conflict]
    · rw [Function.update_of_ne hne, h.known]
      simp [hne]
  · change s.resolver.activeConflicts ++ [c] = _
    rw [h.active, Function.comp_update]
    exact (entries_concat hnew c).symm
  · intro id d hd
    rcases eq_or_ne id c.id with rfl | hne
    · rw [Function.update_self] at hd
      cases hd
      rfl
    · exact h.ident id d (by rwa [Function.update_of_ne hne] at hd)
  · intro id d hd
    rcases eq_or_ne id c.id with rfl | hne
    · rw [Function.update_self] at hd
      cases hd
      exact .inl hopen.1
    · exact h.isLive id d (by rwa [Function.update_of_ne hne] at hd)
  · intro id d hd
    rcases eq_or_ne id c.id with rfl | hne
    · rw [Function.update_self] at hd
      cases hd
      exact ⟨i, call, _, Function.update_self .., by simp, hopen.2 ▸ hc⟩
    · exact (h.detected id d (by rwa [Function.update_of_ne hne] at hd)).mono hcontinues
  · intro d hd
    rcases hd.of_update rfl with hold | ⟨-, hcall⟩
    · exact List.mem_append_left _ (h.present d hold)
    · rw [hc] at hcall
      have hid : c.id = d.id := by rw [Option.some.inj hcall]; rfl
      exact List.mem_append_right _ (List.mem_singleton.mpr hid.symm)
  · intro id j stage before after hl
    rcases eq_or_ne id c.id with rfl | hne
    · rw [Function.update_self] at hl
      cases hl
    · rw [Function.update_of_ne hne] at hl
      obtain ⟨now, ending, r, res, hj, hst, hsettle, hcar⟩ := h.finishing id j stage before after hl
      have hji : j ≠ i := by
        rintro rfl
        rw [hi] at hj
        cases hj
        cases hst
      exact ⟨now, ending, r, res, (Function.update_of_ne hji _ _).trans hj, hst, hsettle, hcar⟩
  · intro j now id ending r stage hj hst
    simp only [Function.update_apply] at hj
    split_ifs at hj with hji
    · cases hj
      cases hc
    · obtain ⟨before, after, hl⟩ := h.calls j now id ending r stage hj hst
      exact ⟨before, after, by rw [hkept (hfin hl), hl]⟩
  · intro d hd
    obtain ⟨j, before, hl⟩ := h.history d hd
    exact ⟨j, before, by rw [hkept (hfin hl), hl]⟩

omit [DecidableEq ι] in
theorem undetected_of_notMem (h : Track config s ids life) (hid : id ∉ ids) :
    life id = .undetected := by
  have hnone := mt (h.known id).mp hid
  cases hl : life id with
  | undetected => rfl
  | live => simp [hl, Life.conflict] at hnone
  | finishing => simp [hl, Life.conflict] at hnone

omit [DecidableEq ι] in
theorem settle_eq (h : Track config s ids life) (id : String) (f : Conflict D → Settled D) :
    s.resolver.settle id f = (life id).shown.map fun c =>
      (f c, ⟨entries (update (Life.shown ∘ life) id (some (f c).conflict)) ids,
        s.resolver.history⟩) := by
  have hresolver : s.resolver = ⟨entries (Life.shown ∘ life) ids, s.resolver.history⟩ := by
    rw [← h.active]
  rw [hresolver]
  refine Resolver.settle_entries h.keyed h.nodup (fun hid => ?_) _ f
  rw [Function.comp_apply, h.undetected_of_notMem hid]
  rfl

theorem refuse (h : Track config s ids life) {c d : Conflict D} {error : ConflictError}
    {readers : ℕ} (hi : s.calls i = some (.finish now id ending, .begun))
    (hl : life id = .live c) (hsettle : ending.settle config now c = .refused d error) :
    Track config ⟨⟨entries (update (Life.shown ∘ life) id (some d)) ids, s.resolver.history⟩, readers,
      update s.calls i (some (.finish now id ending, .answered (ending.refuse error))), s.seen⟩
      ids (update life id (.live d)) := by
  have hlive := h.isLive id c hl
  have hc : (life id).conflict = some c := by rw [hl]; rfl
  have hd : d.asDetected = c.asDetected ∧ d.IsLive := by
    rcases Ending.settle_refused hsettle with rfl | ⟨-, rfl⟩
    · exact ⟨rfl, hlive⟩
    · exact ⟨rfl, .inr rfl⟩
  have hid : d.id = id := (Conflict.asDetected_eq hd.1).1.trans (h.ident id c hc)
  obtain ⟨j, call', r, hj, hbegun, hcall⟩ := h.detected id c hc
  refine h.change hi rfl (by simp) (by trivial) rfl hid ⟨j, call', r, hj, hbegun, hd.1 ▸ hcall⟩ ?_ rfl ?_
    ?_ ?_ ?_ h.historyNodup
  · intro c' hc'
    cases hc'
    exact hd.2
  · intro j stage before after hl'
    rw [hl] at hl'
    cases hl'
  · intro j stage before after hl'
    cases hl'
  · simp [Reached.stage]
  · intro c' hc'
    obtain ⟨j, before, hdone⟩ := h.history c' hc'
    refine ⟨j, before, ?_⟩
    rw [Function.update_of_ne, hdone]
    rintro rfl
    rw [hl] at hdone
    cases hdone

theorem mark (h : Track config s ids life) {c d : Conflict D} {r : ConflictResolution}
    {readers : ℕ} (hi : s.calls i = some (.finish now id ending, .begun))
    (hl : life id = .live c) (hsettle : ending.settle config now c = .finished d r) :
    Track config ⟨⟨entries (update (Life.shown ∘ life) id (some d)) ids, s.resolver.history⟩, readers,
      update s.calls i (some (.finish now id ending, .marked d (ending.accept r))), s.seen⟩
      ids (update life id (.finishing i .marked c d)) := by
  obtain ⟨-, -, hd⟩ := Ending.settle_finished hsettle
  have hc : (life id).conflict = some c := by rw [hl]; rfl
  have hid : d.id = id := (Conflict.asDetected_eq hd).1.trans (h.ident id c hc)
  obtain ⟨j, call', r', hj, hbegun, hcall⟩ := h.detected id c hc
  refine h.change hi rfl (by simp) (by exact ⟨now, id, ending, rfl⟩) rfl hid
    ⟨j, call', r', hj, hbegun, hd ▸ hcall⟩ ?_ rfl ?_ ?_ ?_ ?_ h.historyNodup
  · intro c' hc'
    cases hc'
  · intro j stage before after hl'
    rw [hl] at hl'
    cases hl'
  · intro j stage before after hl'
    cases hl'
    exact ⟨rfl, rfl, r, hsettle, rfl, rfl⟩
  · intro stage hst
    cases hst
    exact ⟨c, d, rfl⟩
  · intro c' hc'
    obtain ⟨j, before, hdone⟩ := h.history c' hc'
    refine ⟨j, before, ?_⟩
    rw [Function.update_of_ne, hdone]
    rintro rfl
    rw [hl] at hdone
    cases hdone

omit [DecidableEq ι] in
/-- What a call that is past its first section holds. -/
theorem holds (h : Track config s ids life) {stage : Stage} (hstage : reached.stage = some stage)
    (hi : s.calls i = some (.finish now id ending, reached)) :
    ∃ before after r, life id = .finishing i stage before after ∧ after.id = id ∧
      s.Detected after ∧ ending.settle config now before = .finished after r ∧
      reached.Carries after (ending.accept r) := by
  obtain ⟨before, after, hl⟩ := h.calls i now id ending reached stage hi hstage
  have hc : (life id).conflict = some after := by rw [hl]; rfl
  obtain ⟨-, -, r, hsettle, hcarries⟩ := h.eq_of_finishing hi hl
  exact ⟨before, after, r, hl, h.ident id after hc, h.detected id after hc, hsettle, hcarries⟩

theorem retain (h : Track config s ids life) {before after : Conflict D} {answer : Answer D}
    {readers : ℕ} (hi : s.calls i = some (.finish now id ending, .marked after answer))
    (hl : life id = .finishing i .marked before after) :
    Track config ⟨s.resolver.retain after, readers,
      update s.calls i (some (.finish now id ending, .removed after answer)), s.seen⟩
      ids (update life id (.finishing i .removed before after)) := by
  have hc : (life id).conflict = some after := by rw [hl]; rfl
  have hid := h.ident id after hc
  obtain ⟨-, -, r, hsettle, hcarries⟩ := h.eq_of_finishing hi hl
  refine h.change hi rfl (by simp) (by exact ⟨now, id, ending, rfl⟩) rfl hid (h.detected id after hc) ?_ ?_ ?_
    ?_ ?_ ?_ h.historyNodup
  · intro c' hc'
    cases hc'
  · change s.resolver.activeConflicts.filter (·.id ≠ after.id) = _
    rw [h.active, hid]
    exact h.keyed.filter_eq
  · intro j stage b a hl'
    rw [hl] at hl'
    cases hl'
    rfl
  · intro j stage b a hl'
    cases hl'
    exact ⟨rfl, rfl, r, hsettle, hcarries⟩
  · intro stage hst
    cases hst
    exact ⟨before, after, rfl⟩
  · intro c' hc'
    obtain ⟨j, b, hdone⟩ := h.history c' hc'
    refine ⟨j, b, ?_⟩
    rw [Function.update_of_ne, hdone]
    rintro rfl
    rw [hl] at hdone
    cases hdone

end Track

omit [LE D] [DecidableLE D] [ToString D] in
theorem Resolver.history_push_sublist (config : ConflictConfig D) (self : Resolver D)
    (c : Conflict D) : (self.push config c).history.Sublist (self.history ++ [c]) := by
  simp only [push]
  split_ifs
  · exact List.drop_sublist _ _
  · exact List.Sublist.refl _

namespace Track

variable [DecidableEq ι] {config : ConflictConfig D} {s t : System ι D} {ids : List String}
  {life : String → Life ι D} {i : ι} {id : String} {now : DateTime} {ending : Ending}

theorem push (h : Track config s ids life) {before after : Conflict D} {answer : Answer D}
    {readers : ℕ} (hi : s.calls i = some (.finish now id ending, .removed after answer))
    (hl : life id = .finishing i .removed before after) :
    Track config ⟨s.resolver.push config after, readers,
      update s.calls i (some (.finish now id ending, .answered answer)), s.seen⟩
      ids (update life id (.finishing i .done before after)) := by
  have hc : (life id).conflict = some after := by rw [hl]; rfl
  have hid := h.ident id after hc
  obtain ⟨-, -, r, hsettle, -, hanswer⟩ := h.eq_of_finishing hi hl
  have hold : ∀ c ∈ s.resolver.history, c.id ≠ id := by
    rintro c hmem rfl
    obtain ⟨j, b, hdone⟩ := h.history c hmem
    rw [hl] at hdone
    cases hdone
  have hsub := Resolver.history_push_sublist config s.resolver after
  refine h.change hi rfl (by simp) (by trivial) rfl hid (h.detected id after hc) ?_ ?_ ?_ ?_ ?_ ?_ ?_
  · intro c' hc'
    cases hc'
  · change s.resolver.activeConflicts = _
    have hshown : (Life.shown ∘ life) id = none := by rw [Function.comp_apply, hl]; rfl
    rw [h.active]
    exact congrArg (entries · ids) (by rw [Life.shown, ← hshown, Function.update_eq_self])
  · intro j stage b a hl'
    rw [hl] at hl'
    cases hl'
    rfl
  · intro j stage b a hl'
    cases hl'
    exact ⟨rfl, by simp [Reached.stage, hanswer], r, hsettle, hanswer⟩
  · intro stage hst
    rw [hanswer] at hst
    obtain rfl : .done = stage := by simpa [Reached.stage] using hst
    exact ⟨before, after, rfl⟩
  · intro c' hc'
    rcases List.mem_append.mp (hsub.subset hc') with hmem | hmem
    · obtain ⟨j, b, hdone⟩ := h.history c' hmem
      exact ⟨j, b, by rw [Function.update_of_ne (hold c' hmem), hdone]⟩
    · obtain rfl := List.mem_singleton.mp hmem
      exact ⟨i, before, by rw [hid, Function.update_self]⟩
  · refine (hsub.map Conflict.id).nodup ?_
    rw [List.map_append, List.map_singleton]
    refine List.nodup_append.mpr ⟨h.historyNodup, List.nodup_singleton _, ?_⟩
    rintro id' hmem _ hmem' rfl
    obtain ⟨c', hc', hid'⟩ := List.mem_map.mp hmem
    exact hold c' hc' (hid'.trans ((List.mem_singleton.mp hmem').trans hid))

end Track
end NextgenDatabases.Conflicts
