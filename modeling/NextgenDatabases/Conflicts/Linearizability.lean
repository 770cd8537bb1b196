import NextgenDatabases.Conflicts.Lives

/-!
# The resolver as one object

A call that finishes a conflict takes effect for all callers when the conflict enters the history.
Until then other callers can see the conflict marked among the active ones, or nowhere. They cannot
if no call reads or finishes a conflict while it is on its way.
-/
namespace NextgenDatabases.Conflicts

open Foundations
open Wal (DateTime)
open Function (update)

variable {ι D : Type}

namespace System

/-- The conflict has been marked and is not yet in the history. -/
def Moving (s : System ι D) (c : Conflict D) : Prop :=
  ∃ i call answer,
    s.calls i = some (call, .marked c answer) ∨ s.calls i = some (call, .removed c answer)

/-- The section does not look at a conflict that another call is moving to the history. -/
def Undisturbed (s : System ι D) : Act ι D → Prop
  | .proceed i =>
    match s.calls i with
    | some (.finish _ conflictId _, .begun) => ∀ c, s.Moving c → c.id ≠ conflictId
    | some (.activeConflicts, .begun) => ∀ c, ¬ s.Moving c
    | some (_, .reading entityId) => ∀ c, s.Moving c → c.entityId ≠ entityId
    | _ => True
  | .invoke _ _ | .respond _ => True

def Calm (s : System ι D) (a : Act ι D) : Prop := s.Fresh a ∧ s.Undisturbed a

/-- The conflict was moved to the history and has been drained from it. -/
def Evicted (s : System ι D) (id : String) : Prop :=
  (∃ i now ending reached, s.calls i = some (.finish now id ending, reached) ∧
    reached.stage = some .done) ∧ ∀ c ∈ s.resolver.history, c.id ≠ id

/-- The answer of `by_entity` has every conflict of the entity once. -/
def ListsOnce (s : System ι D) (i : ι) : Prop :=
  ∀ call entityId, s.calls i = some (call, .reading entityId) →
    ∀ c, s.Detected c → c.entityId = entityId → ¬ s.Evicted c.id →
      ((s.resolver.byEntity entityId).map Conflict.id).count c.id = 1

end System

variable [LE D] [DecidableLE D] [ToString D]

/-- What the calls of a run have done and answered is what they do and answer on one object. -/
structure OneObject (config : ConflictConfig D) (ok : System ι D → Act ι D → Prop)
    (s : System ι D) : Prop where
  linearizable : Linearizable (Resolver.perform config) .new s.seen
  once : ∀ i j now now' id ending ending' reached reached',
    s.calls i = some (.finish now id ending, reached) →
    s.calls j = some (.finish now' id ending', reached') →
    reached.stage.isSome → reached'.stage.isSome → i = j
  activeConflicts : ∀ i reached cs, s.calls i = some (.activeConflicts, reached) →
    reached = .answered (.conflicts cs) ∨ reached = .returned (.conflicts cs) →
    ∀ c ∈ cs, c.status = .opened ∨ c.status = .inProgress
  byEntity : ∀ i, ok s (.proceed i) → s.ListsOnce i
  manual : ∀ i now id policy reached, s.calls i = some (.finish now id (.resolve policy), reached) →
    reached.stage.isSome → ∀ c, s.Detected c → c.id = id →
      ¬ config.requireManualAbove ≤ c.driftScore

/-! ### The moment at which a call takes effect -/

def Reached.progress (call : Call D) : Reached D → Progress (Call D) (Answer D)
  | .answered answer => .performed call answer
  | .returned _ => .returned
  | .begun | .marked _ _ | .removed _ _ | .reading _ => .pending call

def System.progress (s : System ι D) (i : ι) : Option (Progress (Call D) (Answer D)) :=
  (s.calls i).map fun a => a.2.progress a.1

/-- The lists without what calls on their way have done. -/
def System.object (s : System ι D) (ids : List String) (life : String → Life ι D) :
    AtomicObject ι (Call D) (Answer D) (Resolver D) :=
  ⟨⟨entries (Life.pending ∘ life) ids, s.resolver.history⟩, s.progress⟩

section progress

omit [LE D] [DecidableLE D] [ToString D]

variable [DecidableEq ι] {s t : System ι D} {i : ι} {call : Call D} {reached reached' : Reached D}

theorem System.progress_of_update (ht : t.calls = update s.calls i (some (call, reached'))) :
    t.progress = update s.progress i (some (reached'.progress call)) := by
  funext j
  unfold progress
  rw [ht]
  rcases eq_or_ne j i with rfl | hne
  · simp
  · simp [hne]

omit [DecidableEq ι] in
theorem System.progress_eq (hi : s.calls i = some (call, reached)) :
    s.progress i = some (reached.progress call) := by
  rw [progress, hi]
  rfl

end progress

variable [DecidableEq ι] {config : ConflictConfig D} {s t : System ι D} {ids ids' : List String}
  {life life' : String → Life ι D} {i : ι} {call : Call D} {reached reached' : Reached D}
  {id : String} {answer : Answer D}

/-- A section that performs the call. -/
theorem System.performs (hi : s.calls i = some (call, reached))
    (hpending : reached.progress call = .pending call)
    (ht : t.calls = update s.calls i (some (call, .answered answer)))
    (hperform : Resolver.perform config (s.object ids life).state call =
      (answer, (t.object ids' life').state)) :
    (s.object ids life).Step (Resolver.perform config) none (t.object ids' life') :=
  .of_perform ((progress_eq hi).trans (congrArg some hpending)) hperform (progress_of_update ht)

/-- A section before or after which the call has not taken effect. -/
theorem System.idles (hi : s.calls i = some (call, reached))
    (ht : t.calls = update s.calls i (some (call, reached')))
    (hpending : reached'.progress call = reached.progress call)
    (hstate : (t.object ids' life').state = (s.object ids life).state) :
    (s.object ids life).Step (Resolver.perform config) none (t.object ids' life') := by
  have hprogress : t.progress = s.progress := by
    rw [progress_of_update ht, hpending, ← progress_eq hi, Function.update_eq_self]
  have hobject : t.object ids' life' = s.object ids life :=
    congrArg₂ AtomicObject.mk hstate hprogress
  rw [hobject]
  exact .idle

namespace Track

omit [DecidableEq ι]

theorem keyed_pending (h : Track config s ids life) :
    IsKeyed Conflict.id (Life.pending ∘ life) := by
  intro id c hc
  rw [Function.comp_apply] at hc
  cases hl : life id with
  | undetected =>
    rw [hl] at hc
    cases hc
  | live d =>
    rw [hl] at hc
    exact h.ident id c (by rw [hl]; exact hc)
  | finishing i stage before after =>
    obtain ⟨now, ending, reached, r, -, -, hsettle, -⟩ := h.finishing id i stage before after hl
    have hid := (Conflict.asDetected_eq (Ending.settle_finished hsettle).2.2).1
    have hafter := h.ident id after (by rw [hl]; rfl)
    rw [hl] at hc
    cases stage <;> cases hc
    all_goals exact hid.symm.trans hafter

theorem settle_pending (h : Track config s ids life) (history : List (Conflict D)) (id : String)
    (f : Conflict D → Settled D) :
    (⟨entries (Life.pending ∘ life) ids, history⟩ : Resolver D).settle id f =
      (life id).pending.map fun c =>
        (f c, ⟨entries (update (Life.pending ∘ life) id (some (f c).conflict)) ids, history⟩) := by
  refine Resolver.settle_entries h.keyed_pending h.nodup (fun hid => ?_) _ f
  rw [Function.comp_apply, h.undetected_of_notMem hid]
  rfl

/-- A call is moving what is on its way. -/
theorem moving (h : Track config s ids life) {stage : Stage} {before after : Conflict D}
    (hl : life id = .finishing i stage before after) (hstage : stage ≠ .done) :
    s.Moving after ∧ after.id = id := by
  refine ⟨?_, h.ident id after (by rw [hl]; rfl)⟩
  obtain ⟨now, ending, reached, r, hi, hst, -, hcarries⟩ := h.finishing id i stage before after hl
  cases reached with
  | begun | reading => cases hst
  | marked c answer =>
    obtain ⟨rfl, -⟩ := hcarries
    exact ⟨i, _, answer, .inl hi⟩
  | removed c answer =>
    obtain ⟨rfl, -⟩ := hcarries
    exact ⟨i, _, answer, .inr hi⟩
  | answered answer | returned answer =>
    simp only [Reached.stage] at hst
    split_ifs at hst
    cases hst
    exact absurd rfl hstage

/-- What is not on its way looks the same in both. -/
theorem shown_eq_pending (h : Track config s ids life) (hmoving : ∀ c, s.Moving c → c.id ≠ id) :
    (life id).shown = (life id).pending := by
  cases hl : life id with
  | undetected | live => rfl
  | finishing i stage before after =>
    have hdone : stage = .done := by
      by_contra hne
      obtain ⟨hmove, hid⟩ := h.moving hl hne
      exact hmoving after hmove hid
    subst hdone
    rfl

theorem eq_live (h : Track config s ids life) {c : Conflict D} (hshown : (life id).shown = some c)
    (hc : c.IsLive) : life id = .live c := by
  cases hl : life id with
  | undetected =>
    rw [hl] at hshown
    cases hshown
  | live d =>
    rw [hl] at hshown
    rw [Option.some.inj hshown]
  | finishing i stage before after =>
    obtain ⟨now, ending, reached, r, -, -, hsettle, -⟩ := h.finishing id i stage before after hl
    rw [hl] at hshown
    cases stage <;> cases hshown
    exact absurd hc (Ending.settle_finished hsettle).2.1

variable [DecidableEq ι] {now : DateTime} {ending : Ending} {readers : ℕ}

/-- The first section of a call that finishes a conflict. -/
theorem finish (h : Track config s ids life)
    (hi : s.calls i = some (.finish now id ending, .begun)) {resolver : Resolver D}
    (hfirst : s.resolver.first config (.finish now id ending) = (reached', resolver)) :
    ∃ life', Track config
      ⟨resolver, readers, update s.calls i (some (.finish now id ending, reached')), s.seen⟩
      ids life' ∧ ((∀ c, s.Moving c → c.id ≠ id) →
        (s.object ids life).Step (Resolver.perform config) none (System.object
          ⟨resolver, readers, update s.calls i (some (.finish now id ending, reached')), s.seen⟩
          ids life')) := by
  simp only [Resolver.first, h.settle_eq] at hfirst
  cases hshown : (life id).shown with
  | none =>
    rw [hshown] at hfirst
    cases hfirst
    refine ⟨life, h.quiet hi rfl (by simp) trivial (.inl rfl) rfl rfl (by simp [Reached.stage])
      (by simp [Reached.Carries]), fun hcalm => ?_⟩
    refine System.performs hi rfl rfl ?_
    simp only [System.object, Resolver.perform, h.settle_pending, ← h.shown_eq_pending hcalm, hshown]
    rfl
  | some c =>
    rw [hshown] at hfirst
    simp only [Option.map_some] at hfirst
    cases hsettle : ending.settle config now c with
    | refused d error =>
      rw [hsettle] at hfirst
      cases hfirst
      by_cases hc : c.IsLive
      · have hl := h.eq_live hshown hc
        refine ⟨_, h.refuse hi hl hsettle, fun _ => System.performs hi rfl rfl ?_⟩
        simp only [System.object, Resolver.perform, h.settle_pending, hl, Life.pending,
          Option.map_some, hsettle, Settled.conflict, Function.comp_update]
      · -- the conflict is marked already
        have hd : d = c := by
          rw [Ending.settle_of_not_live hc] at hsettle
          cases hsettle
          rfl
        subst hd
        refine ⟨life, h.quiet hi rfl (by simp) trivial (.inl rfl) ?_ rfl (by simp [Reached.stage])
          (by simp [Reached.Carries]), fun hcalm => ?_⟩
        · change entries (update (Life.shown ∘ life) id (some d)) ids = _
          rw [h.active, ← hshown]
          exact congrArg (entries · ids) (Function.update_eq_self id (Life.shown ∘ life))
        · have hpending := h.shown_eq_pending hcalm
          cases hl : life id with
          | undetected =>
            rw [hl] at hshown
            cases hshown
          | live e =>
            rw [hl] at hshown
            cases hshown
            exact absurd (h.isLive id d hl) hc
          | finishing j stage before after =>
            rw [hl] at hshown
            cases stage <;> cases hshown
            obtain ⟨hmove, hid⟩ := h.moving hl (by decide)
            exact absurd hid (hcalm _ hmove)
    | finished d r =>
      rw [hsettle] at hfirst
      cases hfirst
      have hl := h.eq_live hshown (Ending.settle_finished hsettle).1
      refine ⟨_, h.mark hi hl hsettle, fun _ => System.idles hi rfl rfl ?_⟩
      have hpending : (Life.pending ∘ life) id = some c := by rw [Function.comp_apply, hl]; rfl
      simp only [System.object, Function.comp_update, Life.pending, ← hpending,
        Function.update_eq_self]

/-- The first section of a call. -/
theorem first (h : Track config s ids life) (hi : s.calls i = some (call, .begun))
    {resolver : Resolver D} (hfirst : s.resolver.first config call = (reached', resolver)) :
    ∃ ids' life', Track config
      ⟨resolver, readers, update s.calls i (some (call, reached')), s.seen⟩ ids' life' ∧
        (s.Undisturbed (.proceed i) →
          (s.object ids life).Step (Resolver.perform config) none (System.object
            ⟨resolver, readers, update s.calls i (some (call, reached')), s.seen⟩ ids' life')) := by
  have hquiet : ∀ {call' : Call D} {reached' : Reached D},
      s.calls i = some (call', .begun) → call'.detects = none → reached' ≠ .begun →
      reached'.Fits call' → reached'.stage = none → Track config
        ⟨s.resolver, readers, update s.calls i (some (call', reached')), s.seen⟩ ids life := by
    intro call' reached' hi hdetects hbegun hfits hstage
    exact h.quiet hi rfl hbegun hfits (.inl hdetects) rfl rfl hstage fun _ _ => False.elim
  cases call with
  | detectConflict id now entityId modalities driftScore description =>
    cases hfirst
    refine ⟨_, _, h.detect hi rfl, fun _ => System.performs hi rfl rfl ?_⟩
    have hnew := h.new_id hi rfl
    simp only [System.object, Resolver.perform, Resolver.detectConflict, Function.comp_update,
      Life.pending]
    rw [entries_concat hnew]
  | finish now id ending =>
    obtain ⟨life', htrack, hfollows⟩ := h.finish hi hfirst
    refine ⟨ids, life', htrack, fun hcalm => hfollows ?_⟩
    simpa only [System.Undisturbed, hi] using hcalm
  | activeConflicts =>
    cases hfirst
    refine ⟨ids, life, hquiet hi rfl (by simp) trivial rfl, fun hcalm => System.performs hi rfl rfl ?_⟩
    simp only [System.Undisturbed, hi] at hcalm
    have heq : entries (Life.shown ∘ life) ids = entries (Life.pending ∘ life) ids :=
      entries_congr fun id _ => h.shown_eq_pending fun c hc => absurd hc (hcalm c)
    simp only [System.object, Resolver.perform, h.active, heq]
  | history limit =>
    cases hfirst
    exact ⟨ids, life, hquiet hi rfl (by simp) trivial rfl, fun _ => System.performs hi rfl rfl rfl⟩
  | byEntity entityId =>
    cases hfirst
    exact ⟨ids, life, hquiet hi rfl (by simp) rfl rfl, fun _ => System.idles hi rfl rfl rfl⟩

omit [DecidableEq ι] in
/-- `by_entity` does not see that calls are on their way with conflicts of other entities. -/
theorem byEntity_eq (h : Track config s ids life) {entityId : String}
    (hcalm : ∀ c, s.Moving c → c.entityId ≠ entityId) :
    (s.object ids life).state.byEntity entityId = s.resolver.byEntity entityId := by
  have hfilter : (entries (Life.pending ∘ life) ids).filter (·.entityId = entityId) =
      (entries (Life.shown ∘ life) ids).filter (·.entityId = entityId) := by
    simp only [entries, List.filter_filterMap]
    refine List.filterMap_congr fun id _ => ?_
    simp only [Function.comp_apply]
    cases hl : life id with
    | undetected | live => rfl
    | finishing i stage before after =>
      obtain ⟨now, ending, reached, r, -, -, hsettle, -⟩ := h.finishing id i stage before after hl
      have hentity := (Conflict.asDetected_eq (Ending.settle_finished hsettle).2.2).2.1
      by_cases hdone : stage = .done
      · subst hdone
        rfl
      · have hafter := hcalm after (h.moving hl hdone).1
        have hbefore : before.entityId ≠ entityId := hentity ▸ hafter
        cases stage with
        | marked => simp [Life.pending, Life.shown, Option.filter, hafter, hbefore]
        | removed => simp [Life.pending, Life.shown, Option.filter, hbefore]
        | done => exact absurd rfl hdone
  rw [Resolver.byEntity, Resolver.byEntity, h.active]
  exact congrArg (· ++ _) hfilter

/-- The sections after the first. -/
theorem later (h : Track config s ids life) (hi : s.calls i = some (call, reached))
    (hreached : reached ≠ .begun) {resolver : Resolver D}
    (hnext : s.resolver.next config call reached = some (reached', resolver)) :
    ∃ life', Track config
      ⟨resolver, readers, update s.calls i (some (call, reached')), s.seen⟩ ids life' ∧
        (s.Undisturbed (.proceed i) →
          (s.object ids life).Step (Resolver.perform config) none (System.object
            ⟨resolver, readers, update s.calls i (some (call, reached')), s.seen⟩ ids life')) := by
  have hfits := h.fits i call reached hi
  cases reached with
  | begun => exact absurd rfl hreached
  | marked c answer =>
    cases hnext
    obtain ⟨now, id, ending, rfl⟩ := hfits
    obtain ⟨before, after, r, hl, -, -, -, rfl, rfl⟩ := h.holds rfl hi
    refine ⟨_, h.retain hi hl, fun _ => System.idles hi rfl rfl ?_⟩
    have hpending : (Life.pending ∘ life) id = some before := by rw [Function.comp_apply, hl]; rfl
    simp only [System.object, Resolver.retain, Function.comp_update, Life.pending, ← hpending,
      Function.update_eq_self]
  | removed c answer =>
    cases hnext
    obtain ⟨now, id, ending, rfl⟩ := hfits
    obtain ⟨before, after, r, hl, hid, -, hsettle, rfl, rfl⟩ := h.holds rfl hi
    refine ⟨_, h.push hi hl, fun _ => System.performs hi rfl rfl ?_⟩
    have hkeyed : IsKeyed Conflict.id (update (Life.pending ∘ life) id (some c)) := by
      refine h.keyed_pending.set ?_
      rintro d ⟨⟩
      exact hid
    have hretain := @IsKeyed.filter_eq _ _ _ _ ids id _ hkeyed
    simp only [System.object, Resolver.perform, h.settle_pending, hl, Life.pending, Option.map_some,
      hsettle, Settled.conflict, Resolver.retain, hid, hretain, Function.update_idem,
      Function.comp_update]
    rfl
  | reading entityId =>
    cases hnext
    refine ⟨life, h.quiet hi rfl (by simp) trivial (.inr hreached) rfl rfl
      (by simp [Reached.stage, Answer.isOk]) fun _ _ => False.elim, fun hcalm => System.performs hi rfl rfl ?_⟩
    obtain rfl : call = .byEntity entityId := hfits
    simp only [System.Undisturbed, hi] at hcalm
    rw [Resolver.perform, h.byEntity_eq hcalm]
    rfl
  | answered answer | returned answer => cases hnext

/-- Each step keeps the lives, and follows the object if it does not look at what others move. -/
theorem step (h : Track config s ids life) {a : Act ι D} (hfresh : s.Fresh a)
    (hstep : s.step config a = some t) :
    ∃ ids' life' event, Track config t ids' life' ∧ t.seen = s.seen ++ event.toList ∧
      (s.Undisturbed a → (s.object ids life).Step (Resolver.perform config) event
        (t.object ids' life')) := by
  cases System.step_moves hstep with
  | invoke i call hi =>
    refine ⟨ids, life, some (.invoke i call), h.invoke hi hfresh, rfl, fun _ => ?_⟩
    have hnone : s.progress i = none := by rw [System.progress, hi]; rfl
    have hprogress : System.progress ⟨s.resolver, s.readers, update s.calls i (some (call, .begun)),
        s.seen ++ [.invoke i call]⟩ =
        update s.progress i (some (Reached.begun.progress call)) := System.progress_of_update rfl
    exact .of_invoke hnone rfl hprogress
  | proceed i call reached reached' resolver readers hi hnext =>
    by_cases hbegun : reached = .begun
    · subst hbegun
      obtain ⟨ids', life', htrack, hfollows⟩ := h.first hi (Option.some.inj hnext)
      exact ⟨ids', life', none, htrack, by simp, hfollows⟩
    · obtain ⟨life', htrack, hfollows⟩ := h.later hi hbegun hnext
      exact ⟨ids, life', none, htrack, by simp, hfollows⟩
  | respond i call answer hi =>
    refine ⟨ids, life, some (.respond i answer), h.quiet hi rfl (by simp) trivial (.inr (by simp)) rfl
      rfl rfl fun _ _ => id, rfl, fun _ => ?_⟩
    have hprogress : System.progress ⟨s.resolver, s.readers,
        update s.calls i (some (call, .returned answer)), s.seen ++ [.respond i answer]⟩ =
        update s.progress i (some ((Reached.returned answer).progress call)) :=
      System.progress_of_update rfl
    exact .of_respond (System.progress_eq hi) rfl hprogress

/-! ### Conflicts in the lists -/

omit [DecidableEq ι] in
/-- A conflict is what it was detected as. -/
theorem asDetected_eq (h : Track config s ids life) {c d : Conflict D} (hc : s.Detected c)
    (hd : s.Detected d) (hid : c.id = d.id) : c.asDetected = d.asDetected := by
  obtain ⟨i, call, r, hi, -, hcall⟩ := hc
  obtain ⟨j, call', r', hj, -, hcall'⟩ := hd
  obtain rfl := h.drawn i j call call' r r' _ _ hi hj hcall hcall' hid
  rw [hi] at hj
  cases hj
  exact Option.some.inj (hcall.symm.trans hcall')

omit [DecidableEq ι] in
/-- Only calls on their way with a conflict of the entity can make `by_entity` miss it. -/
theorem listsOnce (h : Track config s ids life) {entityId : String}
    (hcalm : ∀ c, s.Moving c → c.entityId ≠ entityId) {c : Conflict D} (hc : s.Detected c)
    (hentity : c.entityId = entityId) (hkept : ¬ s.Evicted c.id) :
    ((s.resolver.byEntity entityId).map Conflict.id).count c.id = 1 := by
  have hsame : ∀ {d : Conflict D}, s.Detected d → d.id = c.id → d.entityId = entityId := by
    intro d hd hid
    exact (Conflict.asDetected_eq (h.asDetected_eq hd hc hid)).2.1.trans hentity
  have hactive : ((s.resolver.activeConflicts.filter (·.entityId = entityId)).map Conflict.id).Nodup := by
    rw [h.active]
    exact (h.keyed.nodup h.nodup).sublist (List.filter_sublist.map _)
  have hhistory : ((s.resolver.history.filter (·.entityId = entityId)).map Conflict.id).Nodup :=
    h.historyNodup.sublist (List.filter_sublist.map _)
  rw [Resolver.byEntity, List.map_append, List.count_append, List.map_reverse, List.count_reverse]
  obtain ⟨d, hd⟩ := Option.isSome_iff_exists.mp ((h.known c.id).mpr (h.present c hc))
  have hdid := h.ident c.id d hd
  have hdentity := hsame (h.detected c.id d hd) hdid
  cases hl : life c.id with
  | undetected =>
    rw [hl] at hd
    cases hd
  | live e =>
    obtain rfl : e = d := by
      rw [hl] at hd
      exact Option.some.inj hd
    have hmem : e ∈ s.resolver.activeConflicts := by
      rw [h.active, h.keyed.mem_iff, hdid, Function.comp_apply, hl]
      exact ⟨h.present c hc, rfl⟩
    rw [List.count_eq_one_of_mem hactive
        (List.mem_map.mpr ⟨e, List.mem_filter.mpr ⟨hmem, by simpa using hdentity⟩, hdid⟩),
      List.count_eq_zero_of_not_mem]
    intro hin
    obtain ⟨f, hf, hfid⟩ := List.mem_map.mp hin
    obtain ⟨j, before, hdone⟩ := h.history f (List.mem_filter.mp hf).1
    rw [hfid, hl] at hdone
    cases hdone
  | finishing i stage before after =>
    obtain rfl : after = d := by
      rw [hl] at hd
      exact Option.some.inj hd
    obtain rfl : stage = .done := by
      by_contra hne
      exact hcalm after (h.moving hl hne).1 hdentity
    obtain ⟨now, ending, reached, r, hi, hstage, -⟩ := h.finishing c.id i .done before after hl
    obtain ⟨f, hf, hfid⟩ : ∃ f ∈ s.resolver.history, f.id = c.id := by
      by_contra hnone
      push Not at hnone
      exact hkept ⟨⟨i, now, ending, reached, hi, hstage⟩, hnone⟩
    obtain ⟨j, before', hdone⟩ := h.history f hf
    rw [hfid, hl] at hdone
    cases hdone
    rw [List.count_eq_zero_of_not_mem, List.count_eq_one_of_mem hhistory
      (List.mem_map.mpr ⟨after, List.mem_filter.mpr ⟨hf, by simpa using hdentity⟩, hdid⟩)]
    intro hin
    obtain ⟨e, he, heid⟩ := List.mem_map.mp hin
    have hshown := (h.keyed.mem_iff.mp (h.active ▸ (List.mem_filter.mp he).1)).2
    rw [Function.comp_apply, heid, hl] at hshown
    cases hshown

omit [DecidableEq ι] in
theorem once (h : Track config s ids life) {j : ι} {now now' : DateTime} {ending ending' : Ending}
    (hi : s.calls i = some (.finish now id ending, reached))
    (hj : s.calls j = some (.finish now' id ending', reached'))
    (hr : reached.stage.isSome) (hr' : reached'.stage.isSome) : i = j := by
  obtain ⟨stage, hstage⟩ := Option.isSome_iff_exists.mp hr
  obtain ⟨stage', hstage'⟩ := Option.isSome_iff_exists.mp hr'
  obtain ⟨before, after, hl⟩ := h.calls i now id ending reached stage hi hstage
  obtain ⟨before', after', hl'⟩ := h.calls j now' id ending' reached' stage' hj hstage'
  rw [hl] at hl'
  cases hl'
  rfl

omit [DecidableEq ι] in
theorem manual (h : Track config s ids life) {now : DateTime} {policy : Option ConflictPolicy}
    (hi : s.calls i = some (.finish now id (.resolve policy), reached))
    (hr : reached.stage.isSome) {c : Conflict D} (hc : s.Detected c) (hid : c.id = id) :
    ¬ config.requireManualAbove ≤ c.driftScore := by
  obtain ⟨stage, hstage⟩ := Option.isSome_iff_exists.mp hr
  obtain ⟨before, after, r, -, hafter, hdetected, hsettle, -⟩ := h.holds hstage hi
  have hsame := h.asDetected_eq hc hdetected (hid.trans hafter.symm)
  have hbefore := (Ending.settle_finished hsettle).2.2
  rw [(Conflict.asDetected_eq (hsame.trans hbefore)).2.2]
  exact Conflict.not_le_of_resolve hsettle

omit [DecidableEq ι] in
/-- What is shown when nothing is on its way is open. -/
theorem isLive_of_calm (h : Track config s ids life) (hcalm : ∀ c, ¬ s.Moving c) {c : Conflict D}
    (hc : c ∈ s.resolver.activeConflicts) : c.IsLive := by
  rw [h.active, h.keyed.mem_iff, Function.comp_apply] at hc
  cases hl : life c.id with
  | undetected =>
    rw [hl] at hc
    cases hc.2
  | live d =>
    rw [hl] at hc
    rw [← Option.some.inj hc.2]
    exact h.isLive c.id d hl
  | finishing i stage before after =>
    rw [hl] at hc
    cases stage <;> cases hc.2
    exact absurd (h.moving hl (by decide)).1 (hcalm c)

end Track

/-! ### Runs -/

/-- The answers of `active_conflicts` have open conflicts only. -/
def System.ListsOpen (s : System ι D) : Prop :=
  ∀ i reached cs, s.calls i = some (.activeConflicts, reached) →
    reached = .answered (.conflicts cs) ∨ reached = .returned (.conflicts cs) →
    ∀ c ∈ cs, c.status = .opened ∨ c.status = .inProgress

theorem System.ListsOpen.step (h : s.ListsOpen) (htrack : Track config s ids life) {a : Act ι D}
    (hcalm : s.Undisturbed a) (hstep : s.step config a = some t) : t.ListsOpen := by
  intro j reached cs hj hanswer c hc
  cases System.step_moves hstep with
  | invoke i call hi =>
    simp only [Function.update_apply] at hj
    split_ifs at hj
    · cases hj
      rcases hanswer with hanswer | hanswer <;> cases hanswer
    · exact h j reached cs hj hanswer c hc
  | proceed i call r r' resolver readers hi hnext =>
    simp only [Function.update_apply] at hj
    split_ifs at hj
    · cases hj
      cases r with
      | begun =>
        cases hnext
        simp only [System.Undisturbed, hi] at hcalm
        rcases hanswer with hanswer | hanswer <;> cases hanswer
        exact htrack.isLive_of_calm hcalm hc
      | marked d answer | removed d answer =>
        obtain ⟨now, id, ending, hcall⟩ := htrack.fits i _ _ hi
        cases hcall
      | reading entityId => cases htrack.fits i _ _ hi
      | answered answer | returned answer => cases hnext
    · exact h j reached cs hj hanswer c hc
  | respond i call answer hi =>
    simp only [Function.update_apply] at hj
    split_ifs at hj
    · cases hj
      rcases hanswer with hanswer | hanswer <;> cases hanswer
      exact h i _ cs hi (.inl rfl) c hc
    · exact h j reached cs hj hanswer c hc

/-- Runs in which no call looks at a conflict that another is moving are runs of one object. -/
theorem oneObject_of_calm (r : Run (System.step config) System.Calm System.new s) :
    OneObject config System.Calm s := by
  obtain ⟨⟨ids, life, h⟩, hopen⟩ := r.invariant
    (I := fun s => (∃ ids life, Track config s ids life) ∧ s.ListsOpen)
    (by
      rintro s a t ⟨⟨ids, life, h⟩, hopen⟩ ⟨hfresh, hcalm⟩ hstep
      obtain ⟨ids', life', -, htrack, -⟩ := h.step hfresh hstep
      exact ⟨⟨ids', life', htrack⟩, hopen.step h hcalm hstep⟩)
    ⟨⟨[], _, track_new⟩, by
      intro i reached cs hi
      cases hi⟩
  refine ⟨?_, ?_, hopen, ?_, ?_⟩
  · refine @Run.linearizable _ _ _ _ _ _ _ _ _ (Resolver.perform config) .new System.seen
      (fun s a => ∃ ids life, Track config s ids life ∧ a = s.object ids life) ?_ _ _ r rfl
      ⟨[], _, track_new, rfl⟩
    rintro s a t _ ⟨ids, life, h, rfl⟩ ⟨hfresh, hcalm⟩ hstep
    obtain ⟨ids', life', event, htrack, hseen, hfollows⟩ := h.step hfresh hstep
    exact ⟨event, _, hfollows hcalm, ⟨ids', life', htrack, rfl⟩, hseen⟩
  · intro i j now now' id ending ending' reached reached' hi hj
    exact h.once hi hj
  · rintro i ⟨-, hcalm⟩ call entityId hi c hc
    refine h.listsOnce ?_ hc
    simpa only [System.Undisturbed, hi] using hcalm
  · intro i now id policy reached hi hr c hc
    exact h.manual hi hr hc

/-! ### A conflict that is seen on its way -/

def atZero : DateTime := DateTime.unixEpoch

/-- Last writer wins up to a drift of eight. -/
def plain : ConflictConfig ℕ := ⟨.lastWriterWins, fun _ _ => none, 8, 10⟩

def detection : Call ℕ := .detectConflict "c" atZero "e" [.vector, .graph] 1 "differ"

theorem fresh_detection : System.Fresh (System.new : System ℕ ℕ) (.invoke 0 detection) := by
  intro c _ j call' reached c' hj
  cases hj

theorem fresh_of_not_detects {s : System ℕ ℕ} {i : ℕ} {call : Call ℕ} (h : call.detects = none) :
    s.Fresh (.invoke i call) := by
  intro c hc
  rw [h] at hc
  cases hc

/-- The conflict is dismissed while other calls read it, and is then in the history. -/
theorem dismissal_oneObject : ∃ s : System ℕ ℕ,
    (s.calls 2).map Prod.snd = some (.answered (.conflicts
      [⟨"c", "e", atZero, [.vector, .graph], 1, "differ", .opened, none⟩])) ∧
      (s.calls 3).map Prod.snd = some (.answered (.conflicts s.resolver.history)) ∧
      s.resolver.activeConflicts = [] ∧ s.resolver.history.map Conflict.status = [.dismissed] ∧
      OneObject plain System.Calm s := by
  have hinvoked : Run (System.step plain) System.Calm (System.new : System ℕ ℕ) _ :=
    (Run.single (e := .invoke 0 detection) ⟨fresh_detection, trivial⟩ rfl).trans <|
    (Run.single (e := .proceed 0) ⟨trivial, by exact trivial⟩ rfl).trans <|
    (Run.single (e := .invoke 1 (.finish atZero "c" (.dismiss "twice")))
      ⟨fresh_of_not_detects rfl, trivial⟩ rfl).trans <|
    (Run.single (e := .invoke 2 .activeConflicts) ⟨fresh_of_not_detects rfl, trivial⟩ rfl).trans
      (Run.single (e := .invoke 3 (.byEntity "e")) ⟨fresh_of_not_detects rfl, trivial⟩ rfl)
  have hlisted := hinvoked.trans (Run.single (e := .proceed 2) ⟨trivial, by
    rintro c ⟨i, call, answer, hi⟩
    rcases i with _ | _ | _ | _ | i <;> rcases hi with hi | hi <;> cases hi⟩ rfl)
  have hmarked := hlisted.trans (Run.single (e := .proceed 1) ⟨trivial, by
    rintro c ⟨i, call, answer, hi⟩
    rcases i with _ | _ | _ | _ | i <;> rcases hi with hi | hi <;> cases hi⟩ rfl)
  have hmoved := (hmarked.trans (Run.single (e := .proceed 1) ⟨trivial, by exact trivial⟩ rfl)).trans
    (Run.single (e := .proceed 1) ⟨trivial, by exact trivial⟩ rfl)
  have hread := (hmoved.trans (Run.single (e := .proceed 3) ⟨trivial, by exact trivial⟩ rfl)).trans
    (Run.single (e := .proceed 3) ⟨trivial, by
      rintro c ⟨i, call, answer, hi⟩
      rcases i with _ | _ | _ | _ | i <;> rcases hi with hi | hi <;> cases hi⟩ rfl)
  have hreturned := hread.trans (Run.single (e := .respond 1) ⟨trivial, trivial⟩ rfl)
  exact ⟨_, rfl, rfl, rfl, rfl, oneObject_of_calm hreturned⟩

/-- `active_conflicts` returns a conflict that has been dismissed. -/
theorem dismissed_listed : ¬ ∀ s : System ℕ ℕ, Run (System.step plain) System.Fresh System.new s →
    OneObject plain System.Fresh s := by
  intro hall
  have hmarked : Run (System.step plain) System.Fresh (System.new : System ℕ ℕ) _ :=
    (Run.single (e := .invoke 0 detection) fresh_detection rfl).trans <|
    (Run.single (e := .proceed 0) trivial rfl).trans <|
    (Run.single (e := .invoke 1 (.finish atZero "c" (.dismiss "twice")))
      (fresh_of_not_detects rfl) rfl).trans <|
    (Run.single (e := .proceed 1) trivial rfl).trans <|
    (Run.single (e := .invoke 2 .activeConflicts) (fresh_of_not_detects rfl) rfl).trans
      (Run.single (e := .proceed 2) trivial rfl)
  have hopen : ConflictStatus.dismissed = .opened ∨ ConflictStatus.dismissed = .inProgress :=
    (hall _ hmarked).activeConflicts 2 _ _ rfl (.inl rfl) _ (.head _)
  exact absurd hopen (by decide)

end NextgenDatabases.Conflicts
