import NextgenDatabases.Temporal.Versions
import Mathlib.Data.List.Induction

/-!
# What redb has of the cache

A clone is the history of some earlier moment. As long as no clone is put over a later one, redb
has every version whose append has returned. The codec is `serde_json`, for data that it reads back
as it wrote them (a float without `float_roundtrip` may come back with another last digit).
-/
namespace NextgenDatabases.Temporal

open Foundations Storage

variable {D W : Type} {codec : Codec (History D) W}

/-! ### What is opened again -/

/-- The stores that share the file: the version store alone. -/
def alone (m : SortedMap Str (History D)) : Own (History D) :=
  Function.update (fun _ => .empty) ver m

theorem alone_ver (m : SortedMap Str (History D)) : alone m ver = m := Function.update_self _ _ _

theorem not_heldElsewhere (m : SortedMap Str (History D)) (fullKey : Str) :
    ¬ HeldElsewhere (alone m) ver fullKey := by
  rintro ⟨ns, k, hne, hsome, -⟩
  rw [alone, Function.update_of_ne hne, SortedMap.get_empty] at hsome
  cases hsome

theorem cacheOf_concat (entries : List (Str × History D)) (a : Str × History D) :
    cacheOf (entries ++ [a]) = Function.update (cacheOf entries) a.1 (some a.2) := by
  rw [cacheOf, List.foldl_append]
  rfl

theorem cacheOf_entries (m : SortedMap Str (History D)) : cacheOf m.entries = m.get := by
  have hcache : ∀ entries : List (Str × History D), entries.Pairwise (fun a b => a.1 < b.1) →
      ∀ e h, cacheOf entries e = some h ↔ (e, h) ∈ entries := by
    intro entries
    induction entries using List.reverseRecOn with
    | nil => simp [cacheOf]
    | append_singleton entries a ih =>
      intro hsorted e h
      rw [List.pairwise_append] at hsorted
      rw [cacheOf_concat, List.mem_append, List.mem_singleton, ← ih hsorted.1]
      by_cases he : e = a.1
      · subst he
        have hnew : cacheOf entries a.1 ≠ some h := by
          intro hold
          have hmem := (ih hsorted.1 _ _).mp hold
          exact lt_irrefl _ (hsorted.2.2 _ hmem a (List.mem_singleton_self a))
        simp [hnew, Prod.ext_iff, eq_comm]
      · rw [Function.update_of_ne he]
        have hne : (e, h) ≠ a := fun heq => he (congrArg Prod.fst heq)
        simp [hne]
  funext e
  ext h
  exact (hcache m.entries m.sorted e h).trans SortedMap.get_eq_some.symm

section Shares

variable {data : SortedMap Str W} {m : SortedMap Str (History D)}

theorem get_data (h : Shares codec data (alone m)) (e : Str) :
    data.get (TypedStore.prefixedKey ver e) = (m.get e).map codec.serialise := by
  rw [h.get_eq (not_heldElsewhere m _), alone_ver]

theorem shares_put (h : Shares codec data (alone m)) (e : Str) (history : History D) :
    Shares codec (TypedStore.put codec data ver e history) (alone (m.insert e history)) := by
  have hput := h.put (not_heldElsewhere m (TypedStore.prefixedKey ver e)) history
  rwa [alone_ver, alone, Function.update_idem] at hput

theorem length_le_data (h : Shares codec data (alone m)) :
    m.entries.length ≤ data.entries.length := by
  have hown : ownScan (alone m) ver [] = m.entries := by
    rw [ownScan, alone_ver]
    exact List.filter_eq_self.mpr fun a _ => by simp
  have hfilter := @Shares.filter_isOwn _ _ codec data (alone m) ver [] h
  have hlength := congrArg List.length hfilter
  rw [List.length_map, hown] at hlength
  rw [← hlength]
  exact (List.length_filter_le _ _).trans (List.length_filter_le _ _)

/-- A store opened on a file of at most a million histories has them all. -/
theorem openStore_eq (h : Shares codec data (alone m)) (hlimit : m.entries.length ≤ scanLimit) :
    openStore codec data = some m.get := by
  have hown : (ownScan (alone m) ver []).take scanLimit = m.entries := by
    rw [ownScan, alone_ver, List.filter_eq_self.mpr fun a _ => by simp]
    exact List.take_of_length_le hlimit
  have happart : ReadApart .redb (alone m) (.scanPrefix ver [] scanLimit) := by
    refine ⟨fun fullKey hheld => absurd hheld (not_heldElsewhere m fullKey), fun _ hzero => ?_⟩
    exact absurd hzero (by decide)
  have hscan := (h.scan_answer .redb scanLimit).mpr happart
  rw [hown] at hscan
  rw [openStore, hscan]
  exact congrArg some (cacheOf_entries m)

end Shares

/-! ### The order of the puts -/

namespace RedbVersionStore

/-- The history that the call puts next. -/
def cloneOf (s : RedbVersionStore D W) (id : ℕ) : Option (Str × History D) :=
  match s.calls id with
  | some ⟨entityId, _, .cloned history⟩ => some (entityId, history)
  | _ => none

/-- No longer history of the entity is in redb, and an entity that is new to it has a place. -/
def Replaces (codec : Codec (History D) W) (data : SortedMap Str W) (e : Str) (h : History D) :
    Prop :=
  (∀ stored ∈ (data.get (TypedStore.prefixedKey ver e)).bind codec.deserialise,
    stored.entries.length ≤ h.entries.length) ∧
  ((data.get (TypedStore.prefixedKey ver e)).isNone → data.entries.length < scanLimit)

/-- Every put succeeds, comes after those of the histories cloned before and finds a place. -/
def InOrder (codec : Codec (History D) W) (s : RedbVersionStore D W) : Event D → Prop
  | .put id ok => ok = true ∧ ∀ c ∈ s.cloneOf id, Replaces codec s.data c.1 c.2
  | _ => True

/-- Disk and cache are together. -/
structure Together (codec : Codec (History D) W) (s : RedbVersionStore D W) : Prop where
  /-- A store that is opened now has every version whose append returned `Ok`. -/
  acked : ∃ cache, openStore codec s.data = some cache ∧ ∀ e v, (e, v, true) ∈ s.returned →
    ∃ h, cache e = some h ∧ h.get v.version = some v
  /-- No version whose append returned an error is readable. -/
  failed : ∀ e v, (e, v, false) ∈ s.returned → ∀ h, s.versions e = some h →
    h.get v.version ≠ some v
  /-- Between the appends it has what is readable. -/
  same : (∀ id, s.calls id = none) → openStore codec s.data = some s.versions

/-- The file holds the histories `m`, each one an earlier state of that in the cache, and an append
is on the way for each one that is not the latest. -/
structure Sound (codec : Codec (History D) W) (s : RedbVersionStore D W)
    (m : SortedMap Str (History D)) : Prop where
  shares : Shares codec s.data (alone m)
  limit : m.entries.length ≤ scanLimit
  behind : ∀ e h, m.get e = some h → ∃ c, s.versions e = some c ∧ h.entries <+: c.entries
  calls : ∀ id call, s.calls id = some call → ∃ c, s.versions call.entityId = some c ∧
    c.get call.version.version = some call.version ∧ ∀ h, call.stage = .cloned h →
      h.entries <+: c.entries ∧ h.get call.version.version = some call.version
  ahead : ∀ e c, s.versions e = some c → m.get e = some c ∨ ∃ id call, s.calls id = some call ∧
    call.entityId = e ∧ (call.stage = .updated ∨ call.stage = .cloned c)
  returned : ∀ e v ok, (e, v, ok) ∈ s.returned →
    ok = true ∧ ∃ h, m.get e = some h ∧ h.get v.version = some v

variable {s s' : RedbVersionStore D W} {m : SortedMap Str (History D)}

theorem Sound.together (h : Sound codec s m) : Together codec s := by
  have hopen := openStore_eq h.shares h.limit
  refine ⟨⟨m.get, hopen, fun e v hv => (h.returned e v true hv).2⟩, fun e v hv => ?_, fun hidle => ?_⟩
  · exact absurd (h.returned e v false hv).1 (by decide)
  · rw [hopen]
    congr 1
    funext e
    cases hc : s.versions e with
    | some c =>
      rcases h.ahead e c hc with hsame | ⟨id, call, hcall, -⟩
      · exact hsame
      · rw [hidle id] at hcall
        cases hcall
    | none =>
      cases hm : m.get e with
      | none => rfl
      | some history =>
        obtain ⟨c, hc', -⟩ := h.behind e history hm
        rw [hc] at hc'
        cases hc'

theorem sound_new (codec : Codec (History D) W) : Sound codec (new D W) .empty where
  shares := by
    have halone : alone (.empty : SortedMap Str (History D)) = fun _ => .empty :=
      Function.update_eq_self _ _
    rw [halone]
    exact .empty
  limit := Nat.zero_le _
  behind e h hm := by cases hm
  calls id call hcall := by cases hcall
  ahead e c hc := by cases hc
  returned e v ok hv := by cases hv

/-- An append leaves of every history at least what was there. -/
theorem exists_later (store : VersionHistory D) (e : Str) {v : Version D}
    (hv : v.version = nextVersion ((store e).getD .empty)) {e' : Str} {c : History D}
    (hc : store e' = some c) : ∃ c',
      Function.update store e (some (((store e).getD .empty).insert v.version v)) e' = some c' ∧
        c.entries <+: c'.entries := by
  by_cases he : e' = e
  · subst he
    refine ⟨_, Function.update_self _ _ _, ?_⟩
    rw [hv, entries_insert_nextVersion, hc]
    exact List.prefix_append _ _
  · exact ⟨c, (Function.update_of_ne he _ _).trans hc, List.prefix_rfl⟩

/-- The new version is behind those that the cache has, and its append is on the way. -/
theorem Sound.append (h : Sound codec s m) {id : ℕ} (hfree : s.calls id = none) (e : Str)
    {v : Version D} (hv : v.version = nextVersion ((s.versions e).getD .empty)) :
    Sound codec
      { s with
        versions := Function.update s.versions e
          (some (((s.versions e).getD .empty).insert v.version v))
        calls := Function.update s.calls id (some ⟨e, v, .updated⟩) } m := by
  refine ⟨h.shares, h.limit, fun e' h' hm => ?_, fun id' call hcall => ?_, fun e' c hc => ?_,
    h.returned⟩
  · obtain ⟨c, hc, hpre⟩ := h.behind e' h' hm
    obtain ⟨c', hc', hgrow⟩ := exists_later s.versions e hv hc
    exact ⟨c', hc', hpre.trans hgrow⟩
  · by_cases hid : id' = id
    · subst hid
      simp only [Function.update_self, Option.some.injEq] at hcall
      subst hcall
      refine ⟨_, Function.update_self _ _ _, ?_, nofun⟩
      rw [SortedMap.get_insert, if_pos rfl]
    · simp only [Function.update_of_ne hid] at hcall
      obtain ⟨c, hc, hget, hclone⟩ := h.calls id' call hcall
      obtain ⟨c', hc', hgrow⟩ := exists_later s.versions e hv hc
      exact ⟨c', hc', get_of_prefix hgrow hget,
        fun h' hstage => ⟨(hclone h' hstage).1.trans hgrow, (hclone h' hstage).2⟩⟩
  · by_cases he : e' = e
    · exact .inr ⟨id, _, Function.update_self _ _ _, he.symm, .inl rfl⟩
    · simp only [Function.update_of_ne he] at hc
      refine (h.ahead e' c hc).imp_right ?_
      rintro ⟨id', call, hcall, hentity, hstage⟩
      have hid : id' ≠ id := by
        rintro rfl
        rw [hfree] at hcall
        cases hcall
      exact ⟨id', call, (Function.update_of_ne hid _ _).trans hcall, hentity, hstage⟩

/-- The clone is the latest history. -/
theorem Sound.clone (h : Sound codec s m) {id : ℕ} {e : Str} {v : Version D} {history : History D}
    (hcall : s.calls id = some ⟨e, v, .updated⟩) (hhistory : s.versions e = some history) :
    Sound codec { s with calls := Function.update s.calls id (some ⟨e, v, .cloned history⟩) } m := by
  refine ⟨h.shares, h.limit, h.behind, fun id' call hcall' => ?_, fun e' c hc => ?_, h.returned⟩
  · by_cases hid : id' = id
    · subst hid
      simp only [Function.update_self, Option.some.injEq] at hcall'
      subst hcall'
      obtain ⟨c, hc, hget, -⟩ := h.calls id' _ hcall
      rw [hhistory] at hc
      cases hc
      refine ⟨history, hhistory, hget, fun h' hstage => ?_⟩
      cases hstage
      exact ⟨List.prefix_rfl, hget⟩
    · simp only [Function.update_of_ne hid] at hcall'
      exact h.calls id' call hcall'
  · refine (h.ahead e' c hc).imp_right ?_
    rintro ⟨id', call, hcall', rfl, hstage⟩
    by_cases hid : id' = id
    · subst hid
      rw [hcall] at hcall'
      cases hcall'
      rw [hhistory] at hc
      cases hc
      exact ⟨id', _, Function.update_self _ _ _, rfl, .inr rfl⟩
    · exact ⟨id', call, (Function.update_of_ne hid _ _).trans hcall', rfl, hstage⟩

/-- A clone is put over what is a part of it. -/
theorem Sound.put (h : Sound codec s m) {id : ℕ} {e : Str} {v : Version D} {history : History D}
    (hcall : s.calls id = some ⟨e, v, .cloned history⟩) (hput : Replaces codec s.data e history) :
    Sound codec ({ s with data := TypedStore.put codec s.data ver e history }.finish id
      ⟨e, v, .cloned history⟩ true) (m.insert e history) := by
  obtain ⟨c, hc, -, hclone⟩ := h.calls id _ hcall
  obtain ⟨hpre, hget⟩ := hclone history rfl
  obtain ⟨hlonger, hplace⟩ := hput
  rw [get_data h.shares] at hlonger hplace
  have hshorter : ∀ stored, m.get e = some stored → stored.entries.length ≤ history.entries.length := by
    intro stored hstored
    refine hlonger stored ?_
    rw [hstored]
    exact codec.deserialise_serialise stored
  refine ⟨shares_put h.shares e history, ?_, fun e' h' hm => ?_, fun id' call hcall' => ?_,
    fun e' c' hc' => ?_, fun e' v' ok hv' => ?_⟩
  · cases hm : m.get e with
    | some stored =>
      rw [SortedMap.length_insert_of_mem (by rw [hm]; rfl)]
      exact h.limit
    | none =>
      have hlt : s.data.entries.length < scanLimit := hplace (by rw [hm]; rfl)
      have hle := length_le_data h.shares
      have hremove := @SortedMap.length_remove_le _ _ _ m e
      rw [SortedMap.length_insert]
      omega
  · rw [SortedMap.get_insert] at hm
    split_ifs at hm with he
    · cases hm
      exact ⟨c, he ▸ hc, hpre⟩
    · exact h.behind e' h' hm
  · by_cases hid : id' = id
    · subst hid
      simp [finish] at hcall'
    · simp only [finish, Function.update_of_ne hid] at hcall'
      exact h.calls id' call hcall'
  · rw [SortedMap.get_insert]
    by_cases he : e' = e
    · subst he
      rw [if_pos rfl]
      have hlatest (hlength : c'.entries.length ≤ history.entries.length) : history = c' := by
        change s.versions e' = some c' at hc'
        rw [hc] at hc'
        cases hc'
        exact eq_of_entries (hpre.eq_of_length_le hlength)
      rcases h.ahead e' c' hc' with hsame | ⟨id', call, hcall', hentity, hstage⟩
      · exact .inl (congrArg some (hlatest (hshorter c' hsame)))
      · by_cases hid : id' = id
        · subst hid
          rw [hcall] at hcall'
          cases hcall'
          rcases hstage with hstage | hstage
          · cases hstage
          · cases hstage
            exact .inl rfl
        · exact .inr ⟨id', call, (Function.update_of_ne hid _ _).trans hcall', hentity, hstage⟩
    · rw [if_neg he]
      refine (h.ahead e' c' hc').imp_right ?_
      rintro ⟨id', call, hcall', hentity, hstage⟩
      have hid : id' ≠ id := by
        rintro rfl
        rw [hcall] at hcall'
        cases hcall'
        exact he hentity.symm
      exact ⟨id', call, (Function.update_of_ne hid _ _).trans hcall', hentity, hstage⟩
  · rw [SortedMap.get_insert]
    rcases List.mem_append.mp hv' with hv' | hv'
    · obtain ⟨hok, h', hm, hget'⟩ := h.returned e' v' ok hv'
      refine ⟨hok, ?_⟩
      by_cases he : e' = e
      · subst he
        obtain ⟨c', hc', hpre'⟩ := h.behind e' h' hm
        rw [hc] at hc'
        cases hc'
        rw [if_pos rfl]
        exact ⟨history, rfl, get_of_prefix
          (List.prefix_of_prefix_length_le hpre' hpre (hshorter h' hm)) hget'⟩
      · rw [if_neg he]
        exact ⟨h', hm, hget'⟩
    · cases List.mem_singleton.mp hv'
      rw [if_pos rfl]
      exact ⟨rfl, history, rfl, hget⟩

theorem Sound.reopen (h : Sound codec s m) :
    Sound codec { s with versions := m.get, calls := fun _ => none } m where
  shares := h.shares
  limit := h.limit
  behind e h' hm := ⟨h', hm, List.prefix_rfl⟩
  calls id call hcall := by cases hcall
  ahead e c hc := .inl hc
  returned := h.returned

theorem Sound.step (h : Sound codec s m) {event : Event D} (hok : InOrder codec s event)
    (hstep : s.step codec event = some s') : ∃ m', Sound codec s' m' := by
  cases event with
  | append id e data author message now =>
    simp only [RedbVersionStore.step] at hstep
    split_ifs at hstep with hfree
    cases hstep
    have hversion := appendVersion_version s.versions e data author message now
    have hnext := h.append (Option.isNone_iff_eq_none.mp hfree) e hversion
    rw [hversion] at hnext
    exact ⟨m, hnext⟩
  | clone id =>
    simp only [RedbVersionStore.step] at hstep
    split at hstep
    · next e v hcall =>
      obtain ⟨history, hhistory, -⟩ := h.calls id _ hcall
      rw [hhistory] at hstep
      cases hstep
      exact ⟨m, h.clone hcall hhistory⟩
    · cases hstep
  | put id ok =>
    simp only [RedbVersionStore.step] at hstep
    split at hstep
    · next e v history hcall =>
      cases hstep
      obtain ⟨rfl, hreplaces⟩ := hok
      have hclone : s.cloneOf id = some (e, history) := by rw [cloneOf, hcall]
      exact ⟨_, h.put hcall (hreplaces _ hclone)⟩
    · cases hstep
  | reopen =>
    rw [RedbVersionStore.step, openStore_eq h.shares h.limit] at hstep
    cases hstep
    exact ⟨m, h.reopen⟩

/-! ### Failed puts -/

/-- The version of an append in progress is in the cache. -/
def Cached (s : RedbVersionStore D W) : Prop :=
  ∀ id call, s.calls id = some call → ∃ c, s.versions call.entityId = some c ∧
    c.get call.version.version = some call.version

theorem Cached.change (h : Cached s) {id : ℕ} {call call' : Appending D}
    (hcall : s.calls id = some call) (hentity : call'.entityId = call.entityId)
    (hversion : call'.version = call.version) :
    Cached { s with calls := Function.update s.calls id (some call') } := by
  intro id' call'' hcall'
  by_cases hid : id' = id
  · subst hid
    simp only [Function.update_self, Option.some.injEq] at hcall'
    subst hcall'
    rw [hentity, hversion]
    exact h id' call hcall
  · simp only [Function.update_of_ne hid] at hcall'
    exact h id' call'' hcall'

theorem Cached.finish (h : Cached s) (id : ℕ) (call : Appending D) (ok : Bool) :
    Cached (s.finish id call ok) := by
  intro id' call' hcall'
  by_cases hid : id' = id
  · subst hid
    simp [RedbVersionStore.finish] at hcall'
  · simp only [RedbVersionStore.finish, Function.update_of_ne hid] at hcall'
    exact h id' call' hcall'

theorem Cached.step (h : Cached s) {event : Event D} (hstep : s.step codec event = some s') :
    Cached s' := by
  cases event with
  | append id e data author message now =>
    simp only [RedbVersionStore.step] at hstep
    split_ifs at hstep with hfree
    cases hstep
    have hversion := appendVersion_version s.versions e data author message now
    intro id' call hcall
    by_cases hid : id' = id
    · subst hid
      simp only [Function.update_self, Option.some.injEq] at hcall
      subst hcall
      refine ⟨_, Function.update_self _ _ _, ?_⟩
      rw [SortedMap.get_insert, if_pos hversion]
      rfl
    · simp only [Function.update_of_ne hid] at hcall
      obtain ⟨c, hc, hget⟩ := h id' call hcall
      obtain ⟨c', hc', hgrow⟩ := exists_later s.versions e hversion hc
      rw [hversion] at hc'
      exact ⟨c', hc', get_of_prefix hgrow hget⟩
  | clone id =>
    simp only [RedbVersionStore.step] at hstep
    split at hstep
    · next e v hcall =>
      split at hstep
      · cases hstep
        exact h.change hcall rfl rfl
      · cases hstep
        exact h.finish _ _ _
    · cases hstep
  | put id ok =>
    simp only [RedbVersionStore.step] at hstep
    split at hstep
    · next e v history hcall =>
      cases hstep
      exact Cached.finish h id ⟨e, v, .cloned history⟩ ok
    · cases hstep
  | reopen =>
    obtain ⟨cache, -, rfl⟩ := Option.map_eq_some_iff.mp hstep
    exact nofun

/-- Whatever the order, a put that fails leaves its version readable. -/
theorem failed_append_readable (r : Run (step codec) (fun _ _ => True) (new D W) s) {id : ℕ}
    (hstep : s.step codec (.put id false) = some s') : ∃ e v h,
      s'.returned = s.returned ++ [(e, v, false)] ∧ s'.versions e = some h ∧
        h.get v.version = some v := by
  have hcached : Cached s := r.invariant (fun _ _ _ h _ hstep => h.step hstep) nofun
  simp only [RedbVersionStore.step] at hstep
  split at hstep
  · next e v history hcall =>
    cases hstep
    obtain ⟨c, hc, hget⟩ := hcached id _ hcall
    exact ⟨e, v, c, rfl, hc, hget⟩
  · cases hstep

end RedbVersionStore

open RedbVersionStore in
/-- In every run, with as many sessions as there are, whose puts all succeed, come in the order
in which the histories were cloned and find a place for a new entity, disk and cache are together
whenever one looks. -/
theorem disk_keeps_cache {s : RedbVersionStore D W}
    (r : Run (step codec) (InOrder codec) (new D W) s) : Together codec s := by
  have hsound : ∃ m, Sound codec s m := by
    refine r.invariant (I := fun s => ∃ m, Sound codec s m) ?_ ⟨_, sound_new codec⟩
    rintro _ _ _ ⟨m, hm⟩ hok hstep
    exact hm.step hok hstep
  obtain ⟨m, hm⟩ := hsound
  exact hm.together

namespace RedbVersionStore

instance (codec : Codec (History D) W) (data : SortedMap Str W) (c : Str × History D) :
    Decidable (Replaces codec data c.1 c.2) :=
  @instDecidableAnd _ _ (Option.decidableForallMem _) inferInstance

instance (codec : Codec (History D) W) (s : RedbVersionStore D W) : DecidablePred (InOrder codec s)
  | .put id _ => @instDecidableAnd _ _ inferInstance (Option.decidableForallMem (s.cloneOf id))
  | .append _ _ _ _ _ _ | .clone _ | .reopen => isTrue trivial

end RedbVersionStore

open RedbVersionStore

/-- An append of a number to an entity. -/
def appendTo (id : ℕ) (e : Char) (data : ℕ) : Event ℕ := .append id [e] data ['x'] none 0

/-- Two appends to one entity at a time and one to another, in two sessions. -/
def inTurn : List (Event ℕ) :=
  [appendTo 0 'a' 10, appendTo 1 'a' 20, .clone 0, .put 0 true, .clone 1, .put 1 true, .reopen,
    appendTo 0 'b' 30, .clone 0, .put 0 true]

theorem disk_keeps_cache_inTurn : ∃ s, exec (guarded (InOrder (.verbatim _)) (step (.verbatim _)))
      (new ℕ (History ℕ)) inTurn = some s ∧ s.returned.length = 3 ∧
    Together (.verbatim _) s := by
  obtain ⟨s, hs, hlength⟩ : ∃ s, exec (guarded (InOrder (.verbatim _)) (step (.verbatim _)))
      (new ℕ (History ℕ)) inTurn = some s ∧ s.returned.length = 3 := ⟨_, rfl, rfl⟩
  exact ⟨s, hs, hlength, disk_keeps_cache (run_of_exec hs)⟩

/-- The clone of the first append is put after that of the second. -/
def slower : List (Event ℕ) :=
  [appendTo 0 'a' 10, .clone 0, appendTo 1 'a' 20, .clone 1, .put 1 true, .put 0 true]

/-- Both appends have returned `Ok`, and redb has the version of the first one only. -/
theorem slower_append_overwrites : ¬ ∀ s, Run (step (.verbatim (History ℕ))) (fun _ _ => True)
    (new ℕ (History ℕ)) s → (∀ id, s.calls id = none) → Together (.verbatim _) s := by
  intro hall
  obtain ⟨s, v, hs, hidle, hacked, hlost⟩ : ∃ s v, exec (step (.verbatim (History ℕ)))
      (new ℕ (History ℕ)) slower = some s ∧ (∀ id, s.calls id = none) ∧
      (['a'], v, true) ∈ s.returned ∧
      ((openStore (.verbatim _) s.data).bind fun cache =>
        (cache ['a']).bind fun h => h.get v.version) = none := by
    refine ⟨_, _, rfl, fun id => ?_, .head _, rfl⟩
    rcases id with _ | _ | id
    · rfl
    · rfl
    · rfl
  obtain ⟨cache, hcache, hversions⟩ := (hall s (run_of_steps hs) hidle).acked
  obtain ⟨h, hh, hget⟩ := hversions _ v hacked
  rw [hcache, Option.bind_some, hh, Option.bind_some, hget] at hlost
  cases hlost

end NextgenDatabases.Temporal
