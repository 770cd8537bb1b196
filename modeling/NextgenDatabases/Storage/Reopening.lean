import NextgenDatabases.Storage.Cached

/-!
# Stores that are opened again

As long as no two puts or deletes of one key are on the way together, the file has what the cache
has. What a call that has returned wrote is then found again, however often the store is opened.
-/
namespace NextgenDatabases.Storage

open Foundations

variable {P V W : Type} {kind : Kind P V} {serde : Serde V W} {data : SortedMap Str W} {ns : Str}

/-! ### Loading -/

theorem typedEntries_verbatim (ns : Str) (raw : List (Str × W)) :
    TypedStore.typedEntries (.verbatim W) ns raw =
      .ok (raw.map fun a => (TypedStore.logicalKey ns a.1, a.2)) := by
  induction raw with
  | nil => rfl
  | cons a raw ih =>
    have hvalue : (Codec.verbatim W).deserialise a.2 = some a.2 := rfl
    rw [List.map_cons, TypedStore.typedEntries, hvalue, ih]
    rfl

/-- The keys of a namespace are those that a scan without a prefix finds. -/
theorem exists_key {a : Str × W} (ha : a ∈ Shares.under data ns []) :
    ∃ k, a.1 = TypedStore.prefixedKey ns k := by
  obtain ⟨-, k, hk⟩ := Shares.mem_under.mp ha
  exact ⟨k, by simpa [TypedStore.prefixedKey] using hk.symm⟩

/-- The scan of `open` returns entries of the store, all of them if there are at most a million. -/
theorem scanned (data : SortedMap Str W) (ns : Str) :
    ∃ raw, TypedStore.scanPrefix (.verbatim W) .redb data ns [] scanLimit = .entries raw ∧
      (raw.map Prod.fst).Nodup ∧
      (∀ k w, (k, w) ∈ raw → data.get (TypedStore.prefixedKey ns k) = some w) ∧
      (data.entries.length ≤ scanLimit →
        ∀ k w, data.get (TypedStore.prefixedKey ns k) = some w → (k, w) ∈ raw) := by
  let found := (Shares.under data ns []).take (Backend.redb.atMost scanLimit)
  have hfound : ∀ {a}, a ∈ found → a ∈ Shares.under data ns [] := List.mem_of_mem_take
  have hscan : Backend.redb.scanPrefix data (TypedStore.prefixedKey ns []) scanLimit = found :=
    scanPrefix_eq _ _ _ _
  refine ⟨found.map fun a => (TypedStore.logicalKey ns a.1, a.2), ?_, ?_, fun k w => ?_, ?_⟩
  · rw [TypedStore.scanPrefix, hscan, typedEntries_verbatim]
  · rw [List.map_map]
    have hnodup : (Shares.under data ns []).Nodup :=
      (data.sorted.filter _).imp fun hlt heq => absurd (heq ▸ hlt) (lt_irrefl _)
    refine (hnodup.sublist (List.take_sublist _ _)).map_on fun a ha b hb heq => ?_
    obtain ⟨k, hk⟩ := exists_key (hfound ha)
    obtain ⟨k', hk'⟩ := exists_key (hfound hb)
    simp only [Function.comp_apply, hk, hk', logicalKey_prefixedKey] at heq
    subst heq
    exact data.eq_of_key_eq (Shares.mem_under.mp (hfound ha)).1 (Shares.mem_under.mp (hfound hb)).1
      (hk.trans hk'.symm)
  · rw [SortedMap.get_eq_some, List.mem_map]
    rintro ⟨a, ha, heq⟩
    obtain ⟨k', hk'⟩ := exists_key (hfound ha)
    rw [hk', logicalKey_prefixedKey, Prod.mk.injEq] at heq
    obtain ⟨rfl, rfl⟩ := heq
    rw [← hk']
    exact (Shares.mem_under.mp (hfound ha)).1
  · intro hlimit k w hget
    have htake : found = Shares.under data ns [] :=
      List.take_of_length_le ((List.length_filter_le _ _).trans (hlimit.trans (le_max_left _ _)))
    refine List.mem_map.mpr ⟨(TypedStore.prefixedKey ns k, w), ?_, ?_⟩
    · rw [htake, Shares.mem_under]
      exact ⟨SortedMap.get_eq_some.mp hget, prefixedKey_prefix.mpr List.nil_prefix⟩
    · rw [logicalKey_prefixedKey]

theorem readEntry_eq_ok {a : Str × W} {b : Str × V} :
    readEntry serde a = .ok b ↔ b.1 = a.1 ∧ serde.fromSlice a.2 = some b.2 := by
  rw [readEntry]
  cases serde.fromSlice a.2 with
  | none => simp
  | some v => simp [Prod.ext_iff, eq_comm]

/-- The values that are read, under the keys that were scanned. -/
theorem entries_read {raw : List (Str × W)} {entries : List (Str × V)}
    (h : raw.mapM (readEntry serde) = .ok entries) : entries.map Prod.fst = raw.map Prod.fst ∧
      ∀ k v, (k, v) ∈ entries ↔ ∃ w, (k, w) ∈ raw ∧ serde.fromSlice w = some v := by
  have hread := mapM_eq_ok_iff.mp h
  clear h
  induction hread with
  | nil => simp
  | @cons a b raw entries hab _ ih =>
    obtain ⟨hkey, hvalue⟩ := readEntry_eq_ok.mp hab
    constructor
    · rw [List.map_cons, List.map_cons, hkey, ih.1]
    · intro k v
      rw [List.mem_cons, ih.2]
      constructor
      · rintro (rfl | ⟨w, hw, hv⟩)
        · exact ⟨a.2, List.mem_cons.mpr (.inl (Prod.ext hkey rfl)), hvalue⟩
        · exact ⟨w, List.mem_cons_of_mem _ hw, hv⟩
      · rintro ⟨w, hw, hv⟩
        rcases List.mem_cons.mp hw with rfl | hw
        · rw [hvalue, Option.some.injEq] at hv
          exact .inl (Prod.ext hkey.symm hv.symm)
        · exact .inr ⟨w, hw, hv⟩

/-- What a stored value is loaded as; a value that is not kept is not loaded. -/
def Kind.load (kind : Kind P V) (serde : Serde V W) (p : P) (w : W) : Option V :=
  (serde.fromSlice w).filter (kind.keeps p)

/-- Every value of the store can be read. -/
def Readable (kind : Kind P V) (serde : Serde V W) (data : SortedMap Str W) : Prop :=
  ∀ k w, data.get (TypedStore.prefixedKey kind.ns k) = some w → (serde.fromSlice w).isSome

/-- What `open` makes of the entries that were scanned. -/
theorem cache_of_entries {raw : List (Str × W)} {entries : List (Str × V)} {p : P}
    (hnodup : (raw.map Prod.fst).Nodup) (hentries : raw.mapM (readEntry serde) = .ok entries)
    {k : Str} {v : V} :
    putAll (fun _ => none) (entries.filter fun a => kind.keeps p a.2) k = some v ↔
      ∃ w, (k, w) ∈ raw ∧ kind.load serde p w = some v := by
  obtain ⟨hkeys, hvalues⟩ := entries_read hentries
  have hfiltered : ((entries.filter fun a => kind.keeps p a.2).map Prod.fst).Nodup := by
    refine (List.Sublist.map _ List.filter_sublist).nodup ?_
    rw [hkeys]
    exact hnodup
  rw [putAll_eq_some hfiltered, List.mem_filter, hvalues]
  simp only [Kind.load, Option.filter_eq_some_iff]
  constructor
  · rintro ⟨⟨w, hw, hvalue⟩, hkeep⟩
    exact ⟨w, hw, hvalue, hkeep⟩
  · rintro ⟨w, hw, hvalue, hkeep⟩
    exact ⟨⟨w, hw, hvalue⟩, hkeep⟩

theorem openStore_eq {raw : List (Str × W)} {p : P}
    (hscan : TypedStore.scanPrefix (.verbatim W) .redb data kind.ns [] scanLimit = .entries raw) :
    openStore kind serde p data = (raw.mapM (readEntry serde)).map fun entries =>
      putAll (fun _ => none) (entries.filter fun a => kind.keeps p a.2) := by
  rw [openStore, hscan]

/-- A store that opens has nothing in its cache that is not in the file. -/
theorem stored_of_openStore {p : P} {cache : Str → Option V}
    (h : openStore kind serde p data = .ok cache) {k : Str} {v : V} (hv : cache k = some v) :
    ∃ w, data.get (TypedStore.prefixedKey kind.ns k) = some w ∧ kind.load serde p w = some v := by
  obtain ⟨raw, hscan, hnodup, hstored, -⟩ := scanned data kind.ns
  rw [openStore_eq hscan] at h
  cases hraw : raw.mapM (readEntry serde) with
  | error key =>
    rw [hraw] at h
    cases h
  | ok entries =>
    rw [hraw] at h
    cases h
    obtain ⟨w, hw, hload⟩ := (cache_of_entries hnodup hraw).mp hv
    exact ⟨w, hstored k w hw, hload⟩

/-- A file of at most a million entries opens exactly when every value can be read, and the cache
has all of those that are kept. -/
theorem openStore_eq_ok (hlimit : data.entries.length ≤ scanLimit) {p : P} {cache : Str → Option V} :
    openStore kind serde p data = .ok cache ↔ Readable kind serde data ∧
      cache = fun k => (data.get (TypedStore.prefixedKey kind.ns k)).bind (kind.load serde p) := by
  obtain ⟨raw, hscan, hnodup, hstored, hall⟩ := scanned data kind.ns
  rw [openStore_eq hscan]
  cases hraw : raw.mapM (readEntry serde) with
  | ok entries =>
    have hreadable : Readable kind serde data := by
      intro k w hw
      obtain ⟨b, hb⟩ := ok_of_mapM_ok hraw (k, w) (hall hlimit k w hw)
      rw [(readEntry_eq_ok.mp hb).2]
      rfl
    have hcache : putAll (fun _ => none) (entries.filter fun a => kind.keeps p a.2) =
        fun k => (data.get (TypedStore.prefixedKey kind.ns k)).bind (kind.load serde p) := by
      funext k
      ext v
      rw [cache_of_entries hnodup hraw, Option.bind_eq_some_iff]
      constructor
      · rintro ⟨w, hw, hload⟩
        exact ⟨w, hstored k w hw, hload⟩
      · rintro ⟨w, hw, hload⟩
        exact ⟨w, hall hlimit k w hw, hload⟩
    rw [Except.map, hcache, Except.ok.injEq]
    exact ⟨fun heq => ⟨hreadable, heq.symm⟩, fun h => h.2.symm⟩
  | error key =>
    refine ⟨nofun, ?_⟩
    rintro ⟨hreadable, -⟩
    obtain ⟨before, a, after, heq, -, herror⟩ := mapM_eq_error_iff.mp hraw
    have hsome := hreadable a.1 a.2 (hstored _ _ (by rw [heq]; simp))
    obtain ⟨v, hv⟩ := Option.isSome_iff_exists.mp hsome
    rw [readEntry, hv] at herror
    cases herror

/-! ### Runs -/

namespace CachedStore

/-- The file, as far as it is the store's, and the cache. -/
def tables (kind : Kind P V) (s : CachedStore P V W) : WriteThrough ℕ Str V W where
  durable k := s.data.get (TypedStore.prefixedKey kind.ns k)
  cached := s.cache
  calls := s.calls

/-- A put or delete begins when no other of its key is on the way. What is put is read back as it
is, and there is a place for it among the entries that are loaded. -/
def InTurn (kind : Kind P V) (serde : Serde V W) (s : CachedStore P V W) : Event P V → Prop
  | .put _ key value _ => ¬ (s.tables kind).Busy key ∧
      serde.fromSlice (serde.toVec value) = some value ∧
        ((s.data.get (TypedStore.prefixedKey kind.ns key)).isSome ∨
          s.data.entries.length < scanLimit)
  | .delete _ key _ => ¬ (s.tables kind).Busy key
  | _ => True

/-- The event begins a put or delete of the key. -/
def Event.Names (key : Str) : Event P V → Prop
  | .put _ k _ _ => k = key
  | .delete _ k _ => k = key
  | _ => False

structure Sound (kind : Kind P V) (serde : Serde V W) (s : CachedStore P V W) : Prop where
  limit : s.data.entries.length ≤ scanLimit
  readable : Readable kind serde s.data
  ahead : (s.tables kind).Ahead serde.toVec (kind.load serde s.settings)

variable {s s' t : CachedStore P V W} {i : ℕ} {key : Str} {v : Option V}

/-- What a step does to the tables. -/
theorem step_cases {e : Event P V} (h : step kind serde s e = some s') :
    s' = s ∨
    (∃ id key value, e = .put id key value true ∧ s.calls id = none ∧
      kind.accepts s.settings value = true ∧
        s' = { s with
          data := s.data.insert (TypedStore.prefixedKey kind.ns key) (serde.toVec value)
          calls := Function.update s.calls id (some (key, some value)) }) ∨
    (∃ id key, e = .delete id key true ∧ s.calls id = none ∧
        s' = { s with
          data := s.data.remove (TypedStore.prefixedKey kind.ns key)
          calls := Function.update s.calls id (some (key, none)) }) ∨
    (∃ id key v, e = .finish id ∧ s.calls id = some (key, v) ∧
        s' = { s with
          cache := Function.update s.cache key v
          calls := Function.update s.calls id none }) ∨
    ∃ p cache, e = .reopen p ∧ openStore kind serde p s.data = .ok cache ∧
        s' = ⟨p, s.data, cache, fun _ => none⟩ := by
  cases e with
  | put id key value ok =>
    rw [step] at h
    split_ifs at h with hid hfail
    · exact .inl (Option.some.inj h).symm
    · simp only [Bool.or_eq_true, Bool.not_eq_true', not_or, Bool.not_eq_false] at hfail
      obtain ⟨haccepts, rfl⟩ := hfail
      exact .inr (.inl ⟨id, key, value, rfl, by simpa using hid, haccepts, (Option.some.inj h).symm⟩)
  | delete id key ok =>
    rw [step] at h
    split_ifs at h with hid hfail
    · exact .inl (Option.some.inj h).symm
    · obtain rfl : ok = true := by simpa using hfail
      exact .inr (.inr (.inl ⟨id, key, rfl, by simpa using hid, (Option.some.inj h).symm⟩))
  | finish id =>
    rw [step] at h
    cases hcall : s.calls id with
    | none => simp [hcall] at h
    | some call =>
      simp only [hcall, Option.some.injEq] at h
      exact .inr (.inr (.inr (.inl ⟨id, call.1, call.2, rfl, hcall, h.symm⟩)))
  | reopen p =>
    rw [step] at h
    cases hopen : openStore kind serde p s.data with
    | error key => simp [hopen] at h
    | ok cache =>
      simp only [hopen, Option.some.injEq] at h
      exact .inr (.inr (.inr (.inr ⟨p, cache, rfl, hopen, h.symm⟩)))

theorem tables_put (s : CachedStore P V W) (id : ℕ) (key : Str) (value : V) :
    tables kind { s with
      data := s.data.insert (TypedStore.prefixedKey kind.ns key) (serde.toVec value)
      calls := Function.update s.calls id (some (key, some value)) } =
        (s.tables kind).write serde.toVec id key (some value) := by
  have hdurable : (fun k => (s.data.insert (TypedStore.prefixedKey kind.ns key)
      (serde.toVec value)).get (TypedStore.prefixedKey kind.ns k)) =
        Function.update (s.tables kind).durable key (some (serde.toVec value)) := by
    funext k
    rw [SortedMap.get_insert, Function.update_apply]
    simp only [prefixedKey_inj]
    rfl
  rw [WriteThrough.write, Option.map_some, ← hdurable]
  rfl

theorem tables_delete (s : CachedStore P V W) (id : ℕ) (key : Str) :
    tables kind { s with
      data := s.data.remove (TypedStore.prefixedKey kind.ns key)
      calls := Function.update s.calls id (some (key, none)) } =
        (s.tables kind).write serde.toVec id key none := by
  have hdurable : (fun k => (s.data.remove (TypedStore.prefixedKey kind.ns key)).get
      (TypedStore.prefixedKey kind.ns k)) = Function.update (s.tables kind).durable key none := by
    funext k
    rw [SortedMap.get_remove, Function.update_apply]
    simp only [prefixedKey_inj]
    rfl
  rw [WriteThrough.write, Option.map_none, ← hdurable]
  rfl

theorem load_toVec {p : P} {value : V} (haccepts : kind.accepts p value = true)
    (hread : serde.fromSlice (serde.toVec value) = some value) :
    kind.load serde p (serde.toVec value) = some value := by
  rw [Kind.load, hread]
  exact Option.filter_eq_some_iff.mpr ⟨rfl, kind.keeps_of_accepts p value haccepts⟩

theorem Sound.step (h : Sound kind serde s) {e : Event P V} (hturn : InTurn kind serde s e)
    (hstep : step kind serde s e = some s') : Sound kind serde s' := by
  rcases step_cases hstep with rfl | ⟨id, key, value, rfl, hid, haccepts, rfl⟩ |
    ⟨id, key, rfl, hid, rfl⟩ | ⟨id, key, v, rfl, hcall, rfl⟩ | ⟨p, cache, rfl, hopen, rfl⟩
  · exact h
  · obtain ⟨hidle, hread, hplace⟩ := hturn
    refine ⟨?_, fun k w hw => ?_, ?_⟩
    · have hremove := @SortedMap.length_remove_le _ _ _ s.data (TypedStore.prefixedKey kind.ns key)
      rcases hplace with hsome | hlt
      · exact (SortedMap.length_insert_of_mem hsome).trans_le h.limit
      · rw [SortedMap.length_insert]
        omega
    · rw [SortedMap.get_insert] at hw
      split_ifs at hw
      · rw [← Option.some.inj hw, hread]
        rfl
      · exact h.readable k w hw
    · rw [tables_put]
      refine h.ahead.write hid hidle ?_
      rintro a ⟨⟩
      exact load_toVec haccepts hread
  · refine ⟨SortedMap.length_remove_le.trans h.limit, fun k w hw => ?_, ?_⟩
    · rw [SortedMap.get_remove] at hw
      split_ifs at hw
      exact h.readable k w hw
    · rw [tables_delete]
      exact h.ahead.write hid hturn nofun
  · exact ⟨h.limit, h.readable, h.ahead.finish hcall⟩
  · obtain ⟨hreadable, rfl⟩ := (openStore_eq_ok h.limit).mp hopen
    exact ⟨h.limit, hreadable, .reload (s.tables kind) _ _⟩

theorem sound_new (p : P) : Sound kind serde (new p) where
  limit := Nat.zero_le _
  readable k w hw := by cases hw
  ahead := .reload ⟨fun _ => none, fun _ => none, fun _ => none⟩ _ _

theorem sound_run {p : P} (r : Run (step kind serde) (InTurn kind serde) (new p) s) :
    Sound kind serde s :=
  r.invariant (fun _ _ _ h hturn hstep => h.step hturn hstep) (sound_new p)

/-! ### What a store that is opened again shows -/

/-- At every moment of a run the file can be opened. A key that no call is changing then has what it
has in the cache, and one that a call is changing has what the call writes. -/
theorem opened_is_shown (kind : Kind P V) (serde : Serde V W) {p : P}
    (r : Run (step kind serde) (InTurn kind serde) (new p) s) :
    ∃ cache, openStore kind serde s.settings s.data = .ok cache ∧ ∀ k,
      (¬ (s.tables kind).Busy k → cache k = s.cache k) ∧
        ∀ id v, s.calls id = some (k, v) → cache k = v := by
  have h := sound_run r
  refine ⟨_, (openStore_eq_ok h.limit).mpr ⟨h.readable, rfl⟩, fun k => ⟨h.ahead.idle k, ?_⟩⟩
  intro id v hcall
  have hloaded := h.ahead.loaded id k v hcall
  rw [← h.ahead.saved id k v hcall] at hloaded
  exact hloaded

/-- The key has been written and is not being written again. -/
structure Written (kind : Kind P V) (serde : Serde V W) (key : Str) (v : Option V)
    (s : CachedStore P V W) : Prop where
  stored : s.data.get (TypedStore.prefixedKey kind.ns key) = v.map serde.toVec
  shown : s.cache key = v.filter (kind.keeps s.settings)
  idle : ¬ (s.tables kind).Busy key

theorem bind_load (hread : ∀ a ∈ v, serde.fromSlice (serde.toVec a) = some a) (p : P) :
    (v.map serde.toVec).bind (kind.load serde p) = v.filter (kind.keeps p) := by
  cases v with
  | none => rfl
  | some a =>
    rw [Option.map_some, Option.bind_some, Kind.load, hread a rfl]

theorem Written.step (h : Written kind serde key v s)
    (hread : ∀ a ∈ v, serde.fromSlice (serde.toVec a) = some a) (hlimit : Sound kind serde s)
    {e : Event P V} (hnames : ¬ e.Names key) (hstep : step kind serde s e = some s') :
    Written kind serde key v s' := by
  rcases step_cases hstep with rfl | ⟨id, k, value, rfl, hid, -, rfl⟩ |
    ⟨id, k, rfl, hid, rfl⟩ | ⟨id, k, w, rfl, hcall, rfl⟩ | ⟨p, cache, rfl, hopen, rfl⟩
  · exact h
  · have hkey : key ≠ k := fun heq => hnames heq.symm
    refine ⟨?_, h.shown, ?_⟩
    · rw [SortedMap.get_insert, if_neg (mt prefixedKey_inj.mp hkey), h.stored]
    · rw [tables_put, WriteThrough.busy_write hid, not_or]
      exact ⟨hkey, h.idle⟩
  · have hkey : key ≠ k := fun heq => hnames heq.symm
    refine ⟨?_, h.shown, ?_⟩
    · rw [SortedMap.get_remove, if_neg (mt prefixedKey_inj.mp hkey), h.stored]
    · rw [@tables_delete _ _ _ _ serde, WriteThrough.busy_write hid, not_or]
      exact ⟨hkey, h.idle⟩
  · have hkey : key ≠ k := by
      rintro rfl
      exact h.idle ⟨id, w, hcall⟩
    exact ⟨h.stored, (Function.update_of_ne hkey _ _).trans h.shown,
      fun hbusy => h.idle (WriteThrough.Busy.of_finish hbusy)⟩
  · obtain ⟨-, rfl⟩ := (openStore_eq_ok hlimit.limit).mp hopen
    refine ⟨h.stored, ?_, WriteThrough.not_busy_reload (s.tables kind) (kind.load serde p) key⟩
    change (s.data.get _).bind _ = _
    rw [h.stored, bind_load hread]

/-- What a put or delete that has returned wrote is there until another one of the key begins,
however often the store is opened again: under the settings of the time it is read from the cache
if they keep it, and any settings that keep it find it in the file. -/
theorem written_stays (kind : Kind P V) (serde : Serde V W) {p : P}
    (r : Run (step kind serde) (InTurn kind serde) (new p) s) (hcall : s.calls i = some (key, v))
    (hfinish : step kind serde s (.finish i) = some s')
    (r' : Run (step kind serde) (fun s e => InTurn kind serde s e ∧ ¬ e.Names key) s' t) :
    t.cache key = v.filter (kind.keeps t.settings) ∧
      ∀ p', ∃ cache, openStore kind serde p' t.data = .ok cache ∧
        cache key = v.filter (kind.keeps p') := by
  have hs := sound_run r
  have hs' : Sound kind serde s' := hs.step (e := .finish i) trivial hfinish
  have hloaded := hs.ahead.loaded i key v hcall
  have hread : ∀ a ∈ v, serde.fromSlice (serde.toVec a) = some a := by
    rintro a ⟨⟩
    exact (Option.filter_eq_some_iff.mp hloaded).1
  have hwritten : Written kind serde key v s' := by
    rw [CachedStore.step, hcall] at hfinish
    cases hfinish
    refine ⟨hs.ahead.saved i key v hcall, ?_, WriteThrough.not_busy_finish hs.ahead hcall⟩
    rw [← bind_load hread]
    exact (Function.update_self _ _ _).trans hloaded.symm
  have hboth := r'.invariant (I := fun u => Sound kind serde u ∧ Written kind serde key v u)
    (fun u e w hu he hstep =>
      ⟨hu.1.step he.1 hstep, hu.2.step hread hu.1 he.2 hstep⟩) ⟨hs', hwritten⟩
  refine ⟨hboth.2.shown, fun p' => ⟨_, (openStore_eq_ok hboth.1.limit).mpr
    ⟨hboth.1.readable, rfl⟩, ?_⟩⟩
  rw [hboth.2.stored, bind_load hread]

/-! ### An embedding that is put and found again -/

def axis : Embedding := ⟨['a'], [.finite 1, .finite 0]⟩

/-- Embeddings that are stored as they are. -/
def plainly : Serde Embedding Embedding := ⟨id, some⟩

/-- The embedding is in redb. -/
def axisPut : CachedStore ℕ Embedding Embedding where
  settings := 2
  data := SortedMap.empty.insert (TypedStore.prefixedKey redbVectorStore.ns axis.id) axis
  cache _ := none
  calls := Function.update (fun _ => none) 0 (some (axis.id, some axis))

/-- The put has returned. -/
def axisShown : CachedStore ℕ Embedding Embedding :=
  { axisPut with
    cache := Function.update (fun _ => none) axis.id (some axis)
    calls := Function.update axisPut.calls 0 none }

theorem axisPut_run :
    Run (step redbVectorStore plainly) (InTurn redbVectorStore plainly) (new 2) axisPut := by
  have hidle : ¬ ((new 2 : CachedStore ℕ Embedding Embedding).tables redbVectorStore).Busy
      axis.id := by
    rintro ⟨id, v, hcall⟩
    cases hcall
  exact Run.single (e := .put 0 axis.id axis true) ⟨hidle, rfl, .inr (by decide)⟩ rfl

def diagonal : Embedding := ⟨['d'], [.finite 1, .finite 1]⟩

/-- While the first embedding is put another one is, and while that one is put the first is deleted
again. -/
theorem opened_is_shown_overlapping : ∃ s : CachedStore ℕ Embedding Embedding,
    s.calls 1 = some (diagonal.id, some diagonal) ∧ s.calls 2 = some (axis.id, none) ∧
      s.cache axis.id = some axis ∧ s.cache diagonal.id = none ∧
      ∃ cache, openStore redbVectorStore plainly 2 s.data = .ok cache ∧ cache axis.id = none ∧
        cache diagonal.id = some diagonal := by
  have hapart : axis.id ≠ diagonal.id := by decide
  have hput : InTurn redbVectorStore plainly axisPut (.put 1 diagonal.id diagonal true) := by
    refine ⟨?_, rfl, .inr (by decide)⟩
    rintro ⟨id, v, hcall⟩
    rcases id with _ | id
    · exact hapart (congrArg Prod.fst (Option.some.inj hcall))
    · cases hcall
  have hboth := (axisPut_run.trans (Run.single hput rfl)).trans
    (Run.single (e := .finish 0) trivial rfl)
  have hrun := hboth.trans (Run.single (e := .delete 2 axis.id true) (by
    rintro ⟨id, v, hcall⟩
    rcases id with _ | _ | id
    · cases hcall
    · exact hapart.symm (congrArg Prod.fst (Option.some.inj hcall))
    · cases hcall) rfl)
  obtain ⟨cache, hopen, hcache⟩ := opened_is_shown redbVectorStore plainly hrun
  exact ⟨_, rfl, rfl, rfl, rfl, cache, hopen, (hcache axis.id).2 2 none rfl,
    (hcache diagonal.id).2 1 (some diagonal) rfl⟩

/-- Opened for three dimensions the store has not loaded the embedding, for two it has. -/
theorem written_stays_axis : ∃ t : CachedStore ℕ Embedding Embedding, t.cache axis.id = none ∧
    ∃ cache, openStore redbVectorStore plainly 2 t.data = .ok cache ∧ cache axis.id = some axis := by
  have hsound : Sound redbVectorStore plainly axisShown :=
    (sound_run axisPut_run).step (e := .finish 0) trivial rfl
  have hopen := (openStore_eq_ok (p := 3) hsound.limit).mpr ⟨hsound.readable, rfl⟩
  have hreopen : step redbVectorStore plainly axisShown (.reopen 3) = some ⟨3, axisShown.data,
      fun k => (axisShown.data.get (TypedStore.prefixedKey redbVectorStore.ns k)).bind
        (redbVectorStore.load plainly 3), fun _ => none⟩ := by
    rw [step, hopen]
  obtain ⟨hshown, hfile⟩ := written_stays redbVectorStore plainly axisPut_run
    (show axisPut.calls 0 = some (axis.id, some axis) from rfl) rfl
    (Run.single (e := .reopen 3) ⟨trivial, nofun⟩ hreopen)
  obtain ⟨cache, hcache, haxis⟩ := hfile 2
  refine ⟨_, hshown.trans ?_, cache, hcache, haxis.trans ?_⟩
  · decide
  · decide

end CachedStore

end NextgenDatabases.Storage
