import NextgenDatabases.Storage.Reopening
import NextgenDatabases.Verisim.Provenance

/-!
# The persistent provenance store

A record is appended to the chain in the cache, and the chain put into redb, under one lock. A
deletion removes the chain from redb first and takes the lock only then, for the cache.
-/
namespace NextgenDatabases.Verisim.Provenance

open Foundations Storage

variable {W : Type}

/-- The chains in redb: all that are there are loaded. -/
def redbProvenanceStore : Kind Unit ProvenanceChain where
  ns := ['p', 'r', 'o', 'v']
  accepts _ _ := true
  keeps _ _ := true
  keeps_of_accepts _ _ _ := rfl

/-- Chains are written as JSON without a loss: they have no floats. -/
def chainSerde (codec : Codec ProvenanceChain W) : Serde ProvenanceChain W where
  toVec := codec.serialise
  fromSlice := codec.deserialise

structure RedbProvenanceStore (W : Type) where
  data : SortedMap Str W
  chains : Str → Option ProvenanceChain
  /-- The deletions that redb has and the cache does not have yet. -/
  deleting : ℕ → Option Str

inductive StoreEvent
  /-- A record, and whether redb takes the chain. -/
  | recordEvent (entityId : String) (event : Verisim.ProvenanceRecord) (ok : Bool)
  | deleteChain (id : ℕ) (entityId : String) (ok : Bool)
  /-- The deletion changes the cache and returns. -/
  | finish (id : ℕ)
  /-- The process stops and the store is opened again. -/
  | reopen

def StoreEvent.Deletes (entityId : String) : StoreEvent → Prop
  | .deleteChain _ e _ => e = entityId
  | _ => False

namespace RedbProvenanceStore

/-- A store opened on a new file. -/
def new : RedbProvenanceStore W where
  data := .empty
  chains _ := none
  deleting _ := none

def key (entityId : String) : Str := TypedStore.prefixedKey redbProvenanceStore.ns entityId.toList

/-- The chain with the record that `record_event` appends. -/
def appended (lib : Libraries) (s : RedbProvenanceStore W) (entityId : String)
    (event : Verisim.ProvenanceRecord) : ProvenanceChain :=
  ((s.chains entityId.toList).getD (.new entityId)).append lib event

def step (lib : Libraries) (codec : Codec ProvenanceChain W) (s : RedbProvenanceStore W) :
    StoreEvent → Option (RedbProvenanceStore W)
  | .recordEvent entityId event ok =>
    let chain := s.appended lib entityId event
    -- a chain that redb does not take stays in the cache
    some { s with
      data := if ok then s.data.insert (key entityId) (codec.serialise chain) else s.data
      chains := Function.update s.chains entityId.toList (some chain) }
  | .deleteChain id entityId ok =>
    if (s.deleting id).isSome then none
    else if ok then some { s with
      data := s.data.remove (key entityId)
      deleting := Function.update s.deleting id (some entityId.toList) }
    else some s
  | .finish id =>
    match s.deleting id with
    | some entityId => some { s with
        chains := Function.update s.chains entityId none
        deleting := Function.update s.deleting id none }
    | none => none
  | .reopen =>
    match openStore redbProvenanceStore (chainSerde codec) () s.data with
    | .ok chains => some ⟨s.data, chains, fun _ => none⟩
    | .error _ => none

/-- The chain that redb has. -/
def stored (codec : Codec ProvenanceChain W) (s : RedbProvenanceStore W) (k : Str) :
    Option ProvenanceChain :=
  (s.data.get (TypedStore.prefixedKey redbProvenanceStore.ns k)).bind codec.deserialise

variable {lib : Libraries} {codec : Codec ProvenanceChain W} {s s' t : RedbProvenanceStore W}

/-! ### Every chain is accepted -/

/-- A chain that belongs to the key, has a record and is accepted. -/
structure Intact (lib : Libraries) (k : Str) (chain : ProvenanceChain) : Prop where
  entityId : chain.entityId.toList = k
  records : chain.records ≠ []
  verified : chain.verify lib = .ok ()

/-- All chains in the cache and in the file. -/
structure AllIntact (lib : Libraries) (codec : Codec ProvenanceChain W)
    (s : RedbProvenanceStore W) : Prop where
  cached : ∀ k chain, s.chains k = some chain → Intact lib k chain
  inFile : ∀ k w, s.data.get (TypedStore.prefixedKey redbProvenanceStore.ns k) = some w →
    ∃ chain, codec.deserialise w = some chain ∧ Intact lib k chain

theorem load_eq (w : W) :
    redbProvenanceStore.load (chainSerde codec) () w = codec.deserialise w := by
  change (codec.deserialise w).filter (fun _ => true) = _
  cases codec.deserialise w <;> rfl

theorem intact_appended (h : AllIntact lib codec s) (entityId : String)
    (event : Verisim.ProvenanceRecord) :
    Intact lib entityId.toList (s.appended lib entityId event) := by
  have hbefore : (((s.chains entityId.toList).getD (.new entityId)).entityId = entityId) ∧
      ((s.chains entityId.toList).getD (.new entityId)).verify lib = .ok () := by
    cases hchain : s.chains entityId.toList with
    | none => exact ⟨rfl, rfl⟩
    | some chain =>
      have hintact := h.cached _ _ hchain
      exact ⟨String.toList_inj.mp hintact.entityId, hintact.verified⟩
  refine ⟨congrArg String.toList hbefore.1, ?_, verify_append hbefore.2 event⟩
  simp [appended, ProvenanceChain.append]

theorem intact_of_update {chains : Str → Option ProvenanceChain}
    (h : ∀ k chain, chains k = some chain → Intact lib k chain) {k₀ : Str}
    {new : Option ProvenanceChain} (hnew : ∀ chain, new = some chain → Intact lib k₀ chain) :
    ∀ k chain, Function.update chains k₀ new k = some chain → Intact lib k chain := by
  intro k chain hchain
  by_cases hk : k = k₀
  · subst hk
    exact hnew chain (by simpa using hchain)
  · exact h k chain ((Function.update_of_ne hk _ _).symm.trans hchain)

theorem AllIntact.step (h : AllIntact lib codec s) {e : StoreEvent}
    (hstep : step lib codec s e = some s') : AllIntact lib codec s' := by
  cases e with
  | recordEvent entityId event ok =>
    cases hstep
    have hnew := intact_appended h entityId event
    refine ⟨intact_of_update h.cached fun chain hchain => Option.some.inj hchain ▸ hnew, ?_⟩
    intro k w hw
    cases ok with
    | false => exact h.inFile k w hw
    | true =>
      simp only [if_true, SortedMap.get_insert] at hw
      split_ifs at hw with hk
      · obtain rfl := prefixedKey_inj.mp hk
        obtain rfl := Option.some.inj hw
        exact ⟨_, codec.deserialise_serialise _, hnew⟩
      · exact h.inFile k w hw
  | deleteChain id entityId ok =>
    rw [RedbProvenanceStore.step] at hstep
    split_ifs at hstep with hid hok
    · cases hstep
      refine ⟨h.cached, fun k w hw => ?_⟩
      rw [SortedMap.get_remove] at hw
      split_ifs at hw
      exact h.inFile k w hw
    · cases hstep
      exact h
  | finish id =>
    rw [RedbProvenanceStore.step] at hstep
    cases hid : s.deleting id with
    | none => simp [hid] at hstep
    | some k =>
      simp only [hid, Option.some.injEq] at hstep
      subst hstep
      exact ⟨intact_of_update h.cached nofun, h.inFile⟩
  | reopen =>
    rw [RedbProvenanceStore.step] at hstep
    cases hopen : openStore redbProvenanceStore (chainSerde codec) () s.data with
    | error k => simp [hopen] at hstep
    | ok chains =>
      simp only [hopen, Option.some.injEq] at hstep
      subst hstep
      refine ⟨fun k chain hchain => ?_, h.inFile⟩
      obtain ⟨w, hw, hload⟩ := stored_of_openStore hopen hchain
      obtain ⟨chain', hchain', hintact⟩ := h.inFile k w hw
      rw [load_eq, hchain'] at hload
      exact Option.some.inj hload ▸ hintact

theorem allIntact_new : AllIntact lib codec (new : RedbProvenanceStore W) where
  cached k chain h := by cases h
  inFile k w h := by cases h

/-- In every run, whatever overlaps and whichever puts fail, all chains that are served and all that
a store opened at any moment would serve are accepted. -/
theorem every_chain_verifies (lib : Libraries) (codec : Codec ProvenanceChain W)
    (r : Run (step lib codec) (fun _ _ => True) new s) :
    (∀ k chain, s.chains k = some chain → chain.verify lib = .ok ()) ∧
      ∀ chains, openStore redbProvenanceStore (chainSerde codec) () s.data = .ok chains →
        ∀ k chain, chains k = some chain → chain.verify lib = .ok () := by
  have h : AllIntact lib codec s :=
    r.invariant (fun _ _ _ h _ hstep => h.step hstep) allIntact_new
  refine ⟨fun k chain hchain => (h.cached k chain hchain).verified, fun chains hopen => ?_⟩
  have hreopen : step lib codec s .reopen = some ⟨s.data, chains, fun _ => none⟩ := by
    rw [step, hopen]
  exact fun k chain hchain => ((h.step hreopen).cached k chain hchain).verified

/-- A signature is recorded, and then a further creation that redb does not take, while the deletion
of the chain is between redb and the cache. -/
def overlapping : List StoreEvent :=
  [.recordEvent "octad" created true, .deleteChain 0 "octad" true,
    .recordEvent "octad" signed true, .recordEvent "octad" created false, .finish 0]

/-- The cache has no chain then, and a store opened on the file has one of two records. -/
theorem every_chain_verifies_overlapping : ∃ s : RedbProvenanceStore ProvenanceChain,
    s.chains "octad".toList = none ∧ ∃ chains,
      openStore redbProvenanceStore (chainSerde (.verbatim _)) () s.data = .ok chains ∧
      ∃ chain, chains "octad".toList = some chain ∧ chain.records.length = 2 ∧
        chain.verify twoRecordsLib = .ok () := by
  let two := ((ProvenanceChain.new "octad").append twoRecordsLib created).append twoRecordsLib signed
  obtain ⟨s, hrun, hchains, hlength, hget⟩ : ∃ s : RedbProvenanceStore ProvenanceChain,
      exec (step twoRecordsLib (.verbatim _)) new overlapping = some s ∧
      s.chains "octad".toList = none ∧ s.data.entries.length = 1 ∧
      s.data.get (key "octad") = some two := by
    refine ⟨_, rfl, rfl, rfl, ?_⟩
    change (SortedMap.insert _ _ two).get _ = some two
    rw [SortedMap.get_insert, if_pos rfl]
  have hopen : openStore redbProvenanceStore (chainSerde (.verbatim _)) () s.data = .ok _ :=
    (openStore_eq_ok (by rw [hlength]; decide)).mpr ⟨fun _ _ _ => rfl, rfl⟩
  have hshown : (s.data.get (key "octad")).bind
      (redbProvenanceStore.load (chainSerde (.verbatim _)) ()) = some two := by
    rw [hget]
    exact load_eq two
  exact ⟨s, hchains, _, hopen, two, hshown, rfl,
    (every_chain_verifies twoRecordsLib (.verbatim _) (run_of_steps hrun)).2 _ hopen _ two hshown⟩

/-! ### Records that stay -/

/-- No record is made of an entity whose deletion is between redb and the cache, and a chain that is
new to redb has a place among those that are loaded. -/
def InTurn (s : RedbProvenanceStore W) : StoreEvent → Prop
  | .recordEvent entityId _ _ => (∀ id, s.deleting id ≠ some entityId.toList) ∧
      ((s.data.get (key entityId)).isSome ∨ s.data.entries.length < scanLimit)
  | _ => True

structure Sound (codec : Codec ProvenanceChain W) (s : RedbProvenanceStore W) : Prop where
  limit : s.data.entries.length ≤ scanLimit
  readable : Readable redbProvenanceStore (chainSerde codec) s.data
  /-- What redb has of a chain is its beginning. -/
  behind : ∀ k c, s.stored codec k = some c →
    ∃ c', s.chains k = some c' ∧ c.records <+: c'.records
  deleted : ∀ id k, s.deleting id = some k → s.stored codec k = none

theorem stored_insert (entityId : String) (chain : ProvenanceChain) (k : Str)
    (chains : Str → Option ProvenanceChain) (deleting : ℕ → Option Str) :
    stored codec ⟨s.data.insert (key entityId) (codec.serialise chain), chains, deleting⟩ k =
      if k = entityId.toList then some chain else s.stored codec k := by
  rw [stored, SortedMap.get_insert, key]
  simp only [prefixedKey_inj]
  split_ifs with hk
  · exact codec.deserialise_serialise chain
  · rfl

theorem stored_remove (entityId : String) (k : Str)
    (chains : Str → Option ProvenanceChain) (deleting : ℕ → Option Str) :
    stored codec ⟨s.data.remove (key entityId), chains, deleting⟩ k =
      if k = entityId.toList then none else s.stored codec k := by
  rw [stored, SortedMap.get_remove, key]
  simp only [prefixedKey_inj]
  split_ifs with hk <;> rfl

/-- The cache of a store that is opened. -/
theorem opened_eq (h : Sound codec s) :
    openStore redbProvenanceStore (chainSerde codec) () s.data = .ok (s.stored codec) := by
  refine (openStore_eq_ok h.limit).mpr ⟨h.readable, ?_⟩
  funext k
  rw [stored]
  congr 1
  funext w
  exact (load_eq w).symm

theorem records_appended (lib : Libraries) (s : RedbProvenanceStore W) (entityId : String)
    (event : Verisim.ProvenanceRecord) {c : ProvenanceChain}
    (h : s.chains entityId.toList = some c) :
    c.records <+: (s.appended lib entityId event).records := by
  rw [appended, h]
  exact List.prefix_append _ _

theorem Sound.step (h : Sound codec s) {e : StoreEvent} (hturn : InTurn s e)
    (hstep : step lib codec s e = some s') : Sound codec s' := by
  cases e with
  | recordEvent entityId event ok =>
    obtain ⟨hidle, hplace⟩ := hturn
    cases hstep
    -- the chain in the cache is longer by one record
    have hgrown : ∀ k c, s.stored codec k = some c → ∃ c', Function.update s.chains
        entityId.toList (some (s.appended lib entityId event)) k = some c' ∧
          c.records <+: c'.records := by
      intro k c hc
      obtain ⟨c', hc', hpre⟩ := h.behind k c hc
      by_cases hk : k = entityId.toList
      · subst hk
        exact ⟨_, Function.update_self _ _ _, hpre.trans (records_appended lib s entityId event hc')⟩
      · exact ⟨c', (Function.update_of_ne hk _ _).trans hc', hpre⟩
    cases ok with
    | false => exact ⟨h.limit, h.readable, hgrown, h.deleted⟩
    | true =>
      refine ⟨?_, fun k w hw => ?_, fun k c hc => ?_, fun id k hid => ?_⟩
      · have hremove := @SortedMap.length_remove_le _ _ _ s.data (key entityId)
        rcases hplace with hsome | hlt
        · exact (SortedMap.length_insert_of_mem hsome).trans_le h.limit
        · simp only [if_true, SortedMap.length_insert]
          omega
      · simp only [if_true, SortedMap.get_insert] at hw
        split_ifs at hw
        · rw [← Option.some.inj hw]
          exact Option.isSome_iff_exists.mpr ⟨_, codec.deserialise_serialise _⟩
        · exact h.readable k w hw
      · simp only [if_true, stored_insert] at hc
        split_ifs at hc with hk
        · subst hk
          exact ⟨_, Function.update_self _ _ _, Option.some.inj hc ▸ List.prefix_rfl⟩
        · exact hgrown k c hc
      · have hk : k ≠ entityId.toList := by
          rintro rfl
          exact hidle id hid
        simp only [if_true, stored_insert, if_neg hk]
        exact h.deleted id k hid
  | deleteChain id entityId ok =>
    rw [RedbProvenanceStore.step] at hstep
    split_ifs at hstep with hid hok
    · cases hstep
      refine ⟨SortedMap.length_remove_le.trans h.limit, fun k w hw => ?_, fun k c hc => ?_,
        fun id' k hid' => ?_⟩
      · rw [SortedMap.get_remove] at hw
        split_ifs at hw
        exact h.readable k w hw
      · rw [stored_remove] at hc
        split_ifs at hc
        exact h.behind k c hc
      · rw [stored_remove]
        split_ifs with hk
        · rfl
        · by_cases hid'' : id' = id
          · subst hid''
            simp only [Function.update_self, Option.some.injEq] at hid'
            exact absurd hid'.symm hk
          · exact h.deleted id' k ((Function.update_of_ne hid'' _ _).symm.trans hid')
    · cases hstep
      exact h
  | finish id =>
    rw [RedbProvenanceStore.step] at hstep
    cases hid : s.deleting id with
    | none => simp [hid] at hstep
    | some k₀ =>
      simp only [hid, Option.some.injEq] at hstep
      subst hstep
      refine ⟨h.limit, h.readable, fun k c hc => ?_, fun id' k hid' => ?_⟩
      · have hk : k ≠ k₀ := by
          rintro rfl
          exact absurd ((h.deleted id k hid).symm.trans hc) nofun
        obtain ⟨c', hc', hpre⟩ := h.behind k c hc
        exact ⟨c', (Function.update_of_ne hk _ _).trans hc', hpre⟩
      · by_cases hid'' : id' = id
        · subst hid''
          simp at hid'
        · exact h.deleted id' k ((Function.update_of_ne hid'' _ _).symm.trans hid')
  | reopen =>
    rw [RedbProvenanceStore.step, opened_eq h] at hstep
    cases hstep
    exact ⟨h.limit, h.readable, fun k c hc => ⟨c, hc, List.prefix_rfl⟩, nofun⟩

theorem sound_new : Sound codec (new : RedbProvenanceStore W) where
  limit := Nat.zero_le _
  readable k w h := by cases h
  behind k c h := by cases h
  deleted id k h := by cases h

/-- Redb has the records and no deletion of them is on the way. -/
structure Has (codec : Codec ProvenanceChain W) (entityId : String)
    (records : List ProvenanceRecord) (s : RedbProvenanceStore W) : Prop where
  stored : ∃ c, s.stored codec entityId.toList = some c ∧ records <+: c.records
  idle : ∀ id, s.deleting id ≠ some entityId.toList

theorem Has.step {entityId : String} {records : List ProvenanceRecord}
    (h : Has codec entityId records s) (hs : Sound codec s) {e : StoreEvent}
    (hdeletes : ¬ e.Deletes entityId) (hstep : step lib codec s e = some s') :
    Has codec entityId records s' := by
  obtain ⟨⟨c, hc, hpre⟩, hidle⟩ := h
  cases e with
  | recordEvent e event ok =>
    cases hstep
    cases ok with
    | false => exact ⟨⟨c, hc, hpre⟩, hidle⟩
    | true =>
      refine ⟨?_, hidle⟩
      simp only [if_true, stored_insert]
      split_ifs with hk
      · obtain rfl := String.toList_inj.mp hk
        obtain ⟨c', hc', hpre'⟩ := hs.behind _ c hc
        exact ⟨_, rfl, (hpre.trans hpre').trans (records_appended lib s entityId event hc')⟩
      · exact ⟨c, hc, hpre⟩
  | deleteChain id e ok =>
    have hne : entityId.toList ≠ e.toList := fun heq => hdeletes (String.toList_inj.mp heq).symm
    rw [RedbProvenanceStore.step] at hstep
    split_ifs at hstep with hid hok
    · cases hstep
      refine ⟨⟨c, ?_, hpre⟩, fun id' hid' => ?_⟩
      · rw [stored_remove, if_neg hne, hc]
      · by_cases hid'' : id' = id
        · subst hid''
          simp only [Function.update_self, Option.some.injEq] at hid'
          exact hne hid'.symm
        · exact hidle id' ((Function.update_of_ne hid'' _ _).symm.trans hid')
    · cases hstep
      exact ⟨⟨c, hc, hpre⟩, hidle⟩
  | finish id =>
    rw [RedbProvenanceStore.step] at hstep
    cases hid : s.deleting id with
    | none => simp [hid] at hstep
    | some k₀ =>
      simp only [hid, Option.some.injEq] at hstep
      subst hstep
      refine ⟨⟨c, hc, hpre⟩, fun id' hid' => ?_⟩
      by_cases hid'' : id' = id
      · subst hid''
        simp at hid'
      · exact hidle id' ((Function.update_of_ne hid'' _ _).symm.trans hid')
  | reopen =>
    rw [RedbProvenanceStore.step, opened_eq hs] at hstep
    cases hstep
    exact ⟨⟨c, hc, hpre⟩, nofun⟩

/-- A chain whose record was acknowledged is the beginning of the entity's chain, in the cache and
in every store opened later, until a deletion of the entity begins. -/
theorem recorded_stays (lib : Libraries) (codec : Codec ProvenanceChain W)
    (r : Run (step lib codec) InTurn new s) {entityId : String} {event : Verisim.ProvenanceRecord}
    (hturn : InTurn s (.recordEvent entityId event true))
    (hrecord : step lib codec s (.recordEvent entityId event true) = some s')
    (r' : Run (step lib codec) (fun s e => InTurn s e ∧ ¬ e.Deletes entityId) s' t) :
    (∃ c, t.chains entityId.toList = some c ∧
      (s.appended lib entityId event).records <+: c.records) ∧
      ∃ chains, openStore redbProvenanceStore (chainSerde codec) () t.data = .ok chains ∧
        ∃ c, chains entityId.toList = some c ∧
          (s.appended lib entityId event).records <+: c.records := by
  have hs : Sound codec s := r.invariant (fun _ _ _ h hturn hstep => h.step hturn hstep) sound_new
  have hs' : Sound codec s' := hs.step hturn hrecord
  have hhas : Has codec entityId (s.appended lib entityId event).records s' := by
    cases hrecord
    refine ⟨⟨s.appended lib entityId event, ?_, List.prefix_rfl⟩, hturn.1⟩
    simp only [if_true, stored_insert]
  obtain ⟨ht, ⟨c, hc, hpre⟩, -⟩ := r'.invariant
    (I := fun u => Sound codec u ∧ Has codec entityId (s.appended lib entityId event).records u)
    (fun u e w hu he hstep => ⟨hu.1.step he.1 hstep, hu.2.step hu.1 he.2 hstep⟩) ⟨hs', hhas⟩
  obtain ⟨c', hc', hpre'⟩ := ht.behind _ c hc
  exact ⟨⟨c', hc', hpre.trans hpre'⟩, _, opened_eq ht, c, hc, hpre⟩

/-- The creation is recorded, and then a signature that redb does not take. -/
theorem recorded_stays_created :
    ∃ chains, openStore redbProvenanceStore (chainSerde (.verbatim ProvenanceChain)) ()
      ((new : RedbProvenanceStore ProvenanceChain).data.insert (key "octad")
        ((new : RedbProvenanceStore ProvenanceChain).appended twoRecordsLib "octad" created)) =
          .ok chains ∧
        ∃ c, chains "octad".toList = some c ∧
          ((new : RedbProvenanceStore ProvenanceChain).appended twoRecordsLib "octad"
            created).records <+: c.records :=
  (recorded_stays twoRecordsLib (.verbatim ProvenanceChain) .refl ⟨nofun, .inr (by decide)⟩ rfl
    (Run.single (e := .recordEvent "octad" signed false) ⟨⟨nofun, .inr (by decide)⟩, nofun⟩ rfl)).2

end RedbProvenanceStore

end NextgenDatabases.Verisim.Provenance
