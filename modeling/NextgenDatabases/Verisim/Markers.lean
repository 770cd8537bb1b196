import NextgenDatabases.Verisim.Interleaving
import NextgenDatabases.Verisim.Rebuild

/-!
# Intents and markers of interleaved calls

A marker names only the entity, so the replay cannot tell whose marker it is. Wherever a run
of calls stops, the replay of a directory that holds what was logged applies the committed
operations and no others exactly when no entity has both a marker and an intent without one.
-/
namespace NextgenDatabases.Verisim

open Wal (DateTime WalEntry)
open Wal.Log (Holds readLog)
open Foundations (Bytes Pool Run exec run_of_steps)

/-! ### Which operations are committed -/

/-- The entry that gives an operation its place among the others. -/
inductive Place
  | intent
  | marker

section committed

variable {ι : Type} (log : List (ι × WalEntry))

/-- The marker of the call itself is in the log. -/
def OwnMarker (i : ι) : Prop := ∃ a ∈ log, a.1 = i ∧ IsMarker a.2

instance [DecidableEq ι] (i : ι) : Decidable (OwnMarker log i) :=
  inferInstanceAs (Decidable (∃ a ∈ log, _))

/-- The intents on an entity, with their calls. -/
def intentsOf (id : String) : List (ι × WalEntry) :=
  log.filter fun a => IsIntent a.2 ∧ a.2.entityId = id

/-- The committed operations on an entity, each by the entry that gives it its place. -/
def committedOn [DecidableEq ι] (place : Place) (id : String) : List (ι × WalEntry) :=
  match place with
  | .intent => (intentsOf log id).filter fun a => OwnMarker log a.1
  | .marker => log.filter fun a => IsMarker a.2 ∧ a.2.entityId = id

/-- The call that made the last committed operation on an entity. -/
def lastCommitted [DecidableEq ι] (place : Place) (id : String) : Option ι :=
  (committedOn log place id).getLast?.map Prod.fst

/-- The log as if a call had never been made. -/
def without [DecidableEq ι] (i : ι) : List WalEntry :=
  (log.filter fun a => a.1 ≠ i).map Prod.snd

end committed

/-- What an entry says beside its version and the times of the registration. -/
def OctadStatus.written (s : OctadStatus) : ModalityStatus × Option DateTime :=
  (s.modalityStatus, s.observedAt)

namespace Job

/-- What the operation of a call makes of its entity: nothing, or an entry with the
modalities and the observation time of the input. -/
def writes (job : Job) : Option (ModalityStatus × Option DateTime) :=
  match job.request with
  | .create input | .update _ input => some (recoveredFlags input, input.observedAt)
  | .delete _ => none

/-- The same, read back from the payload of the intent. -/
def reads (rt : Runtime) (job : Job) : Option (ModalityStatus × Option DateTime) :=
  match job.request with
  | .create input | .update _ input =>
    (rt.fromSlice (inputPayload rt input)).map fun read => (recoveredFlags read, read.observedAt)
  | .delete _ => none

theorem written_outcome (rt : Runtime) (now : String → DateTime) (job : Job) :
    (outcome rt now (job.intent rt)).map OctadStatus.written = job.reads rt := by
  obtain ⟨request, env⟩ := job
  cases request with
  | create input | update id input => exact Option.map_map ..
  | delete id => rfl

end Job

/-! ### What the calls have logged -/

/-- The log of calls in progress: whose entries it holds. -/
structure Logged {ι : Type} (rt : Runtime) (jobs : ι → Job) (w : World) (φ : ι → Phase)
    (trace : List (ι × Op)) : Prop where
  wal : w.wal = some ((tagged trace).map Prod.snd)
  own : ∀ a ∈ tagged trace, a.2 = (jobs a.1).intent rt ∨ a.2 = (jobs a.1).marker ∨
    a.2 = (jobs a.1).checkpoint
  started : ∀ i, (φ i).stage.isStarted = true → (i, (jobs i).intent rt) ∈ tagged trace
  marked : ∀ a ∈ tagged trace, IsMarker a.2 → (a.1, (jobs a.1).intent rt) ∈ tagged trace

section logged

variable {ι : Type} {rt : Runtime} {jobs : ι → Job} {w : World} {φ : ι → Phase}
  {trace : List (ι × Op)}

theorem Logged.start (config : OctadConfig) :
    let s := Calls.start rt config jobs true
    Logged rt jobs s.world s.phase s.trace where
  wal := rfl
  own _ ha := absurd ha List.not_mem_nil
  started i h := absurd ((jobs i).not_isStarted_start.symm.trans h) nofun
  marked _ ha := absurd ha List.not_mem_nil

theorem Logged.eq_intent (h : Logged rt jobs w φ trace) {a : ι × WalEntry}
    (ha : a ∈ tagged trace) (hintent : IsIntent a.2) : a.2 = (jobs a.1).intent rt := by
  rcases h.own a ha with heq | heq | heq
  · exact heq
  · exact absurd hintent (heq ▸ (jobs a.1).isMarker_marker.not_isIntent)
  · exact absurd hintent (heq ▸ (jobs a.1).not_isIntent_checkpoint)

theorem Logged.eq_marker (h : Logged rt jobs w φ trace) {a : ι × WalEntry}
    (ha : a ∈ tagged trace) (hmarker : IsMarker a.2) : a.2 = (jobs a.1).marker := by
  rcases h.own a ha with heq | heq | heq
  · exact absurd ((jobs a.1).isIntent_intent rt) (heq ▸ hmarker.not_isIntent)
  · exact heq
  · exact absurd (heq ▸ hmarker) (jobs a.1).not_isMarker_checkpoint

/-- What an operation adds to the log is an entry of its call. -/
theorem logged_own {job : Job} {ψ : Phase} {op : Op} (hallow : job.Allows rt ψ op) :
    op.logged = [] ∨ (op.logged = [job.intent rt] ∧ ψ.stage = .found) ∨
      (op.logged = [job.marker] ∨ op.logged = [job.checkpoint]) ∧
        ψ.stage.isStarted = true := by
  cases op with
  | walAppend entry fault =>
    rcases logged_walAppend entry fault with hlogged | ⟨hlogged, -⟩
    · rw [hlogged]
      rcases hallow with ⟨hstage, rfl, -⟩ | ⟨hstage, rfl, -⟩ | ⟨hstage, rfl, -⟩
      · exact .inr (.inl ⟨rfl, hstage⟩)
      · exact .inr (.inr ⟨.inl rfl, by rw [hstage]; rfl⟩)
      · exact .inr (.inr ⟨.inr rfl, by rw [hstage]; rfl⟩)
    · exact .inl hlogged
  | _ => exact .inl rfl

theorem Logged.step [DecidableEq ι] (h : Logged rt jobs w φ trace) (i : ι) {op : Op}
    (hallow : (jobs i).Allows rt (φ i) op) :
    Logged rt jobs (w.exec op).2
      (Function.update φ i ((jobs i).next (φ i) op (w.exec op).1)) (trace ++ [(i, op)]) := by
  have hkeep {a : ι × WalEntry} (ha : a ∈ tagged trace) : a ∈ tagged (trace ++ [(i, op)]) := by
    rw [tagged_concat]
    exact List.mem_append_left _ ha
  have hnew {a : ι × WalEntry} (ha : a ∈ tagged (trace ++ [(i, op)])) :
      a ∈ tagged trace ∨ a.1 = i ∧ a.2 ∈ op.logged := by
    rw [tagged_concat, List.mem_append] at ha
    refine ha.imp_right fun ha => ?_
    obtain ⟨entry, hentry, rfl⟩ := List.mem_map.mp ha
    exact ⟨rfl, hentry⟩
  constructor
  · rw [World.exec_wal, h.wal, tagged_concat]
    simp [Function.comp_def]
  · intro a ha
    rcases hnew ha with ha | ⟨hi, ha⟩
    · exact h.own a ha
    · rw [hi]
      rcases logged_own hallow with hlogged | ⟨hlogged, -⟩ | ⟨hlogged | hlogged, -⟩
      · rw [hlogged] at ha
        cases ha
      · rw [hlogged] at ha
        exact .inl (List.mem_singleton.mp ha)
      · rw [hlogged] at ha
        exact .inr (.inl (List.mem_singleton.mp ha))
      · rw [hlogged] at ha
        exact .inr (.inr (List.mem_singleton.mp ha))
  · intro j hj
    by_cases hji : j = i
    · subst hji
      rw [Function.update_self] at hj
      rcases (jobs j).isStarted_next hallow hj with hstarted | ⟨rfl, hwal⟩
      · exact hkeep (h.started j hstarted)
      · have hintent : (jobs j).env.intent = none := hwal.resolve_left (by simp [h.wal])
        rw [tagged_concat, hintent]
        simp [Op.logged]
    · rw [Function.update_of_ne hji] at hj
      exact hkeep (h.started j hj)
  · intro a ha hmarker
    rcases hnew ha with ha | ⟨hi, ha⟩
    · exact hkeep (h.marked a ha hmarker)
    · rw [hi]
      rcases logged_own hallow with hlogged | ⟨hlogged, -⟩ | ⟨-, hstarted⟩
      · rw [hlogged] at ha
        cases ha
      · rw [hlogged, List.mem_singleton] at ha
        exact absurd ((jobs i).isIntent_intent rt) (ha ▸ hmarker.not_isIntent)
      · exact hkeep (h.started i hstarted)

end logged

/-! ### What is recovered -/

section recovered

variable {ι : Type} {rt : Runtime} {jobs : ι → Job} {log : List (ι × WalEntry)}

theorem intentsOn_map_snd (log : List (ι × WalEntry)) (id : String) :
    intentsOn (log.map Prod.snd) id = (intentsOf log id).map Prod.snd :=
  List.filter_map ..

theorem marked_map_snd {id : String} :
    Marked (log.map Prod.snd) id ↔ ∃ a ∈ log, IsMarker a.2 ∧ a.2.entityId = id := by
  constructor
  · rintro ⟨entry, hentry, hmarker⟩
    obtain ⟨a, ha, rfl⟩ := List.mem_map.mp hentry
    exact ⟨a, ha, hmarker⟩
  · rintro ⟨a, ha, hmarker⟩
    exact ⟨a.2, List.mem_map_of_mem ha, hmarker⟩

theorem mem_intentsOf {a : ι × WalEntry} {id : String} :
    a ∈ intentsOf log id ↔ a ∈ log ∧ IsIntent a.2 ∧ a.2.entityId = id := by
  simp [intentsOf]

variable (rt) (now : String → DateTime) (checkpoint : DateTime) (fault : Option WalFault)
  (enabled : Bool)

/-- The registry of a fresh store after the replay of a log. -/
def recovered (entries : List WalEntry) : String → Option OctadStatus :=
  (replayEntries rt now checkpoint fault entries (.new enabled)).2.registry

theorem recovered_eq (entries : List WalEntry) (id : String) :
    recovered rt now checkpoint fault enabled entries id =
      if Marked entries id then (intentsOn entries id).getLast?.bind (outcome rt now)
      else none :=
  replayEntries_registry rt now checkpoint fault entries (fun _ => rfl) id

/-- A marked entity gets what its last intent reads back as. -/
theorem recovered_written (hintent : ∀ a ∈ log, IsIntent a.2 → a.2 = (jobs a.1).intent rt)
    (id : String) :
    (recovered rt now checkpoint fault enabled (log.map Prod.snd) id).map OctadStatus.written =
      if Marked (log.map Prod.snd) id then
        (intentsOf log id).getLast?.bind fun a => (jobs a.1).reads rt
      else none := by
  rw [recovered_eq, intentsOn_map_snd, List.getLast?_map]
  split
  · cases hlast : (intentsOf log id).getLast? with
    | none => rfl
    | some a =>
      obtain ⟨ha, hkind, -⟩ := mem_intentsOf.mp (List.mem_of_getLast? hlast)
      simp only [Option.map_some, Option.bind_some]
      rw [hintent a ha hkind, Job.written_outcome]
  · rfl

variable [DecidableEq ι] (jobs) (place : Place)

/-- The replay of what is read applies the committed operations and no others: every entity is
what its last committed operation made of it, and an intent without its own marker makes no
difference and is counted as uncommitted. -/
structure AppliesCommitted (read : List WalEntry) (t : Calls ι) : Prop where
  registry : ∀ id,
    (recovered rt now checkpoint fault enabled read id).map OctadStatus.written =
      (lastCommitted (tagged t.trace) place id).bind fun i => (jobs i).writes
  uncommitted : ∀ a ∈ tagged t.trace, IsIntent a.2 → ¬ OwnMarker (tagged t.trace) a.1 →
    recovered rt now checkpoint fault enabled (without (tagged t.trace) a.1) =
        recovered rt now checkpoint fault enabled read ∧
      a.2.entityId ∈ (scanLog read).uncommittedEntities

/-- Every intent on a marked entity has its own marker, and the payload of the last one reads
back as what the last committed operation wrote. -/
structure Unmixed (log : List (ι × WalEntry)) : Prop where
  own : ∀ a ∈ log, IsIntent a.2 → Marked (log.map Prod.snd) a.2.entityId → OwnMarker log a.1
  reads : ∀ id a j, (intentsOf log id).getLast? = some a →
    lastCommitted log place id = some j → (jobs a.1).reads rt = (jobs j).writes

end recovered

section applies

variable {ι : Type} {rt : Runtime} {jobs : ι → Job} {w : World} {φ : ι → Phase}
  {trace : List (ι × Op)} {place : Place} {id : String} {i : ι}

theorem Logged.entityId_eq (h : Logged rt jobs w φ trace) {a : ι × WalEntry}
    (ha : a ∈ tagged trace) (hintent : IsIntent a.2) : a.2.entityId = (jobs a.1).id :=
  congrArg WalEntry.entityId (h.eq_intent ha hintent)

theorem Logged.marked_of_own (h : Logged rt jobs w φ trace) (hown : OwnMarker (tagged trace) i) :
    Marked ((tagged trace).map Prod.snd) (jobs i).id := by
  obtain ⟨a, ha, rfl, hmarker⟩ := hown
  refine marked_map_snd.mpr ⟨a, ha, hmarker, ?_⟩
  exact congrArg WalEntry.entityId (h.eq_marker ha hmarker)

/-- A marked entity has an intent. -/
theorem Logged.intents_of_marked (h : Logged rt jobs w φ trace)
    (hmarked : Marked ((tagged trace).map Prod.snd) id) : intentsOf (tagged trace) id ≠ [] := by
  obtain ⟨a, ha, hmarker, rfl⟩ := marked_map_snd.mp hmarked
  refine List.ne_nil_of_mem (a := (a.1, (jobs a.1).intent rt)) (mem_intentsOf.mpr ?_)
  refine ⟨h.marked a ha hmarker, (jobs a.1).isIntent_intent rt, ?_⟩
  exact (congrArg WalEntry.entityId (h.eq_marker ha hmarker)).symm

variable [DecidableEq ι]

/-- An entity with a committed operation has a marker. -/
theorem Logged.marked_of_committed (h : Logged rt jobs w φ trace)
    (hlast : lastCommitted (tagged trace) place id = some i) :
    Marked ((tagged trace).map Prod.snd) id := by
  obtain ⟨a, ha, rfl⟩ := Option.map_eq_some_iff.mp hlast
  have hmem := List.mem_of_getLast? ha
  cases place with
  | intent =>
    obtain ⟨hintents, hown⟩ := List.mem_filter.mp hmem
    obtain ⟨hlog, hintent, rfl⟩ := mem_intentsOf.mp hintents
    rw [h.entityId_eq hlog hintent]
    exact h.marked_of_own (of_decide_eq_true hown)
  | marker =>
    obtain ⟨hlog, hmarker⟩ := List.mem_filter.mp hmem
    exact marked_map_snd.mpr ⟨a, hlog, of_decide_eq_true hmarker⟩

/-- With nothing mixed, a marked entity has a committed operation. -/
theorem Logged.exists_committed (h : Logged rt jobs w φ trace)
    (hunmixed : Unmixed rt jobs place (tagged trace))
    (hmarked : Marked ((tagged trace).map Prod.snd) id) :
    ∃ j, lastCommitted (tagged trace) place id = some j := by
  have hne : committedOn (tagged trace) place id ≠ [] := by
    cases place with
    | intent =>
      have hall : ∀ a ∈ intentsOf (tagged trace) id, OwnMarker (tagged trace) a.1 := by
        intro a ha
        obtain ⟨hlog, hintent, rfl⟩ := mem_intentsOf.mp ha
        exact hunmixed.own a hlog hintent hmarked
      rw [committedOn, List.filter_eq_self.mpr fun a ha => decide_eq_true (hall a ha)]
      exact h.intents_of_marked hmarked
    | marker =>
      obtain ⟨a, ha, hmarker⟩ := marked_map_snd.mp hmarked
      exact List.ne_nil_of_mem (List.mem_filter.mpr ⟨ha, decide_eq_true hmarker⟩)
  exact ⟨_, congrArg (Option.map Prod.fst) (List.getLast?_eq_some_getLast hne)⟩

/-- A call without a marker, on an entity without one, makes no difference. -/
theorem Logged.recovered_without (h : Logged rt jobs w φ trace) (now : String → DateTime)
    (checkpoint : DateTime) (fault : Option WalFault) (enabled : Bool)
    (hown : ¬ OwnMarker (tagged trace) i)
    (hnot : ¬ Marked ((tagged trace).map Prod.snd) (jobs i).id) :
    recovered rt now checkpoint fault enabled (without (tagged trace) i) =
      recovered rt now checkpoint fault enabled ((tagged trace).map Prod.snd) := by
  funext id
  have hmarked : Marked (without (tagged trace) i) id ↔
      Marked ((tagged trace).map Prod.snd) id := by
    unfold without
    rw [marked_map_snd, marked_map_snd]
    constructor
    · rintro ⟨a, ha, hmarker⟩
      exact ⟨a, List.mem_of_mem_filter ha, hmarker⟩
    · rintro ⟨a, ha, hmarker⟩
      have hne : a.1 ≠ i := fun hi => hown ⟨a, ha, hi, hmarker.1⟩
      exact ⟨a, List.mem_filter.mpr ⟨ha, decide_eq_true hne⟩, hmarker⟩
  rw [recovered_eq, recovered_eq]
  simp only [hmarked]
  split
  · next hid =>
    have hintents : intentsOf ((tagged trace).filter fun a => a.1 ≠ i) id =
        intentsOf (tagged trace) id := by
      unfold intentsOf
      rw [List.filter_filter]
      refine List.filter_congr fun a ha => ?_
      by_cases hi : a.1 = i
      · have hother : ¬ (IsIntent a.2 ∧ a.2.entityId = id) := by
          rintro ⟨hintent, rfl⟩
          exact hnot (hi ▸ h.entityId_eq ha hintent ▸ hid)
        simp [hother]
      · simp [hi]
    rw [without, intentsOn_map_snd, intentsOn_map_snd, hintents]
  · rfl

theorem Logged.applies_iff {t : Calls ι} (h : Logged rt jobs t.world t.phase t.trace)
    {read : List WalEntry}
    (hread : read.map WalEntry.content = (t.world.wal.getD []).map WalEntry.content)
    (now : String → DateTime) (checkpoint : DateTime) (fault : Option WalFault) (enabled : Bool)
    (place : Place) :
    AppliesCommitted rt jobs now checkpoint fault enabled place read t ↔
      Unmixed rt jobs place (tagged t.trace) := by
  have hwal : t.world.wal.getD [] = (tagged t.trace).map Prod.snd := by simp [h.wal]
  rw [hwal] at hread
  have hscan : scanLog read = scanLog ((tagged t.trace).map Prod.snd) :=
    foldl_classify_congr hread {}
  have hrecovered : recovered rt now checkpoint fault enabled read =
      recovered rt now checkpoint fault enabled ((tagged t.trace).map Prod.snd) := by
    unfold recovered
    rw [replayEntries_congr rt now checkpoint fault hread]
  have hfinds := finds_scanLog ((tagged t.trace).map Prod.snd)
  have hwritten := recovered_written rt now checkpoint fault enabled fun a => h.eq_intent
  constructor
  · intro happlies
    constructor
    · intro a ha hintent hmarked
      by_contra hown
      obtain ⟨-, hcounted⟩ := happlies.uncommitted a ha hintent hown
      rw [hscan, hfinds.uncommitted] at hcounted
      exact hcounted.2 hmarked
    · intro id a j hlast hcommitted
      have hregistry := happlies.registry id
      rwa [hrecovered, hwritten, if_pos (h.marked_of_committed hcommitted), hlast, hcommitted] at hregistry
  · intro hunmixed
    constructor
    · intro id
      rw [hrecovered, hwritten]
      split
      · next hmarked =>
        obtain ⟨j, hj⟩ := h.exists_committed hunmixed hmarked
        have hlast := List.getLast?_eq_some_getLast (h.intents_of_marked hmarked)
        rw [hlast, hj]
        exact hunmixed.reads id _ j hlast hj
      · next hmarked =>
        cases hcommitted : lastCommitted (tagged t.trace) place id with
        | none => rfl
        | some j => exact absurd (h.marked_of_committed hcommitted) hmarked
    · intro a ha hintent hown
      have hnot : ¬ Marked ((tagged t.trace).map Prod.snd) a.2.entityId :=
        fun hmarked => hown (hunmixed.own a ha hintent hmarked)
      rw [hrecovered, hscan]
      constructor
      · rw [h.entityId_eq ha hintent] at hnot
        exact h.recovered_without now checkpoint fault enabled hown hnot
      · have hmem : a ∈ intentsOf (tagged t.trace) a.2.entityId :=
          mem_intentsOf.mpr ⟨ha, hintent, rfl⟩
        rw [hfinds.uncommitted, intentsOn_map_snd]
        exact ⟨List.ne_nil_of_mem (List.mem_map_of_mem hmem), hnot⟩

end applies

/-! ### Every run -/

section run

variable {ι : Type} [DecidableEq ι] {rt : Runtime} {config : OctadConfig} {jobs : ι → Job}
  {t : Calls ι}

theorem Logged.run (r : Run (Calls.step rt jobs) (fun _ _ => True)
    (.start rt config jobs true) t) : Logged rt jobs t.world t.phase t.trace := by
  have hstep (s : Calls ι) (i : ι) (op : Op) (h : Logged rt jobs s.world s.phase s.trace)
      (_ : True) (hallow : ((jobs i).protocol rt).allow (s.phase i) op) :=
    h.step i hallow
  exact (Pool.invariant (fun _ => World.exec_possible) hstep r
    (Calls.follows_start rt config jobs true) (Logged.start config)).2

/-- Wherever the calls stop, the replay of a directory that holds what they have logged applies
the committed operations and no others exactly when every intent on a marked entity has its own
marker and the payload of the last one reads back as what the last committed operation wrote. -/
theorem committed_recovered_iff
    (r : Run (Calls.step rt jobs) (fun _ _ => True) (.start rt config jobs true) t)
    {crc : Bytes → UInt32} {dir : Option Wal.Dir} (hdir : Holds crc dir (t.world.wal.getD []))
    (clock : DateTime) (now : String → DateTime) (checkpoint : DateTime) (fault : Option WalFault)
    (enabled : Bool) (place : Place) :
    ∃ read, readLog crc clock dir = .ok read ∧
      (AppliesCommitted rt jobs now checkpoint fault enabled place read t ↔
        Unmixed rt jobs place (tagged t.trace)) := by
  obtain ⟨read, hread, hcontent⟩ := hdir.readLog clock
  exact ⟨read, hread, (Logged.run r).applies_iff hcontent now checkpoint fault enabled place⟩

end run

set_option maxRecDepth 4000 in
/-- A store with one entity, whose create is complete. -/
theorem committed_recovered_created : ∃ (t : Calls (Fin 1)) (dir : Wal.Dir) (read : List WalEntry),
    exec (Calls.step .sample fun _ => ⟨.create note, .quiet "e1" "t1"⟩)
      (.start .sample .standard (fun _ => ⟨.create note, .quiet "e1" "t1"⟩) true)
      (List.replicate 12 0) = some t ∧
    Holds Wal.Log.crc32 (some dir) (t.world.wal.getD []) ∧
    readLog Wal.Log.crc32 epoch (some dir) = .ok read ∧
    AppliesCommitted .sample (fun _ => ⟨.create note, .quiet "e1" "t1"⟩) (fun _ => epoch) epoch
      none true .marker read t := by
  obtain ⟨t, ht, hown, hlen, hshort⟩ : ∃ t : Calls (Fin 1),
      exec (Calls.step .sample fun _ => ⟨.create note, .quiet "e1" "t1"⟩)
        (.start .sample .standard (fun _ => ⟨.create note, .quiet "e1" "t1"⟩) true)
        (List.replicate 12 0) = some t ∧ OwnMarker (tagged t.trace) 0 ∧
      (t.world.wal.getD []).length ≤ 100 ∧ ∀ e ∈ t.world.wal.getD [],
        (Wal.asBytes e.entityId).length + e.payload.length ≤ 10000 :=
    ⟨_, rfl, by decide, by decide, by decide⟩
  obtain ⟨dir, hdir⟩ := exists_holds_short hlen hshort
  obtain ⟨read, hread, hiff⟩ := committed_recovered_iff (run_of_steps ht) hdir epoch
    (fun _ => epoch) epoch none true .marker
  refine ⟨t, dir, read, ht, hdir, hread, hiff.mpr ?_⟩
  constructor
  · intro a _ _ _
    rw [Subsingleton.elim a.1 0]
    exact hown
  · intro _ _ _ _ _
    rfl

/-- A create, and an update that fails after its intent has been logged. -/
def overwritten : Fin 2 → Job
  | 0 => ⟨.create note, .quiet "e1" "t1"⟩
  | 1 => ⟨.update "e1" misfit, .quiet "e2" "t2"⟩

set_option maxRecDepth 4000 in
/-- The replay applies the update that failed. -/
theorem failed_update_recovered : ¬ ∃ place, ∀ t dir read,
    Run (Calls.step .sample overwritten) (fun _ _ => True)
      (.start .sample .standard overwritten true) t →
    Holds Wal.Log.crc32 dir (t.world.wal.getD []) → readLog Wal.Log.crc32 epoch dir = .ok read →
    AppliesCommitted .sample overwritten (fun _ => epoch) epoch none true place read t := by
  rintro ⟨place, hall⟩
  obtain ⟨t, ht, hlast, hrecovered, hlen, hshort⟩ : ∃ t,
      exec (Calls.step .sample overwritten) (.start .sample .standard overwritten true)
        (List.replicate 12 0 ++ List.replicate 6 1) = some t ∧
      lastCommitted (tagged t.trace) place "e1" = some 0 ∧
      (recovered .sample (fun _ => epoch) epoch none true (t.world.wal.getD []) "e1").map
        OctadStatus.written = some (recoveredFlags misfit, none) ∧
      (t.world.wal.getD []).length ≤ 100 ∧ ∀ e ∈ t.world.wal.getD [],
        (Wal.asBytes e.entityId).length + e.payload.length ≤ 10000 := by
    cases place with
    | intent => exact ⟨_, rfl, rfl, rfl, by decide, by decide⟩
    | marker => exact ⟨_, rfl, rfl, rfl, by decide, by decide⟩
  obtain ⟨dir, hdir⟩ := exists_holds_short hlen hshort
  obtain ⟨read, hread, hcontent⟩ := hdir.readLog epoch
  have hregistry := (hall t _ read (run_of_steps ht) hdir hread).registry "e1"
  rw [recovered, replayEntries_congr _ _ _ _ hcontent] at hregistry
  rw [hlast, ← recovered, hrecovered] at hregistry
  exact absurd hregistry (by decide)

end NextgenDatabases.Verisim
