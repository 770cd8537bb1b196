import NextgenDatabases.Verisim.Replay
import NextgenDatabases.Verisim.Serving

/-!
# The rebuilt registry

After calls that all succeed, one behind the other, the replay of the log gives the
registry that was lost exactly when every registered entity was created once and never
updated.
-/
namespace NextgenDatabases.Verisim

open Wal (DateTime WalEntry WalOperation)
open Wal.Log (Holds)
open Foundations (Bytes exec exec_concat)
open Foundations.Prog (Follows)

/-! ### What a call leaves in the log -/

/-- Whether the marker of the call reaches the log. -/
def Job.markerKept (job : Job) : Bool :=
  match job.env.marker with
  | some (.lost _) => false
  | none | some (.kept _) => true

theorem logged_walAppend (entry : WalEntry) (fault : Option WalFault) :
    (Op.walAppend entry fault).logged = [entry] ∨ (Op.walAppend entry fault).logged = [] ∧
      ∃ message, fault = some (.lost message) := by
  cases fault with
  | none => exact .inl rfl
  | some fault =>
    cases fault with
    | lost message => exact .inr ⟨rfl, message, rfl⟩
    | kept message => exact .inl rfl

section logged

variable (rt : Runtime) (job : Job) {entry : WalEntry}

theorem Job.operation_ne_checkpoint : job.operation ≠ .checkpoint := by
  obtain ⟨request, env⟩ := job
  cases request <;> exact nofun

theorem Job.isIntent_intent : IsIntent (job.intent rt) := job.operation_ne_checkpoint

theorem Job.isMarker_marker : IsMarker job.marker := ⟨rfl, rfl⟩

theorem Job.not_isMarker_checkpoint : ¬ IsMarker job.checkpoint := by
  rintro ⟨-, hpayload⟩
  have hne : committedPayload ≠ [] := by decide
  exact hne hpayload.symm

theorem Job.not_isIntent_checkpoint : ¬ IsIntent job.checkpoint := fun h => h rfl

theorem intentsOn_walAppend_of_not (h : ¬ IsIntent entry) (fault : Option WalFault) (id : String) :
    intentsOn (Op.walAppend entry fault).logged id = [] := by
  rcases logged_walAppend entry fault with heq | ⟨heq, -⟩ <;> simp [heq, intentsOn, h]

theorem not_marked_walAppend (h : ¬ IsMarker entry) (fault : Option WalFault) (id : String) :
    ¬ Marked (Op.walAppend entry fault).logged id := by
  rcases logged_walAppend entry fault with heq | ⟨heq, -⟩ <;> simp [heq, Marked, h]

variable {rt job}

theorem intentsOn_logged (hintent : job.env.intent = none) (id : String) :
    intentsOn (job.logged rt) id = if job.id = id then [job.intent rt] else [] := by
  have hid : (job.intent rt).entityId = job.id := rfl
  unfold Job.logged
  rw [intentsOn_append, intentsOn_append, hintent,
    intentsOn_walAppend_of_not job.isMarker_marker.not_isIntent,
    intentsOn_walAppend_of_not job.not_isIntent_checkpoint]
  by_cases h : job.id = id <;> simp [intentsOn, Op.logged, job.isIntent_intent rt, hid, h]

theorem marked_logged (id : String) :
    Marked (job.logged rt) id ↔ job.id = id ∧ job.markerKept = true := by
  have hmarker : ¬ IsMarker (job.intent rt) := fun h => h.not_isIntent (job.isIntent_intent rt)
  have hid : job.marker.entityId = job.id := rfl
  unfold Job.logged Job.markerKept
  rw [marked_append, marked_append]
  simp only [not_marked_walAppend hmarker, not_marked_walAppend job.not_isMarker_checkpoint,
    false_or, or_false]
  rcases hcase : job.env.marker with - | message | message
  · simp [Op.logged, marked_singleton, job.isMarker_marker, hid]
  · simp [Op.logged, Marked]
  · simp [Op.logged, marked_singleton, job.isMarker_marker, hid]

/-- The calls on an entity. -/
def callsOn (jobs : List Job) (id : String) : List Job := jobs.filter fun job => job.id = id

theorem callsOn_concat (jobs : List Job) (job : Job) (id : String) :
    callsOn (jobs ++ [job]) id = callsOn jobs id ++ if job.id = id then [job] else [] := by
  unfold callsOn
  rw [List.filter_append]
  by_cases hid : job.id = id <;> simp [hid]

theorem intentsOn_flatMap {jobs : List Job} (h : ∀ job ∈ jobs, job.env.intent = none)
    (id : String) : intentsOn (jobs.flatMap (Job.logged rt)) id =
      (callsOn jobs id).map (Job.intent rt) := by
  unfold callsOn
  induction jobs with
  | nil => rfl
  | cons job jobs ih =>
    rw [List.flatMap_cons, intentsOn_append, intentsOn_logged (h job List.mem_cons_self),
      ih fun other hother => h other (List.mem_cons_of_mem job hother)]
    by_cases hid : job.id = id <;> simp [hid]

theorem marked_flatMap {jobs : List Job} (id : String) :
    Marked (jobs.flatMap (Job.logged rt)) id ↔
      ∃ job ∈ callsOn jobs id, job.markerKept = true := by
  unfold callsOn
  induction jobs with
  | nil => simp [Marked]
  | cons job jobs ih =>
    rw [List.flatMap_cons, marked_append, marked_logged, ih]
    by_cases hid : job.id = id <;> simp [hid]

end logged

/-! ### What the live registry has become -/

theorem recoveredFlags_eq (input : OctadInput) :
    (input.supplied.foldl ModalityStatus.mark {}).mark .temporal = recoveredFlags input := by
  refine ModalityStatus.ext_get fun m => ?_
  rw [ModalityStatus.get_mark, ModalityStatus.get_foldl_mark]
  cases m <;>
    simp [ModalityStatus.get, OctadInput.supplied, OctadInput.processed, OctadInput.has,
      recoveredFlags]

/-- What a registry entry and the number of the next snapshot say about the calls on an
entity. -/
def Standing (calls : List Job) (entry : Option OctadStatus) (next : ℕ) : Prop :=
  match calls.getLast? with
  | none => entry = none ∧ next = 1
  | some job => 2 ≤ next ∧
    match job.request with
    | .create input => ∃ status, entry = some status ∧
        status.modalityStatus = recoveredFlags input ∧ status.observedAt = input.observedAt ∧
          (status.version = 1 ↔ calls.length = 1)
    | .update _ _ => ∃ status, entry = some status ∧ status.version ≠ 1
    | .delete _ => entry = none

section standing

variable {rt : Runtime} {config : OctadConfig} {calls : List Job} {w w' : World} {job : Job}

/-- The next snapshot is the first one as long as there was no call. -/
theorem Standing.next {entry : Option OctadStatus} {n : ℕ} (h : Standing calls entry n) :
    1 ≤ n ∧ (n = 1 ↔ calls = []) := by
  unfold Standing at h
  cases hlast : calls.getLast? with
  | none =>
    rw [hlast] at h
    have hnil : calls = [] := List.getLast?_eq_none_iff.mp hlast
    exact ⟨h.2.ge, by simp [h.2, hnil]⟩
  | some job =>
    rw [hlast] at h
    have hne : calls ≠ [] := by
      rintro rfl
      cases hlast
    exact ⟨by omega, by simp only [hne, iff_false]; omega⟩

theorem Standing.step (h : Standing calls (w.registry job.id) (w.stores job.id).nextVersion)
    (hs : Served rt job w w') :
    Standing (calls ++ [job]) (w'.registry job.id) (w'.stores job.id).nextVersion := by
  obtain ⟨hpos, hone⟩ := h.next
  have hfirst : w.registry job.id ≠ none → 2 ≤ (w.stores job.id).nextVersion := by
    intro hsome
    have hne : calls ≠ [] := by
      rintro rfl
      exact hsome h.1
    have := mt hone.mp hne
    omega
  have hregistry := congrFun hs.registry job.id
  rw [Function.update_self] at hregistry
  unfold Standing
  rw [List.getLast?_concat, hregistry, hs.nextVersion]
  dsimp only
  obtain ⟨request, env⟩ := job
  cases request with
  | create input =>
    refine ⟨Nat.succ_le_succ hpos, _, rfl, recoveredFlags_eq input, ?_, ?_⟩
    · simp [Job.input, Write.registered, createWrite]
    · simpa [Write.registered] using hone
  | update id input =>
    have hsome : w.registry id ≠ none := hs.found.resolve_left nofun
    obtain ⟨existing, hexisting⟩ := Option.ne_none_iff_exists'.mp hsome
    have htwo := hfirst hsome
    have hregisters : (Job.mk (.update id input) env).registers (w.registry id)
        (w.stores id).nextVersion = (Job.mk (.update id input) env).registers (some existing)
          (w.stores id).nextVersion := by rw [hexisting]
    exact ⟨htwo.trans (Nat.le_succ _), _, hregisters, Nat.ne_of_gt htwo⟩
  | delete id => exact ⟨hfirst (hs.found.resolve_left nofun), rfl⟩

end standing

/-- What the calls so far have left. -/
structure Past (rt : Runtime) (jobs : List Job) (w : World) : Prop where
  intents : ∀ job ∈ jobs, job.env.intent = none
  wal : w.wal = some (jobs.flatMap (Job.logged rt))
  standing : ∀ id, Standing (callsOn jobs id) (w.registry id) (w.stores id).nextVersion

section past

variable {rt : Runtime} {config : OctadConfig} {jobs : List Job} {w w' : World}

theorem Past.step (h : Past rt jobs w) {job : Job} (hs : Served rt job w w') :
    Past rt (jobs ++ [job]) w' := by
  constructor
  · intro other hother
    rcases List.mem_append.mp hother with hother | hother
    · exact h.intents other hother
    · obtain rfl := List.mem_singleton.mp hother
      exact hs.intent.resolve_left (by simp [h.wal])
  · rw [hs.wal, h.wal]
    simp
  · intro id
    rw [callsOn_concat]
    by_cases hid : job.id = id
    · subst hid
      rw [if_pos rfl]
      exact (h.standing job.id).step hs
    · have hne : id ≠ job.id := fun heq => hid heq.symm
      rw [hs.registry, Function.update_of_ne hne, hs.stores id hne, if_neg hid, List.append_nil]
      exact h.standing id

theorem Past.run (h : exec (serve rt config) (.new true) jobs = some w) :
    Past rt jobs w := by
  induction jobs using List.reverseRecOn generalizing w with
  | nil =>
    obtain rfl : World.new true = w := Option.some.inj h
    exact ⟨fun _ hjob => absurd hjob List.not_mem_nil, rfl, fun _ => ⟨rfl, rfl⟩⟩
  | append_singleton jobs job ih =>
    rw [exec_concat, Option.bind_eq_some_iff] at h
    obtain ⟨v, hv, hw⟩ := h
    exact (ih hv).step (serve_spec hw)

end past

/-! ### When the registry comes back -/

/-- What a registry entry says of an entity. -/
def OctadStatus.content (s : OctadStatus) : ℕ × ModalityStatus × Option DateTime :=
  (s.version, s.modalityStatus, s.observedAt)

/-- The calls on an entity end with its deletion, or consist of its creation, whose marker is
in the log and whose payload reads back as an input with the same modalities and observation
time. -/
def Recoverable (rt : Runtime) (calls : List Job) : Prop :=
  calls = [] ∨ (∃ job, calls.getLast? = some job ∧ job.operation = .delete) ∨
    ∃ input env, calls = [⟨.create input, env⟩] ∧ Job.markerKept ⟨.create input, env⟩ = true ∧
      ∃ read, rt.fromSlice (inputPayload rt input) = some read ∧
        recoveredFlags read = recoveredFlags input ∧ read.observedAt = input.observedAt

/-- What the replay registers for an entity, from the calls on it. -/
def rebuiltFrom (rt : Runtime) (now : String → DateTime) (calls : List Job) : Option OctadStatus :=
  if ∃ job ∈ calls, job.markerKept = true then
    (calls.getLast?.map (Job.intent rt)).bind (outcome rt now)
  else none

section rebuilt

variable {rt : Runtime} {now : String → DateTime} {calls : List Job} {entry : Option OctadStatus}
  {n : ℕ}

/-- What is rebuilt behind a create or an update has version 1. -/
theorem rebuiltFrom_write {job : Job} (hlast : calls.getLast? = some job)
    (hwrite : job.operation ≠ .delete) (content : ℕ × ModalityStatus × Option DateTime) :
    (rebuiltFrom rt now calls).map OctadStatus.content = some content ↔
      (∃ other ∈ calls, other.markerKept = true) ∧
        ∃ read, rt.fromSlice (job.payload rt) = some read ∧
          content = (1, recoveredFlags read, read.observedAt) := by
  have houtcome : outcome rt now (job.intent rt) =
      (rt.fromSlice (job.payload rt)).map (recoveredStatus now none job.id) := by
    obtain ⟨request, env⟩ := job
    cases request with
    | create input | update id input => rfl
    | delete id => exact absurd rfl hwrite
  unfold rebuiltFrom
  rw [hlast, Option.map_some, Option.bind_some, houtcome]
  by_cases hkept : ∃ other ∈ calls, other.markerKept = true
  · rw [if_pos hkept]
    simp only [hkept, true_and, Option.map_map, Option.map_eq_some_iff, Function.comp_apply]
    refine exists_congr fun read => and_congr_right fun _ => ?_
    exact eq_comm
  · simp [hkept]

theorem rebuiltFrom_delete {job : Job} (hlast : calls.getLast? = some job)
    (hdelete : job.operation = .delete) : rebuiltFrom rt now calls = none := by
  have houtcome : outcome rt now (job.intent rt) = none := by
    have hop : (job.intent rt).operation = .delete := hdelete
    simp [outcome, hop]
  unfold rebuiltFrom
  rw [hlast, Option.map_some, Option.bind_some, houtcome, ite_self]

theorem rebuiltFrom_iff (h : Standing calls entry n) :
    (rebuiltFrom rt now calls).map OctadStatus.content = entry.map OctadStatus.content ↔
      Recoverable rt calls := by
  unfold Standing at h
  cases hlast : calls.getLast? with
  | none =>
    rw [hlast] at h
    have hnil : calls = [] := List.getLast?_eq_none_iff.mp hlast
    subst hnil
    simp [rebuiltFrom, Recoverable, h.1]
  | some job =>
    rw [hlast] at h
    have hne : calls ≠ [] := by
      rintro rfl
      cases hlast
    obtain ⟨request, env⟩ := job
    cases request with
    | create input =>
      obtain ⟨-, status, rfl, hflags, hobserved, hversion⟩ := h
      rw [Option.map_some, rebuiltFrom_write hlast nofun]
      constructor
      · rintro ⟨⟨other, hother, hkept⟩, read, hread, hcontent⟩
        obtain ⟨hone, hsame, hobs⟩ : status.version = 1 ∧
            status.modalityStatus = recoveredFlags read ∧ status.observedAt = read.observedAt := by
          simpa [OctadStatus.content] using hcontent
        obtain ⟨only, honly⟩ := List.length_eq_one_iff.mp (hversion.mp hone)
        subst honly
        obtain rfl : only = ⟨.create input, env⟩ := Option.some.inj hlast
        rw [List.mem_singleton.mp hother] at hkept
        exact .inr (.inr ⟨input, env, rfl, hkept, read, hread, hsame.symm.trans hflags,
          hobs.symm.trans hobserved⟩)
      · rintro (hnil | ⟨job, hjob, hdelete⟩ |
          ⟨input', env', hcalls, hkept, read, hread, hsame, hobs⟩)
        · exact absurd hnil hne
        · rw [hlast] at hjob
          cases hjob
          cases hdelete
        · subst hcalls
          cases hlast
          refine ⟨⟨_, List.mem_singleton_self _, hkept⟩, read, hread, ?_⟩
          rw [OctadStatus.content, hversion.mpr rfl, hflags, hobserved, hsame, hobs]
    | update id input =>
      obtain ⟨-, status, rfl, hversion⟩ := h
      rw [Option.map_some, rebuiltFrom_write hlast nofun]
      constructor
      · rintro ⟨-, read, -, hcontent⟩
        exact absurd (congrArg Prod.fst hcontent) hversion
      · rintro (hnil | ⟨job, hjob, hdelete⟩ | ⟨input', env', hcalls, -⟩)
        · exact absurd hnil hne
        · rw [hlast] at hjob
          cases hjob
          cases hdelete
        · subst hcalls
          cases hlast
    | delete id =>
      obtain ⟨-, rfl⟩ := h
      rw [rebuiltFrom_delete hlast rfl]
      simp only [Recoverable, hlast, Option.some.injEq, exists_eq_left', true_iff]
      exact .inr (.inl rfl)

end rebuilt

/-- The replay of a directory that holds what calls have logged, which all succeeded, gives back
their registry exactly when every entity that is registered was created once and never updated,
its marker is in the log, and its payload reads back. -/
theorem registry_rebuilt_iff {rt : Runtime} {config : OctadConfig} {jobs : List Job} {w : World}
    (h : exec (serve rt config) (.new true) jobs = some w) {crc : Bytes → UInt32}
    {dir : Option Wal.Dir} (hdir : Holds crc dir (w.wal.getD [])) (clock : DateTime)
    (now : String → DateTime) (checkpoint : DateTime) (fault : Option WalFault) (logged : Bool) :
    ∃ n w', replayWal rt now crc clock checkpoint fault dir (.new logged) = .ok (n, w') ∧
      ((∀ id, (w'.registry id).map OctadStatus.content = (w.registry id).map OctadStatus.content) ↔
        ∀ id, Recoverable rt (callsOn jobs id)) := by
  have hpast := Past.run h
  let replayed := replayEntries rt now checkpoint fault (w.wal.getD []) (.new logged)
  refine ⟨replayed.1, replayed.2, replayWal_eq rt now checkpoint fault hdir clock _, ?_⟩
  refine forall_congr' fun id => ?_
  have hrebuilt : replayed.2.registry id = rebuiltFrom rt now (callsOn jobs id) := by
    dsimp only [replayed]
    rw [hpast.wal, Option.getD_some, replayEntries_registry _ _ _ _ _ fun _ => rfl,
      intentsOn_flatMap hpast.intents, List.getLast?_map]
    simp only [marked_flatMap]
    rfl
  rw [hrebuilt]
  exact rebuiltFrom_iff (hpast.standing id)

set_option maxRecDepth 4000 in
/-- A store with one entity that was never updated. -/
theorem registry_rebuilt_created : ∃ (w : World) (dir : Wal.Dir) (n : ℕ) (w' : World),
    exec (serve .sample .standard) (.new true) [⟨.create note, .quiet "e1" "t1"⟩] = some w ∧
      Holds Wal.Log.crc32 (some dir) (w.wal.getD []) ∧
      replayWal .sample (fun _ => epoch) Wal.Log.crc32 epoch epoch none (some dir) (.new true) =
        .ok (n, w') ∧
      ∀ id, (w'.registry id).map OctadStatus.content =
        (w.registry id).map OctadStatus.content := by
  obtain ⟨w, hw, hlen, hshort⟩ : ∃ w, exec (serve .sample .standard) (.new true)
      [⟨.create note, .quiet "e1" "t1"⟩] = some w ∧ (w.wal.getD []).length ≤ 100 ∧
        ∀ e ∈ w.wal.getD [], (Wal.asBytes e.entityId).length + e.payload.length ≤ 10000 :=
    ⟨_, rfl, by decide, by decide⟩
  obtain ⟨dir, hdir⟩ := exists_holds_short hlen hshort
  obtain ⟨n, w', hreplay, hiff⟩ :=
    registry_rebuilt_iff hw hdir epoch (fun _ => epoch) epoch none true
  refine ⟨w, dir, n, w', hw, hdir, hreplay, hiff.mpr fun id => ?_⟩
  by_cases hid : "e1" = id
  · subst hid
    exact .inr (.inr ⟨note, .quiet "e1" "t1", rfl, rfl, note, rfl, rfl, rfl⟩)
  · refine .inl ?_
    simp [callsOn, Job.id, Env.quiet, hid]

set_option maxRecDepth 4000 in
/-- After an update the replay starts again at version 1. -/
theorem version_not_rebuilt : ¬ ∀ jobs w dir n w',
    exec (serve .sample .standard) (.new true) jobs = some w →
    Holds Wal.Log.crc32 dir (w.wal.getD []) →
    replayWal .sample (fun _ => epoch) Wal.Log.crc32 epoch epoch none dir (.new true) =
      .ok (n, w') →
    ∀ id, (w'.registry id).map OctadStatus.content =
      (w.registry id).map OctadStatus.content := by
  intro hall
  obtain ⟨w, hw, hlive, hrebuilt, hlen, hshort⟩ : ∃ w,
      exec (serve .sample .standard) (.new true)
        [⟨.create note, .quiet "e1" "t1"⟩, ⟨.update "e1" note, .quiet "e2" "t2"⟩] = some w ∧
      (w.registry "e1").map OctadStatus.version = some 2 ∧
      ((replayEntries .sample (fun _ => epoch) epoch none (w.wal.getD [])
        (.new true)).2.registry "e1").map OctadStatus.version = some 1 ∧
      (w.wal.getD []).length ≤ 100 ∧
        ∀ e ∈ w.wal.getD [], (Wal.asBytes e.entityId).length + e.payload.length ≤ 10000 :=
    ⟨_, rfl, rfl, rfl, by decide, by decide⟩
  obtain ⟨dir, hdir⟩ := exists_holds_short hlen hshort
  let replayed := replayEntries .sample (fun _ => epoch) epoch none (w.wal.getD []) (.new true)
  have hversion := congrArg (Option.map Prod.fst)
    (hall _ w _ replayed.1 replayed.2 hw hdir (replayWal_eq _ _ _ _ hdir epoch _) "e1")
  simp only [Option.map_map, Function.comp_def, OctadStatus.content] at hversion
  rw [hlive, hrebuilt] at hversion
  cases hversion

end NextgenDatabases.Verisim
