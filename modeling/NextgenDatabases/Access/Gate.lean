import NextgenDatabases.Foundations.Runs
import NextgenDatabases.Access.Jwt
import NextgenDatabases.Access.RateLimiter
import Mathlib.Data.List.DropRight
import Mathlib.Data.List.Nodup
import Mathlib.Data.List.Perm.Subperm

/-!
# The middleware

A request is identified by its key or its token, metered by the rate limiter and decided by the
policy. Requests, changes of the keys and changes of the policy interleave between these steps.
-/
namespace NextgenDatabases.Access

open Foundations

/-! ### Keys -/

structure ApiKeyEntry where
  keyHash : String
  label : String
  role : ClientRole
  active : Bool

abbrev ApiKeyRegistry := String → Option ApiKeyEntry

section Keys

variable (sha256 : Bytes → Digest)

def hashKey (key : Bytes) : String := toHex (sha256 key)

def ApiKeyRegistry.register (keys : ApiKeyRegistry) (plaintextKey : Bytes) (label : String)
    (role : ClientRole) : ApiKeyRegistry :=
  let hash := hashKey sha256 plaintextKey
  Function.update keys hash (some { keyHash := hash, label, role, active := true })

def ApiKeyRegistry.validate (keys : ApiKeyRegistry) (plaintextKey : Bytes) : Option ApiKeyEntry :=
  (keys (hashKey sha256 plaintextKey)).filter fun entry => entry.active

end Keys

/-- `revoke`: whether there is such a key. -/
def ApiKeyRegistry.revoke (keys : ApiKeyRegistry) (keyHash : String) : Bool × ApiKeyRegistry :=
  match keys keyHash with
  | some entry => (true, Function.update keys keyHash (some { entry with active := false }))
  | none => (false, keys)

/-! ### The audit log -/

structure AuditLog where
  entries : List AuditEntry
  maxEntries : ℕ

/-- `record`; a log without room for an entry panics. -/
def AuditLog.record (log : AuditLog) (entry : AuditEntry) : Option AuditLog :=
  if log.maxEntries ≤ log.entries.length then
    match log.entries with
    | [] => none
    | _ :: rest => some { log with entries := rest ++ [entry] }
  else some { log with entries := log.entries ++ [entry] }

def AuditLog.clear (log : AuditLog) : AuditLog := { log with entries := [] }

/-! ### Requests -/

/-- What the middleware reads of a request; headers that are no text are not there. -/
structure Request where
  method : Method
  path : String
  apiKey : Option Bytes
  authorization : Option Bytes

inductive Response
  | next
  | unauthorized (error : String) (authenticate : Option String)
  | tooManyRequests (remaining : ℕ)
  | forbidden (error : AuthzError)
  deriving DecidableEq

/-- The answers that the policy gives. -/
def Response.decided : Response → Bool
  | next | forbidden _ => true
  | unauthorized _ _ | tooManyRequests _ => false

def bearer : Bytes := "Bearer ".toList.map fun c => .ofNat c.toNat

/-- `strip_prefix("Bearer ")` -/
def stripBearer (header : Bytes) : Option Bytes :=
  if bearer.isPrefixOf header then some (header.drop bearer.length) else none

/-- Requests that nobody asks about: `enabled` is off, or the path is one about the server's own
health. -/
def AuthConfig.passes (config : AuthConfig) (request : Request) : Bool :=
  !config.enabled || (config.allowPublicHealth &&
    (request.path = "/health" || request.path = "/ready" || request.path = "/metrics"))

section Identity

variable (sha256 : Bytes → Digest) (fromSlice : Bytes → Option Value)

def extractIdentity (request : Request) (keys : ApiKeyRegistry) (config : AuthConfig)
    (now : UInt64) : Except Response ClientIdentity :=
  match request.apiKey with
  | some apiKey =>
    match keys.validate sha256 apiKey with
    | some entry => .ok ⟨entry.keyHash, entry.role⟩
    | none => .error (.unauthorized "Invalid API key" none)
  | none =>
    match request.authorization.bind stripBearer with
    | some token =>
      match validateJwt sha256 fromSlice token config now with
      | .ok identity => .ok identity
      | .error msg => .error (.unauthorized msg none)
    | none => .error (.unauthorized
        "Authentication required. Provide X-API-Key header or Authorization: Bearer <token>"
        (some "Bearer, ApiKey"))

end Identity

/-! ### The steps of requests -/

/-- How far a request has come; between two steps others may take theirs. -/
inductive Stage
  | identified (identity : ClientIdentity)
  | limited (identity : ClientIdentity)
  | metered (identity : ClientIdentity) (checked : ℕ)
  | answered (response : Response)

/-- A request with the keys and the time that it came at. -/
structure Progress where
  request : Request
  keys : ApiKeyRegistry
  came : UInt64
  stage : Stage

/-- A request that the rate limiter has let through, and when. -/
structure Admission where
  number : ℕ
  clientId : String
  checked : ℕ
  deriving DecidableEq

/-- A decision, and the policy that it was made by. -/
structure Decision where
  admission : Admission
  request : Request
  identity : ClientIdentity
  policy : RbacPolicy
  nowSecs : ℕ

def Decision.entry (d : Decision) : AuditEntry :=
  (checkAccess d.policy d.identity d.request.path d.request.method d.nowSecs).1

def Decision.response (d : Decision) : Response :=
  match (checkAccess d.policy d.identity d.request.path d.request.method d.nowSecs).2 with
  | .ok () => .next
  | .error error => .forbidden error

/-- The state that requests share, the requests by their number, and what was let through and
decided so far, of which the log has been cleared of the first ones. -/
structure Gate where
  keys : ApiKeyRegistry
  meter : Metered
  policy : RbacPolicy
  auditLog : AuditLog
  requests : ℕ → Option Progress
  admissions : List Admission
  decisions : List Decision
  cleared : ℕ

namespace Gate

inductive Action
  | register (plaintextKey : Bytes) (label : String) (role : ClientRole)
  | revoke (keyHash : String)
  | setRole (role : RoleDefinition)
  | addEntityAcl (entityId clientId : String) (permissions : List Permission)
  | clearAuditLog
  | arrive (number : ℕ) (request : Request) (now : UInt64)
  | check (number : ℕ) (now : ℕ)
  | remaining (number : ℕ) (now : ℕ)
  | authorize (number : ℕ) (nowSecs : ℕ)

/-- `AuthState::with_rbac`, and keys that are registered already. -/
def start (config : AuthConfig) (keys : ApiKeyRegistry) (policy : RbacPolicy) (maxEntries : ℕ) :
    Gate where
  keys := keys
  meter := .new config.rateLimitPerMinute config.rateLimitPerMinute_lt
  policy := policy
  auditLog := ⟨[], maxEntries⟩
  requests _ := none
  admissions := []
  decisions := []
  cleared := 0

def put (s : Gate) (number : ℕ) (p : Progress) : Gate :=
  { s with requests := Function.update s.requests number (some p) }

section Steps

variable (sha256 : Bytes → Digest) (fromSlice : Bytes → Option Value) (config : AuthConfig)

/-- The stage after `extract_identity`, which a request that passes anyway does not come to. -/
def firstStage (keys : ApiKeyRegistry) (request : Request) (now : UInt64) : Stage :=
  if config.passes request then .answered .next
  else
    match extractIdentity sha256 fromSlice request keys config now with
    | .ok identity => .identified identity
    | .error response => .answered response

/-- `auth_middleware`, cut where it takes a lock. -/
def step (s : Gate) : Action → Option Gate
  | .register plaintextKey label role =>
    some { s with keys := s.keys.register sha256 plaintextKey label role }
  | .revoke keyHash => some { s with keys := (s.keys.revoke keyHash).2 }
  | .setRole role => some { s with policy := s.policy.setRole role }
  | .addEntityAcl entityId clientId permissions =>
    some { s with policy := s.policy.addEntityAcl entityId clientId permissions }
  | .clearAuditLog =>
    some { s with auditLog := s.auditLog.clear, cleared := s.decisions.length }
  | .arrive number request now =>
    if (s.requests number).isSome then none
    else
      some (s.put number
        ⟨request, s.keys, now, firstStage sha256 fromSlice config s.keys request now⟩)
  | .check number now => do
    let p ← s.requests number
    let .identified identity := p.stage | none
    let meter ← s.meter.step (.check identity.id now)
    if (s.meter.limiter.check identity.id now).1 then
      some { s.put number { p with stage := .metered identity now } with
        meter, admissions := s.admissions ++ [⟨number, identity.id, now⟩] }
    else some { s.put number { p with stage := .limited identity } with meter }
  | .remaining number now => do
    let p ← s.requests number
    let .limited identity := p.stage | none
    let meter ← s.meter.step (.remaining identity.id now)
    let response := .tooManyRequests (s.meter.limiter.remaining identity.id now).1
    some { s.put number { p with stage := .answered response } with meter }
  | .authorize number nowSecs => do
    let p ← s.requests number
    let .metered identity checked := p.stage | none
    let decision : Decision :=
      ⟨⟨number, identity.id, checked⟩, p.request, identity, s.policy, nowSecs⟩
    let auditLog ← s.auditLog.record decision.entry
    some { s.put number { p with stage := .answered decision.response } with
      auditLog, decisions := s.decisions ++ [decision] }

end Steps

/-! ### What the answers rest on -/

section Soundness

variable (sha256 : Bytes → Digest) (fromSlice : Bytes → Option Value) (config : AuthConfig)

/-- The request has come from the client by the keys as they were then. -/
def From (p : Progress) (identity : ClientIdentity) : Prop :=
  config.passes p.request = false ∧
    extractIdentity sha256 fromSlice p.request p.keys config p.came = .ok identity

def Decides (d : Decision) (number : ℕ) (p : Progress) : Prop :=
  d.admission.number = number ∧ d.request = p.request ∧
    From sha256 fromSlice config p d.identity

/-- What is known of a request at its stage. -/
def Fits (admissions : List Admission) (decisions : List Decision) (number : ℕ) (p : Progress) :
    Prop :=
  match p.stage with
  | .identified identity | .limited identity =>
    From sha256 fromSlice config p identity ∧ ∀ a ∈ admissions, a.number ≠ number
  | .metered identity checked =>
    From sha256 fromSlice config p identity ∧ ⟨number, identity.id, checked⟩ ∈ admissions ∧
      ∀ d ∈ decisions, d.admission.number ≠ number
  | .answered response =>
    config.passes p.request = false → response.decided = true →
      ∃ d ∈ decisions, Decides sha256 fromSlice config d number p ∧ d.response = response

/-- Every request fits its stage, nothing is let through or decided twice, and the log has the last
decisions. -/
structure Sound (maxEntries : ℕ) (s : Gate) : Prop where
  fits : ∀ number p, s.requests number = some p →
    Fits sha256 fromSlice config s.admissions s.decisions number p
  known : ∀ a ∈ s.admissions, ∃ p, s.requests a.number = some p
  admitted : ∀ d ∈ s.decisions, d.admission ∈ s.admissions ∧ d.admission.clientId = d.identity.id
  nodup_admissions : (s.admissions.map Admission.number).Nodup
  nodup_decisions : (s.decisions.map fun d => d.admission.number).Nodup
  maxEntries_eq : s.auditLog.maxEntries = maxEntries
  log : s.auditLog.entries = ((s.decisions.drop s.cleared).map Decision.entry).rtake maxEntries
  cleared_le : s.cleared ≤ s.decisions.length

variable {sha256 fromSlice config} {maxEntries : ℕ} {s t : Gate} {number : ℕ} {p : Progress}

/-- What another request does is nothing to this one. -/
theorem Fits.others {admissions admissions' : List Admission} {decisions decisions' : List Decision}
    {other : ℕ} (h : Fits sha256 fromSlice config admissions decisions other p)
    (hne : other ≠ number) (hadmissions : ∀ a ∈ admissions', a.number = number)
    (hdecisions : ∀ d ∈ decisions', d.admission.number = number) :
    Fits sha256 fromSlice config (admissions ++ admissions') (decisions ++ decisions') other p := by
  have hnot : (∀ a ∈ admissions, a.number ≠ other) →
      ∀ a ∈ admissions ++ admissions', a.number ≠ other := fun h a ha =>
    (List.mem_append.mp ha).elim (h a) fun ha => (hadmissions a ha).trans_ne hne.symm
  have hnot' : (∀ d ∈ decisions, d.admission.number ≠ other) →
      ∀ d ∈ decisions ++ decisions', d.admission.number ≠ other := fun h d hd =>
    (List.mem_append.mp hd).elim (h d) fun hd => (hdecisions d hd).trans_ne hne.symm
  unfold Fits at h ⊢
  cases hstage : p.stage with
  | identified identity | limited identity =>
    simp only [hstage] at h ⊢
    exact ⟨h.1, hnot h.2⟩
  | metered identity checked =>
    simp only [hstage] at h ⊢
    exact ⟨h.1, List.mem_append_left _ h.2.1, hnot' h.2.2⟩
  | answered response =>
    simp only [hstage] at h ⊢
    intro hpasses hdecided
    obtain ⟨d, hd, hof⟩ := h hpasses hdecided
    exact ⟨d, List.mem_append_left _ hd, hof⟩

theorem requests_put (s : Gate) (number other : ℕ) (p : Progress) :
    (s.put number p).requests other = if other = number then some p else s.requests other :=
  Function.update_apply _ _ _ _

/-- A full log drops its first entry. -/
theorem record_eq {log log' : AuditLog} {written : List AuditEntry} {entry : AuditEntry}
    (hentries : log.entries = written.rtake log.maxEntries) (h : log.record entry = some log') :
    log' = ⟨(written ++ [entry]).rtake log.maxEntries, log.maxEntries⟩ := by
  have hlength := length_rtake written log.maxEntries
  rw [← hentries] at hlength
  rw [AuditLog.record] at h
  split_ifs at h with hfull
  · cases hmax : log.maxEntries with
    | zero =>
      rw [hmax, List.rtake_zero] at hentries
      simp [hentries] at h
    | succ n =>
      have htail : log.entries.tail = written.rtake n := by
        rw [hentries, hmax]
        exact tail_rtake (by omega)
      rw [List.rtake_concat_succ, ← htail, ← hmax]
      cases hlog : log.entries with
      | nil => simp [hlog] at h
      | cons _ rest =>
        rw [hlog] at h
        exact (Option.some.inj h).symm
  · have hall : log.entries = written := by
      rw [hentries]
      exact rtake_of_length_le (by omega)
    rw [rtake_of_length_le (by simp; omega), ← hall]
    exact (Option.some.inj h).symm

theorem Sound.fits_put (h : Sound sha256 fromSlice config maxEntries s) (number : ℕ)
    (p : Progress) (admissions : List Admission) (decisions : List Decision)
    (hadmissions : ∀ a ∈ admissions, a.number = number)
    (hdecisions : ∀ d ∈ decisions, d.admission.number = number)
    (hfits : Fits sha256 fromSlice config (s.admissions ++ admissions) (s.decisions ++ decisions)
      number p) (other : ℕ) (q : Progress) (hq : (s.put number p).requests other = some q) :
    Fits sha256 fromSlice config (s.admissions ++ admissions) (s.decisions ++ decisions) other q := by
  rw [requests_put] at hq
  split_ifs at hq with hother
  · cases hq
    rwa [hother]
  · exact (h.fits other q hq).others hother hadmissions hdecisions

theorem known_put (h : ∀ a ∈ s.admissions, ∃ q, s.requests a.number = some q) :
    ∀ a ∈ s.admissions, ∃ q, (s.put number p).requests a.number = some q := by
  intro a ha
  rw [requests_put]
  split_ifs
  · exact ⟨p, rfl⟩
  · exact h a ha

/-- A step of a request that is neither let through nor decided by it. -/
theorem Sound.put (h : Sound sha256 fromSlice config maxEntries s)
    (hfits : Fits sha256 fromSlice config s.admissions s.decisions number p) :
    Sound sha256 fromSlice config maxEntries (s.put number p) where
  fits := by
    have hput := h.fits_put number p [] [] nofun nofun
    rw [List.append_nil, List.append_nil] at hput
    exact hput hfits
  known := known_put h.known
  admitted := h.admitted
  nodup_admissions := h.nodup_admissions
  nodup_decisions := h.nodup_decisions
  maxEntries_eq := h.maxEntries_eq
  log := h.log
  cleared_le := h.cleared_le

theorem decided_of_error {request : Request} {keys : ApiKeyRegistry} {now : UInt64}
    {response : Response}
    (h : extractIdentity sha256 fromSlice request keys config now = .error response) :
    response.decided = false := by
  rw [extractIdentity] at h
  split at h
  · split at h <;> cases h
    rfl
  · split at h
    · split at h <;> cases h
      rfl
    · cases h
      rfl

theorem Sound.arrive (h : Sound sha256 fromSlice config maxEntries s)
    (hnone : s.requests number = none) (request : Request) (now : UInt64) :
    Fits sha256 fromSlice config s.admissions s.decisions number
      ⟨request, s.keys, now, firstStage sha256 fromSlice config s.keys request now⟩ := by
  unfold firstStage
  split_ifs with hpasses
  · intro hnot
    rw [hpasses] at hnot
    cases hnot
  · rw [Bool.not_eq_true] at hpasses
    cases hidentity : extractIdentity sha256 fromSlice request s.keys config now with
    | error response =>
      intro _ hdecided
      rw [decided_of_error hidentity] at hdecided
      cases hdecided
    | ok identity =>
      refine ⟨⟨hpasses, hidentity⟩, fun a ha hnumber => ?_⟩
      obtain ⟨q, hq⟩ := h.known a ha
      rw [hnumber, hnone] at hq
      cases hq

/-- What a request finds at the rate limiter. -/
theorem check_cases {now : ℕ} (hstep : step sha256 fromSlice config s (.check number now) = some t) :
    ∃ p identity meter, s.requests number = some p ∧ p.stage = .identified identity ∧
      s.meter.step (.check identity.id now) = some meter ∧
      t = if (s.meter.limiter.check identity.id now).1 then
        { s.put number { p with stage := .metered identity now } with
          meter, admissions := s.admissions ++ [⟨number, identity.id, now⟩] }
      else { s.put number { p with stage := .limited identity } with meter } := by
  simp only [step, Option.bind_eq_bind, Option.bind_eq_some_iff] at hstep
  obtain ⟨p, hp, hstep⟩ := hstep
  cases hstage : p.stage with
  | identified identity =>
    simp only [hstage, Option.bind_eq_some_iff] at hstep
    obtain ⟨meter, hmeter, hstep⟩ := hstep
    refine ⟨p, identity, meter, hp, hstage, hmeter, ?_⟩
    split_ifs at hstep ⊢ <;> exact (Option.some.inj hstep).symm
  | limited _ | metered _ _ | answered _ => simp [hstage] at hstep

theorem remaining_cases {now : ℕ}
    (hstep : step sha256 fromSlice config s (.remaining number now) = some t) :
    ∃ p identity meter n, s.requests number = some p ∧ p.stage = .limited identity ∧
      s.meter.step (.remaining identity.id now) = some meter ∧
      t = { s.put number { p with stage := .answered (.tooManyRequests n) } with meter } := by
  simp only [step, Option.bind_eq_bind, Option.bind_eq_some_iff] at hstep
  obtain ⟨p, hp, hstep⟩ := hstep
  cases hstage : p.stage with
  | limited identity =>
    simp only [hstage, Option.bind_eq_some_iff] at hstep
    obtain ⟨meter, hmeter, hstep⟩ := hstep
    exact ⟨p, identity, meter, _, hp, hstage, hmeter, (Option.some.inj hstep).symm⟩
  | identified _ | metered _ _ | answered _ => simp [hstage] at hstep

theorem authorize_cases {nowSecs : ℕ}
    (hstep : step sha256 fromSlice config s (.authorize number nowSecs) = some t) :
    ∃ p auditLog, ∃ d : Decision, s.requests number = some p ∧
      p.stage = .metered d.identity d.admission.checked ∧
      d.admission = ⟨number, d.identity.id, d.admission.checked⟩ ∧ d.request = p.request ∧
      d.policy = s.policy ∧ s.auditLog.record d.entry = some auditLog ∧
      t = { s.put number { p with stage := .answered d.response } with
        auditLog, decisions := s.decisions ++ [d] } := by
  simp only [step, Option.bind_eq_bind, Option.bind_eq_some_iff] at hstep
  obtain ⟨p, hp, hstep⟩ := hstep
  cases hstage : p.stage with
  | metered identity checked =>
    simp only [hstage, Option.bind_eq_some_iff] at hstep
    obtain ⟨auditLog, hlog, hstep⟩ := hstep
    exact ⟨p, auditLog, ⟨⟨number, identity.id, checked⟩, p.request, identity, s.policy, nowSecs⟩, hp,
      hstage, rfl, rfl, rfl, hlog, (Option.some.inj hstep).symm⟩
  | identified _ | limited _ | answered _ => simp [hstage] at hstep

theorem Sound.check (h : Sound sha256 fromSlice config maxEntries s) {now : ℕ}
    (hstep : step sha256 fromSlice config s (.check number now) = some t) :
    Sound sha256 fromSlice config maxEntries t := by
  obtain ⟨p, identity, meter, hp, hstage, -, rfl⟩ := check_cases hstep
  have hfits := h.fits number p hp
  simp only [Fits, hstage] at hfits
  split_ifs with hcheck
  · have hnew : ∀ a ∈ [(⟨number, identity.id, now⟩ : Admission)], a.number = number := by simp
    refine { h with fits := ?_, known := ?_, admitted := ?_, nodup_admissions := ?_ }
    · have hput := h.fits_put number { p with stage := .metered identity now }
        [⟨number, identity.id, now⟩] [] hnew nofun
      rw [List.append_nil] at hput
      refine hput ⟨hfits.1, by simp, fun d hd => ?_⟩
      exact hfits.2 d.admission (h.admitted d hd).1
    · intro a ha
      rcases List.mem_append.mp ha with ha | ha
      · exact known_put h.known a ha
      · rw [hnew a ha]
        exact ⟨_, Function.update_self ..⟩
    · exact fun d hd => ⟨List.mem_append_left _ (h.admitted d hd).1, (h.admitted d hd).2⟩
    · rw [List.map_append, List.nodup_append]
      refine ⟨h.nodup_admissions, by simp, ?_⟩
      simpa using hfits.2
  · have hput : Sound sha256 fromSlice config maxEntries
        (s.put number { p with stage := .limited identity }) := h.put hfits
    exact { hput with }

theorem Sound.remaining (h : Sound sha256 fromSlice config maxEntries s) {now : ℕ}
    (hstep : step sha256 fromSlice config s (.remaining number now) = some t) :
    Sound sha256 fromSlice config maxEntries t := by
  obtain ⟨p, identity, meter, n, hp, hstage, -, rfl⟩ := remaining_cases hstep
  have hput : Sound sha256 fromSlice config maxEntries
      (s.put number { p with stage := .answered (.tooManyRequests n) }) :=
    h.put fun _ hdecided => nomatch hdecided
  exact { hput with }

theorem Sound.authorize (h : Sound sha256 fromSlice config maxEntries s) {nowSecs : ℕ}
    (hstep : step sha256 fromSlice config s (.authorize number nowSecs) = some t) :
    Sound sha256 fromSlice config maxEntries t := by
  obtain ⟨p, auditLog, d, hp, hstage, hadmission, hrequest, -, hlog, rfl⟩ := authorize_cases hstep
  have hfits := h.fits number p hp
  simp only [Fits, hstage, ← hadmission] at hfits
  have hnumber : d.admission.number = number := by rw [hadmission]
  have hrecord := record_eq (by rw [h.log, h.maxEntries_eq]) hlog
  refine { h with
    fits := ?_
    known := ?_
    admitted := ?_
    nodup_decisions := ?_
    maxEntries_eq := ?_
    log := ?_
    cleared_le := ?_ }
  · have hput := h.fits_put number { p with stage := .answered d.response } [] [d] nofun
      (by simp [hnumber])
    rw [List.append_nil] at hput
    exact hput fun _ _ => ⟨d, by simp, ⟨hnumber, hrequest, hfits.1⟩, rfl⟩
  · exact known_put h.known
  · intro d' hd'
    rcases List.mem_append.mp hd' with hd' | hd'
    · exact h.admitted d' hd'
    · rw [List.mem_singleton.mp hd']
      exact ⟨hfits.2.1, by rw [hadmission]⟩
  · rw [List.map_append, List.nodup_append]
    refine ⟨h.nodup_decisions, by simp, ?_⟩
    simpa [hnumber] using hfits.2.2
  · rw [hrecord]
    exact h.maxEntries_eq
  · change auditLog.entries =
      (((s.decisions ++ [d]).drop s.cleared).map Decision.entry).rtake maxEntries
    rw [hrecord, List.drop_append_of_le_length h.cleared_le, List.map_append, h.maxEntries_eq]
    rfl
  · change s.cleared ≤ (s.decisions ++ [d]).length
    rw [List.length_append]
    exact h.cleared_le.trans (Nat.le_add_right _ _)

theorem Sound.step {action : Action} (h : Sound sha256 fromSlice config maxEntries s)
    (hstep : step sha256 fromSlice config s action = some t) :
    Sound sha256 fromSlice config maxEntries t := by
  cases action with
  | register _ _ _ | revoke _ | setRole _ | addEntityAcl _ _ _ =>
    cases hstep
    exact { h with }
  | clearAuditLog =>
    cases hstep
    exact { h with log := by simp [AuditLog.clear, List.rtake_nil], cleared_le := le_rfl }
  | arrive number request now =>
    simp only [Gate.step, Option.isSome_iff_ne_none, ne_eq, ite_not] at hstep
    split_ifs at hstep with hnone
    cases hstep
    exact h.put (h.arrive hnone request now)
  | check number now => exact h.check hstep
  | remaining number now => exact h.remaining hstep
  | authorize number nowSecs => exact h.authorize hstep

theorem sound_start (keys : ApiKeyRegistry) (policy : RbacPolicy) (maxEntries : ℕ) :
    Sound sha256 fromSlice config maxEntries (start config keys policy maxEntries) where
  fits := nofun
  known := nofun
  admitted := nofun
  nodup_admissions := List.nodup_nil
  nodup_decisions := List.nodup_nil
  maxEntries_eq := rfl
  log := by simp [start, List.rtake_nil]
  cleared_le := le_rfl

theorem entry_allowed_iff (d : Decision) : d.entry.decision = .allowed ↔
    Granted d.policy d.identity d.request.path
      (requiredPermission d.request.method d.request.path) :=
  accessDecision_iff d.policy d.identity d.request.path d.request.method

theorem response_next_iff (d : Decision) : d.response = .next ↔ d.entry.decision = .allowed := by
  rw [Decision.response, Decision.entry, checkAccess]
  dsimp only
  split_ifs with h <;> simp [h]

/-- Whoever is answered by the policy came with a key or a token that was good when it came, and is
let in exactly when the policy, as it was at the decision, grants it; nobody is decided twice, and
the log has the last decisions, and in them the answers. -/
theorem answered_by_policy {keys : ApiKeyRegistry} {policy : RbacPolicy} {maxEntries : ℕ} {s : Gate}
    (r : Run (step sha256 fromSlice config) (fun _ _ => True)
      (start config keys policy maxEntries) s) :
    (∀ number p response, s.requests number = some p → p.stage = .answered response →
      config.passes p.request = false → response.decided = true →
      ∃ d ∈ s.decisions, Decides sha256 fromSlice config d number p ∧ d.response = response ∧
        (response = .next ↔ Granted d.policy d.identity p.request.path
          (requiredPermission p.request.method p.request.path))) ∧
    (s.decisions.map fun d => d.admission.number).Nodup ∧
    (∀ d ∈ s.decisions, d.response = .next ↔ d.entry.decision = .allowed) ∧
    s.auditLog.entries = ((s.decisions.drop s.cleared).map Decision.entry).rtake maxEntries := by
  have h : Sound sha256 fromSlice config maxEntries s :=
    r.invariant (fun _ _ _ h _ hstep => h.step hstep) (sound_start keys policy maxEntries)
  refine ⟨fun number p response hp hstage hpasses hdecided => ?_, h.nodup_decisions,
    fun d _ => response_next_iff d, h.log⟩
  have hfits := h.fits number p hp
  simp only [Fits, hstage] at hfits
  obtain ⟨d, hd, hdecides, hresponse⟩ := hfits hpasses hdecided
  refine ⟨d, hd, hdecides, hresponse, ?_⟩
  rw [← hresponse, response_next_iff, entry_allowed_iff, hdecides.2.1]

/-! ### The limit -/

/-- The rate limiter is asked in the order of the times. -/
def InOrder (s : Gate) : Action → Prop
  | .check _ now | .remaining _ now => s.meter.clock ≤ now
  | _ => True

instance (s : Gate) : DecidablePred (InOrder s)
  | .check _ _ | .remaining _ _ => Nat.decLe _ _
  | .register _ _ _ | .revoke _ | .setRole _ | .addEntityAcl _ _ _ | .clearAuditLog
  | .arrive _ _ _ | .authorize _ _ => .isTrue trivial

/-- The rate limiter has let through what the requests say. -/
structure Counted (config : AuthConfig) (s : Gate) : Prop where
  meter : Metered.Sound config.rateLimitPerMinute s.meter
  allowed : ∀ clientId, (s.admissions.filter fun a => a.clientId = clientId).map Admission.checked =
    s.meter.allowed clientId

theorem counted_start (keys : ApiKeyRegistry) (policy : RbacPolicy) (maxEntries : ℕ) :
    Counted config (start config keys policy maxEntries) :=
  ⟨Metered.sound_new _, fun _ => rfl⟩

theorem Counted.step (h : Counted config s) (hlimit : 0 < config.rateLimitPerMinute)
    {action : Action} (horder : InOrder s action)
    (hstep : step sha256 fromSlice config s action = some t) : Counted config t := by
  cases action with
  | register _ _ _ | revoke _ | setRole _ | addEntityAcl _ _ _ | clearAuditLog =>
    cases hstep
    exact { h with }
  | arrive number request now =>
    simp only [Gate.step, Option.isSome_iff_ne_none, ne_eq, ite_not] at hstep
    split_ifs at hstep with hnone
    cases hstep
    exact { h with }
  | check number now =>
    obtain ⟨p, identity, meter, hp, hstage, hmeter, rfl⟩ := check_cases hstep
    have hmetered : Metered.InOrder s.meter (.check identity.id now) := horder
    have hsound := h.meter.step hlimit hmetered hmeter
    cases hmeter
    split_ifs with hcheck
    · refine ⟨hsound, fun clientId => ?_⟩
      rw [Metered.allowed_concat, List.filter_append, List.map_append, h.allowed]
      by_cases hid : identity.id = clientId <;> simp [Metered.allowed, hid, ← hcheck]
    · refine ⟨hsound, fun clientId => ?_⟩
      rw [Metered.allowed_concat]
      refine (h.allowed clientId).trans ?_
      simp [Metered.allowed, hcheck]
  | remaining number now =>
    obtain ⟨p, identity, meter, n, hp, hstage, hmeter, rfl⟩ := remaining_cases hstep
    have hmetered : Metered.InOrder s.meter (.remaining identity.id now) := horder
    have hsound := h.meter.step hlimit hmetered hmeter
    cases hmeter
    exact ⟨hsound, h.allowed⟩
  | authorize number nowSecs =>
    obtain ⟨p, auditLog, d, hp, hstage, -, -, -, -, rfl⟩ := authorize_cases hstep
    exact { h with }

/-- In no minute are more requests of a client decided, and so none answered by a handler, than the
limit. -/
theorem decided_at_most (hlimit : 0 < config.rateLimitPerMinute) {keys : ApiKeyRegistry}
    {policy : RbacPolicy} {maxEntries : ℕ} {s : Gate}
    (r : Run (step sha256 fromSlice config) InOrder (start config keys policy maxEntries) s)
    (clientId : String) (x : ℕ) :
    (s.decisions.filter fun d => d.identity.id = clientId ∧ x ≤ d.admission.checked ∧
      d.admission.checked < x + 60 * 10 ^ 9).length ≤ config.rateLimitPerMinute := by
  have h : Sound sha256 fromSlice config maxEntries s :=
    r.invariant (fun _ _ _ h _ hstep => h.step hstep) (sound_start keys policy maxEntries)
  have hcounted : Counted config s :=
    r.invariant (fun _ _ _ h horder hstep => h.step hlimit horder hstep)
      (counted_start keys policy maxEntries)
  let admissions := (s.decisions.filter fun d => d.identity.id = clientId ∧
    x ≤ d.admission.checked ∧ d.admission.checked < x + 60 * 10 ^ 9).map Decision.admission
  have hnodup : admissions.Nodup := by
    have hall : (s.decisions.map Decision.admission).Nodup := by
      have hnumbers : ((s.decisions.map Decision.admission).map Admission.number).Nodup := by
        simpa [List.map_map, Function.comp_def] using h.nodup_decisions
      exact hnumbers.of_map Admission.number
    exact hall.sublist (List.filter_sublist.map _)
  have hsubset : admissions ⊆ (s.admissions.filter fun a => a.clientId = clientId).filter
      fun a => x ≤ a.checked ∧ a.checked < x + 60 * 10 ^ 9 := by
    intro a ha
    obtain ⟨d, hd, rfl⟩ := List.mem_map.mp ha
    obtain ⟨hd, hid, hx⟩ : d ∈ s.decisions ∧ d.identity.id = clientId ∧ x ≤ d.admission.checked ∧
        d.admission.checked < x + 60 * 10 ^ 9 := by simpa using hd
    obtain ⟨hmem, hclient⟩ := h.admitted d hd
    simpa [hmem, hclient, hid] using hx
  calc (s.decisions.filter _).length = admissions.length := (List.length_map _).symm
    _ ≤ _ := (hnodup.subperm hsubset).length_le
    _ = (during (60 * 10 ^ 9) x (s.meter.allowed clientId)).length := by
        rw [← hcounted.allowed, during, List.filter_map, List.length_map]
        rfl
    _ ≤ config.rateLimitPerMinute := hcounted.meter.limited clientId x

/-! ### Revocation -/

variable (sha256) in
def Action.registers (hash : String) : Action → Bool
  | .register plaintextKey _ _ => hashKey sha256 plaintextKey = hash
  | _ => false

/-- No key with this hash is active. -/
def Revoked (keys : ApiKeyRegistry) (hash : String) : Prop :=
  ∀ entry, keys hash = some entry → entry.active = false

variable (sha256) in
/-- The request has to be identified by a key with this hash. -/
def Presents (config : AuthConfig) (hash : String) (p : Progress) : Prop :=
  config.passes p.request = false ∧
    ∃ apiKey, p.request.apiKey = some apiKey ∧ hashKey sha256 apiKey = hash

variable {hash : String}

theorem revoked_revoke (keys : ApiKeyRegistry) (hash : String) :
    Revoked (keys.revoke hash).2 hash := by
  intro entry hentry
  rw [ApiKeyRegistry.revoke] at hentry
  cases hkey : keys hash with
  | none => simp [hkey] at hentry
  | some old =>
    simp only [hkey, Function.update_self, Option.some.injEq] at hentry
    exact hentry ▸ rfl

theorem Revoked.revoke {keys : ApiKeyRegistry} (h : Revoked keys hash) (other : String) :
    Revoked (keys.revoke other).2 hash := by
  by_cases hother : other = hash
  · exact hother ▸ revoked_revoke keys other
  · intro entry hentry
    rw [ApiKeyRegistry.revoke] at hentry
    cases hkey : keys other with
    | none =>
      rw [hkey] at hentry
      exact h entry hentry
    | some old =>
      simp only [hkey, Function.update_of_ne (Ne.symm hother)] at hentry
      exact h entry hentry

theorem Revoked.register {keys : ApiKeyRegistry} (h : Revoked keys hash) {plaintextKey : Bytes}
    (hne : hashKey sha256 plaintextKey ≠ hash) (label : String) (role : ClientRole) :
    Revoked (keys.register sha256 plaintextKey label role) hash := by
  intro entry hentry
  rw [ApiKeyRegistry.register, Function.update_of_ne hne.symm] at hentry
  exact h entry hentry

theorem Revoked.validate {keys : ApiKeyRegistry} {plaintextKey : Bytes}
    (h : Revoked keys (hashKey sha256 plaintextKey)) :
    keys.validate sha256 plaintextKey = none := by
  rw [ApiKeyRegistry.validate, Option.filter_eq_none_iff]
  intro entry hentry
  rw [h entry hentry]
  exact Bool.false_ne_true

theorem Revoked.firstStage {keys : ApiKeyRegistry} {request : Request} {now came : UInt64}
    {stage : Stage} (h : Revoked keys hash)
    (hpresents : Presents sha256 config hash ⟨request, keys, came, stage⟩) :
    Gate.firstStage sha256 fromSlice config keys request now =
      .answered (.unauthorized "Invalid API key" none) := by
  obtain ⟨hpasses, apiKey, hkey, rfl⟩ := hpresents
  dsimp only at hpasses hkey
  simp [Gate.firstStage, hpasses, extractIdentity, hkey, h.validate]

/-- From `s` on the key is revoked, and a request with it is one of `s`, or is refused. -/
structure Refusing (sha256 : Bytes → Digest) (config : AuthConfig) (hash : String) (s t : Gate) :
    Prop where
  revoked : Revoked t.keys hash
  refused : ∀ number p, t.requests number = some p → Presents sha256 config hash p →
    s.requests number = some p ∨ p.stage = .answered (.unauthorized "Invalid API key" none)

/-- A request that has the key is answered, and takes no step. -/
theorem Refusing.put {s t u : Gate} {p q : Progress} (h : Refusing sha256 config hash s t)
    (hanswered : ∀ number p, s.requests number = some p → Presents sha256 config hash p →
      ∃ response, p.stage = .answered response)
    (hp : t.requests number = some p) (hstage : ∀ response, p.stage ≠ .answered response)
    (hkeys : u.keys = t.keys) (hu : u.requests = (t.put number q).requests)
    (hrequest : q.request = p.request) : Refusing sha256 config hash s u where
  revoked := hkeys ▸ h.revoked
  refused := by
    intro other p' hp' hpresents
    rw [hu, requests_put] at hp'
    split_ifs at hp' with hother
    · cases hp'
      have hold : Presents sha256 config hash p := by
        rw [Presents, ← hrequest]
        exact hpresents
      rcases h.refused number p hp hold with hs | hrefused
      · obtain ⟨response, hresponse⟩ := hanswered number p hs hold
        exact absurd hresponse (hstage response)
      · exact absurd hrefused (hstage _)
    · exact h.refused other p' hp' hpresents

theorem Refusing.step {s t u : Gate} {action : Action} (h : Refusing sha256 config hash s t)
    (hanswered : ∀ number p, s.requests number = some p → Presents sha256 config hash p →
      ∃ response, p.stage = .answered response)
    (hregisters : action.registers sha256 hash = false)
    (hstep : Gate.step sha256 fromSlice config t action = some u) :
    Refusing sha256 config hash s u := by
  cases action with
  | register plaintextKey label role =>
    cases hstep
    exact ⟨h.revoked.register (of_decide_eq_false hregisters) label role, h.refused⟩
  | revoke keyHash =>
    cases hstep
    exact ⟨h.revoked.revoke keyHash, h.refused⟩
  | setRole _ | addEntityAcl _ _ _ | clearAuditLog =>
    cases hstep
    exact ⟨h.revoked, h.refused⟩
  | arrive number request now =>
    simp only [Gate.step, Option.isSome_iff_ne_none, ne_eq, ite_not] at hstep
    split_ifs at hstep with hnone
    cases hstep
    refine ⟨h.revoked, fun other p hp hpresents => ?_⟩
    rw [requests_put] at hp
    split_ifs at hp with hother
    · cases hp
      exact .inr (h.revoked.firstStage hpresents)
    · exact h.refused other p hp hpresents
  | check number now =>
    obtain ⟨p, identity, meter, hp, hstage, -, rfl⟩ := check_cases hstep
    split_ifs
    · exact h.put hanswered hp (by simp [hstage]) rfl rfl rfl
    · exact h.put hanswered hp (by simp [hstage]) rfl rfl rfl
  | remaining number now =>
    obtain ⟨p, identity, meter, n, hp, hstage, -, rfl⟩ := remaining_cases hstep
    exact h.put hanswered hp (by simp [hstage]) rfl rfl rfl
  | authorize number nowSecs =>
    obtain ⟨p, auditLog, d, hp, hstage, -, -, -, -, rfl⟩ := authorize_cases hstep
    exact h.put hanswered hp (by simp [hstage]) rfl rfl rfl

/-- After a key is revoked, with no request under way that has it, every request with it is
refused until it is registered again. -/
theorem revoked_is_refused {s t u : Gate} {hash : String}
    (hrevoke : Gate.step sha256 fromSlice config s (.revoke hash) = some t)
    (hanswered : ∀ number p, s.requests number = some p → Presents sha256 config hash p →
      ∃ response, p.stage = .answered response)
    (r : Run (Gate.step sha256 fromSlice config) (fun _ a => a.registers sha256 hash = false) t u)
    {number : ℕ} {p : Progress} (hp : u.requests number = some p)
    (hpresents : Presents sha256 config hash p) :
    s.requests number = some p ∨ p.stage = .answered (.unauthorized "Invalid API key" none) := by
  cases hrevoke
  have hstart : Refusing sha256 config hash { s with keys := (s.keys.revoke hash).2 }
      { s with keys := (s.keys.revoke hash).2 } :=
    ⟨revoked_revoke s.keys hash, fun _ _ hp _ => .inl hp⟩
  have h := r.invariant (I := Refusing sha256 config hash { s with keys := (s.keys.revoke hash).2 })
    (fun _ _ _ h hregisters hstep => h.step hanswered hregisters hstep) hstart
  exact h.refused number p hp hpresents

end Soundness

/-! ### One key -/

def testKey : Bytes := "test-key-123".toList.map fun c => .ofNat c.toNat

/-- The digest of the key. -/
def testDigest (_ : Bytes) : Digest :=
  #v[0x62, 0x5f, 0xaa, 0x3f, 0xbb, 0xc3, 0xd2, 0xbd, 0x9d, 0x6e, 0xe7, 0x67, 0x8d, 0x04, 0xcc, 0x53,
    0x39, 0xcb, 0x33, 0xdc, 0x68, 0xd9, 0xb5, 0x84, 0x51, 0x85, 0x3d, 0x60, 0x04, 0x6e, 0x22, 0x6a]

def metered : AuthConfig where
  enabled := true
  allowPublicHealth := true
  rateLimitPerMinute := 1
  jwtSecret := none
  rateLimitPerMinute_lt := by decide

abbrev testStep : Gate → Action → Option Gate := step testDigest (fun _ => none) metered

abbrev opened : Gate := start metered (fun _ => none) .default 10000

def visit : List Action :=
  [.register testKey "Test" .reader, .arrive 0 ⟨.get, "/octads", some testKey, none⟩ 0, .check 0 5,
    .authorize 0 7]

theorem answered_by_policy_visit : ∃ s, exec testStep opened visit = some s ∧
    s.auditLog.entries = ((s.decisions.drop s.cleared).map Decision.entry).rtake 10000 :=
  ⟨_, rfl, (answered_by_policy (run_of_steps (show exec testStep opened visit = _ from rfl))).2.2.2⟩

/-- The client of the visit comes again in the same minute, when it is refused, and in the next. -/
def visits : List Action :=
  visit ++ [.arrive 1 ⟨.get, "/octads", some testKey, none⟩ 1, .check 1 6, .remaining 1 6,
    .arrive 2 ⟨.get, "/octads", some testKey, none⟩ 61, .check 2 (6 + 60 * 10 ^ 9),
    .authorize 2 61]

theorem decided_at_most_visits : ∃ s, exec (guarded InOrder testStep) opened visits = some s ∧
    (s.requests 1).map Progress.stage = some (.answered (.tooManyRequests 0)) ∧
    s.decisions.length = 2 ∧
    (s.decisions.filter fun d => d.identity.id = hashKey testDigest testKey ∧
      5 ≤ d.admission.checked ∧ d.admission.checked < 5 + 60 * 10 ^ 9).length ≤ 1 :=
  ⟨_, rfl, rfl, rfl, decided_at_most (by decide)
    (run_of_exec (show exec (guarded InOrder testStep) opened visits = _ from rfl)) _ 5⟩

abbrev registered : Gate :=
  { opened with keys := opened.keys.register testDigest testKey "Test" .reader }

abbrev revoked : Gate :=
  { registered with keys := (registered.keys.revoke (hashKey testDigest testKey)).2 }

theorem revoked_is_refused_arrive :
    ∃ u p, testStep revoked (.arrive 0 ⟨.get, "/octads", some testKey, none⟩ 0) = some u ∧
      u.requests 0 = some p ∧ (registered.requests 0 = some p ∨
        p.stage = .answered (.unauthorized "Invalid API key" none)) :=
  ⟨_, _, rfl, rfl, revoked_is_refused
    (show testStep registered (.revoke (hashKey testDigest testKey)) = some revoked from rfl)
    (fun _ _ hp => nomatch (show none = some _ from hp))
    (Run.single (e := .arrive 0 ⟨.get, "/octads", some testKey, none⟩ 0) rfl rfl) rfl
    ⟨rfl, testKey, rfl, rfl⟩⟩

end Gate

end NextgenDatabases.Access
