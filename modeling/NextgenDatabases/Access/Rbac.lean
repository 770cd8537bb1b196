import Mathlib.Logic.Function.Basic
import Mathlib.Data.List.Basic
import Mathlib.Tactic.Tauto

/-!
# Role-based access control

What a request requires is read off its method and path. It is granted by an access list of the
entity, by the role for everything, or by the role for the modality of the path.
-/
namespace NextgenDatabases.Access

/-! ### Policies -/

inductive ClientRole
  | reader | writer | admin
  deriving DecidableEq

def ClientRole.key : ClientRole → String
  | reader => "reader"
  | writer => "writer"
  | admin => "admin"

structure ClientIdentity where
  id : String
  role : ClientRole
  deriving DecidableEq

inductive Permission
  | read | write | admin | execute
  deriving DecidableEq

def Permission.display : Permission → String
  | read => "read"
  | write => "write"
  | admin => "admin"
  | execute => "execute"

structure RoleDefinition where
  name : String
  globalPermissions : List Permission
  modalityPermissions : String → Option (List Permission)

namespace RoleDefinition

def hasGlobalPermission (role : RoleDefinition) (permission : Permission) : Bool :=
  role.globalPermissions.contains permission

def hasModalityPermission (role : RoleDefinition) (modality : String) (permission : Permission) :
    Bool :=
  if role.hasGlobalPermission permission then true
  else ((role.modalityPermissions modality).map fun perms => perms.contains permission).getD false

end RoleDefinition

structure RbacPolicy where
  roles : String → Option RoleDefinition
  entityAcls : String → Option (List (String × List Permission))

namespace RbacPolicy

def new : RbacPolicy := ⟨fun _ => none, fun _ => none⟩

def setRole (policy : RbacPolicy) (role : RoleDefinition) : RbacPolicy :=
  { policy with roles := Function.update policy.roles role.name (some role) }

/-- `RbacPolicy::default` -/
def default : RbacPolicy :=
  ((new.setRole ⟨"reader", [.read, .execute], fun _ => none⟩).setRole
    ⟨"writer", [.read, .write, .execute], fun _ => none⟩).setRole
    ⟨"admin", [.read, .write, .admin, .execute], fun _ => none⟩

def roleFor (policy : RbacPolicy) (clientRole : ClientRole) : Option RoleDefinition :=
  policy.roles clientRole.key

def addEntityAcl (policy : RbacPolicy) (entityId clientId : String)
    (permissions : List Permission) : RbacPolicy :=
  { policy with
    entityAcls := Function.update policy.entityAcls entityId
      (some ((policy.entityAcls entityId).getD [] ++ [(clientId, permissions)])) }

def checkEntityAcl (policy : RbacPolicy) (entityId clientId : String) (permission : Permission) :
    Bool :=
  ((policy.entityAcls entityId).map fun acls =>
    acls.any fun acl => acl.1 = clientId && acl.2.contains permission).getD false

end RbacPolicy

/-! ### What a request requires -/

inductive Method
  | get | head | options | post | put | patch | delete
  | other (name : String)
  deriving DecidableEq

def Method.text : Method → String
  | get => "GET"
  | head => "HEAD"
  | options => "OPTIONS"
  | post => "POST"
  | put => "PUT"
  | patch => "PATCH"
  | delete => "DELETE"
  | other name => name

/-- `path.starts_with(prefix)` -/
def startsWith (path start : String) : Bool := start.toList.isPrefixOf path.toList

def isAdminPath (method : Method) (path : String) : Bool :=
  startsWith path "/normalizer/trigger" && method = .post ||
    startsWith path "/planner/config" && method = .put

def isExecutePath (method : Method) (path : String) : Bool :=
  method = .post && (startsWith path "/query/plan" || startsWith path "/query/explain" ||
    startsWith path "/queries/similar" || startsWith path "/search/")

def requiredPermission (method : Method) (path : String) : Permission :=
  if isAdminPath method path then .admin
  else if isExecutePath method path then .execute
  else if method = .get ∨ method = .head ∨ method = .options then .read
  else .write

def modalityFromPath (path : String) : Option String :=
  if startsWith path "/search/vector" then some "vector"
  else if startsWith path "/search/text" then some "document"
  else if startsWith path "/search/related" then some "graph"
  else if startsWith path "/drift" then some "temporal"
  else none

/-- The part of the path between the start and the next slash, unless it is empty. -/
def entityAfter (start path : String) : Option String :=
  if startsWith path start then
    match (path.toList.drop start.toList.length).takeWhile (· ≠ '/') with
    | [] => none
    | id => some (String.ofList id)
  else none

def entityFromPath (path : String) : Option String :=
  match entityAfter "/octads/" path with
  | some id => some id
  | none =>
    match entityAfter "/drift/entity/" path with
    | some id => some id
    | none => entityAfter "/normalizer/trigger/" path

/-! ### Decisions -/

inductive AccessDecision
  | allowed | denied
  deriving DecidableEq

structure AuditEntry where
  timestamp : ℕ
  clientId : String
  clientRole : String
  resourcePath : String
  method : String
  requiredPermission : Permission
  decision : AccessDecision
  reason : Option String
  deriving DecidableEq

structure AuthzError where
  error : String
  code : ℕ
  requiredPermission : String
  deriving DecidableEq

/-- The decision on a request: what is written into the audit log, and whether with an error. -/
def accessDecision (policy : RbacPolicy) (identity : ClientIdentity) (path : String) (method : Method) :
    AccessDecision × String :=
  let permission := requiredPermission method path
  let byAcl := (entityFromPath path).any fun entityId =>
    policy.checkEntityAcl entityId identity.id permission
  if byAcl then (.allowed, "entity ACL grant")
  else
    match policy.roleFor identity.role with
    | none => (.denied, "No role definition found for '" ++ identity.role.key ++ "'")
    | some roleDef =>
      let byRole :=
        if roleDef.hasGlobalPermission permission then (AccessDecision.allowed, "global role grant")
        else (.denied, "Role '" ++ identity.role.key ++ "' does not have '" ++ permission.display ++
          "' permission")
      match modalityFromPath path with
      | none => byRole
      | some modality =>
        if roleDef.hasModalityPermission modality permission then
          (.allowed, "modality '" ++ modality ++ "' grant")
        else if (roleDef.modalityPermissions modality).isSome then
          (.denied, "Role '" ++ identity.role.key ++ "' lacks '" ++ permission.display ++
            "' permission on modality '" ++ modality ++ "'")
        else byRole

/-- `check_access`: the entry for the audit log, and the error of a request that is denied. -/
def checkAccess (policy : RbacPolicy) (identity : ClientIdentity) (path : String) (method : Method)
    (nowSecs : ℕ) : AuditEntry × Except AuthzError Unit :=
  let permission := requiredPermission method path
  let (decision, reason) := accessDecision policy identity path method
  (⟨nowSecs, identity.id, identity.role.key, path, method.text, permission, decision, some reason⟩,
    if decision = .allowed then .ok () else .error ⟨reason, 403, permission.display⟩)

/-! ### What is granted -/

/-- The grants that a request may have: of its entity, of its role, and of its role for the
modality. -/
inductive Granted (policy : RbacPolicy) (identity : ClientIdentity) (path : String)
    (permission : Permission) : Prop
  | entity (entityId : String) (acls : List (String × List Permission))
      (permissions : List Permission) : entityFromPath path = some entityId →
      policy.entityAcls entityId = some acls → (identity.id, permissions) ∈ acls →
      permission ∈ permissions → Granted policy identity path permission
  | role (roleDef : RoleDefinition) : policy.roleFor identity.role = some roleDef →
      permission ∈ roleDef.globalPermissions → Granted policy identity path permission
  | modality (roleDef : RoleDefinition) (modality : String) (permissions : List Permission) :
      policy.roleFor identity.role = some roleDef → modalityFromPath path = some modality →
      roleDef.modalityPermissions modality = some permissions → permission ∈ permissions →
      Granted policy identity path permission

variable {policy : RbacPolicy} {identity : ClientIdentity} {path : String} {method : Method}

theorem checkEntityAcl_iff {entityId clientId : String} {permission : Permission} :
    policy.checkEntityAcl entityId clientId permission = true ↔
      ∃ acls, policy.entityAcls entityId = some acls ∧
        ∃ permissions, (clientId, permissions) ∈ acls ∧ permission ∈ permissions := by
  rw [RbacPolicy.checkEntityAcl]
  cases policy.entityAcls entityId with
  | none => simp
  | some acls => simp

theorem hasModalityPermission_iff {roleDef : RoleDefinition} {modality : String}
    {permission : Permission} : roleDef.hasModalityPermission modality permission = true ↔
      permission ∈ roleDef.globalPermissions ∨
        ∃ permissions, roleDef.modalityPermissions modality = some permissions ∧
          permission ∈ permissions := by
  rw [RoleDefinition.hasModalityPermission, RoleDefinition.hasGlobalPermission]
  cases roleDef.modalityPermissions modality with
  | none => simp
  | some permissions => by_cases h : permission ∈ roleDef.globalPermissions <;> simp [h]

theorem granted_of_acl {permission : Permission}
    (h : (entityFromPath path).any (fun entityId =>
      policy.checkEntityAcl entityId identity.id permission) = true) :
    Granted policy identity path permission := by
  cases hentity : entityFromPath path with
  | none => simp [hentity] at h
  | some entityId =>
    rw [hentity, Option.any_some, checkEntityAcl_iff] at h
    obtain ⟨acls, hacls, permissions, hmem, hpermission⟩ := h
    exact .entity entityId acls permissions hentity hacls hmem hpermission

/-- Without a grant of the entity it is the role that grants. -/
theorem Granted.by_role {permission : Permission} (h : Granted policy identity path permission)
    (hacl : (entityFromPath path).any (fun entityId =>
      policy.checkEntityAcl entityId identity.id permission) = false) :
    ∃ roleDef, policy.roleFor identity.role = some roleDef ∧
      (permission ∈ roleDef.globalPermissions ∨
        ∃ modality, modalityFromPath path = some modality ∧
          roleDef.hasModalityPermission modality permission = true) := by
  cases h with
  | entity entityId acls permissions hentity hacls hmem hpermission =>
    rw [hentity, Option.any_some] at hacl
    rw [checkEntityAcl_iff.mpr ⟨acls, hacls, permissions, hmem, hpermission⟩] at hacl
    cases hacl
  | role roleDef hrole hpermission => exact ⟨roleDef, hrole, .inl hpermission⟩
  | modality roleDef modality permissions hrole hmodality hperms hpermission =>
    exact ⟨roleDef, hrole, .inr ⟨modality, hmodality,
      hasModalityPermission_iff.mpr (.inr ⟨permissions, hperms, hpermission⟩)⟩⟩

/-- The decision of the role, without its modalities. -/
theorem allowed_iff_global {roleDef : RoleDefinition} {permission : Permission} {no : String} :
    (if roleDef.hasGlobalPermission permission then (AccessDecision.allowed, "global role grant")
      else (AccessDecision.denied, no)).1 = .allowed ↔ permission ∈ roleDef.globalPermissions := by
  have hcontains : roleDef.hasGlobalPermission permission = true ↔
      permission ∈ roleDef.globalPermissions := List.contains_iff_mem
  split_ifs with h
  · simp [hcontains.mp h]
  · simp [mt hcontains.mpr h]

/-- A request is allowed exactly when it has a grant: an entry of a role for a modality takes
nothing away that the role has for everything. -/
theorem accessDecision_iff (policy : RbacPolicy) (identity : ClientIdentity) (path : String)
    (method : Method) : (accessDecision policy identity path method).1 = .allowed ↔
      Granted policy identity path (requiredPermission method path) := by
  rw [accessDecision]
  split_ifs with hacl
  · exact ⟨fun _ => granted_of_acl hacl, fun _ => rfl⟩
  · rw [Bool.not_eq_true] at hacl
    cases hrole : policy.roleFor identity.role with
    | none =>
      refine ⟨nofun, fun h => ?_⟩
      obtain ⟨roleDef, hsome, -⟩ := h.by_role hacl
      rw [hrole] at hsome
      cases hsome
    | some roleDef =>
      have hby : Granted policy identity path (requiredPermission method path) →
          requiredPermission method path ∈ roleDef.globalPermissions ∨
            ∃ modality, modalityFromPath path = some modality ∧
              roleDef.hasModalityPermission modality (requiredPermission method path) = true := by
        intro h
        obtain ⟨roleDef', hsome, hpermission⟩ := h.by_role hacl
        rw [hrole] at hsome
        exact Option.some.inj hsome ▸ hpermission
      cases hmodality : modalityFromPath path with
      | none =>
        refine allowed_iff_global.trans ⟨.role roleDef hrole, fun h => ?_⟩
        rcases hby h with hglobal | ⟨modality, hsome, -⟩
        · exact hglobal
        · rw [hmodality] at hsome
          cases hsome
      | some modality =>
        by_cases hgrant :
            roleDef.hasModalityPermission modality (requiredPermission method path) = true
        · simp only [hgrant, if_true, true_iff]
          rcases hasModalityPermission_iff.mp hgrant with hglobal | ⟨permissions, hperms, hmem⟩
          · exact .role roleDef hrole hglobal
          · exact .modality roleDef modality permissions hrole hmodality hperms hmem
        · -- neither the role nor its entry for the modality grants
          have hnone : ¬ Granted policy identity path (requiredPermission method path) := by
            intro h
            rcases hby h with hglobal | ⟨modality', hsome, hgrant'⟩
            · exact hgrant (hasModalityPermission_iff.mpr (.inl hglobal))
            · rw [hmodality] at hsome
              exact hgrant (Option.some.inj hsome ▸ hgrant')
          have hglobal : ¬ requiredPermission method path ∈ roleDef.globalPermissions :=
            fun h => hnone (.role roleDef hrole h)
          simp only [hgrant, if_false, hnone, iff_false, Bool.false_eq_true]
          by_cases hentry : (roleDef.modalityPermissions modality).isSome
          · rw [if_pos hentry]
            nofun
          · rw [if_neg hentry]
            exact mt allowed_iff_global.mp hglobal

end NextgenDatabases.Access
