import VarveDB.Authz.Permissions
import VarveDB.Authz.Roles

/-! Authorization of a request: for a token by its entries, for a user by role permissions. -/
namespace VarveDB.Authz
open Role (DatabasePermission SystemPermission UserPermission RolePermission AdminTokenPermission TokenPermission
  SystemAction SystemResource)

def internalDbId : Nat := 0

inductive Subject where
  | token (tokenId : Nat)
  | user (userId : Nat) (permissions : Role.Permissions)

variable (permissions : Role.Permissions)

def checkUserDatabaseAccess (dbId : Option Nat) (actions : DatabaseActions) : Bool :=
  let resource : Role.ResourceIdentifier Nat := dbId.elim .all .identifier
  actions.toDatabaseActions.all fun action => permissions.hasPermission (DatabasePermission.mk action resource)

def checkUserSystemAccess (resourceId : SystemResourceIdentifier) (actions : SystemActions) : Bool :=
  match SystemResource.tryFrom resourceId with
  | none => false
  | some resource =>
    let requested := SystemAction.fromBitmap actions
    !requested.isEmpty &&
      requested.all fun action => permissions.hasPermission (SystemPermission.mk action (.identifier resource))

/-- The request that is checked: role authoring and the `_internal` database are for administrators. -/
def AccessRequest.checked : AccessRequest → AccessRequest
  | .role .create | .role .update | .role .delete => .admin
  | .maybeDatabase (some dbId) actions => if dbId = internalDbId then .admin else .maybeDatabase (some dbId) actions
  | request => request

def userAuthorized : AccessRequest → Except AuthorizationFailure Bool
  | .admin => .ok (permissions.list.contains .accountAdminAll)
  | .database dbId actions => .ok (checkUserDatabaseAccess permissions (some dbId) actions)
  | .maybeDatabase dbId actions => .ok (checkUserDatabaseAccess permissions dbId actions)
  | .user action => .ok (permissions.hasPermission (UserPermission.mk action))
  | .role .read => .ok true
  | .role action => .ok (permissions.hasPermission (RolePermission.mk action))
  | .adminToken action => .ok (permissions.hasPermission (AdminTokenPermission.mk action))
  | .resourceToken action => .ok (permissions.hasPermission (TokenPermission.mk action))
  | .system resourceId actions => .ok (checkUserSystemAccess permissions resourceId actions)
  | .anyDatabase actions => .ok (checkUserDatabaseAccess permissions none actions)
  | .token _ _ => .error .notImplemented

def authorizeAction (tokens : TokenPermissions) : Option Subject → AccessRequest → Except AuthorizationFailure Unit
  | none, _ => .error .unauthorized
  | some (.token tokenId), request => do
    match ← tokens.isAllowedAccess tokenId request.checked with
    | some true => .ok ()
    | _ => .error .unauthorized
  | some (.user _ permissions), request => do
    if ← userAuthorized permissions request.checked then .ok () else .error .unauthorized

def AccessRequest.database? : AccessRequest → Option (Role.ResourceIdentifier Nat × DatabaseActions)
  | .database dbId actions | .maybeDatabase (some dbId) actions => some (.identifier dbId, actions)
  | .maybeDatabase none actions | .anyDatabase actions => some (.all, actions)
  | _ => none

def Role.DatabaseAction.bitIndex : Role.DatabaseAction → Nat
  | create => 0
  | describe => 1
  | read => 4
  | write => 5
  | delete => 6

def Role.Permission.grants (resource : Role.ResourceIdentifier Nat) (i : Nat) : Role.Permission → Bool
  | accountAdminAll => true
  | database p => p.action.bitIndex = i && p.resource.covers resource
  | _ => false

def Role.grants (roles : List Role) (resource : Role.ResourceIdentifier Nat) (i : Nat) : Prop :=
  ∃ role ∈ roles, ∃ p ∈ role.permissions, p.grants resource i = true

instance (roles : List Role) (resource : Role.ResourceIdentifier Nat) (i : Nat) :
    Decidable (Role.grants roles resource i) := inferInstanceAs (Decidable (∃ role ∈ roles, _))

private theorem covers_one_shiftLeft {allowed : ActionsBitmap} {k : Nat} (hk : k < 16) :
    covers allowed (1#16 <<< k) = allowed.getLsbD k := by
  rw [Bool.eq_iff_iff, covers_iff]
  have hbit (i : Nat) : (1#16 <<< k).getLsbD i = true ↔ i = k := by
    simp only [BitVec.getLsbD_shiftLeft, BitVec.getLsbD_one, Bool.and_eq_true, decide_eq_true_eq, Bool.not_eq_true',
      decide_eq_false_iff_not]
    omega
  constructor
  · intro h
    exact h k ((hbit k).mpr rfl)
  · intro h i hi
    rwa [(hbit i).mp hi]

variable {action : Role.DatabaseAction}

private theorem toDatabaseAction_eq_some {bit : ActionsBitmap} :
    DatabaseActions.toDatabaseAction bit = some action ↔ bit = 1#16 <<< action.bitIndex := by
  constructor
  · intro h
    rw [DatabaseActions.toDatabaseAction] at h
    split_ifs at h with hbit hbit hbit hbit hbit <;> cases h <;> exact hbit
  · rintro rfl
    cases action <;> decide

variable {actions : DatabaseActions}

private theorem mem_toDatabaseActions :
    action ∈ actions.toDatabaseActions ↔ actions.bits.getLsbD action.bitIndex = true := by
  have hcontains : actions.contains (1#16 <<< action.bitIndex) = actions.bits.getLsbD action.bitIndex :=
    covers_one_shiftLeft (by cases action <;> decide)
  simp only [DatabaseActions.toDatabaseActions, List.mem_filterMap, List.mem_filter, toDatabaseAction_eq_some]
  constructor
  · rintro ⟨bit, ⟨-, h⟩, rfl⟩
    exact hcontains ▸ h
  · intro h
    exact ⟨_, ⟨by cases action <;> decide, hcontains.trans h⟩, rfl⟩

variable {roles : List Role} {resource : Role.ResourceIdentifier Nat}

open Role

private theorem hasPermission_iff : (permissionsOf roles).hasPermission (DatabasePermission.mk action resource) = true ↔
      grants roles resource action.bitIndex := by
  have hcovers (p : Role.Permission) : Role.PermissionType.covers p (DatabasePermission.mk action resource) =
      p.grants resource action.bitIndex := by
    cases p with
    | database p =>
      obtain ⟨a, r⟩ := p
      have : a = action ↔ a.bitIndex = action.bitIndex := by cases a <;> cases action <;> decide
      simp [Role.PermissionType.covers, permissionCovers, Role.Permission.database?, Role.Permission.grants, this]
    | _ => rfl
  simp only [Role.Permissions.hasPermission, permissionsOf, List.any_eq_true, List.mem_flatMap, hcovers,
    grants]
  constructor
  · rintro ⟨p, ⟨role, hrole, hp⟩, h⟩
    exact ⟨role, hrole, p, hp, h⟩
  · rintro ⟨role, hrole, p, hp, h⟩
    exact ⟨p, ⟨role, hrole, hp⟩, h⟩

theorem checkUserDatabaseAccess_iff {dbId : Option Nat} :
    checkUserDatabaseAccess (permissionsOf roles) dbId actions = true ↔
      ∀ action : Role.DatabaseAction, actions.bits.getLsbD action.bitIndex = true →
        grants roles (dbId.elim .all .identifier) action.bitIndex := by
  simp only [checkUserDatabaseAccess, List.all_eq_true, mem_toDatabaseActions, hasPermission_iff]

def Role.accountAdmin (roles : List Role) : Prop := ∃ role ∈ roles, Role.Permission.accountAdminAll ∈ role.permissions

theorem grants_of_accountAdmin (h : accountAdmin roles) (resource : Role.ResourceIdentifier Nat) (i : Nat) :
    grants roles resource i := by
  obtain ⟨role, hrole, hp⟩ := h
  exact ⟨role, hrole, _, hp, rfl⟩

private theorem accountAdmin_of_grants {i : Nat} (h : grants roles resource i)
    (hi : ∀ action : Role.DatabaseAction, action.bitIndex ≠ i) : accountAdmin roles := by
  obtain ⟨role, hrole, p, hp, hgrants⟩ := h
  cases p with
  | accountAdminAll => exact ⟨role, hrole, hp⟩
  | database p =>
    simp only [Role.Permission.grants, Bool.and_eq_true, decide_eq_true_eq] at hgrants
    exact absurd hgrants.1 (hi _)
  | _ => cases hgrants

private theorem authorizeAction_user_iff {tokens : TokenPermissions} {userId : Nat} {request : AccessRequest}
    (hrequest : request.database? = some (resource, actions)) :
    authorizeAction tokens (some (.user userId (permissionsOf roles))) request = .ok () ↔
      if request.checked = .admin then accountAdmin roles
      else ∀ action : Role.DatabaseAction, actions.bits.getLsbD action.bitIndex = true →
        grants roles resource action.bitIndex := by
  have hok (b : Bool) : (if b then .ok () else .error .unauthorized : Except AuthorizationFailure Unit) = .ok () ↔
      b = true := by cases b <;> simp
  have hadmin : (permissionsOf roles).list.contains .accountAdminAll = true ↔ accountAdmin roles := by
    simp [permissionsOf, accountAdmin]
  cases request with
  | database | anyDatabase =>
    cases hrequest
    exact (hok _).trans checkUserDatabaseAccess_iff
  | maybeDatabase dbId a =>
    cases dbId with
    | none =>
      cases hrequest
      exact (hok _).trans checkUserDatabaseAccess_iff
    | some dbId =>
      cases hrequest
      by_cases hinternal : dbId = internalDbId
      · rw [authorizeAction, AccessRequest.checked, if_pos hinternal, if_pos rfl]
        exact (hok _).trans hadmin
      · rw [authorizeAction, AccessRequest.checked, if_neg hinternal, if_neg (by simp)]
        exact (hok _).trans checkUserDatabaseAccess_iff
  | _ => cases hrequest

/-- A user is allowed only what the roles grant, bit for bit, exactly if the request has no bit beyond the actions of
roles, or an administrator is needed or given, or an action is not granted. -/
theorem user_allowed_only_with_grants_iff (tokens : TokenPermissions) (roles : List Role) (userId : Nat)
    {request : AccessRequest} {resource : Role.ResourceIdentifier Nat} {actions : DatabaseActions}
    (hrequest : request.database? = some (resource, actions)) :
    (authorizeAction tokens (some (.user userId (Role.permissionsOf roles))) request = .ok () →
        ∀ i, actions.bits.getLsbD i = true → Role.grants roles resource i) ↔
      (∀ i, actions.bits.getLsbD i = true → ∃ action : Role.DatabaseAction, action.bitIndex = i) ∨
      Role.accountAdmin roles ∨ request.checked = .admin ∨
      ∃ action : Role.DatabaseAction, actions.bits.getLsbD action.bitIndex = true ∧
        ¬ Role.grants roles resource action.bitIndex := by
  rw [authorizeAction_user_iff hrequest]
  constructor
  · intro h
    by_contra! hnot
    obtain ⟨⟨i, hi, hnone⟩, hadmin, hchecked, hall⟩ := hnot
    rw [if_neg hchecked] at h
    exact hadmin (accountAdmin_of_grants (h hall i hi) hnone)
  · rintro (hroles | hadmin | hchecked | ⟨action, hbit, hnot⟩) hallowed i hi
    · obtain ⟨action, rfl⟩ := hroles i hi
      split_ifs at hallowed with hchecked
      · exact grants_of_accountAdmin hallowed _ _
      · exact hallowed action hi
    · exact grants_of_accountAdmin hadmin _ _
    · rw [if_pos hchecked] at hallowed
      exact grants_of_accountAdmin hallowed _ _
    · split_ifs at hallowed with hchecked
      · exact grants_of_accountAdmin hallowed _ _
      · exact absurd (hallowed action hbit) hnot

def editorRole : Role :=
  ⟨[.database ⟨.read, .all⟩, .database ⟨.write, .all⟩]⟩

theorem editor_writes_with_grant : authorizeAction .new (some (.user 1 (Role.permissionsOf [editorRole])))
        (.database 3 ⟨DatabaseActions.read ||| DatabaseActions.write⟩) = .ok () ∧
      ∀ i, (DatabaseActions.read ||| DatabaseActions.write).getLsbD i = true →
        Role.grants [editorRole] (.identifier 3) i := by
  have hallowed : authorizeAction .new (some (.user 1 (Role.permissionsOf [editorRole])))
      (.database 3 ⟨DatabaseActions.read ||| DatabaseActions.write⟩) = .ok () := by decide
  refine ⟨hallowed, (user_allowed_only_with_grants_iff .new [editorRole] 1 (by rfl)).mpr (.inl ?_) hallowed⟩
  have hbits : ∀ i < 16, (DatabaseActions.read ||| DatabaseActions.write).getLsbD i = true → i = 4 ∨ i = 5 := by decide
  intro i hi
  obtain rfl | rfl := hbits i (BitVec.lt_of_getLsbD hi) hi
  · exact ⟨.read, rfl⟩
  · exact ⟨.write, rfl⟩

/-- A user without any role is allowed to update and to drop a database. -/
theorem user_without_roles_may_drop : authorizeAction .new (some (.user 1 (Role.permissionsOf [])))
        (.database 3 ⟨DatabaseActions.update ||| DatabaseActions.drop⟩) = .ok () ∧
      (DatabaseActions.update ||| DatabaseActions.drop).getLsbD 3 = true ∧
      ¬ Role.grants [] (.identifier 3) 3 := by decide

end VarveDB.Authz
