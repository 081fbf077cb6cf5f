import VarveDB.Authz.Actions

/-! Role permissions: which requests a role's permissions cover. -/
namespace VarveDB.Authz.Role

structure DatabasePermission where
  action : DatabaseAction
  resource : ResourceIdentifier Nat
  deriving DecidableEq

structure TokenPermission where
  action : TokenAction
  deriving DecidableEq

structure UserPermission where
  action : UserAction
  deriving DecidableEq

structure RolePermission where
  action : RoleAction
  deriving DecidableEq

structure AdminTokenPermission where
  action : AdminTokenAction
  deriving DecidableEq

structure SystemPermission where
  action : SystemAction
  resource : ResourceIdentifier SystemResource
  deriving DecidableEq

inductive Permission where
  | accountAdminAll
  | database (permission : DatabasePermission)
  | token (permission : TokenPermission)
  | user (permission : UserPermission)
  | role (permission : RolePermission)
  | adminToken (permission : AdminTokenPermission)
  | system (permission : SystemPermission)
  deriving DecidableEq

class PermissionType (π : Type) where
  covers : Permission → π → Bool

def permissionCovers {π : Type} (granted : Permission → Option π) (grants : π → π → Bool)
    (permission : Permission) (required : π) : Bool :=
  permission = .accountAdminAll || (granted permission).any (grants · required)

def Permission.database? : Permission → Option DatabasePermission
  | database p => some p
  | _ => none

def Permission.token? : Permission → Option TokenPermission
  | token p => some p
  | _ => none

def Permission.user? : Permission → Option UserPermission
  | user p => some p
  | _ => none

def Permission.role? : Permission → Option RolePermission
  | role p => some p
  | _ => none

def Permission.adminToken? : Permission → Option AdminTokenPermission
  | adminToken p => some p
  | _ => none

def Permission.system? : Permission → Option SystemPermission
  | system p => some p
  | _ => none

instance : PermissionType DatabasePermission where
  covers := permissionCovers Permission.database? fun p required =>
    p.action = required.action && p.resource.covers required.resource

instance : PermissionType TokenPermission where
  covers := permissionCovers Permission.token? fun p required => p.action = required.action

instance : PermissionType UserPermission where
  covers := permissionCovers Permission.user? fun p required => p.action = required.action

instance : PermissionType RolePermission where
  covers := permissionCovers Permission.role? fun p required => p.action = required.action

instance : PermissionType AdminTokenPermission where
  covers := permissionCovers Permission.adminToken? fun p required => p.action = required.action

instance : PermissionType SystemPermission where
  covers := permissionCovers Permission.system? fun p required =>
    p.action = required.action && p.resource.covers required.resource

structure Permissions where
  list : List Permission
  deriving DecidableEq

def Permissions.hasPermission {π : Type} [PermissionType π] (permissions : Permissions) (required : π) : Bool :=
  permissions.list.any (PermissionType.covers · required)

end Role

structure Role where
  permissions : List Role.Permission
  deriving DecidableEq

def Role.permissionsOf (roles : List Role) : Role.Permissions := ⟨roles.flatMap Role.permissions⟩

end VarveDB.Authz
