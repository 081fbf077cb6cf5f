import VarveDB.Authz.Actions
import VarveDB.Library.IndexMap

/-! Token permissions: what a token is granted, kept per resource and looked up for a request. -/
namespace VarveDB.Authz
open Library

inductive ResourceType where
  | database
  | token
  | system
  | wildcard
  deriving DecidableEq

inductive ResourceIdentifier where
  | database (ids : List Nat)
  | token (ids : List Nat)
  | system (ids : List SystemResourceIdentifier)
  | wildcard
  deriving DecidableEq

inductive Actions where
  | database (actions : DatabaseActions)
  | token (actions : CrudActions)
  | system (actions : SystemActions)
  | wildcard
  deriving DecidableEq

def adminActionsBitmap : ActionsBitmap := BitVec.allOnes 16

def Actions.toBitmap : Actions → ActionsBitmap
  | database actions => actions.bits
  | token actions => actions.bits
  | system actions => actions.bits
  | wildcard => adminActionsBitmap

structure ResourceMetadata where
  name : String
  deleted : Bool
  deriving DecidableEq

structure Permission where
  resourceType : ResourceType
  resourceIdentifier : ResourceIdentifier
  actions : Actions
  /-- The names of deleted resources, by the text of their ids. -/
  resourceNames : Option (IndexMap String ResourceMetadata)
  deriving DecidableEq

structure TokenInfo where
  id : Nat
  name : String
  hash : List UInt8
  description : Option String
  createdBy : Option Nat
  createdAt : Int
  updatedAt : Option Int
  updatedBy : Option Nat
  expiryMillis : Int
  permissions : List Permission
  deriving DecidableEq

def TokenInfo.new (id : Nat) (name : String) (hash : List UInt8) (createdAt : Int) (expiryMillis : Option Int) :
    TokenInfo where
  id := id
  name := name
  hash := hash
  createdAt := createdAt
  expiryMillis := expiryMillis.getD (2 ^ 63 - 1)
  description := none
  createdBy := none
  updatedAt := none
  updatedBy := none
  permissions := []

inductive TokenPermissionResourceIdentifier where
  | database (id : Nat)
  | token (id : Nat)
  | system (id : SystemResourceIdentifier)
  | wildcard
  deriving DecidableEq

structure PermissionKey where
  resourceType : ResourceType
  resourceIdentifier : TokenPermissionResourceIdentifier
  deriving DecidableEq

structure TokenPermissions where
  map : IndexMap Nat (IndexMap PermissionKey ActionsBitmap)
  deriving DecidableEq

inductive AuthorizationFailure where
  | unauthorized
  | resourceNotSupported (resource : String)
  | notImplemented
  deriving DecidableEq

namespace TokenPermissions

def new : TokenPermissions := ⟨.empty _⟩

variable (p : TokenPermissions) (resourceType : ResourceType) (tokenId : Nat)
  (resourceId : TokenPermissionResourceIdentifier)

def addPermission (tokenId : Nat) (actions : ActionsBitmap) : TokenPermissions :=
  let permMap := (p.map.lookup tokenId).getD (.empty _)
  let key : PermissionKey := ⟨resourceType, resourceId⟩
  let allowed := (permMap.lookup key).getD 0
  ⟨p.map.put tokenId (permMap.put key (allowed ||| actions))⟩

def remove : TokenPermissions := ⟨p.map.remove tokenId⟩

def getPermissionWithoutResourceIdentifier : Option ActionsBitmap := do
  let perms ← p.map.lookup tokenId
  perms.lookup ⟨resourceType, .wildcard⟩ <|> perms.lookup ⟨.wildcard, .wildcard⟩

def getPermission (tokenId : Nat) : Option ActionsBitmap := do
  let perms ← p.map.lookup tokenId
  perms.lookup ⟨resourceType, resourceId⟩ <|> perms.lookup ⟨resourceType, .wildcard⟩ <|>
    perms.lookup ⟨.wildcard, .wildcard⟩

def PermissionKey.relevantToAnyDatabase (key : PermissionKey) : Bool :=
  key.resourceType = .database || (key.resourceType = .wildcard && key.resourceIdentifier = .wildcard)

def isAllowedAccess : AccessRequest → Except AuthorizationFailure (Option Bool)
  | .maybeDatabase (some dbId) requested | .database dbId requested =>
    .ok <| (p.getPermission .database (.database dbId) tokenId).map fun perm =>
      (DatabaseActions.mk perm).isAllowed requested
  | .maybeDatabase none requested =>
    .ok <| (p.getPermissionWithoutResourceIdentifier .database tokenId).map fun perm =>
      (DatabaseActions.mk perm).isAllowed requested
  | .anyDatabase required =>
    .ok <| (p.map.lookup tokenId).map fun perms => perms.entries.any fun entry =>
      PermissionKey.relevantToAnyDatabase entry.1 && (DatabaseActions.mk entry.2).isAllowed required
  | .admin | .user _ | .role _ | .adminToken _ | .resourceToken _ =>
    .ok <| (p.getPermission .wildcard .wildcard tokenId).map (· == adminActionsBitmap)
  | .system resource requested =>
    .ok <| (p.getPermission .system (.system resource) tokenId).map fun perm =>
      (SystemActions.mk perm).isAllowed requested
  | .token _ _ => .error .notImplemented

end TokenPermissions
end VarveDB.Authz
