import VarveDB.Authz.Permissions
import VarveDB.Catalog.Repository

/-! The tokens of the catalog, the index of their permissions, and the records that change them. -/
namespace VarveDB.Catalog
open Library Authz

instance : CatalogResource TokenInfo := ⟨"tokens", TokenInfo.name, 2 ^ 64 - 1⟩

def RepositoryError.toCatalogError : RepositoryError → CatalogError
  | .alreadyExists _ _ | .alreadyExistsByName _ _ => .alreadyExists
  | .notFound resource id => .notFound s!"{resource}: {id}"

def asCatalogError {α : Type} : Except (Failure RepositoryError) α → Except (Failure CatalogError) α
  | .ok a => .ok a
  | .error (.error e) => .error (.error e.toCatalogError)
  | .error (.panic m) => .error (.panic m)

structure TokenRepository where
  repo : Repository TokenInfo
  hashLookupMap : BiMap Nat (List UInt8)
  deriving DecidableEq

namespace TokenRepository

def new : TokenRepository := ⟨.new, .empty⟩

variable (r : TokenRepository) (tokenId : Nat) (info : TokenInfo)

def hashToId (hash : List UInt8) : Option Nat := r.hashLookupMap.getByRight hash

def addToken : Except (Failure CatalogError) TokenRepository := do
  let repo ← asCatalogError (r.repo.insert tokenId info)
  .ok ⟨repo, r.hashLookupMap.insert tokenId info.hash⟩

def rehashed (tokenId : Nat) (hash : List UInt8) (updatedAt : Int) : TokenInfo :=
  { info with hash := hash, updatedAt := some updatedAt, updatedBy := some tokenId }

def updateAdminTokenHash (hash : List UInt8) (updatedAt : Int) : Except (Failure CatalogError) TokenRepository := do
  if (r.hashToId hash).any (· ≠ tokenId) then .error (.error .tokenHashAlreadyExists)
  else match r.repo.getById tokenId with
    | none => .error (.error .missingAdminTokenToUpdate)
    | some info =>
      let repo ← asCatalogError (r.repo.update tokenId (rehashed info tokenId hash updatedAt))
      .ok ⟨repo, r.hashLookupMap.insert tokenId hash⟩

def deleteTokenById : Option TokenRepository :=
  (r.repo.getById tokenId).map fun _ => ⟨r.repo.remove tokenId, r.hashLookupMap.removeByLeft tokenId⟩

def updateToken : Except (Failure CatalogError) TokenRepository := do
  let repo ← asCatalogError (r.repo.update tokenId info)
  .ok { r with repo := repo }

end TokenRepository

structure TokenCatalog where
  tokens : TokenRepository
  tokenPermissions : TokenPermissions
  deriving DecidableEq

structure NewToken where
  name : String
  hash : List UInt8
  createdAt : Int
  updatedAt : Option Int
  expiry : Option Int
  description : Option String
  createdBy : Option Nat
  updatedBy : Option Nat
  deriving DecidableEq

variable (args : NewToken) (c : TokenCatalog) (dbId : Nat) (dbName : String) (perm : Permission)

def NewToken.info (tokenId : Nat) (permissions : List Permission) : TokenInfo :=
  { TokenInfo.new tokenId args.name args.hash args.createdAt args.expiry with
    updatedAt := args.updatedAt
    description := args.description
    createdBy := args.createdBy
    updatedBy := args.updatedBy
    permissions := permissions }

def grantKeys : List PermissionKey :=
  match perm.resourceIdentifier with
  | .database ids => ids.map fun id => ⟨perm.resourceType, .database id⟩
  | .system ids => ids.map fun id => ⟨perm.resourceType, .system id⟩
  | .wildcard => [⟨perm.resourceType, .wildcard⟩]
  | .token ids => ids.map fun id => ⟨perm.resourceType, .token id⟩

def addGrant (tokenId : Nat) (tp : TokenPermissions) (perm : Permission) : TokenPermissions :=
  (grantKeys perm).foldl (fun tp key => tp.addPermission key.resourceType key.resourceIdentifier tokenId
    perm.actions.toBitmap) tp

structure CreateAdminToken where
  tokenId : Nat
  args : NewToken
  deriving DecidableEq

structure CreateResourceScopedToken where
  tokenId : Nat
  args : NewToken
  permissions : List Permission
  deriving DecidableEq

structure RegenerateAdminToken where
  tokenId : Nat
  hash : List UInt8
  updatedAt : Option Int
  deriving DecidableEq

structure DeleteToken where
  tokenId : Nat
  deriving DecidableEq

def adminPermission : Permission := ⟨.wildcard, .wildcard, .wildcard, none⟩

def CreateAdminToken.apply (r : CreateAdminToken) (c : TokenCatalog) : Apply TokenCatalog := do
  let tokens ← withContext s!"CreateAdminToken: add admin token (token_id={r.tokenId}, name='{r.args.name}'): "
    (c.tokens.addToken r.tokenId (r.args.info r.tokenId [adminPermission]))
  .ok ⟨tokens, c.tokenPermissions.addPermission .wildcard .wildcard r.tokenId adminActionsBitmap⟩

def CreateResourceScopedToken.apply (r : CreateResourceScopedToken) (c : TokenCatalog) : Apply TokenCatalog := do
  let tokens ← withContext
    s!"CreateResourceScopedToken: add resource-scoped token (token_id={r.tokenId}, name='{r.args.name}'): "
    (c.tokens.addToken r.tokenId (r.args.info r.tokenId r.permissions))
  .ok ⟨tokens, r.permissions.foldl (addGrant r.tokenId) c.tokenPermissions⟩

def RegenerateAdminToken.apply (r : RegenerateAdminToken) (c : TokenCatalog) : Apply TokenCatalog := do
  let tokens ← withContext s!"RegenerateAdminToken: regenerate admin token (token_id={r.tokenId}): "
    (c.tokens.updateAdminTokenHash r.tokenId r.hash (r.updatedAt.getD 0))
  .ok { c with tokens := tokens }

def DeleteToken.apply (r : DeleteToken) (c : TokenCatalog) : Apply TokenCatalog :=
  match c.tokens.deleteTokenById r.tokenId with
  | none => .error (.error s!"DeleteToken: token not found (token_id={r.tokenId})")
  | some tokens => .ok ⟨tokens, c.tokenPermissions.remove r.tokenId⟩

def captureName : Permission :=
  match perm.resourceIdentifier with
  | .database ids =>
    if dbId ∈ ids then
      let names := perm.resourceNames.getD (.empty _)
      { perm with resourceNames := some <|
          if (names.lookup (toString dbId)).isSome then names
          else names.put (toString dbId) ⟨dbName, true⟩ }
    else perm
  | _ => perm

def withCapturedName (info : TokenInfo) : TokenInfo :=
  { info with permissions := info.permissions.map (captureName dbId dbName) }

def namesDatabase : Bool :=
  match perm.resourceIdentifier with
  | .database ids => dbId ∈ ids
  | _ => false

def captureDbNameInTokens : Apply TokenCatalog :=
  c.tokens.repo.repo.keys.foldlM (fun c tokenId =>
    match c.tokens.repo.getById tokenId with
    | none => .ok c
    | some info =>
      if info.permissions.any (namesDatabase dbId) then
        match c.tokens.updateToken tokenId (withCapturedName dbId dbName info) with
        | .ok tokens => .ok { c with tokens := tokens }
        | .error _ => .error (.panic "token to be updated")
      else .ok c) c

section Prepare

def prepareNewToken : Except CatalogError Nat :=
  if (c.tokens.repo.getByName args.name).isSome then .error (.tokenNameAlreadyExists args.name)
  else if (c.tokens.hashToId args.hash).isSome then .error .tokenHashAlreadyExists
  else .ok c.tokens.repo.nextId

def CreateAdminToken.prepare : Except CatalogError CreateAdminToken := do
  let tokenId ← prepareNewToken args c
  .ok ⟨tokenId, args⟩

def CreateResourceScopedToken.prepare (permissions : List Permission) (c : TokenCatalog) :
    Except CatalogError CreateResourceScopedToken := do
  let tokenId ← prepareNewToken args c
  .ok ⟨tokenId, args, permissions⟩

def RegenerateAdminToken.prepare (tokenId : Nat) (newHash : List UInt8) (updatedAt : Int) (c : TokenCatalog) :
    Except CatalogError RegenerateAdminToken :=
  if (c.tokens.repo.getById tokenId).isNone then .error .missingAdminTokenToUpdate
  else if (c.tokens.hashToId newHash).any (· ≠ tokenId) then .error .tokenHashAlreadyExists
  else .ok ⟨tokenId, newHash, some updatedAt⟩

def DeleteToken.prepare (tokenName : String) (c : TokenCatalog) : Except CatalogError DeleteToken :=
  match c.tokens.repo.getByName tokenName with
  | none => .error (.notFound tokenName)
  | some token => .ok ⟨token.id⟩

end Prepare
end VarveDB.Catalog
