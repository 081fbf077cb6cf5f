import VarveDB.Catalog.Tokens
import VarveDB.Library.Runs

/-! What the permissions of a token allow. -/
namespace VarveDB.Catalog
open Library Runs Authz List

variable (perms : List Permission) {bits : ActionsBitmap} (perm : Permission)

section Index
variable {tp : TokenPermissions} {tokenId : Nat} {key : PermissionKey}

def indexEntry (tp : TokenPermissions) (tokenId : Nat) (key : PermissionKey) : Option ActionsBitmap :=
  (tp.map.lookup tokenId).bind fun perms => perms.lookup key

def grantTo (key : PermissionKey) (entry : Option ActionsBitmap) (perm : Permission) : Option ActionsBitmap :=
  if key ∈ grantKeys perm then some (entry.getD 0 ||| perm.actions.toBitmap) else entry

private theorem indexEntry_addPermission (tokenId' : Nat) (key' : PermissionKey) (bits : ActionsBitmap) :
    indexEntry (tp.addPermission key.resourceType key.resourceIdentifier tokenId bits) tokenId' key' =
      if tokenId' = tokenId ∧ key' = key then some ((indexEntry tp tokenId key).getD 0 ||| bits)
      else indexEntry tp tokenId' key' := by
  simp only [indexEntry, TokenPermissions.addPermission, IndexMap.lookup_put]
  by_cases htoken : tokenId' = tokenId
  · subst htoken
    simp only [if_true, bind_some, IndexMap.lookup_put, true_and]
    cases tp.map.lookup tokenId' <;> rfl
  · simp [htoken]

private theorem indexEntry_addGrant (tp : TokenPermissions) (tokenId tokenId' : Nat) (key : PermissionKey) :
    indexEntry (addGrant tokenId tp perm) tokenId' key =
      if tokenId' = tokenId then grantTo key (indexEntry tp tokenId key) perm else indexEntry tp tokenId' key := by
  have hkeys (keys : List PermissionKey) (tp : TokenPermissions) :
      indexEntry (keys.foldl (fun tp key => tp.addPermission key.resourceType key.resourceIdentifier tokenId
        perm.actions.toBitmap) tp) tokenId' key =
        if tokenId' = tokenId ∧ key ∈ keys then some ((indexEntry tp tokenId key).getD 0 ||| perm.actions.toBitmap)
        else indexEntry tp tokenId' key := by
    induction keys generalizing tp with
    | nil => simp
    | cons k keys ih =>
      rw [foldl_cons, ih, indexEntry_addPermission, indexEntry_addPermission]
      by_cases htoken : tokenId' = tokenId
      · subst htoken
        by_cases hk : key = k
        · subst hk
          simp [BitVec.or_assoc]
        · simp [hk]
      · simp [htoken]
  rw [addGrant, hkeys, grantTo]
  by_cases htoken : tokenId' = tokenId
  · simp [htoken]
  · simp [htoken]

private theorem indexEntry_foldl_addGrant (tp : TokenPermissions) (tokenId tokenId' : Nat)
    (key : PermissionKey) : indexEntry (perms.foldl (addGrant tokenId) tp) tokenId' key =
      if tokenId' = tokenId then perms.foldl (grantTo key) (indexEntry tp tokenId key) else
        indexEntry tp tokenId' key := by
  induction perms generalizing tp with
  | nil => split <;> simp_all
  | cons perm perms ih =>
    rw [foldl_cons, ih, indexEntry_addGrant, indexEntry_addGrant]
    by_cases htoken : tokenId' = tokenId <;> simp [htoken]

def grantsTo (key : PermissionKey) : List Permission :=
  perms.filter fun perm => key ∈ grantKeys perm

def unionOf : ActionsBitmap :=
  perms.foldl (fun bits perm => bits ||| perm.actions.toBitmap) 0

private theorem foldl_grantTo (key : PermissionKey) (entry : Option ActionsBitmap) :
    perms.foldl (grantTo key) entry = if grantsTo perms key = [] then entry else
      some ((grantsTo perms key).foldl (fun bits perm => bits ||| perm.actions.toBitmap) (entry.getD 0)) := by
  induction perms generalizing entry with
  | nil => rfl
  | cons perm perms ih =>
    rw [foldl_cons, ih, grantTo]
    by_cases hperm : key ∈ grantKeys perm
    · have hgrants : grantsTo (perm :: perms) key = perm :: grantsTo perms key :=
        filter_cons_of_pos (decide_eq_true hperm)
      rw [hgrants, if_pos hperm]
      by_cases hnil : grantsTo perms key = [] <;> simp [hnil]
    · have hgrants : grantsTo (perm :: perms) key = grantsTo perms key :=
        filter_cons_of_neg (by simpa using hperm)
      rw [hgrants, if_neg hperm]

private theorem getLsbD_unionOf {perms : List Permission} {i : Nat} :
    (unionOf perms).getLsbD i = true ↔ ∃ perm ∈ perms, perm.actions.toBitmap.getLsbD i = true := by
  suffices hfrom : ∀ bits : ActionsBitmap,
      (perms.foldl (fun bits perm => bits ||| perm.actions.toBitmap) bits).getLsbD i = true ↔
        bits.getLsbD i = true ∨ ∃ perm ∈ perms, perm.actions.toBitmap.getLsbD i = true by
    rw [unionOf, hfrom 0]
    simp
  induction perms with
  | nil => simp
  | cons perm perms ih =>
    intro bits
    rw [foldl_cons, ih, BitVec.getLsbD_or, Bool.or_eq_true, exists_mem_cons_iff, or_assoc]

private theorem covers_unionOf_of_subset {perms perms' : List Permission}
    (hsub : perms ⊆ perms') (h : covers (unionOf perms) bits = true) : covers (unionOf perms') bits = true := by
  rw [covers_iff] at h ⊢
  intro i hi
  obtain ⟨perm, hperm, hbit⟩ := getLsbD_unionOf.mp (h i hi)
  exact getLsbD_unionOf.mpr ⟨perm, hsub hperm, hbit⟩

end Index

inductive TokenAction where
  | createAdminToken (args : NewToken)
  | createResourceScopedToken (args : NewToken) (permissions : List Permission)
  | regenerateAdminToken (tokenId : Nat) (newHash : List UInt8) (updatedAt : Int)
  | deleteToken (tokenName : String)
  | captureDbName (dbId : Nat) (dbName : String)

variable {tokenId : Nat} (resourceType : ResourceType) (resourceId : TokenPermissionResourceIdentifier)
  {info : TokenInfo} {args : NewToken}

namespace TokenCatalog

def new : TokenCatalog := ⟨.new, .new⟩

def step (c : TokenCatalog) : TokenAction → Option TokenCatalog
  | .createAdminToken args => (CreateAdminToken.prepare args c).toOption.bind fun r => (r.apply c).toOption
  | .createResourceScopedToken args permissions =>
    (CreateResourceScopedToken.prepare args permissions c).toOption.bind fun r => (r.apply c).toOption
  | .regenerateAdminToken tokenId newHash updatedAt =>
    (RegenerateAdminToken.prepare tokenId newHash updatedAt c).toOption.bind fun r => (r.apply c).toOption
  | .deleteToken tokenName => (DeleteToken.prepare tokenName c).toOption.bind fun r => (r.apply c).toOption
  | .captureDbName dbId dbName => (captureDbNameInTokens c dbId dbName).toOption

/-- When a token is created, the counter of token ids, which stops at the largest one, is not there yet. -/
def IdsLeft (c : TokenCatalog) : TokenAction → Prop
  | .createAdminToken .. | .createResourceScopedToken .. => c.tokens.repo.nextId < 2 ^ 64 - 1
  | _ => True

instance (c : TokenCatalog) (a : TokenAction) : Decidable (c.IdsLeft a) := by
  cases a <;> unfold IdsLeft <;> infer_instance

structure Sound (c : TokenCatalog) : Prop where
  consistent : c.tokens.repo.Consistent
  ids : ∀ id info, c.tokens.repo.getById id = some info → info.id = id ∧ id < c.tokens.repo.nextId
  indexed : ∀ id key, indexEntry c.tokenPermissions id key =
    (c.tokens.repo.getById id).elim none fun info => info.permissions.foldl (grantTo key) none

variable {c c' : TokenCatalog}

section
variable (h : c.Sound)
include h

private theorem prepareNewToken_eq_ok (hprep : prepareNewToken args c = .ok tokenId) :
    tokenId = c.tokens.repo.nextId ∧ c.tokens.repo.nameToId args.name = none := by
  obtain ⟨hname, hprep⟩ := ite_error_eq_ok.mp hprep
  split at hprep
  · cases hprep
  · refine ⟨(Except.ok.inj hprep).symm, ?_⟩
    rw [h.consistent.nameToId_eq_none]
    intro id info hinfo heq
    exact hname (isSome_iff_exists.mpr ⟨info, h.consistent.getByName_eq_some.mpr ⟨id, hinfo, heq⟩⟩)

private theorem Sound.added {permissions : List Permission} {tokens : TokenRepository}
    (hleft : c.tokens.repo.nextId < 2 ^ 64 - 1) (hname : c.tokens.repo.nameToId args.name = none)
    (hadd : c.tokens.addToken c.tokens.repo.nextId (args.info c.tokens.repo.nextId permissions) = .ok tokens) :
    Sound ⟨tokens, permissions.foldl (addGrant c.tokens.repo.nextId) c.tokenPermissions⟩ := by
  have hfree : c.tokens.repo.getById c.tokens.repo.nextId = none := by
    by_contra hsome
    obtain ⟨info, hinfo⟩ := Option.ne_none_iff_exists'.mp hsome
    exact (h.ids _ _ hinfo).2.ne rfl
  rw [TokenRepository.addToken, h.consistent.insert_eq_ok hfree] at hadd
  cases hadd
  have hnext : (c.tokens.repo.inserted c.tokens.repo.nextId
      (args.info c.tokens.repo.nextId permissions)).nextId = c.tokens.repo.nextId + 1 :=
    if_pos ⟨le_rfl, hleft⟩
  refine ⟨h.consistent.inserted fun id' howner => ?_, fun id info hinfo => ?_, fun id key => ?_⟩
  · have howner : c.tokens.repo.nameToId args.name = some id' := howner
    rw [hname] at howner
    cases howner
  · rw [hnext]
    rw [Repository.getById_inserted] at hinfo
    split at hinfo
    · rename_i hid
      cases hinfo
      exact ⟨hid.symm, hid ▸ Nat.lt_succ_self _⟩
    · exact ⟨(h.ids id info hinfo).1, Nat.lt_succ_of_lt (h.ids id info hinfo).2⟩
  · rw [indexEntry_foldl_addGrant, Repository.getById_inserted]
    split
    · rw [h.indexed, hfree]
      rfl
    · exact h.indexed id key

private theorem Sound.replaced
    (hinfo : c.tokens.repo.getById tokenId = some info) (info' : TokenInfo) (hashes : BiMap Nat (List UInt8))
    (hid : info'.id = info.id) (hname : info'.name = info.name)
    (hgrants : ∀ key, info'.permissions.foldl (grantTo key) none = info.permissions.foldl (grantTo key) none) :
    c.tokens.repo.update tokenId info' = .ok (c.tokens.repo.updated tokenId info') ∧
    Sound ⟨⟨c.tokens.repo.updated tokenId info', hashes⟩, c.tokenPermissions⟩ := by
  refine ⟨h.consistent.update_eq_ok_of_name_eq hinfo hname, ?_⟩
  refine ⟨h.consistent.updated fun id' howner => ?_, fun id info'' hinfo'' => ?_, fun id key => ?_⟩
  · have hown : c.tokens.repo.nameToId (CatalogResource.name info') = some tokenId :=
      h.consistent.nameToId_eq_some.mpr ⟨info, hinfo, hname.symm⟩
    exact some.inj (howner.symm.trans hown)
  · rw [Repository.getById_updated] at hinfo''
    split at hinfo''
    · rename_i hidEq
      cases hinfo''
      rw [hidEq, hid]
      exact h.ids _ _ hinfo
    · exact h.ids id info'' hinfo''
  · rw [h.indexed, Repository.getById_updated]
    split
    · rename_i hidEq
      rw [hidEq, hinfo]
      exact (hgrants key).symm
    · rfl

private theorem Sound.regenerated {r : RegenerateAdminToken} (happly : r.apply c = .ok c') : c'.Sound := by
  unfold RegenerateAdminToken.apply TokenRepository.updateAdminTokenHash at happly
  split at happly
  · cases happly
  · split at happly
    · cases happly
    · rename_i info hinfo
      obtain ⟨hupdate, hsound⟩ := h.replaced hinfo
        (TokenRepository.rehashed info r.tokenId r.hash (r.updatedAt.getD 0))
        (c.tokens.hashLookupMap.insert r.tokenId r.hash) rfl rfl fun _ => rfl
      rw [hupdate] at happly
      cases happly
      exact hsound

private theorem Sound.deleted {r : DeleteToken} (happly : r.apply c = .ok c') : c'.Sound := by
  unfold DeleteToken.apply TokenRepository.deleteTokenById at happly
  cases hinfo : c.tokens.repo.getById r.tokenId with
  | none =>
    rw [hinfo] at happly
    cases happly
  | some info =>
    rw [hinfo] at happly
    cases happly
    refine ⟨h.consistent.remove _, fun id info' hinfo' => ?_, fun id key => ?_⟩
    · rw [Repository.getById_remove] at hinfo'
      split at hinfo'
      · cases hinfo'
      · exact h.ids id info' hinfo'
    · simp only [indexEntry, TokenPermissions.remove, IndexMap.lookup_remove, Repository.getById_remove]
      split
      · rfl
      · exact h.indexed id key

end

private theorem grantTo_captureName (key : PermissionKey) (dbId : Nat) (dbName : String)
    (entry : Option ActionsBitmap) : grantTo key entry (captureName dbId dbName perm) = grantTo key entry perm := by
  obtain ⟨resourceType, resourceIdentifier, actions, names⟩ := perm
  cases resourceIdentifier with
  | database ids =>
    simp only [captureName]
    split <;> rfl
  | _ => rfl

private theorem Sound.captured {dbId : Nat} {dbName : String} (h : c.Sound)
    (hcapture : captureDbNameInTokens c dbId dbName = .ok c') : c'.Sound := by
  unfold captureDbNameInTokens at hcapture
  generalize c.tokens.repo.repo.keys = ids at hcapture
  induction ids generalizing c with
  | nil =>
    cases hcapture
    exact h
  | cons tokenId ids ih =>
    rw [foldlM_cons] at hcapture
    obtain ⟨m, hm, hrest⟩ := bind_eq_ok.mp hcapture
    refine ih ?_ hrest
    split at hm
    · cases hm
      exact h
    · rename_i info hinfo
      split at hm
      · have hgrants (key : PermissionKey) : (withCapturedName dbId dbName info).permissions.foldl (grantTo key) none =
            info.permissions.foldl (grantTo key) none := by
          rw [withCapturedName, foldl_map]
          simp only [grantTo_captureName]
        obtain ⟨hupdate, hsound⟩ := h.replaced hinfo (withCapturedName dbId dbName info) c.tokens.hashLookupMap
          rfl rfl hgrants
        rw [TokenRepository.updateToken, hupdate] at hm
        cases hm
        exact hsound
      · cases hm
        exact h

theorem Sound.step {a : TokenAction} (h : c.Sound) (hleft : c.IdsLeft a) (hstep : c.step a = some c') : c'.Sound := by
  cases a with
  | createAdminToken | createResourceScopedToken =>
    obtain ⟨r, hprep, happly⟩ := bind_eq_some_iff.mp hstep
    obtain ⟨tokenId, hid, ⟨⟩⟩ := bind_eq_ok.mp (toOption_eq_some.mp hprep)
    obtain ⟨rfl, hname⟩ := prepareNewToken_eq_ok h hid
    obtain ⟨tokens, htokens, ⟨⟩⟩ := bind_eq_ok.mp (toOption_eq_some.mp happly)
    exact h.added hleft hname (withContext_eq_ok.mp htokens)
  | regenerateAdminToken tokenId newHash updatedAt =>
    obtain ⟨r, -, happly⟩ := bind_eq_some_iff.mp hstep
    exact h.regenerated (toOption_eq_some.mp happly)
  | deleteToken tokenName =>
    obtain ⟨r, -, happly⟩ := bind_eq_some_iff.mp hstep
    exact h.deleted (toOption_eq_some.mp happly)
  | captureDbName dbId dbName => exact h.captured (toOption_eq_some.mp hstep)

end TokenCatalog

def namedResource : AccessRequest → Option (ResourceType × TokenPermissionResourceIdentifier × ActionsBitmap)
  | .database dbId actions | .maybeDatabase (some dbId) actions => some (.database, .database dbId, actions.bits)
  | .system resource actions => some (.system, .system resource, actions.bits)
  | _ => none

def identifies : ResourceIdentifier → Bool
  | .database ids => resourceId ∈ ids.map .database
  | .token ids => resourceId ∈ ids.map .token
  | .system ids => resourceId ∈ ids.map .system
  | .wildcard => true

def bearsOn (perm : Permission) : Bool :=
  (perm.resourceType = resourceType || perm.resourceType = .wildcard) && identifies resourceId perm.resourceIdentifier

/-- The permissions for exactly this resource; if there are none, those for every resource of its
type; if there are none, those for everything. -/
def mostSpecific : List Permission :=
  if grantsTo perms ⟨resourceType, resourceId⟩ ≠ [] then grantsTo perms ⟨resourceType, resourceId⟩
  else if grantsTo perms ⟨resourceType, .wildcard⟩ ≠ [] then grantsTo perms ⟨resourceType, .wildcard⟩
  else grantsTo perms ⟨.wildcard, .wildcard⟩

private theorem mem_grantKeys {perm : Permission} {key : PermissionKey} (h : key ∈ grantKeys perm) :
    perm.resourceType = key.resourceType ∧ identifies key.resourceIdentifier perm.resourceIdentifier = true ∧
      (key.resourceIdentifier = .wildcard → perm.resourceIdentifier = .wildcard) := by
  obtain ⟨resourceType, resourceIdentifier, actions, names⟩ := perm
  cases resourceIdentifier with
  | wildcard =>
    obtain rfl := mem_singleton.mp h
    exact ⟨rfl, rfl, fun _ => rfl⟩
  | _ ids =>
    obtain ⟨id, hid, rfl⟩ := mem_map.mp h
    exact ⟨rfl, decide_eq_true (mem_map_of_mem hid), nofun⟩

private theorem mostSpecific_subset :
    mostSpecific perms resourceType resourceId ⊆ perms.filter (bearsOn resourceType resourceId) := by
  have hsub (key : PermissionKey) (htype : key.resourceType = resourceType ∨ key.resourceType = .wildcard)
      (hid : key.resourceIdentifier = resourceId ∨ key.resourceIdentifier = .wildcard) :
      grantsTo perms key ⊆ perms.filter (bearsOn resourceType resourceId) := by
    intro perm hperm
    obtain ⟨hmem, hkey⟩ := mem_filter.mp hperm
    obtain ⟨htype', hid', hwild⟩ := mem_grantKeys (of_decide_eq_true hkey)
    refine mem_filter.mpr ⟨hmem, ?_⟩
    have hidentifies : identifies resourceId perm.resourceIdentifier = true := by
      rcases hid with rfl | hid
      · exact hid'
      · rw [hwild hid]
        rfl
    simpa [bearsOn, htype', hidentifies] using htype
  unfold mostSpecific
  split_ifs
  · exact hsub _ (.inl rfl) (.inl rfl)
  · exact hsub _ (.inl rfl) (.inr rfl)
  · exact hsub _ (.inr rfl) (.inr rfl)

private theorem getPermission_eq (tp : TokenPermissions) (resourceType : ResourceType)
    (resourceId : TokenPermissionResourceIdentifier) (tokenId : Nat) :
    tp.getPermission resourceType resourceId tokenId =
      (indexEntry tp tokenId ⟨resourceType, resourceId⟩ <|> indexEntry tp tokenId ⟨resourceType, .wildcard⟩ <|>
        indexEntry tp tokenId ⟨.wildcard, .wildcard⟩) := by
  unfold TokenPermissions.getPermission indexEntry
  cases tp.map.lookup tokenId <;> rfl

private theorem TokenCatalog.Sound.getPermission {c : TokenCatalog} (h : c.Sound)
    (hinfo : c.tokens.repo.getById tokenId = some info) (resourceType : ResourceType)
    (resourceId : TokenPermissionResourceIdentifier) :
    c.tokenPermissions.getPermission resourceType resourceId tokenId =
      if mostSpecific info.permissions resourceType resourceId = [] then none
      else some (unionOf (mostSpecific info.permissions resourceType resourceId)) := by
  have hentry (key : PermissionKey) : indexEntry c.tokenPermissions tokenId key =
      if grantsTo info.permissions key = [] then none else some (unionOf (grantsTo info.permissions key)) := by
    rw [h.indexed, hinfo]
    exact foldl_grantTo info.permissions key none
  rw [getPermission_eq, hentry, hentry, hentry, mostSpecific]
  by_cases hexact : grantsTo info.permissions ⟨resourceType, resourceId⟩ = []
  · by_cases htype : grantsTo info.permissions ⟨resourceType, .wildcard⟩ = []
    · simp [hexact, htype]
    · simp [hexact, htype]
  · simp [hexact]

private theorem isAllowedAccess_eq {tp : TokenPermissions} {request : AccessRequest}
    {resourceType : ResourceType} {resourceId : TokenPermissionResourceIdentifier}
    (hrequest : namedResource request = some (resourceType, resourceId, bits)) : tp.isAllowedAccess tokenId request =
      .ok ((tp.getPermission resourceType resourceId tokenId).map (covers · bits)) := by
  cases request with
  | database | system =>
    cases hrequest
    rfl
  | maybeDatabase dbId actions =>
    cases dbId with
    | none => cases hrequest
    | some dbId =>
      cases hrequest
      rfl
  | _ => cases hrequest

/-- A token is allowed what the union of its permissions for a resource grants exactly if the union
does not grant the request or the most specific of these permissions grant it alone. -/
theorem token_allowed_by_union_iff {as : List TokenAction} {c : TokenCatalog}
    (hleft : Guarded TokenCatalog.step TokenCatalog.IdsLeft .new as) (hrun : run TokenCatalog.step .new as = some c)
    {tokenId : Nat} {info : TokenInfo} (hinfo : c.tokens.repo.getById tokenId = some info) {request : AccessRequest}
    {resourceType : ResourceType} {resourceId : TokenPermissionResourceIdentifier} {bits : ActionsBitmap}
    (hrequest : namedResource request = some (resourceType, resourceId, bits)) :
    (c.tokenPermissions.isAllowedAccess tokenId request = .ok (some true) ↔
        covers (unionOf (info.permissions.filter (bearsOn resourceType resourceId))) bits = true) ↔
      covers (unionOf (info.permissions.filter (bearsOn resourceType resourceId))) bits = false ∨
      mostSpecific info.permissions resourceType resourceId ≠ [] ∧
        covers (unionOf (mostSpecific info.permissions resourceType resourceId)) bits = true := by
  have hsound : c.Sound := invariant TokenCatalog.Sound.step (by exact ⟨.new, nofun, fun _ _ => rfl⟩) hleft hrun
  have hallowed : c.tokenPermissions.isAllowedAccess tokenId request = .ok (some true) ↔
      mostSpecific info.permissions resourceType resourceId ≠ [] ∧
        covers (unionOf (mostSpecific info.permissions resourceType resourceId)) bits = true := by
    rw [isAllowedAccess_eq hrequest, hsound.getPermission hinfo]
    by_cases hnil : mostSpecific info.permissions resourceType resourceId = [] <;> simp [hnil]
  have hunion (h : covers (unionOf (mostSpecific info.permissions resourceType resourceId)) bits = true) :=
    covers_unionOf_of_subset (mostSpecific_subset info.permissions resourceType resourceId) h
  rw [hallowed]
  constructor
  · intro h
    cases hcovers : covers (unionOf (info.permissions.filter (bearsOn resourceType resourceId))) bits with
    | false => exact .inl rfl
    | true => exact .inr (h.mpr hcovers)
  · rintro (hnot | hspecific)
    · refine ⟨fun h => hunion h.2, fun h => ?_⟩
      rw [hnot] at h
      cases h
    · exact ⟨fun h => hunion h.2, fun _ => hspecific⟩

section Examples

private def newToken (name : String) : NewToken := ⟨name, [1], 0, none, none, none, none, none⟩

private def readOneWriteAll : List Permission :=
  [⟨.database, .database [1], .database ⟨DatabaseActions.read⟩, none⟩,
   ⟨.database, .wildcard, .database ⟨DatabaseActions.write⟩, none⟩]

/-- On another database the token may write. -/
theorem wildcard_grant_allows_write :
    ∃ c, run TokenCatalog.step .new [.createResourceScopedToken (newToken "t") readOneWriteAll] = some c ∧
      c.tokenPermissions.isAllowedAccess 0 (.database 2 ⟨DatabaseActions.write⟩) = .ok (some true) := by
  have hleft : Guarded TokenCatalog.step TokenCatalog.IdsLeft .new
      [.createResourceScopedToken (newToken "t") readOneWriteAll] := by decide
  exact ⟨_, rfl, ((token_allowed_by_union_iff hleft rfl rfl rfl).mpr (by decide)).mpr (by decide)⟩

/-- The permission to read a database takes away that to write all databases. -/
theorem exact_grant_hides_wildcard :
    ∃ c info, run TokenCatalog.step .new [.createResourceScopedToken (newToken "t") readOneWriteAll] = some c ∧
      c.tokens.repo.getById 0 = some info ∧
      covers (unionOf (info.permissions.filter (bearsOn .database (.database 1)))) DatabaseActions.write = true ∧
      c.tokenPermissions.isAllowedAccess 0 (.database 1 ⟨DatabaseActions.write⟩) = .ok (some false) :=
  ⟨_, _, rfl, rfl, by decide, by decide⟩

end Examples
end VarveDB.Catalog
