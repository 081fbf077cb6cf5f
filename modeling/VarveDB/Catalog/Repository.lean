import VarveDB.Catalog.Error
import VarveDB.Library.BiMap
import VarveDB.Library.IndexMap
import VarveDB.Library.Results

/-! The catalog's collection of resources of one kind, by id and by name. -/
namespace VarveDB.Catalog
open Library

class CatalogResource (ρ : Type) where
  category : String
  name : ρ → String
  maxId : Nat

inductive RepositoryError where
  | alreadyExists (resource : String) (id : Nat)
  | alreadyExistsByName (resource name : String)
  | notFound (resource : String) (id : Nat)
  deriving DecidableEq

def RepositoryError.message : RepositoryError → String
  | .alreadyExists resource id => s!"{resource} with id {id} already exists"
  | .alreadyExistsByName resource name => s!"{resource} with name '{name}' already exists"
  | .notFound resource id => s!"{resource} with id {id} not found"

def applied {α : Type} : Except (Failure RepositoryError) α → Apply α
  | .ok a => .ok a
  | .error (.error e) => .error (.error e.message)
  | .error (.panic m) => .error (.panic m)

theorem applied_eq_ok {α : Type} {x : Except (Failure RepositoryError) α} {a : α} : applied x = .ok a ↔ x = .ok a := by
  rcases x with (_ | _) | _ <;> simp [applied]

structure Repository (ρ : Type) where
  repo : IndexMap Nat ρ
  idNameMap : BiMap Nat String
  nextId : Nat
  deriving DecidableEq

namespace Repository
variable {ρ : Type}

def new : Repository ρ := ⟨.empty _, .empty, 0⟩

variable (r : Repository ρ) (id : Nat) (name : String) (x : ρ)

def clear : Repository ρ := { r with repo := .empty _, idNameMap := .empty }

def getById : Option ρ := r.repo.lookup id

def containsId : Bool := (r.getById id).isSome

def nameToId : Option Nat := r.idNameMap.getByRight name

def idToName : Option String := r.idNameMap.getByLeft id

def getByName : Option ρ := (r.nameToId name).bind r.getById

def containsName : Bool := (r.nameToId name).isSome

def remove : Repository ρ :=
  { r with repo := r.repo.remove id, idNameMap := r.idNameMap.removeByLeft id }

@[simp]
theorem getById_remove {r : Repository ρ} {id id' : Nat} :
    (r.remove id).getById id' = if id' = id then none else r.getById id' := IndexMap.lookup_remove ..

@[simp]
theorem getById_new {id : Nat} : (new : Repository ρ).getById id = none := rfl

variable [CatalogResource ρ] {y : ρ}

def requireById : Except (Failure RepositoryError) ρ :=
  match r.getById id with
  | some x => .ok x
  | none => .error (.error (.notFound (CatalogResource.category ρ) id))

def idExists : Except (Failure RepositoryError) Bool :=
  let inMap := (r.idToName id).isSome
  let inRepo := r.containsId id
  if inMap = inRepo then .ok inRepo
  else .error (.panic s!"id map and repository are in an inconsistent state, in map: {inMap}, in repo: {inRepo}")

/-- A pair of the name map that held the id or the name is dropped, and the next id passes the id unless that is the
largest one. -/
def inserted : Repository ρ where
  idNameMap := r.idNameMap.insert id (CatalogResource.name x)
  repo := r.repo.put id x
  nextId := if r.nextId ≤ id ∧ id < CatalogResource.maxId ρ then id + 1 else r.nextId

/-- Stores a new resource; refused only if both its id and its name are present. -/
def insert : Except (Failure RepositoryError) (Repository ρ) := do
  let present ← r.idExists id
  if present && r.containsName (CatalogResource.name x) then
    .error (.error (.alreadyExists (CatalogResource.category ρ) id))
  else .ok (r.inserted id x)

def updated : Repository ρ :=
  { r with idNameMap := r.idNameMap.insert id (CatalogResource.name x), repo := r.repo.put id x }

def update : Except (Failure RepositoryError) (Repository ρ) := do
  let present ← r.idExists id
  if present then
    if (r.nameToId (CatalogResource.name x)).any (· ≠ id) then
      .error (.error (.alreadyExistsByName (CatalogResource.category ρ) (CatalogResource.name x)))
    else .ok (r.updated id x)
  else .error (.error (.notFound (CatalogResource.category ρ) id))

def modifyById (f : ρ → Apply ρ) : Apply (Repository ρ) := do
  let x ← applied (r.requireById id)
  let y ← f x
  applied (r.update id y)

def Consistent : Prop :=
  ∀ id, r.idToName id = (r.getById id).map CatalogResource.name

section Lookup
variable {r r' : Repository ρ} {id id' : Nat} {x : ρ} {name : String}

@[simp]
theorem getById_inserted : (r.inserted id x).getById id' = if id' = id then some x else r.getById id' :=
  IndexMap.lookup_put ..

@[simp]
theorem getById_updated : (r.updated id x).getById id' = if id' = id then some x else r.getById id' :=
  IndexMap.lookup_put ..

omit [CatalogResource ρ] in
theorem getById_of_getByName (h : r.getByName name = some x) : ∃ id, r.getById id = some x := by
  obtain ⟨id, -, hid⟩ := Option.bind_eq_some_iff.mp h
  exact ⟨id, hid⟩

theorem getById_of_requireById (h : applied (r.requireById id) = .ok x) : r.getById id = some x := by
  rw [applied_eq_ok, requireById] at h
  split at h
  · next hx => exact hx.trans (congrArg some (Except.ok.inj h))
  · cases h

/-- What an insertion that is not refused does. -/
theorem eq_inserted_of_insert (h : applied (r.insert id x) = .ok r') : r' = r.inserted id x := by
  obtain ⟨present, -, h⟩ := bind_eq_ok.mp (applied_eq_ok.mp h)
  split_ifs at h
  exact (Except.ok.inj h).symm

/-- What an update that is not refused does. -/
theorem of_update (h : applied (r.update id x) = .ok r') :
    r' = r.updated id x ∧ ∀ id', r.nameToId (CatalogResource.name x) = some id' → id' = id := by
  obtain ⟨present, -, h⟩ := bind_eq_ok.mp (applied_eq_ok.mp h)
  split_ifs at h with _ howner
  refine ⟨(Except.ok.inj h).symm, fun id' hid' => ?_⟩
  simpa [hid'] using howner

/-- What a modification that is not refused does. -/
theorem of_modifyById {f : ρ → Apply ρ} (h : r.modifyById id f = .ok r') :
    ∃ x y, r.getById id = some x ∧ f x = .ok y ∧ r' = r.updated id y ∧
      ∀ id', r.nameToId (CatalogResource.name y) = some id' → id' = id := by
  obtain ⟨x, hx, h⟩ := bind_eq_ok.mp h
  obtain ⟨y, hy, h⟩ := bind_eq_ok.mp h
  exact ⟨x, y, getById_of_requireById hx, hy, of_update h⟩

end Lookup

namespace Consistent
variable {r : Repository ρ} {id : Nat} {x : ρ} {name : String}

theorem new : (Repository.new : Repository ρ).Consistent := fun _ => rfl

section
variable (h : r.Consistent)
include h

theorem nameToId_eq_some : r.nameToId name = some id ↔ ∃ x, r.getById id = some x ∧ CatalogResource.name x = name := by
  rw [nameToId, BiMap.getByRight_iff]
  exact (by rw [← idToName, h id, Option.map_eq_some_iff])

theorem getByName_eq_some :
    r.getByName name = some x ↔ ∃ id, r.getById id = some x ∧ CatalogResource.name x = name := by
  rw [getByName, Option.bind_eq_some_iff]
  constructor
  · rintro ⟨id, hid, hx⟩
    obtain ⟨y, hy, hname⟩ := h.nameToId_eq_some.mp hid
    obtain rfl : x = y := Option.some.inj (hx.symm.trans hy)
    exact ⟨id, hx, hname⟩
  · rintro ⟨id, hx, hname⟩
    exact ⟨id, h.nameToId_eq_some.mpr ⟨x, hx, hname⟩, hx⟩

theorem nameToId_eq_none : r.nameToId name = none ↔ ∀ id x, r.getById id = some x → CatalogResource.name x ≠ name := by
  constructor
  · intro hnone id x hx hname
    have := h.nameToId_eq_some.mpr ⟨x, hx, hname⟩
    rw [hnone] at this
    cases this
  · intro hall
    cases hname : r.nameToId name with
    | none => rfl
    | some id =>
      obtain ⟨x, hx, hx'⟩ := h.nameToId_eq_some.mp hname
      exact absurd hx' (hall id x hx)

theorem nameToId_eq_none_of_getByName (hname : r.getByName name = none) : r.nameToId name = none := by
  cases hid : r.nameToId name with
  | none => rfl
  | some id =>
    obtain ⟨x, hx, -⟩ := h.nameToId_eq_some.mp hid
    rw [getByName, hid, Option.bind_some, hx] at hname
    cases hname

private theorem idExists_eq_ok (id : Nat) : r.idExists id = .ok (r.containsId id) := by
  have hsame : (r.idToName id).isSome = r.containsId id := by rw [h id, Option.isSome_map, containsId]
  rw [idExists, if_pos hsame]

/-- A resource with a new id goes in. -/
theorem insert_eq_ok (hid : r.getById id = none) : r.insert id x = .ok (r.inserted id x) := by
  have hnot : r.containsId id = false := by rw [containsId, hid]; rfl
  rw [insert, h.idExists_eq_ok id, hnot]
  rfl

/-- A resource that keeps its name, or takes one nobody has, is replaced. -/
theorem update_eq_ok (hid : r.getById id = some y)
    (hname : ∀ id', r.nameToId (CatalogResource.name x) = some id' → id' = id) :
    r.update id x = .ok (r.updated id x) := by
  have hin : r.containsId id = true := by rw [containsId, hid]; rfl
  have hany : (r.nameToId (CatalogResource.name x)).any (· ≠ id) = false := by
    cases howner : r.nameToId (CatalogResource.name x) with
    | none => rfl
    | some id' => simpa using hname id' howner
  rw [update, h.idExists_eq_ok id, hin]
  simp only [Bind.bind, Except.bind, if_true, hany]
  rfl

theorem update_eq_ok_of_name_eq (hid : r.getById id = some y)
    (hname : CatalogResource.name x = CatalogResource.name y) : r.update id x = .ok (r.updated id x) := by
  refine h.update_eq_ok hid fun id' howner => ?_
  have hown : r.nameToId (CatalogResource.name x) = some id := h.nameToId_eq_some.mpr ⟨y, hid, hname.symm⟩
  exact Option.some.inj (howner.symm.trans hown)

section
variable (hname : ∀ id', r.nameToId (CatalogResource.name x) = some id' → id' = id)
include hname

private theorem insert_name (id' : Nat) : (r.idNameMap.insert id (CatalogResource.name x)).getByLeft id' =
      (if id' = id then some x else r.getById id').map CatalogResource.name := by
  rw [BiMap.getByLeft_insert]
  by_cases hid : id' = id
  · rw [if_pos hid, if_pos hid]
    rfl
  · rw [if_neg hid, if_neg hid]
    have hne : r.idNameMap.getByLeft id' ≠ some (CatalogResource.name x) := fun heq =>
      hid (hname id' (BiMap.getByRight_iff.mpr heq))
    rw [if_neg hne]
    exact h id'

theorem inserted : (r.inserted id x).Consistent := by
  intro id'
  rw [getById_inserted]
  exact h.insert_name hname id'

theorem updated : (r.updated id x).Consistent := by
  intro id'
  rw [getById_updated]
  exact h.insert_name hname id'

end

theorem remove (id : Nat) : (r.remove id).Consistent := by
  intro id'
  rw [getById_remove]
  refine (BiMap.getByLeft_removeByLeft ..).trans ?_
  by_cases hid : id' = id
  · rw [if_pos hid, if_pos hid]
    rfl
  · rw [if_neg hid, if_neg hid]
    exact h id'

end

end Consistent

end Repository
end VarveDB.Catalog
