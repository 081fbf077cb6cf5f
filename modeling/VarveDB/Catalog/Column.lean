import VarveDB.Catalog.Repository

/-! The columns of a table, looked up by typed identifier, by name and by legacy ordinal. -/
namespace VarveDB.Catalog
open Library Schema

inductive ColumnIdentifier where
  | timestamp
  | tag (id : Nat)
  | field (familyId fieldId : Nat)
  deriving DecidableEq

def maxId16 : Nat := 65535

structure TimestampColumn where
  columnId : Option Nat
  name : String
  deriving DecidableEq

structure TagColumn where
  id : Nat
  columnId : Option Nat
  name : String
  deriving DecidableEq

structure FieldColumn where
  familyId : Nat
  fieldId : Nat
  columnId : Option Nat
  name : String
  dataType : InfluxFieldType
  deriving DecidableEq

instance : CatalogResource TagColumn := ⟨"tag_columns", TagColumn.name, maxId16⟩

instance : CatalogResource FieldColumn := ⟨"fields", FieldColumn.name, maxId16⟩

inductive ColumnDefinition where
  | timestamp (column : TimestampColumn)
  | tag (column : TagColumn)
  | field (column : FieldColumn)
  deriving DecidableEq

namespace ColumnDefinition

def id : ColumnDefinition → ColumnIdentifier
  | timestamp _ => .timestamp
  | tag c => .tag c.id
  | field c => .field c.familyId c.fieldId

def ordId : ColumnDefinition → Option Nat
  | timestamp c => c.columnId
  | tag c => c.columnId
  | field c => c.columnId

def name : ColumnDefinition → String
  | timestamp c => c.name
  | tag c => c.name
  | field c => c.name

def columnType : ColumnDefinition → InfluxColumnType
  | timestamp _ => .timestamp
  | tag _ => .tag
  | field c => .field c.dataType

end ColumnDefinition

inductive FieldDataType where
  | string
  | integer
  | uInteger
  | float
  | boolean
  | binary
  deriving DecidableEq

def FieldDataType.toInflux : FieldDataType → Apply InfluxFieldType
  | string => .ok .string
  | integer => .ok .integer
  | uInteger => .ok .uInteger
  | float => .ok .float
  | boolean => .ok .boolean
  | binary => .error (.panic "not implemented: Binary field data type is not yet supported")

inductive WireColumn where
  | timestamp (columnId : Option Nat) (name : String)
  | tag (id : Nat) (columnId : Option Nat) (name : String)
  | field (familyId fieldId : Nat) (columnId : Option Nat) (name : String) (dataType : FieldDataType)
  deriving DecidableEq

def ColumnDefinition.ofWire : WireColumn → Apply ColumnDefinition
  | .timestamp columnId name => .ok (.timestamp ⟨columnId, name⟩)
  | .tag id columnId name => .ok (.tag ⟨id, columnId, name⟩)
  | .field familyId fieldId columnId name dataType => do
    let dataType ← dataType.toInflux
    .ok (.field ⟨familyId, fieldId, columnId, name, dataType⟩)

inductive FieldFamilyName where
  | user (name : String)
  | auto (number : Nat)
  deriving DecidableEq

def FieldFamilyName.text : FieldFamilyName → String
  | user name => name
  | auto number => s!"__{number}"

structure FieldFamilyDefinition where
  id : Nat
  name : FieldFamilyName
  fields : Repository FieldColumn
  deriving DecidableEq

instance : CatalogResource FieldFamilyDefinition := ⟨"field_families", fun f => f.name.text, maxId16⟩

inductive FieldFamilyMode where
  | aware
  | auto
  deriving DecidableEq

structure ColumnSet where
  repo : IndexMap ColumnIdentifier ColumnDefinition
  idNameMap : BiMap ColumnIdentifier String
  idOrdIdMap : BiMap ColumnIdentifier Nat
  nextId : Option Nat
  deriving DecidableEq

namespace ColumnSet

def new : ColumnSet := ⟨.empty _, .empty, .empty, some 0⟩

def checkedNext (id : Nat) : Option Nat := if id < maxId16 then some (id + 1) else none

variable (s : ColumnSet) (id : ColumnIdentifier) (c : ColumnDefinition)

def getById : Option ColumnDefinition := s.repo.lookup id

def nameToId (name : String) : Option ColumnIdentifier := s.idNameMap.getByRight name

def containsId : Bool := (s.getById id).isSome

def containsName (name : String) : Bool := (s.nameToId name).isSome

def idExists : Except (Failure CatalogError) Bool :=
  let inNameMap := (s.idNameMap.getByLeft id).isSome
  let inColIdMap := (s.idOrdIdMap.getByLeft id).isSome
  let inRepo := s.containsId id
  if inNameMap = inRepo ∧ (inColIdMap = false ∨ inRepo = true) then .ok inRepo
  else .error (.panic (s!"name, col_id and repository are in an inconsistent state, " ++
    s!"name map: {inNameMap}, col_id map: {inColIdMap}, in repo: {inRepo}"))

def inserted : ColumnSet where
  repo := s.repo.put c.id c
  idNameMap := s.idNameMap.insert c.id c.name
  idOrdIdMap := c.ordId.elim s.idOrdIdMap (s.idOrdIdMap.insert c.id)
  nextId := if c.ordId.isSome then s.nextId.bind checkedNext else s.nextId

/-- Adds a column; refused only if its id, its name and its legacy id are all present. -/
def insert : Except (Failure CatalogError) ColumnSet := do
  let nameInMap := s.containsName c.name
  let ordIdInMap := c.ordId.all fun ord => (s.idOrdIdMap.getByRight ord).isSome
  let present ← s.idExists c.id
  if present && nameInMap && ordIdInMap then .error (.error .alreadyExists)
  else .ok (s.inserted c)

end ColumnSet
end VarveDB.Catalog
