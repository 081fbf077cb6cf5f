import VarveDB.Catalog.Column

/-! The definition of a table: its columns, families, deletion marks and Arrow schema. -/
namespace VarveDB.Catalog
open Library Schema

inductive RetentionPeriod where
  | indefinite
  | duration (seconds : Nat)
  deriving DecidableEq

inductive DeletionScope where
  | dataAndCatalog
  | dataOnlyRemoveTables
  | dataOnlyKeepResources
  deriving DecidableEq

inductive NodeSpec where
  | all
  | nodes (ids : List Nat)
  deriving DecidableEq

structure TableDefinition where
  tableId : Nat
  tableName : String
  schema : Schema
  columns : ColumnSet
  timestampColumn : Option TimestampColumn
  tagColumns : Repository TagColumn
  fieldFamilies : Repository FieldFamilyDefinition
  fieldCount : Nat
  autoFieldFamily : Option Nat
  nextAutoFieldFamilyName : Nat
  seriesKey : List Nat
  seriesKeyNames : List String
  retentionPeriod : RetentionPeriod
  deleted : Bool
  hardDeleteTime : Option Int
  hardDeleteScope : Option DeletionScope
  fieldFamilyMode : FieldFamilyMode
  deriving DecidableEq

def maxId32 : Nat := 4294967295

instance : CatalogResource TableDefinition := ⟨"tables", TableDefinition.tableName, maxId32⟩

def chunkOrderColumnName : String := "__chunk_order"

namespace TableDefinition

def newEmpty (tableId : Nat) (tableName : String) (mode : FieldFamilyMode) : TableDefinition where
  tableId := tableId
  tableName := tableName
  schema := .empty
  columns := .new
  timestampColumn := none
  tagColumns := .new
  fieldFamilies := .new
  fieldCount := 0
  autoFieldFamily := none
  nextAutoFieldFamilyName := 0
  seriesKey := []
  seriesKeyNames := []
  retentionPeriod := .indefinite
  deleted := false
  hardDeleteTime := none
  hardDeleteScope := none
  fieldFamilyMode := mode

abbrev PendingFamilies := IndexMap Nat FieldFamilyDefinition

def addColumnToMaps (state : TableDefinition × PendingFamilies) (c : ColumnDefinition) :
    Except (Failure CatalogError) (TableDefinition × PendingFamilies) := do
  let (t, families) := state
  if t.columns.containsName c.name then .error (.panic "attempted to add existing column")
  else do
    let columns ← t.columns.insert c
    match c with
    | .timestamp v =>
      if t.timestampColumn.isSome then
        .error (.panic "table definition initialized with multiple timestamp columns")
      else .ok ({ t with columns, timestampColumn := some v }, families)
    | .tag v =>
      match t.tagColumns.insert v.id v with
      | .error _ => .error (.panic "table definition initialized with duplicate tags")
      | .ok tagColumns =>
        .ok ({ t with
          columns, tagColumns
          seriesKey := t.seriesKey ++ [v.id]
          seriesKeyNames := t.seriesKeyNames ++ [v.name] }, families)
    | .field v =>
      match (families.lookup v.familyId).or (t.fieldFamilies.getById v.familyId) with
      | none => .error (.panic "field family ID should exist in the table definition")
      | some family =>
        match family.fields.insert v.fieldId v with
        | .error _ => .error (.panic "")
        | .ok fields =>
          .ok ({ t with columns, fieldCount := t.fieldCount + 1 }, families.put v.familyId { family with fields })

variable (t : TableDefinition) (cols : List ColumnDefinition)

/-- Puts the changed families back; the map of family names is not touched. -/
def replaceFamilies (families : PendingFamilies) : TableDefinition :=
  { t with fieldFamilies := { t.fieldFamilies with
      repo := families.entries.foldl (fun repo p => repo.put p.1 p.2) t.fieldFamilies.repo } }

def addColumnsToMaps : Except (Failure CatalogError) TableDefinition := do
  let (t, families) ← cols.foldlM addColumnToMaps (t, .empty _)
  .ok (t.replaceFamilies families)

def rebuildSchema : Except (Failure CatalogError) TableDefinition :=
  let repo := t.columns.repo.sortBy fun a b => a.name ≤ b.name
  match Schema.build (repo.values.map fun c => influxColumn c.name c.columnType) t.seriesKeyNames with
  | .ok schema => .ok { t with columns := { t.columns with repo }, schema }
  | .error _ => .error (.panic "schema should be valid")

def addColumns : Except (Failure CatalogError) TableDefinition := do
  let t ← t.addColumnsToMaps cols
  t.rebuildSchema

def setAutoFieldFamily (id number : Nat) : Except (Failure CatalogError) TableDefinition :=
  if t.nextAutoFieldFamilyName ≤ number then
    if number < maxId16 then .ok { t with nextAutoFieldFamilyName := number + 1, autoFieldFamily := some id }
    else .error (.error (.tooManyFieldFamilies (maxId16 + 1)))
  else .ok t

end TableDefinition

structure AddColumns where
  databaseId : Nat
  tableId : Nat
  columns : List WireColumn
  fieldFamilies : List (Nat × FieldFamilyName)
  deriving DecidableEq

variable (r : AddColumns)

namespace AddColumns

variable (t : TableDefinition)

def insertFieldFamily (family : Nat × FieldFamilyName) : Apply TableDefinition := do
  let t ← match family.2 with
    | .auto number =>
      withContext s!"AddColumns: set auto field family (db_id={r.databaseId}, table_id={r.tableId}): "
        (t.setAutoFieldFamily family.1 number)
    | .user _ => .ok t
  let fieldFamilies ← applied (t.fieldFamilies.insert family.1 ⟨family.1, family.2, .new⟩)
  .ok { t with fieldFamilies }

def applyToTable : Apply TableDefinition := do
  let t ← r.fieldFamilies.foldlM r.insertFieldFamily t
  let columns ← r.columns.mapM ColumnDefinition.ofWire
  if columns.isEmpty then .ok t
  else withContext s!"AddColumns: add columns (db_id={r.databaseId}, table_id={r.tableId}): " (t.addColumns columns)

end AddColumns
end VarveDB.Catalog
