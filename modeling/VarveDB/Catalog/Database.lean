import VarveDB.Catalog.Table
import VarveDB.Catalog.Tokens
import VarveDB.Library.Padded

/-! Databases with their tables and triggers, and the records that create, change and delete them. -/
namespace VarveDB.Catalog
open Library

inductive TriggerSpecification where
  | singleTableWalWrite (tableName : String)
  | allTablesWalWrite
  | schedule (schedule : String)
  | requestPath (path : String)
  | every (durationNs : Nat)
  deriving DecidableEq

inductive ErrorBehavior where
  | log
  | retry
  | disable
  deriving DecidableEq

structure TriggerSettings where
  runAsync : Bool
  errorBehavior : ErrorBehavior
  deriving DecidableEq

structure TriggerDefinition where
  triggerId : Nat
  triggerName : String
  pluginFilename : String
  databaseName : String
  nodeSpec : NodeSpec
  trigger : TriggerSpecification
  triggerSettings : TriggerSettings
  triggerArguments : Option (IndexMap String String)
  disabled : Bool
  deriving DecidableEq

instance : CatalogResource TriggerDefinition := ⟨"processing_engine_triggers", TriggerDefinition.triggerName, maxId32⟩

structure DatabaseSchema where
  id : Nat
  name : String
  tables : Repository TableDefinition
  retentionPeriod : RetentionPeriod
  processingEngineTriggers : Repository TriggerDefinition
  deleted : Bool
  hardDeleteTime : Option Int
  hardDeleteScope : Option DeletionScope
  deriving DecidableEq

instance : CatalogResource DatabaseSchema := ⟨"databases", DatabaseSchema.name, maxId32⟩

def DatabaseSchema.new (id : Nat) (name : String) : DatabaseSchema :=
  ⟨id, name, .new, .indefinite, .new, false, none, none⟩

structure DatabaseCatalog where
  storageMode : StorageMode
  databases : Repository DatabaseSchema
  tokenCatalog : TokenCatalog
  deriving DecidableEq

section SoftDeletedName

def civilDate (days : Int) : Int × Nat × Nat :=
  let z := days + 719468
  let era := z / 146097
  let doe := (z % 146097).toNat
  let yoe := (doe - doe / 1460 + doe / 36524 - doe / 146096) / 365
  let doy := doe - (365 * yoe + yoe / 4 - yoe / 100)
  let mp := (5 * doy + 2) / 153
  let month := if mp < 10 then mp + 3 else mp - 9
  (era * 400 + yoe + (if month ≤ 2 then 1 else 0), month, doy - (153 * mp + 2) / 5 + 1)

/-- A time in nanoseconds as `%Y%m%dT%H%M%S`; the years it can have are those of four digits. -/
def deletionStamp (timeNs : Int) : String :=
  let seconds := timeNs / 1000000000
  let (year, month, day) := civilDate (seconds / 86400)
  let second := (seconds % 86400).toNat
  Padded.zeroPadded 4 year.toNat ++ Padded.zeroPadded 2 month ++ Padded.zeroPadded 2 day ++ "T" ++
    Padded.zeroPadded 2 (second / 3600) ++ Padded.zeroPadded 2 (second / 60 % 60) ++ Padded.zeroPadded 2 (second % 60)

example : deletionStamp 0 = "19700101T000000" := by decide +kernel

example : deletionStamp 1709210096000000000 = "20240229T123456" := by decide +kernel

def softDeletedName (base : String) (deletionTime : Int) (id : Nat) (hasNameCollision : String → Bool) : String :=
  let stamped := s!"{base}-{deletionStamp deletionTime}"
  if hasNameCollision stamped then s!"{stamped}-{id}" else stamped

end SoftDeletedName

structure CreateDatabase where
  databaseId : Nat
  databaseName : String
  retentionPeriod : RetentionPeriod
  deriving DecidableEq

structure SoftDeleteDatabase where
  databaseId : Nat
  deletionTimeNs : Int
  hardDeletionTimeNs : Option Int
  hardDeleteScope : Option DeletionScope
  deriving DecidableEq

structure HardDeleteDatabase where
  dbId : Nat
  deriving DecidableEq

structure CreateTable where
  databaseId : Nat
  databaseName : String
  tableName : String
  tableId : Nat
  retentionPeriod : RetentionPeriod
  fieldFamilyMode : FieldFamilyMode
  deriving DecidableEq

structure SoftDeleteTable where
  databaseId : Nat
  tableId : Nat
  deletionTimeNs : Int
  hardDeletionTimeNs : Option Int
  hardDeleteScope : Option DeletionScope
  deriving DecidableEq

structure HardDeleteTable where
  dbId : Nat
  tableId : Nat
  deriving DecidableEq

structure SetDbRetentionPeriod where
  databaseId : Nat
  retentionPeriod : RetentionPeriod
  deriving DecidableEq

structure ClearDbRetentionPeriod where
  databaseId : Nat
  deriving DecidableEq

structure SetTableRetentionPeriod where
  databaseId : Nat
  tableId : Nat
  retentionPeriod : RetentionPeriod
  deriving DecidableEq

structure ClearTableRetentionPeriod where
  databaseId : Nat
  tableId : Nat
  deriving DecidableEq

variable (r : SoftDeleteDatabase) (tables : Repository TableDefinition)

section Apply

def modifyTable (dbs : Repository DatabaseSchema) (dbId tableId : Nat) (f : TableDefinition → Apply TableDefinition) :
    Apply (Repository DatabaseSchema) :=
  dbs.modifyById dbId fun db => do
    let tables ← db.tables.modifyById tableId f
    .ok { db with tables }

def CreateDatabase.apply (r : CreateDatabase) (dbs : Repository DatabaseSchema) : Apply (Repository DatabaseSchema) :=
  applied (dbs.insert r.databaseId
    { DatabaseSchema.new r.databaseId r.databaseName with retentionPeriod := r.retentionPeriod })

def CreateTable.newTable (r : CreateTable) : TableDefinition :=
  { TableDefinition.newEmpty r.tableId r.tableName r.fieldFamilyMode with retentionPeriod := r.retentionPeriod }

def CreateTable.apply (r : CreateTable) (dbs : Repository DatabaseSchema) : Apply (Repository DatabaseSchema) :=
  dbs.modifyById r.databaseId fun db => do
    let tables ← applied (db.tables.insert r.tableId r.newTable)
    .ok { db with tables }

def softDeletedTable (tableId : Nat) (t : TableDefinition) (deletionTime : Int)
    (hardDeleteTime : Option Int) (hardDeleteScope : Option DeletionScope) : TableDefinition :=
  { t with
    tableName := if t.deleted then t.tableName else softDeletedName t.tableName deletionTime tableId tables.containsName
    deleted := true
    hardDeleteTime, hardDeleteScope }

def SoftDeleteTable.apply (r : SoftDeleteTable) (dbs : Repository DatabaseSchema) :
    Apply (Repository DatabaseSchema) := do
  let db ← applied (dbs.requireById r.databaseId)
  let table ← applied (db.tables.requireById r.tableId)
  let tables ← applied (db.tables.update r.tableId
    (softDeletedTable db.tables r.tableId table r.deletionTimeNs r.hardDeletionTimeNs r.hardDeleteScope))
  applied (dbs.update r.databaseId { db with tables })

def HardDeleteTable.apply (r : HardDeleteTable) (dbs : Repository DatabaseSchema) :
    Apply (Repository DatabaseSchema) := do
  let db ← applied (dbs.requireById r.dbId)
  let table ← applied (db.tables.requireById r.tableId)
  match table.hardDeleteScope.getD .dataAndCatalog with
  | .dataAndCatalog => applied (dbs.update r.dbId { db with tables := db.tables.remove r.tableId })
  | .dataOnlyKeepResources | .dataOnlyRemoveTables => .ok dbs

def SoftDeleteDatabase.deleteTable (tableId : Nat) : Apply (Repository TableDefinition) :=
  match tables.getById tableId with
  | none => .ok tables
  | some table => applied (tables.update tableId
      (softDeletedTable tables tableId table r.deletionTimeNs r.hardDeletionTimeNs r.hardDeleteScope))

def disableTrigger (triggers : Repository TriggerDefinition) (triggerId : Nat) : Apply (Repository TriggerDefinition) :=
  match triggers.getById triggerId with
  | none => .ok triggers
  | some trigger => applied (triggers.update triggerId { trigger with disabled := true })

def Repository.idsWhere {ρ : Type} (r : Repository ρ) (p : ρ → Bool) : List Nat :=
  (r.repo.entries.filter fun e => p e.2).map Prod.fst

def SoftDeleteDatabase.apply (c : DatabaseCatalog) : Apply DatabaseCatalog := do
  let db ← applied (c.databases.requireById r.databaseId)
  let tokenCatalog ← captureDbNameInTokens c.tokenCatalog r.databaseId db.name
  let name := if db.deleted then db.name
    else softDeletedName db.name r.deletionTimeNs r.databaseId c.databases.containsName
  let tables ← (db.tables.idsWhere fun t => !t.deleted).foldlM r.deleteTable db.tables
  let processingEngineTriggers ←
    (db.processingEngineTriggers.idsWhere fun t => !t.disabled).foldlM disableTrigger db.processingEngineTriggers
  let databases ← applied (c.databases.update r.databaseId { db with
    name, tables, processingEngineTriggers
    deleted := true
    hardDeleteTime := r.hardDeletionTimeNs
    hardDeleteScope := r.hardDeleteScope })
  .ok { c with databases, tokenCatalog }

def HardDeleteDatabase.apply (r : HardDeleteDatabase) (c : DatabaseCatalog) : Apply DatabaseCatalog := do
  let db ← applied (c.databases.requireById r.dbId)
  match db.hardDeleteScope.getD .dataAndCatalog with
  | .dataAndCatalog => do
    let tokenCatalog ← captureDbNameInTokens c.tokenCatalog r.dbId db.name
    .ok { c with databases := c.databases.remove r.dbId, tokenCatalog }
  | .dataOnlyRemoveTables => do
    let databases ← applied (c.databases.update r.dbId { db with tables := db.tables.clear })
    .ok { c with databases }
  | .dataOnlyKeepResources => .ok c

def SetDbRetentionPeriod.apply (r : SetDbRetentionPeriod) (dbs : Repository DatabaseSchema) :
    Apply (Repository DatabaseSchema) :=
  dbs.modifyById r.databaseId fun db => .ok { db with retentionPeriod := r.retentionPeriod }

def ClearDbRetentionPeriod.apply (r : ClearDbRetentionPeriod) (dbs : Repository DatabaseSchema) :
    Apply (Repository DatabaseSchema) :=
  dbs.modifyById r.databaseId fun db => .ok { db with retentionPeriod := .indefinite }

def SetTableRetentionPeriod.apply (r : SetTableRetentionPeriod) (dbs : Repository DatabaseSchema) :
    Apply (Repository DatabaseSchema) :=
  modifyTable dbs r.databaseId r.tableId fun t => .ok { t with retentionPeriod := r.retentionPeriod }

def ClearTableRetentionPeriod.apply (r : ClearTableRetentionPeriod) (dbs : Repository DatabaseSchema) :
    Apply (Repository DatabaseSchema) :=
  modifyTable dbs r.databaseId r.tableId fun t => .ok { t with retentionPeriod := .indefinite }

end Apply

namespace DatabaseRecord

def onDatabases (f : Repository DatabaseSchema → Apply (Repository DatabaseSchema)) (c : DatabaseCatalog) :
    Apply DatabaseCatalog := do
  let databases ← f c.databases
  .ok { c with databases }

end DatabaseRecord
end VarveDB.Catalog
