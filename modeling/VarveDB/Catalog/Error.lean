import VarveDB.Catalog.FeatureLevel
import VarveDB.Schema.Basic

/-! How catalog computations fail. -/
namespace VarveDB.Catalog
open Schema

/-- How a catalog computation ends without a result: an error for its caller, or a panic. -/
inductive Failure (ε : Type) where
  | error (e : ε)
  | panic (message : String)
  deriving DecidableEq

inductive StorageMode where
  | parquet
  | pachaTree
  | parquetAndPachaTree
  deriving DecidableEq

inductive CatalogError where
  | alreadyExists
  | notFound (what : String)
  | alreadyDeleted (what : String)
  | databaseNotFound (dbName : String)
  | tableNotFound (dbName tableName : String)
  | cannotDeleteInternalDatabase
  | cannotModifyInternalDatabase
  | invalidColumnType (columnName : String) (expected got : InfluxColumnType)
  | reservedColumn (name : String)
  | duplicateColumn (name : String) (existing : InfluxColumnType)
  | tooManyColumns (tableName : String) (attempted limit : Nat)
  | tooManyTagColumns (tableName : String) (attempted limit : Nat)
  | tooManyTables (current limit : Nat)
  | tooManyDbs (limit : Nat)
  | tooManyFields (fieldFamily : String) (limit : Nat)
  | tooManyFieldFamilies (limit : Nat)
  | legacyColumnIdsExhausted (tableName : String) (storageMode : StorageMode)
  | tokenNameAlreadyExists (name : String)
  | tokenHashAlreadyExists
  | missingAdminTokenToUpdate
  | noCatalogChange (details : String)
  | internal (details : String)
  | invalidConfiguration (message : String)
  | invalidNodeRegistration
  | nodeAlreadyStopped (nodeId : String)
  | nodeNotFullyStopped (nodeId currentState : String)
  | nodeModeNotRemovable (nodeId : String)
  | nodeInQueryGroup (nodeId queryGroupName : String) (queryGroupId : Nat)
  | invalidStopAck (nodeId currentState : String)
  | invalidUnregister (nodeId currentState : String)
  | idempotentNoOp
  | recordExceedsCommittedFeatureLevel (recordId : Nat) (committed : FeatureLevel)
  | nodeBelowCommittedFeatureLevel (committed localLevel : FeatureLevel)
  deriving DecidableEq

def columnTypeText : InfluxColumnType → String
  | .tag => "iox::column_type::tag"
  | .field .float => "iox::column_type::field::float"
  | .field .integer => "iox::column_type::field::integer"
  | .field .uInteger => "iox::column_type::field::uinteger"
  | .field .string => "iox::column_type::field::string"
  | .field .boolean => "iox::column_type::field::boolean"
  | .timestamp => "iox::column_type::timestamp"

def StorageMode.text : StorageMode → String
  | parquet => "Parquet"
  | pachaTree => "PachaTree"
  | parquetAndPachaTree => "ParquetAndPachaTree"

def CatalogError.message : CatalogError → String
  | alreadyExists => "attempted to create a resource that already exists"
  | notFound what => s!"the requested resource was not found: {what}"
  | alreadyDeleted what => s!"attempted to modify resource that was already deleted: {what}"
  | databaseNotFound dbName => s!"Database not found {dbName}"
  | tableNotFound dbName tableName => s!"Table {tableName} not in DB schema for {dbName}"
  | cannotDeleteInternalDatabase => "cannot delete internal db"
  | cannotModifyInternalDatabase => "cannot modify internal db"
  | invalidColumnType name expected got =>
    s!"invalid column type for column '{name}', expected {columnTypeText expected}, got {columnTypeText got}"
  | reservedColumn name => s!"'{name}' is a reserved column"
  | duplicateColumn name existing =>
    s!"cannot add column {name} because it already exists with type {columnTypeText existing}"
  | tooManyColumns table attempted limit =>
    s!"Schema update for table '{table}' would exceed the column limit: " ++
      s!"proposed schema update would have {attempted} columns, but the limit is {limit}"
  | tooManyTagColumns table attempted limit =>
    s!"Schema update for table '{table}' would exceed the tag column limit: " ++
      s!"proposed schema would have {attempted} tag columns, but the limit is {limit}"
  | tooManyTables current limit =>
    "Update to schema would exceed number of tables limit: " ++
      s!"attempted to create table but already have {current} table(s) (limit: {limit})"
  | tooManyDbs limit => s!"Adding a new database would exceed limit of {limit} databases"
  | tooManyFields family limit =>
      s!"Update to schema would exceed the field limit ({limit}) for field family '{family}'"
  | tooManyFieldFamilies limit => s!"Update to schema would exceed the field family limit of {limit}"
  | legacyColumnIdsExhausted table mode =>
    s!"table '{table}' in storage mode {mode.text} cannot allocate more legacy column IDs"
  | tokenNameAlreadyExists name => s!"token name already exists, {name}"
  | tokenHashAlreadyExists => "token hash already exists"
  | missingAdminTokenToUpdate => "missing admin token, cannot update"
  | noCatalogChange details => s!"no catalog changes to apply: {details}"
  | internal details => s!"catalog internal error: {details}"
  | invalidConfiguration message => s!"invalid configuration provided: {message}"
  | invalidNodeRegistration => "invalid node registration"
  | nodeAlreadyStopped nodeId => s!"tried to stop a node ({nodeId}) that is already stopped"
  | nodeNotFullyStopped nodeId state =>
    s!"node '{nodeId}' is not fully stopped (current state: {state}); run \"stop node\" first"
  | nodeModeNotRemovable nodeId => s!"node '{nodeId}' has compact mode and cannot be removed"
  | nodeInQueryGroup nodeId name id =>
    s!"cannot remove node '{nodeId}' because it is a member of query group '{name}' (id {id})"
  | invalidStopAck nodeId state => s!"invalid stop ack for node '{nodeId}' (current state: {state})"
  | invalidUnregister nodeId state => s!"invalid unregister for node '{nodeId}' (current state: {state})"
  | idempotentNoOp => "idempotent no-op"
  | recordExceedsCommittedFeatureLevel id committed =>
    s!"record id {id} exceeds the cluster's committed feature level (core={committed.core}, " ++
      s!"enterprise={committed.enterprise}); the cluster must finish upgrading before this operation is available"
  | nodeBelowCommittedFeatureLevel committed level =>
    s!"this node's feature level (core={level.core}, enterprise={level.enterprise}) is below the cluster's " ++
      s!"committed level (core={committed.core}, enterprise={committed.enterprise}); upgrade required"

abbrev Apply := Except (Failure String)

def withContext {α : Type} (context : String) : Except (Failure CatalogError) α → Apply α
  | .ok a => .ok a
  | .error (.error e) => .error (.error (context ++ e.message))
  | .error (.panic m) => .error (.panic m)

theorem withContext_eq_ok {α : Type} {context : String} {x : Except (Failure CatalogError) α} {a : α} :
    withContext context x = .ok a ↔ x = .ok a := by
  rcases x with (_ | _) | _ <;> simp [withContext]

end VarveDB.Catalog
