import VarveDB.Catalog.Database

/-! Deleting databases and tables: the operations, and the marks that their records leave. -/
namespace VarveDB.Catalog
open Library DatabaseCatalog Repository

inductive HardDeletionTime where
  | never
  | default
  | timestamp (time : Int)
  | now

variable (c : DatabaseCatalog) (now : Int) (default : Nat) (dbName tableName : String) (deletionTime : Int)

def HardDeletionTime.asTime : HardDeletionTime → Option Int
  | .never => none
  | .default => some (now + default)
  | .timestamp time => some time
  | .now => some now

def DeletionScope.asOption : DeletionScope → Option DeletionScope
  | .dataAndCatalog => none
  | scope => some scope

def resolveHardDeleteTime (existing : Option Int) : HardDeletionTime → Option Int
  | .default => existing <|> HardDeletionTime.default.asTime now default
  | time => time.asTime now default

def internalDbName : String := "_internal"

def activeDatabase : Except CatalogError DatabaseSchema :=
  if dbName = internalDbName then .error .cannotModifyInternalDatabase
  else match c.databases.getByName dbName with
    | none => .error (.databaseNotFound dbName)
    | some db => if db.deleted then .error (.alreadyDeleted dbName) else .ok db

def activeTable : Except CatalogError (DatabaseSchema × TableDefinition) := do
  let db ← activeDatabase c dbName
  match db.tables.getByName tableName with
  | none => .error (.tableNotFound dbName tableName)
  | some table => if table.deleted then .error (.alreadyDeleted tableName) else .ok (db, table)

/-- `SoftDeleteDatabaseOp::prepare`: a deleted database can be deleted again for another time. -/
def prepareSoftDeleteDatabase (databaseName : String) (deletionTime : Int) (hardDeleteTime : Option Int)
    (hardDeleteScope : Option DeletionScope) : Except CatalogError SoftDeleteDatabase :=
  if databaseName = internalDbName then .error .cannotDeleteInternalDatabase
  else match c.databases.getByName databaseName with
    | none => .error (.notFound databaseName)
    | some db =>
      if db.deleted ∧ db.hardDeleteTime = hardDeleteTime then .error (.alreadyDeleted databaseName)
      else .ok ⟨db.id, deletionTime, hardDeleteTime, hardDeleteScope⟩

def prepareSoftDeleteTable (hardDeleteTime : Option Int) (hardDeleteScope : Option DeletionScope) :
    Except CatalogError SoftDeleteTable := do
  let (db, table) ← activeTable c dbName tableName
  if table.deleted ∧ table.hardDeleteTime = hardDeleteTime then .error (.alreadyDeleted tableName)
  else .ok ⟨db.id, table.tableId, deletionTime, hardDeleteTime, hardDeleteScope⟩

def prepareHardDeleteDatabase (dbId : Nat) : Except CatalogError HardDeleteDatabase :=
  match c.databases.getById dbId with
  | none => .error (.databaseNotFound s!"db_id={dbId}")
  | some db => if db.name = internalDbName then .error .cannotDeleteInternalDatabase else .ok ⟨dbId⟩

def prepareHardDeleteTable (dbId tableId : Nat) : Except CatalogError HardDeleteTable :=
  match c.databases.getById dbId with
  | none => .error (.databaseNotFound s!"db_id={dbId}")
  | some db =>
    if db.name = internalDbName then .error .cannotModifyInternalDatabase
    else match db.tables.getById tableId with
      | none => .error (.tableNotFound db.name s!"table_id={tableId}")
      | some _ => .ok ⟨dbId, tableId⟩

def softDeleteDatabase (time : HardDeletionTime) (scope : DeletionScope) : Except CatalogError SoftDeleteDatabase :=
  if dbName = internalDbName then .error .cannotDeleteInternalDatabase
  else
    let existing := c.databases.getByName dbName
    let hardDeleteTime := resolveHardDeleteTime now default (existing.bind DatabaseSchema.hardDeleteTime) time
    if existing.any fun db => db.deleted && scope.asOption ≠ db.hardDeleteScope then .error (.alreadyDeleted dbName)
    else prepareSoftDeleteDatabase c dbName now hardDeleteTime scope.asOption

def softDeleteTable (time : HardDeletionTime) (scope : DeletionScope) : Except CatalogError SoftDeleteTable :=
  let existing := (c.databases.getByName dbName).bind fun db => db.tables.getByName tableName
  let hardDeleteTime := resolveHardDeleteTime now default (existing.bind TableDefinition.hardDeleteTime) time
  prepareSoftDeleteTable c dbName tableName now hardDeleteTime scope.asOption

variable {r : SoftDeleteDatabase}

section Prepared
variable {c : DatabaseCatalog} {now : Int} {default : Nat} {dbName tableName : String} {time : HardDeletionTime}
  {scope : DeletionScope}

/-- A database is deleted, or deleted again for another time. -/
theorem of_softDeleteDatabase (h : softDeleteDatabase c now default dbName time scope = .ok r) :
    ∃ db, c.databases.getByName dbName = some db ∧ r.databaseId = db.id ∧
      r.hardDeletionTimeNs = resolveHardDeleteTime now default db.hardDeleteTime time := by
  unfold softDeleteDatabase prepareSoftDeleteDatabase at h
  split_ifs at h
  simp only at h
  split_ifs at h
  split at h
  · cases h
  · next db hdb =>
    split_ifs at h
    cases h
    exact ⟨db, hdb, rfl, by rw [hdb]; rfl⟩

/-- Neither the database nor the table may be deleted before. -/
theorem of_softDeleteTable {r : SoftDeleteTable}
    (h : softDeleteTable c now default dbName tableName time scope = .ok r) :
    ∃ db table, c.databases.getByName dbName = some db ∧ db.deleted = false ∧
      db.tables.getByName tableName = some table ∧
      table.deleted = false ∧ r.databaseId = db.id ∧ r.tableId = table.tableId ∧
      r.hardDeletionTimeNs = resolveHardDeleteTime now default table.hardDeleteTime time := by
  obtain ⟨⟨db, table⟩, hactive, h⟩ := bind_eq_ok.mp h
  obtain ⟨db', hdb', htable⟩ := bind_eq_ok.mp hactive
  unfold activeDatabase at hdb'
  split_ifs at hdb'
  cases hdb : c.databases.getByName dbName with
  | none => simp [hdb] at hdb'
  | some db₀ =>
    simp only [hdb] at hdb'
    split_ifs at hdb' with hlive
    obtain rfl := Except.ok.inj hdb'
    cases hname : db₀.tables.getByName tableName with
    | none => simp [hname] at htable
    | some table₀ =>
      simp only [hname] at htable
      split_ifs at htable with hlive'
      cases htable
      simp only [hdb, Option.bind_some, hname] at h
      split_ifs at h
      cases h
      exact ⟨_, _, rfl, by simpa using hlive, hname, by simpa using hlive', rfl, rfl, rfl⟩

end Prepared

inductive Target where
  | database (dbId : Nat)
  | table (dbId tableId : Nat)
  deriving DecidableEq

namespace Target

def dbId : Target → Nat
  | database dbId => dbId
  | table dbId _ => dbId

def ownId : Target → Nat
  | database dbId => dbId
  | table _ tableId => tableId

end Target

structure Mark where
  id : Nat
  deleted : Bool
  hardDeleteTime : Option Int
  deriving DecidableEq

def DatabaseSchema.mark (db : DatabaseSchema) : Mark := ⟨db.id, db.deleted, db.hardDeleteTime⟩

def TableDefinition.mark (table : TableDefinition) : Mark := ⟨table.tableId, table.deleted, table.hardDeleteTime⟩

def Mark.delete (m : Mark) (hardDeleteTime : Option Int) : Mark := { m with deleted := true, hardDeleteTime }

def DatabaseCatalog.mark : Target → Option Mark
  | .database dbId => (c.databases.getById dbId).map DatabaseSchema.mark
  | .table dbId tableId => (c.databases.getById dbId).bind fun db =>
      (db.tables.getById tableId).map TableDefinition.mark

theorem DatabaseCatalog.mark_database_isSome {c : DatabaseCatalog} {dbId tableId : Nat} {m : Mark}
    (h : c.mark (.table dbId tableId) = some m) : ∃ m', c.mark (.database dbId) = some m' := by
  obtain ⟨db, hdb, -⟩ := Option.bind_eq_some_iff.mp h
  exact ⟨db.mark, by rw [mark, hdb, Option.map_some]⟩

section Marks
variable {c c' : DatabaseCatalog}

theorem mark_updated {dbId : Nat} {db : DatabaseSchema} {final : DatabaseCatalog}
    (hfinal : (.ok final : Apply DatabaseCatalog) = .ok c')
    (hupdate : applied (c.databases.update dbId db) = .ok final.databases) (x : Target) :
    x.dbId ≠ dbId ∧ c'.mark x = c.mark x ∨ x = .database dbId ∧ c'.mark x = some db.mark ∨
      ∃ t, x = .table dbId t ∧ c'.mark x = (db.tables.getById t).map TableDefinition.mark := by
  cases hfinal
  have h := (of_update hupdate).1
  cases x with
  | database d | table d => by_cases hd : d = dbId <;> simp [mark, h, Target.dbId, hd]

private theorem mark_softDeletedTable (tables : Repository TableDefinition) (tableId : Nat) (t : TableDefinition)
    (hardDeleteTime : Option Int) (scope : Option DeletionScope) :
    (softDeletedTable tables tableId t deletionTime hardDeleteTime scope).mark = t.mark.delete hardDeleteTime := rfl

private theorem mark_deleteTables {ids : List Nat} {tables tables' : Repository TableDefinition}
    (hnodup : ids.Nodup) (h : ids.foldlM r.deleteTable tables = .ok tables') (tableId : Nat) :
    (tables'.getById tableId).map TableDefinition.mark =
      ((tables.getById tableId).map TableDefinition.mark).map fun m =>
      if tableId ∈ ids then m.delete r.hardDeletionTimeNs else m := by
  induction ids generalizing tables with
  | nil =>
    cases h
    simp [Function.comp_def]
  | cons id ids ih =>
    obtain ⟨mid, hmid, hrest⟩ := bind_eq_ok.mp h
    obtain ⟨hfresh, hnodup⟩ := List.nodup_cons.mp hnodup
    rw [ih hnodup hrest]
    have hstep : (mid.getById tableId).map TableDefinition.mark =
        ((tables.getById tableId).map TableDefinition.mark).map fun m =>
        if tableId = id then m.delete r.hardDeletionTimeNs else m := by
      unfold SoftDeleteDatabase.deleteTable at hmid
      cases hid : tables.getById id with
      | none =>
        rw [hid] at hmid
        cases hmid
        by_cases heq : tableId = id
        · rw [heq, hid]
          rfl
        · simp [heq, Function.comp_def]
      | some table =>
        simp only [hid] at hmid
        rw [(of_update hmid).1, getById_updated]
        by_cases heq : tableId = id
        · simp [heq, hid, mark_softDeletedTable]
        · simp [heq, Function.comp_def]
    rw [hstep, Option.map_map]
    refine congrArg (Option.map · _) (funext fun m => ?_)
    by_cases heq : tableId = id
    · simp [heq, hfresh]
    · simp [heq]

/-- Deleting a database marks it, and those of its tables that were not deleted. -/
theorem mark_softDeleteDatabase (h : r.apply c = .ok c') (x : Target) : c'.mark x = (c.mark x).map fun m =>
      if x = .database r.databaseId ∨ x.dbId = r.databaseId ∧ m.deleted = false then m.delete r.hardDeletionTimeNs
        else m := by
  obtain ⟨db, hdb, h⟩ := bind_eq_ok.mp h
  obtain ⟨tokenCatalog, -, h⟩ := bind_eq_ok.mp h
  obtain ⟨tables, htables, h⟩ := bind_eq_ok.mp h
  obtain ⟨triggers, -, h⟩ := bind_eq_ok.mp h
  obtain ⟨databases, hdatabases, h⟩ := bind_eq_ok.mp h
  have hold : c.databases.getById r.databaseId = some db := getById_of_requireById hdb
  rcases mark_updated h hdatabases x with ⟨hx, heq⟩ | ⟨rfl, heq⟩ | ⟨t, rfl, heq⟩ <;>
    rw [heq]
  · have hne : x ≠ .database r.databaseId := fun heq => hx (by rw [heq]; rfl)
    simp [hx, hne]
  · simp [mark, hold, DatabaseSchema.mark, Mark.delete]
  · have hnodup : (db.tables.idsWhere fun t => !t.deleted).Nodup :=
      db.tables.repo.distinct.sublist (List.filter_sublist.map _)
    simp only [mark, hold, Option.bind_some]
    rw [mark_deleteTables hnodup htables]
    cases ht : db.tables.getById t with
    | none => rfl
    | some table =>
      have hmem : t ∈ (db.tables.idsWhere fun t => !t.deleted) ↔ table.deleted = false := by
        simp only [idsWhere, List.mem_map, List.mem_filter]
        constructor
        · rintro ⟨⟨id, table'⟩, ⟨hmem, hlive⟩, rfl⟩
          have hsame : db.tables.getById id = some table' := KeyedList.lookup_eq_some.mpr hmem
          rw [ht, Option.some.injEq] at hsame
          simpa [hsame] using hlive
        · intro hlive
          exact ⟨(t, table), ⟨KeyedList.lookup_eq_some.mp ht, by simp [hlive]⟩, rfl⟩
      simp [hmem, TableDefinition.mark, Target.dbId]

theorem mark_softDeleteTable {r : SoftDeleteTable} (h : DatabaseRecord.onDatabases r.apply c = .ok c') (x : Target) :
    c'.mark x = (c.mark x).map fun m => if x = .table r.databaseId r.tableId then m.delete r.hardDeletionTimeNs
      else m := by
  obtain ⟨databases, happly, hc⟩ := bind_eq_ok.mp h
  obtain ⟨db, hdb, h⟩ := bind_eq_ok.mp happly
  obtain ⟨table, htable, h⟩ := bind_eq_ok.mp h
  obtain ⟨tables, htables, h⟩ := bind_eq_ok.mp h
  have hold : c.databases.getById r.databaseId = some db := getById_of_requireById hdb
  have htable : db.tables.getById r.tableId = some table := getById_of_requireById htable
  rcases mark_updated hc h x with ⟨hx, heq⟩ | ⟨rfl, heq⟩ | ⟨t, rfl, heq⟩ <;> rw [heq]
  · have hne : x ≠ .table r.databaseId r.tableId := fun heq => hx (by rw [heq]; rfl)
    simp [hne]
  · simp [mark, hold, DatabaseSchema.mark]
  · simp only [mark, hold, Option.bind_some]
    rw [(of_update htables).1, getById_updated]
    by_cases ht : t = r.tableId
    · simp [ht, htable, mark_softDeletedTable]
    · simp [ht, Function.comp_def]

/-- Removing a database for good leaves the marks, or takes away its own or those of its tables. -/
theorem mark_hardDeleteDatabase {r : HardDeleteDatabase} (h : r.apply c = .ok c') (x : Target) :
    c'.mark x = c.mark x ∨ x.dbId = r.dbId ∧ c'.mark x = none := by
  obtain ⟨db, hdb, h⟩ := bind_eq_ok.mp h
  have hold : c.databases.getById r.dbId = some db := getById_of_requireById hdb
  split at h
  · obtain ⟨tokenCatalog, -, ⟨⟩⟩ := bind_eq_ok.mp h
    by_cases hx : x.dbId = r.dbId
    · refine .inr ⟨hx, ?_⟩
      cases x <;> obtain rfl := hx <;> simp [mark]
    · refine .inl ?_
      cases x <;> simp_all [mark, Target.dbId]
  · obtain ⟨databases, hdatabases, h⟩ := bind_eq_ok.mp h
    rcases mark_updated h hdatabases x with ⟨-, heq⟩ | ⟨rfl, heq⟩ | ⟨t, rfl, heq⟩
    · exact .inl heq
    · exact .inl (heq.trans (by simp [mark, hold, DatabaseSchema.mark]))
    · exact .inr ⟨rfl, heq⟩
  · cases h
    exact .inl rfl

theorem mark_hardDeleteTable {r : HardDeleteTable} (h : DatabaseRecord.onDatabases r.apply c = .ok c') (x : Target) :
    c'.mark x = c.mark x ∨ x = .table r.dbId r.tableId ∧ c'.mark x = none := by
  obtain ⟨databases, happly, hc⟩ := bind_eq_ok.mp h
  obtain ⟨db, hdb, h⟩ := bind_eq_ok.mp happly
  obtain ⟨table, -, h⟩ := bind_eq_ok.mp h
  have hold : c.databases.getById r.dbId = some db := getById_of_requireById hdb
  split at h
  · rcases mark_updated hc h x with ⟨-, heq⟩ | ⟨rfl, heq⟩ | ⟨t, rfl, heq⟩
    · exact .inl heq
    · exact .inl (heq.trans (by simp [mark, hold, DatabaseSchema.mark]))
    · by_cases ht : t = r.tableId
      · exact .inr ⟨by rw [ht], heq.trans (by simp [ht])⟩
      · exact .inl (heq.trans (by simp [mark, hold, ht]))
  · cases h
    cases hc
    exact .inl rfl
  · cases h
    cases hc
    exact .inl rfl

/-- A new database is not deleted and has no tables. -/
theorem mark_createDatabase {r : CreateDatabase} (h : DatabaseRecord.onDatabases r.apply c = .ok c')
    (hfresh : c.mark (.database r.databaseId) = none) (x : Target) :
    c'.mark x = if x = .database r.databaseId then some ⟨r.databaseId, false, none⟩ else c.mark x := by
  obtain ⟨databases, happly, ⟨⟩⟩ := bind_eq_ok.mp h
  have hinserted := eq_inserted_of_insert happly
  have hold : c.databases.getById r.databaseId = none := Option.map_eq_none_iff.mp hfresh
  cases x with
  | database d =>
    by_cases hd : d = r.databaseId <;>
      simp [mark, hinserted, hd, DatabaseSchema.mark, DatabaseSchema.new]
  | table d t =>
    by_cases hd : d = r.databaseId <;>
      simp [mark, hinserted, hd, hold, DatabaseSchema.new]

theorem mark_createTable {r : CreateTable} (h : DatabaseRecord.onDatabases r.apply c = .ok c') (x : Target) :
    c'.mark x = if x = .table r.databaseId r.tableId then some ⟨r.tableId, false, none⟩ else c.mark x := by
  obtain ⟨databases, happly, hc⟩ := bind_eq_ok.mp h
  obtain ⟨db, hdb, h⟩ := bind_eq_ok.mp happly
  obtain ⟨db', hdb', h⟩ := bind_eq_ok.mp h
  obtain ⟨tables, htables, hdb'⟩ := bind_eq_ok.mp hdb'
  cases hdb'
  have hold : c.databases.getById r.databaseId = some db := getById_of_requireById hdb
  rcases mark_updated hc h x with ⟨hx, heq⟩ | ⟨rfl, heq⟩ | ⟨t, rfl, heq⟩ <;> rw [heq]
  · have hne : x ≠ .table r.databaseId r.tableId := fun heq => hx (by rw [heq]; rfl)
    simp [hne]
  · simp [mark, hold, DatabaseSchema.mark]
  · by_cases ht : t = r.tableId <;>
      simp [mark, hold, eq_inserted_of_insert htables, ht, CreateTable.newTable,
        TableDefinition.newEmpty, TableDefinition.mark]

end Marks

end VarveDB.Catalog
