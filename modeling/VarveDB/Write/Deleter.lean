import VarveDB.Catalog.Deletion
import VarveDB.Library.Runs

/-! The manager of hard deletions: a queue of tasks with the times at which they are due. -/
namespace VarveDB.Deleter
open Library Runs Catalog

structure Config where
  deleteGracePeriod : Nat
  objectDeleter : Bool
  defaultHardDeleteDuration : Nat

/-- The tasks for a database or a table: `NotifyDeleteDatabase` and `NotifyDeleteTable` hand it to the
object deleter, `DeleteDatabase` and `DeleteTable` remove it from the catalog. -/
inductive Task where
  | notifyDelete (target : Target)
  | delete (target : Target)
  deriving DecidableEq

abbrev Queue := List (Int × Task)

variable (cfg : Config) (c : DatabaseCatalog) (target : Target) (s : State) (m : Manager)

def tasksFor (time : Int) : Queue :=
  (if cfg.objectDeleter then [(time, .notifyDelete target)] else []) ++ [(time + cfg.deleteGracePeriod, .delete target)]

def markedTasks (m : Mark) : Queue :=
  if m.deleted then m.hardDeleteTime.elim [] (tasksFor cfg target) else []

def initialTasks : Queue :=
  c.databases.repo.values.flatMap fun db => markedTasks cfg (.database db.id) db.mark ++
    db.tables.repo.values.flatMap fun table => markedTasks cfg (.table db.id table.tableId) table.mark

structure Manager where
  tasks : Queue
  subscribed : Bool
  inbox : List Target
  current : Option (Int × Task)

def Manager.pending : Queue := m.current.toList ++ m.tasks

def Manager.handleEvent : Manager :=
  { m with tasks := m.tasks ++ ((c.mark target).bind Mark.hardDeleteTime).elim [] (tasksFor cfg target) }

structure HandOver where
  target : Target
  now : Int
  mark : Option Mark
  dbMark : Option Mark
  together : Bool
  deriving DecidableEq

structure Removal where
  target : Target
  now : Int
  mark : Option Mark
  deriving DecidableEq

/-- `unsent` are the events of the last update, which holds the permit until they are handled; the last five fields
record what has happened. -/
structure State where
  catalog : DatabaseCatalog
  now : Int
  unsent : List Target
  manager : Option Manager
  /-- Every database and table there ever was: ids are not used again. -/
  seen : List Target
  together : List Target
  handed : List HandOver
  removed : List Removal
  executed : Queue

inductive Action where
  | tick (duration : Nat)
  | createDatabase (r : CreateDatabase)
  | createTable (r : CreateTable)
  | softDeleteDatabase (dbName : String) (time : HardDeletionTime) (scope : DeletionScope)
  | softDeleteTable (dbName tableName : String) (time : HardDeletionTime) (scope : DeletionScope)
  | broadcast
  | start
  | subscribe
  | handle
  | pop (i : Nat)
  /-- The update of the catalog that a task asks for may fail; the task is not tried again. -/
  | execute (persists : Bool)
  | stop

def State.permit : Bool := s.unsent.isEmpty && s.manager.all fun m => m.inbox.isEmpty

def cascaded (dbId : Nat) : List Target :=
  (c.databases.getById dbId).elim [] fun db => (db.tables.idsWhere fun t => !t.deleted).map (.table dbId)

def hardDelete : Target → Option DatabaseCatalog
  | .database dbId => (prepareHardDeleteDatabase c dbId).toOption.bind fun r => (r.apply c).toOption
  | .table dbId tableId =>
    (prepareHardDeleteTable c dbId tableId).toOption.bind fun r => (DatabaseRecord.onDatabases r.apply c).toOption

namespace State

def execute (time : Int) (task : Task) (persists : Bool) : Option State :=
  let done := { s with manager := some { m with current := none }, executed := s.executed ++ [(time, task)] }
  match task with
  | .notifyDelete target =>
    some { done with handed := s.handed ++
      [⟨target, s.now, s.catalog.mark target, s.catalog.mark (.database target.dbId), s.together.contains target⟩] }
  | .delete target =>
    if s.permit then match if persists then hardDelete s.catalog target else none with
      | none => some done
      | some catalog => some { done with catalog, removed := s.removed ++ [⟨target, s.now, s.catalog.mark target⟩] }
    else none

def step : Action → Option State
  | .tick duration => some { s with now := s.now + duration }
  | .createDatabase r =>
    if .database r.databaseId ∈ s.seen then none
    else (DatabaseRecord.onDatabases r.apply s.catalog).toOption.map fun catalog =>
      { s with catalog, seen := s.seen ++ [.database r.databaseId] }
  | .createTable r =>
    if .table r.databaseId r.tableId ∈ s.seen then none
    else (DatabaseRecord.onDatabases r.apply s.catalog).toOption.map fun catalog =>
      { s with catalog, seen := s.seen ++ [.table r.databaseId r.tableId] }
  | .softDeleteDatabase dbName time scope =>
    if s.permit then
      match softDeleteDatabase s.catalog s.now cfg.defaultHardDeleteDuration dbName time scope with
      | .error _ => some s
      | .ok r => (r.apply s.catalog).toOption.map fun catalog =>
        { s with
          catalog, unsent := [.database r.databaseId], together := s.together ++ cascaded s.catalog r.databaseId }
    else none
  | .softDeleteTable dbName tableName time scope =>
    if s.permit then
      match softDeleteTable s.catalog s.now cfg.defaultHardDeleteDuration dbName tableName time scope with
      | .error _ => some s
      | .ok r => (DatabaseRecord.onDatabases r.apply s.catalog).toOption.map fun catalog =>
        { s with catalog, unsent := [.table r.databaseId r.tableId] }
    else none
  | .broadcast => match s.unsent with
    | [] => none
    | target :: unsent => some { s with unsent, manager := s.manager.map fun m =>
        if m.subscribed then { m with inbox := m.inbox ++ [target] } else m }
  | .start => match s.manager with
    | none => some { s with manager := some ⟨initialTasks cfg s.catalog, false, [], none⟩ }
    | some _ => none
  | .subscribe => s.manager.map fun m => { s with manager := some { m with subscribed := true } }
  | .handle => s.manager.bind fun m => match m.inbox with
    | [] => none
    | target :: inbox => some { s with manager := some ({ m with inbox }.handleEvent cfg s.catalog target) }
  | .pop i => s.manager.bind fun m => m.tasks[i]?.bind fun task =>
    if m.subscribed ∧ m.current = none ∧ task.1 ≤ s.now ∧ ∀ other ∈ m.tasks, task.1 ≤ other.1 then
      some { s with manager := some { m with tasks := m.tasks.eraseIdx i, current := some task } }
    else none
  | .execute persists => s.manager.bind fun m => m.current.bind fun task => s.execute m task.1 task.2 persists
  | .stop => s.manager.map fun _ => { s with manager := none }

end State

def Due (x : Target) (time : Int) : Prop := ∃ id, c.mark x = some ⟨id, true, some time⟩

/-- A deleted database gets no other time; nothing gets one between the scan and the subscription, nor a database with
tables while a manager runs; tables deleted before their database are due before it is removed. -/
def Settled : Action → Prop
  | .softDeleteDatabase dbName time _ => ∀ db ∈ s.catalog.databases.getByName dbName,
    (db.deleted = true → db.hardDeleteTime = none) ∧
    ∀ t ∈ resolveHardDeleteTime s.now cfg.defaultHardDeleteDuration db.hardDeleteTime time,
      (∀ m ∈ s.manager, m.subscribed = true ∧ ∀ table ∈ db.tables.repo.values, table.deleted = true) ∧
      ∀ table ∈ db.tables.repo.values, table.deleted = true → ∀ t' ∈ table.hardDeleteTime,
        t' < t + cfg.deleteGracePeriod
  | .softDeleteTable _ _ time _ => time.asTime s.now cfg.defaultHardDeleteDuration ≠ none → ∀ m ∈ s.manager,
      m.subscribed = true
  | .start => s.unsent = []
  | _ => True

structure State.Follows (cfg : Config) (s : State) : Prop where
  handed : ∀ h ∈ s.handed, ∃ id t, h.mark = some ⟨id, true, some t⟩ ∧ t ≤ h.now
  removed : ∀ r ∈ s.removed, ∃ id t, r.mark = some ⟨id, true, some t⟩ ∧ t + cfg.deleteGracePeriod ≤ r.now
  together : ∀ h ∈ s.handed, h.together = true → ∃ id t, h.dbMark = some ⟨id, true, some t⟩ ∧ t ≤ h.now
  scheduled : ∀ m ∈ s.manager, m.subscribed = true → m.inbox = [] → s.unsent = [] → ∀ x t, Due s.catalog x t →
    ∀ task ∈ tasksFor cfg x t, task ∈ m.tasks ∨ m.current = some task ∨ task ∈ s.executed

end VarveDB.Deleter
