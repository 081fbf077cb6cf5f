import VarveDB.Library.KeyedList
import VarveDB.Library.Runs
import VarveDB.Write.PersistedFiles

/-! A node applying compaction notices to its own file list, over crashes and restarts. -/
namespace VarveDB.Compaction
open Library

structure CompactionNotice where
  nodeId : String
  dbId : Nat
  tableId : Nat
  mergedPath : String
  mergedSizeBytes : Nat
  mergedRowCount : Nat
  mergedChunkTime : Int
  mergedMinTime : Int
  mergedMaxTime : Int
  removedPaths : List String
  deriving DecidableEq

variable (notice : CompactionNotice)

namespace CompactionNotice

def table : TableKey := (notice.dbId, notice.tableId)

def mergedFile (id : Nat) : ParquetFile :=
  ⟨id, notice.mergedPath, notice.mergedSizeBytes, notice.mergedRowCount, notice.mergedChunkTime,
    notice.mergedMinTime, notice.mergedMaxTime⟩

end CompactionNotice

inductive Stage where
  | reserving
  | stamping (sequence : Nat)
  | persisting (snapshot : PersistedSnapshot)

structure Delivery where
  notice : CompactionNotice
  mergedId : Nat
  removed : List ParquetFile
  stage : Stage

namespace Delivery

def merged (c : Delivery) : ParquetFile := c.notice.mergedFile c.mergedId

def sequence (c : Delivery) : Option Nat := match c.stage with
  | .reserving => none
  | .stamping sequence => some sequence
  | .persisting snapshot => some snapshot.snapshotSequenceNumber

end Delivery

structure Process where
  persistedFiles : PersistedFiles
  nextFileId : Nat
  lastSnapshotSequenceNumber : Nat
  lastPersistedWalSequenceNumber : Nat
  deliveries : KeyedList Delivery.mergedId

namespace Process

def find (p : Process) (id : Nat) : Option Delivery := p.deliveries.entries.find? fun c => c.mergedId = id

def finish (p : Process) (id : Nat) : Process :=
  { p with deliveries := p.deliveries.retain fun c => c.mergedId ≠ id }

def advance (p : Process) (c : Delivery) (stage : Stage) : Process :=
  { p with deliveries := (p.deliveries.retain fun d => d.mergedId ≠ c.mergedId).insertNew { c with stage := stage } }

def restart (durable : List PersistedSnapshot) : Process where
  persistedFiles := PersistedFiles.newFromPersistedSnapshots durable
  nextFileId := (newestSnapshot durable).elim 0 PersistedSnapshot.nextFileId
  lastSnapshotSequenceNumber := (newestSnapshot durable).elim 0 PersistedSnapshot.snapshotSequenceNumber
  lastPersistedWalSequenceNumber := (newestSnapshot durable).elim 0 PersistedSnapshot.walFileSequenceNumber
  deliveries := .empty _

end Process

variable {p : Process} {c : Delivery} {id : Nat}

theorem Process.mem_of_find (h : p.find id = some c) : c ∈ p.deliveries :=
  List.mem_of_find?_eq_some h

theorem Process.mem_finish : c ∈ (p.finish id).deliveries ↔ c ∈ p.deliveries ∧ c.mergedId ≠ id := by
  simp [Process.finish]

theorem Process.mem_advance {d : Delivery} {stage : Stage} : d ∈ (p.advance c stage).deliveries ↔
      d ∈ p.deliveries ∧ d.mergedId ≠ c.mergedId ∨ d = { c with stage := stage } := by
  have hfresh : c.mergedId ∉ (p.deliveries.retain fun d => d.mergedId ≠ c.mergedId).entries.map Delivery.mergedId := by
    simp
  rw [Process.advance, KeyedList.mem_insertNew]
  simp only [KeyedList.mem_retain, decide_eq_true_eq]
  exact or_congr_right (and_iff_left hfresh)

def compactionSnapshot (nodeId : String) (sequence walSequence catalogSequence nextFileId : Nat) (table : TableKey)
    (merged : ParquetFile) (removed : List ParquetFile) : PersistedSnapshot where
  nodeId := nodeId
  nextFileId := nextFileId
  snapshotSequenceNumber := sequence
  walFileSequenceNumber := walSequence
  catalogSequenceNumber := catalogSequence
  parquetSizeBytes := merged.sizeBytes
  rowCount := merged.rowCount
  minTime := merged.minTime
  maxTime := merged.maxTime
  databases := [(table, [merged])]
  removedFiles := if removed = [] then [] else [(table, removed)]

variable {removed : List ParquetFile} {q wal cat next : Nat} {merged : ParquetFile} (s : Node) {table : TableKey}
  {nodeId : String}

theorem addedTo_compactionSnapshot (k : TableKey) :
    (compactionSnapshot nodeId q wal cat next table merged removed).addedTo k = if table = k then [merged] else [] := by
  simp [PersistedSnapshot.addedTo, compactionSnapshot, filesOf]

theorem removedFrom_compactionSnapshot (k : TableKey) :
    (compactionSnapshot nodeId q wal cat next table merged removed).removedFrom k = if table = k then removed else
      [] := by
  by_cases h : removed = [] <;> simp [PersistedSnapshot.removedFrom, compactionSnapshot, filesOf, h]

/-- A node: what is durable, its process if one runs, and a record of the notices delivered
to it and of those answered with success. -/
structure Node where
  nodeId : String
  durable : List PersistedSnapshot
  process : Option Process
  delivered : List CompactionNotice
  acknowledged : List CompactionNotice

/-- How a PUT of a manifest ends: stored and acknowledged, not stored, or stored without
the caller learning of it. -/
inductive PutResult where
  | ok
  | failed
  | unacknowledged
  deriving DecidableEq

inductive Action where
  | deliver (notice : CompactionNotice)
  | reserve (id : Nat)
  | stamp (id : Nat) (catalogSequence : Nat)
  | persist (id : Nat) (result : PutResult)
  | crash
  | restart

def Node.deliver (p : Process) (notice : CompactionNotice) : Node :=
  let merged := notice.mergedFile p.nextFileId
  let (added, removed, files) := p.persistedFiles.applyCompaction notice.table [merged] notice.removedPaths
  let p := { p with persistedFiles := files, nextFileId := p.nextFileId + 1 }
  if added = 0 ∧ removed = [] then
    { s with process := some p, delivered := s.delivered ++ [notice], acknowledged := s.acknowledged ++ [notice] }
  else
    { s with process := some { p with deliveries := p.deliveries.insertNew ⟨notice, merged.id, removed, .reserving⟩ }
             delivered := s.delivered ++ [notice] }

def Node.persist (p : Process) (c : Delivery) (snapshot : PersistedSnapshot) : PutResult → Node
  | .ok => { s with durable := putSnapshot s.durable snapshot, process := some (p.finish c.mergedId),
                    acknowledged := s.acknowledged ++ [c.notice] }
  | .failed => { s with process := some (p.finish c.mergedId) }
  | .unacknowledged =>
    { s with durable := putSnapshot s.durable snapshot, process := some (p.finish c.mergedId) }

/-- One step of the node. A notice that names another node is refused and changes nothing. -/
def step : Action → Option Node
  | .deliver notice => do
    let p ← s.process
    if notice.nodeId ≠ s.nodeId then some s else some (s.deliver p notice)
  | .reserve id => do
    let p ← s.process
    let c ← p.find id
    match c.stage with
    | .reserving =>
      let sequence := p.lastSnapshotSequenceNumber + 1
      some { s with process := some { p.advance c (.stamping sequence) with lastSnapshotSequenceNumber := sequence } }
    | _ => none
  | .stamp id catalogSequence => do
    let p ← s.process
    let c ← p.find id
    match c.stage with
    | .stamping sequence =>
      let snapshot := compactionSnapshot s.nodeId sequence p.lastPersistedWalSequenceNumber catalogSequence
        p.nextFileId c.notice.table c.merged c.removed
      some { s with process := some (p.advance c (.persisting snapshot)) }
    | _ => none
  | .persist id result => do
    let p ← s.process
    let c ← p.find id
    match c.stage with
    | .persisting snapshot => some (s.persist p c snapshot result)
    | _ => none
  | .crash => some { s with process := none }
  | .restart => match s.process with
    | none => some { s with process := some (Process.restart s.durable) }
    | some _ => none

end VarveDB.Compaction
