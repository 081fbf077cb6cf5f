import VarveDB.Library.IndexMap
import VarveDB.Write.ParquetFile

/-! The cluster-wide file index: the projection of the shared log, and its rollup snapshot. -/
namespace VarveDB
open Library

structure FileIndexDelta where
  nodeId : String
  dbId : Nat
  tableId : Nat
  snapshotSequence : Nat
  added : List ParquetFile
  removed : List String
  deriving DecidableEq

structure FileIndexLogEntry where
  sequence : Nat
  deltas : List FileIndexDelta
  deriving DecidableEq

structure SnapshotEntry where
  nodeId : String
  dbId : Nat
  tableId : Nat
  file : ParquetFile
  addedAt : Nat
  deriving DecidableEq

variable (e : SnapshotEntry)

namespace SnapshotEntry

def key : String × Nat × Nat × String := (e.nodeId, e.dbId, e.tableId, e.file.path)

def inTable (nodeId : String) (dbId tableId : Nat) : Bool :=
  e.nodeId == nodeId && e.dbId == dbId && e.tableId == tableId

end SnapshotEntry

structure FileIndexSnapshot where
  sequence : Nat
  files : List SnapshotEntry
  watermarks : List (String × Nat)
  persistedMaxTimes : List (String × Int)
  deriving DecidableEq

/-- The index. The per-node, per-database, per-table vectors are kept as one
list in insertion order; no operation reads across tables by position. -/
structure FileIndex where
  files : KeyedList SnapshotEntry.key
  sequence : Nat
  watermarks : KeyedList (Prod.fst : String × Nat → String)
  persistedMaxTimes : KeyedList (Prod.fst : String × Int → String)
  deriving DecidableEq

variable (inner : FileIndex) (ix : FileIndex)

namespace FileIndex

def new : FileIndex := ⟨.empty _, 0, .empty _, .empty _⟩

def applyDelta (sequence : Nat) (inner : FileIndex) (delta : FileIndexDelta) : FileIndex :=
  let kept := inner.files.retain fun e =>
    !(e.inTable delta.nodeId delta.dbId delta.tableId && delta.removed.contains e.file.path)
  { sequence := inner.sequence
    files := delta.added.foldl (fun table file =>
      table.insertNew ⟨delta.nodeId, delta.dbId, delta.tableId, file, sequence⟩) kept
    watermarks := inner.watermarks.raise delta.nodeId delta.snapshotSequence
    persistedMaxTimes := match (delta.added.map ParquetFile.maxTime).max? with
      | none => inner.persistedMaxTimes
      | some highest => inner.persistedMaxTimes.raise delta.nodeId highest }

def apply (entry : FileIndexLogEntry) : FileIndex :=
  if entry.sequence ≤ inner.sequence then inner
  else { entry.deltas.foldl (applyDelta entry.sequence) inner with sequence := entry.sequence }

def toSnapshot : FileIndexSnapshot :=
  ⟨inner.sequence, inner.files.entries, inner.watermarks.entries, inner.persistedMaxTimes.entries⟩

def restore (snapshot : FileIndexSnapshot) : FileIndex where
  files := snapshot.files.foldl KeyedList.insertNew inner.files
  watermarks := snapshot.watermarks.foldl (fun m p => m.raise p.1 p.2) inner.watermarks
  persistedMaxTimes := snapshot.persistedMaxTimes.foldl (fun m p => m.raise p.1 p.2) inner.persistedMaxTimes
  sequence := max inner.sequence snapshot.sequence

def replay (entries : List FileIndexLogEntry) : FileIndex := entries.foldl apply new

@[simp]
theorem sequence_new : new.sequence = 0 := rfl

theorem sequence_apply (e : FileIndexLogEntry) : (ix.apply e).sequence = max ix.sequence e.sequence := by
  unfold apply
  split
  · omega
  · simp only; omega

theorem apply_of_le {ix : FileIndex} {e : FileIndexLogEntry} (h : e.sequence ≤ ix.sequence) :
    ix.apply e = ix := if_pos h

theorem inTable_iff {e : SnapshotEntry} {nodeId : String} {dbId tableId : Nat} :
    e.inTable nodeId dbId tableId = true ↔ e.nodeId = nodeId ∧ e.dbId = dbId ∧ e.tableId = tableId := by
  simp [SnapshotEntry.inTable, and_assoc]

/-- A rollup snapshot restored into an empty index is that index again. -/
theorem restore_toSnapshot : new.restore ix.toSnapshot = ix := by
  obtain ⟨files, sequence, watermarks, times⟩ := ix
  simp only [restore, toSnapshot, new, FileIndex.mk.injEq]
  exact ⟨files.rebuild, Nat.zero_max _, watermarks.rebuild_raise, times.rebuild_raise⟩

theorem replay_append_singleton (es : List FileIndexLogEntry) (e : FileIndexLogEntry) :
    replay (es ++ [e]) = (replay es).apply e := by simp [replay]

end FileIndex
end VarveDB
