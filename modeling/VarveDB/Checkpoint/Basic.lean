import VarveDB.Wal.Node
import VarveDB.Write.PersistedFiles

/-! Snapshot checkpoints. -/
namespace VarveDB.Checkpoint
open Library List
open Wal (i64Min i64Max)

abbrev Entry := TableKey × ParquetFile

def entries (tables : List (TableKey × List ParquetFile)) : List Entry :=
  tables.flatMap fun table => table.2.map (table.1, ·)

theorem mem_entries {tables : List (TableKey × List ParquetFile)} {k : TableKey} {f : ParquetFile} :
    (k, f) ∈ entries tables ↔ f ∈ filesOf tables k := by
  simp only [entries, filesOf, mem_flatMap, mem_map, Prod.mk.injEq]
  refine exists_congr fun table => and_congr_right fun _ => ?_
  by_cases hk : table.1 = k <;> simp [hk]

/-- Months are counted from a fixed origin; node id and format version are left out. -/
structure PersistedSnapshotCheckpoint where
  yearMonth : Nat
  lastSnapshotSequenceNumber : Nat
  nextFileId : Option Nat
  walFileSequenceNumber : Nat
  catalogSequenceNumber : Nat
  parquetSizeBytes : Nat
  rowCount : Nat
  minTime : Int
  maxTime : Int
  databases : List Entry
  pendingRemovedFiles : List Entry
  deriving DecidableEq

variable (yearMonth : Nat)

namespace PersistedSnapshotCheckpoint

def new : PersistedSnapshotCheckpoint :=
  ⟨yearMonth, 0, none, 0, 0, 0, 0, i64Max, i64Min, [], []⟩

variable (c : PersistedSnapshotCheckpoint) (k : TableKey) (fileId : Nat)

def addFile (e : Entry) : PersistedSnapshotCheckpoint :=
  { c with
    parquetSizeBytes := c.parquetSizeBytes + e.2.sizeBytes
    rowCount := c.rowCount + e.2.rowCount
    minTime := min c.minTime e.2.minTime
    maxTime := max c.maxTime e.2.maxTime
    databases := c.databases ++ [e] }

def removeFile : Bool × PersistedSnapshotCheckpoint :=
  match c.databases.find? (fun e => e.1 = k ∧ e.2.id = fileId) with
  | none => (false, c)
  | some removed =>
    (true, { c with
      databases := c.databases.eraseP (fun e => e.1 = k ∧ e.2.id = fileId)
      parquetSizeBytes := c.parquetSizeBytes - removed.2.sizeBytes
      rowCount := c.rowCount - removed.2.rowCount })

def addPendingRemoved (e : Entry) : PersistedSnapshotCheckpoint :=
  { c with pendingRemovedFiles := c.pendingRemovedFiles ++ [e] }

def updateFromSnapshot (snapshot : PersistedSnapshot) : PersistedSnapshotCheckpoint :=
  { c with
    lastSnapshotSequenceNumber := snapshot.snapshotSequenceNumber
    nextFileId := some snapshot.nextFileId
    walFileSequenceNumber := snapshot.walFileSequenceNumber
    catalogSequenceNumber := snapshot.catalogSequenceNumber }

def recalculateTimeRange : PersistedSnapshotCheckpoint :=
  { c with
    minTime := c.databases.foldl (fun t e => min t e.2.minTime) i64Max
    maxTime := c.databases.foldl (fun t e => max t e.2.maxTime) i64Min }

def numbers : Nat × Nat × Option Nat × Nat × Nat :=
  (c.yearMonth, c.lastSnapshotSequenceNumber, c.nextFileId, c.walFileSequenceNumber, c.catalogSequenceNumber)

def merge (other : PersistedSnapshotCheckpoint) : PersistedSnapshotCheckpoint :=
  let added := other.databases.foldl addFile c
  let swept := other.pendingRemovedFiles.foldl (fun (acc : Bool × PersistedSnapshotCheckpoint) e =>
      (acc.1 || (acc.2.removeFile e.1 e.2.id).1, (acc.2.removeFile e.1 e.2.id).2)) (false, added)
  { (if swept.1 then swept.2.recalculateTimeRange else swept.2) with
    yearMonth := other.yearMonth
    lastSnapshotSequenceNumber := other.lastSnapshotSequenceNumber
    nextFileId := other.nextFileId
    walFileSequenceNumber := other.walFileSequenceNumber
    catalogSequenceNumber := other.catalogSequenceNumber }

theorem databases_removeFile : (c.removeFile k fileId).2.databases =
    c.databases.eraseP (fun e => e.1 = k ∧ e.2.id = fileId) := by
  unfold removeFile
  cases hfind : c.databases.find? (fun e => e.1 = k ∧ e.2.id = fileId) with
  | none => exact (eraseP_of_forall_not (List.find?_eq_none.mp hfind)).symm
  | some removed => rfl

theorem removeFile_frame : (c.removeFile k fileId).2.pendingRemovedFiles = c.pendingRemovedFiles ∧
    (c.removeFile k fileId).2.numbers = c.numbers := by
  unfold removeFile
  cases c.databases.find? (fun e => e.1 = k ∧ e.2.id = fileId) <;> exact ⟨rfl, rfl⟩

theorem databases_merge (c other : PersistedSnapshotCheckpoint) :
    (c.merge other).databases = other.pendingRemovedFiles.foldl
      (fun l e => l.eraseP (fun a => a.1 = e.1 ∧ a.2.id = e.2.id)) (c.databases ++ other.databases) := by
  have hadd (es : List Entry) (c : PersistedSnapshotCheckpoint) :
      (es.foldl addFile c).databases = c.databases ++ es := by
    induction es generalizing c with
    | nil => simp
    | cons e es ih => rw [foldl_cons, ih]; simp [addFile]
  have hsweep (es : List Entry) (acc : Bool × PersistedSnapshotCheckpoint) :
      (es.foldl (fun (acc : Bool × PersistedSnapshotCheckpoint) e =>
        (acc.1 || (acc.2.removeFile e.1 e.2.id).1, (acc.2.removeFile e.1 e.2.id).2)) acc).2.databases =
        es.foldl (fun l e => l.eraseP (fun a => a.1 = e.1 ∧ a.2.id = e.2.id)) acc.2.databases := by
    induction es generalizing acc with
    | nil => rfl
    | cons e es ih => rw [foldl_cons, ih, databases_removeFile]; rfl
  rw [← hadd, ← hsweep _ (false, _), merge]
  split <;> rfl

end PersistedSnapshotCheckpoint

abbrev FileIndex := Nat → Option TableKey

def buildFileIndex (databases : List Entry) : FileIndex :=
  databases.foldl (fun index e => Function.update index e.2.id (some e.1)) fun _ => none

@[ext]
structure CachedCheckpoint where
  checkpoint : PersistedSnapshotCheckpoint
  fileIndex : FileIndex

namespace CachedCheckpoint

def new : CachedCheckpoint := ⟨.new yearMonth, fun _ => none⟩

variable (cached : CachedCheckpoint)

def addEntry (e : Entry) : CachedCheckpoint :=
  ⟨cached.checkpoint.addFile e, Function.update cached.fileIndex e.2.id (some e.1)⟩

def addSnapshotFiles (databases : List (TableKey × List ParquetFile)) : CachedCheckpoint :=
  (entries databases).foldl addEntry cached

/-- A removal of a file the index knows is carried out where the index says, another is
kept for a merge. -/
def removeEntry (acc : Bool × CachedCheckpoint) (e : Entry) : Bool × CachedCheckpoint :=
  match acc.2.fileIndex e.2.id with
  | some k => (true, ⟨(acc.2.checkpoint.removeFile k e.2.id).2, Function.update acc.2.fileIndex e.2.id none⟩)
  | none => (acc.1, ⟨acc.2.checkpoint.addPendingRemoved e, acc.2.fileIndex⟩)

def processRemovedFiles (removedFiles : List (TableKey × List ParquetFile)) : CachedCheckpoint :=
  let swept := (entries removedFiles).foldl removeEntry (false, cached)
  if swept.1 then ⟨swept.2.checkpoint.recalculateTimeRange, swept.2.fileIndex⟩ else swept.2

def applySnapshot (snapshot : PersistedSnapshot) : CachedCheckpoint :=
  (addSnapshotFiles ⟨cached.checkpoint.updateFromSnapshot snapshot, cached.fileIndex⟩
    snapshot.databases).processRemovedFiles snapshot.removedFiles

end CachedCheckpoint

abbrev entryId (e : Entry) : Nat := e.2.id

def batch (m : PersistedSnapshot) : Ledger.Batch Entry Nat :=
  ⟨entries m.databases, (entries m.removedFiles).map entryId⟩

def Indexes (index : FileIndex) (es : List Entry) : Prop :=
  ∀ i k, index i = some k ↔ ∃ f, (k, f) ∈ es ∧ f.id = i

namespace Indexes
variable {index : FileIndex} {es : List Entry}

theorem empty : Indexes (fun _ => none) [] := fun _ _ => by simp

variable (h : Indexes index es)
include h

theorem insert {e : Entry} (hfresh : entryId e ∉ es.map entryId) :
    Indexes (Function.update index e.2.id (some e.1)) (es ++ [e]) := by
  intro i k
  simp only [mem_append, mem_singleton]
  by_cases hi : i = e.2.id
  · subst hi
    rw [Function.update_self, Option.some.injEq]
    refine ⟨fun hk => ⟨e.2, .inr (hk ▸ rfl), rfl⟩, ?_⟩
    rintro ⟨f, hf | hf, hid⟩
    · exact absurd (mem_map.mpr ⟨(k, f), hf, hid⟩) hfresh
    · rw [← hf]
  · rw [Function.update_of_ne hi, h i k]
    refine exists_congr fun f => and_congr_left fun hid => ⟨.inl, fun hf => hf.resolve_right fun heq => hi ?_⟩
    rw [← hid, ← heq]

theorem remove (i : Nat) : Indexes (Function.update index i none) (es.filter fun e => entryId e ≠ i) := by
  intro j k
  simp only [mem_filter, decide_eq_true_eq]
  by_cases hj : j = i
  · subst hj
    rw [Function.update_self]
    exact ⟨nofun, fun ⟨_, hf, hid⟩ => absurd hid hf.2⟩
  · rw [Function.update_of_ne hj, h j k]
    exact exists_congr fun f => and_congr_left fun hid => ⟨fun hf => ⟨hf, fun heq => hj (hid ▸ heq)⟩, And.left⟩

theorem eq_none {i : Nat} : index i = none ↔ i ∉ es.map entryId := by
  rw [Option.eq_none_iff_forall_ne_some, mem_map, not_exists]
  refine ⟨fun hne e he => hne e.1 ((h i e.1).mpr ⟨e.2, he.1, he.2⟩), fun hne k hk => ?_⟩
  obtain ⟨f, hf, hid⟩ := (h i k).mp hk
  exact hne (k, f) ⟨hf, hid⟩

end Indexes

theorem buildFileIndex_indexes {es : List Entry} (h : (es.map entryId).Nodup) : Indexes (buildFileIndex es) es := by
  induction es using List.reverseRecOn with
  | nil => exact Indexes.empty
  | append_singleton es e ih =>
    rw [map_append, nodup_append] at h
    have hfresh : entryId e ∉ es.map entryId := fun he => h.2.2 _ he _ (mem_singleton_self _) rfl
    rw [buildFileIndex, foldl_append]
    exact (ih h.1).insert hfresh

end VarveDB.Checkpoint
