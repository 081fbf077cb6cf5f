import VarveDB.Library.LastWins
import VarveDB.FileIndex.Basic

/-! What queries read from the file index, in the order of publication. -/
namespace VarveDB
open Library List

structure ChunkFilter where
  timeLowerBoundNs : Option Int
  timeUpperBoundNs : Option Int

namespace ChunkFilter

def testTimeStampMinMax (filter : ChunkFilter) (minTimeNs maxTimeNs : Int) : Bool :=
  match filter.timeLowerBoundNs, filter.timeUpperBoundNs with
  | none, none => true
  | none, some u => minTimeNs ≤ u
  | some l, none => maxTimeNs ≥ l
  | some l, some u => minTimeNs ≤ u && maxTimeNs ≥ l

/-- A file that covers an admitted time overlaps the bounds. -/
theorem test_of_covers {filter : ChunkFilter} {t minTime maxTime : Int} (h : filter.testTimeStampMinMax t t)
    (hmin : minTime ≤ t) (hmax : t ≤ maxTime) : filter.testTimeStampMinMax minTime maxTime := by
  obtain ⟨lower, upper⟩ := filter
  cases lower <;> cases upper <;>
    simp only [testTimeStampMinMax, Bool.and_eq_true, decide_eq_true_eq] at h ⊢ <;> omega

end ChunkFilter

namespace SnapshotEntry

def publishedBefore (a b : SnapshotEntry) : Prop :=
  a.addedAt < b.addedAt ∨ a.addedAt = b.addedAt ∧ a.file.path ≤ b.file.path

instance : DecidableRel publishedBefore := fun _ _ => inferInstanceAs (Decidable (_ ∨ _))

instance : IsTrans SnapshotEntry publishedBefore where
  trans a b c hab hbc := by
    rcases hab with hab | ⟨hab, hpath⟩ <;> rcases hbc with hbc | ⟨hbc, hpath'⟩
    · exact .inl (Nat.lt_trans hab hbc)
    · exact .inl (hbc ▸ hab)
    · exact .inl (hab ▸ hbc)
    · exact .inr ⟨hab.trans hbc, le_trans hpath hpath'⟩

instance : Std.Total publishedBefore where
  total a b := by
    rcases Nat.lt_trichotomy a.addedAt b.addedAt with hlt | heq | hgt
    · exact .inl (.inl hlt)
    · exact (le_total a.file.path b.file.path).imp (fun h => .inr ⟨heq, h⟩) fun h => .inr ⟨heq.symm, h⟩
    · exact .inr (.inl hgt)

end SnapshotEntry

variable {deltas : List FileIndexDelta} {sequence position : Nat}

namespace FileIndex

variable (ix : FileIndex) (nodeId : String) (dbId tableId : Nat) (filter : ChunkFilter) (excludeNode : Option String)

def slice : List SnapshotEntry :=
  (ix.files.entries.filter fun e => excludeNode ≠ some e.nodeId ∧ e.dbId = dbId ∧ e.tableId = tableId).insertionSort
    SnapshotEntry.publishedBefore

def getFilesFiltered : List ParquetFile :=
  ((ix.files.entries.filter fun e => (excludeNode ≠ some e.nodeId ∧ e.dbId = dbId ∧ e.tableId = tableId) ∧
    filter.testTimeStampMinMax e.file.minTime e.file.maxTime).insertionSort SnapshotEntry.publishedBefore).map
      SnapshotEntry.file

def filesForTable : List ParquetFile :=
  (ix.files.entries.filter fun e => e.inTable nodeId dbId tableId).map SnapshotEntry.file

def maxFileId : Option Nat :=
  ((ix.filesForTable nodeId dbId tableId).map ParquetFile.id).max?

def publishedWatermark : Option Nat := ix.watermarks.lookup nodeId

def persistedMaxTime : Option Int := ix.persistedMaxTimes.lookup nodeId

theorem getFilesFiltered_eq : ix.getFilesFiltered dbId tableId filter excludeNode =
      ((ix.slice dbId tableId excludeNode).filter fun e =>
        filter.testTimeStampMinMax e.file.minTime e.file.maxTime).map SnapshotEntry.file := by
  rw [getFilesFiltered, slice, ← insertionSort_filter, filter_filter]
  refine congrArg (fun l => (List.insertionSort _ l).map _) (filter_congr fun e _ => Bool.eq_iff_iff.mpr ?_)
  simp only [Bool.and_eq_true, decide_eq_true_eq]
  exact and_comm

/-- The entries behind the files of a query. -/
theorem exists_entries_getFilesFiltered : ∃ entries : List SnapshotEntry,
      ix.getFilesFiltered dbId tableId filter excludeNode = entries.map SnapshotEntry.file ∧
      entries.Pairwise SnapshotEntry.publishedBefore ∧
      ∀ e ∈ entries, e ∈ ix.files ∧ excludeNode ≠ some e.nodeId ∧ (e.dbId, e.tableId) = (dbId, tableId) := by
  refine ⟨_, rfl, pairwise_insertionSort _ _, fun e he => ?_⟩
  obtain ⟨he, hin⟩ := mem_filter.mp ((mem_insertionSort _).mp he)
  obtain ⟨⟨hnode, hdb, htable⟩, -⟩ := of_decide_eq_true hin
  exact ⟨he, hnode, Prod.ext hdb htable⟩

variable {ix : FileIndex} {e : SnapshotEntry}

theorem mem_slice {dbId tableId : Nat} {excludeNode : Option String} : e ∈ ix.slice dbId tableId excludeNode ↔
      e ∈ ix.files ∧ excludeNode ≠ some e.nodeId ∧ e.dbId = dbId ∧ e.tableId = tableId := by
  simp [slice, mem_insertionSort, KeyedList.mem_def]

/-- The states an index can be in: log entries applied and rollups restored, in any order. -/
inductive Reachable : FileIndex → Prop
  | new : Reachable new
  | apply {ix : FileIndex} (h : Reachable ix) (entry : FileIndexLogEntry) : Reachable (ix.apply entry)
  | restore {ix other : FileIndex} (h : Reachable ix) (hother : Reachable other) :
      Reachable (ix.restore other.toSnapshot)

def Adds (d : FileIndexDelta) (nodeId : String) (table : Nat × Nat) (file : ParquetFile) : Prop :=
  d.nodeId = nodeId ∧ (d.dbId, d.tableId) = table ∧ file ∈ d.added

private theorem adds_of_mem_foldl_applyDelta (he : e ∈ (deltas.foldl (applyDelta sequence) ix).files) :
    e ∈ ix.files ∨ e.addedAt = sequence ∧ ∃ d ∈ deltas, Adds d e.nodeId (e.dbId, e.tableId) e.file := by
  induction deltas generalizing ix with
  | nil => exact .inl he
  | cons delta deltas ih =>
    refine (ih he).elim (fun he => ?_) fun ⟨hseq, d, hd, hadds⟩ => .inr ⟨hseq, d, mem_cons_of_mem _ hd, hadds⟩
    simp only [applyDelta] at he
    rw [← foldl_map] at he
    rcases KeyedList.mem_of_mem_foldl_insertNew he with he | he
    · exact .inl (KeyedList.mem_retain.mp he).1
    · obtain ⟨file, hfile, rfl⟩ := mem_map.mp he
      exact .inr ⟨rfl, delta, mem_cons_self, rfl, rfl, hfile⟩

/-- No file is listed at a position that has not been replayed. -/
theorem Reachable.addedAt_le (h : Reachable ix) (he : e ∈ ix.files) : e.addedAt ≤ ix.sequence := by
  induction h generalizing e with
  | new => exact absurd he (KeyedList.not_mem_empty e)
  | @apply ix _ entry ih =>
    unfold FileIndex.apply at he ⊢
    split at he
    case isTrue hle => simpa [hle] using ih he
    case isFalse hlt =>
      simp only [hlt, if_false]
      rcases adds_of_mem_foldl_applyDelta he with he | ⟨he, -⟩
      · have := ih he
        omega
      · exact Nat.le_of_eq he
  | restore _ _ ih ih' =>
    rcases KeyedList.mem_of_mem_foldl_insertNew he with he | he
    · exact Nat.le_trans (ih he) (Nat.le_max_left _ _)
    · exact Nat.le_trans (ih' he) (Nat.le_max_right _ _)

theorem reachable_foldl_apply (h : Reachable ix) (log : List FileIndexLogEntry) :
    Reachable (log.foldl FileIndex.apply ix) := by
  induction log generalizing ix with
  | nil => exact h
  | cons entry log ih => exact ih (h.apply entry)

variable {log : List FileIndexLogEntry} {t : Int}

/-- A file comes from the index the entries are applied to or from one of the entries. -/
theorem adds_of_mem_foldl_apply (he : e ∈ (log.foldl FileIndex.apply ix).files) : e ∈ ix.files ∨
      ∃ entry ∈ log, entry.sequence = e.addedAt ∧ ∃ d ∈ entry.deltas, Adds d e.nodeId (e.dbId, e.tableId) e.file := by
  induction log generalizing ix with
  | nil => exact .inl he
  | cons entry log ih =>
    rcases ih he with he | ⟨entry', hentry', hadded⟩
    · unfold FileIndex.apply at he
      split at he
      · exact .inl he
      · exact (adds_of_mem_foldl_applyDelta he).imp id fun ⟨hseq, hd⟩ => ⟨entry, mem_cons_self, hseq.symm, hd⟩
    · exact .inr ⟨entry', mem_cons_of_mem _ hentry', hadded⟩

/-- What a replayed prefix of a log lists was added by an entry of it. -/
theorem adds_of_mem_replay_take (he : e ∈ (replay (log.take position)).files) :
    ∃ entry ∈ log, entry.sequence = e.addedAt ∧ ∃ d ∈ entry.deltas, Adds d e.nodeId (e.dbId, e.tableId) e.file := by
  rcases adds_of_mem_foldl_apply he with he | ⟨entry, hentry, hadded⟩
  · exact absurd he (KeyedList.not_mem_empty e)
  · exact ⟨entry, mem_of_mem_take hentry, hadded⟩

private theorem persistedMaxTime_foldl_applyDelta {nodeId : String}
    (h : (deltas.foldl (applyDelta sequence) ix).persistedMaxTime nodeId = some t) :
    ix.persistedMaxTime nodeId = some t ∨ ∃ d ∈ deltas, d.nodeId = nodeId ∧ ∃ f ∈ d.added, f.maxTime = t := by
  induction deltas generalizing ix with
  | nil => exact .inl h
  | cons delta deltas ih =>
    refine (ih h).elim (fun hraised => ?_) fun ⟨d, hd, hf⟩ => .inr ⟨d, mem_cons_of_mem _ hd, hf⟩
    simp only [persistedMaxTime, applyDelta] at hraised ⊢
    split at hraised
    · exact .inl hraised
    · rename_i highest hmax
      rw [KeyedList.lookup_raise] at hraised
      split at hraised
      · rename_i hnode
        subst hnode
        obtain ⟨f, hf, hfmax⟩ := mem_map.mp (List.max?_mem hmax)
        have hadded : ∃ d ∈ delta :: deltas, d.nodeId = delta.nodeId ∧ ∃ f ∈ d.added, f.maxTime = highest :=
          ⟨delta, mem_cons_self, rfl, f, hf, hfmax⟩
        cases hl : ix.persistedMaxTimes.lookup delta.nodeId with
        | none =>
          rw [hl] at hraised
          exact .inr (Option.some.inj hraised ▸ hadded)
        | some seen =>
          rw [hl, Option.elim_some] at hraised
          rcases max_choice seen highest with hmax | hmax
          · exact .inl (hmax ▸ hraised)
          · rw [hmax] at hraised
            exact .inr (Option.some.inj hraised ▸ hadded)
      · exact .inl hraised

/-- The mark of a node is the end of a file some replayed entry adds for it. -/
theorem exists_file_of_persistedMaxTime {nodeId : String}
    (h : (replay (log.take position)).persistedMaxTime nodeId = some t) :
    ∃ entry ∈ log, ∃ d ∈ entry.deltas, d.nodeId = nodeId ∧ ∃ f ∈ d.added, f.maxTime = t := by
  have hfold {entries : List FileIndexLogEntry} {ix : FileIndex}
      (h : (entries.foldl apply ix).persistedMaxTime nodeId = some t) : ix.persistedMaxTime nodeId = some t ∨
        ∃ entry ∈ entries, ∃ d ∈ entry.deltas, d.nodeId = nodeId ∧ ∃ f ∈ d.added, f.maxTime = t := by
    induction entries generalizing ix with
    | nil => exact .inl h
    | cons entry entries ih =>
      refine (ih h).elim (fun h => ?_) fun ⟨entry', hentry, hd⟩ => .inr ⟨entry', mem_cons_of_mem _ hentry, hd⟩
      rw [apply] at h
      split at h
      · exact .inl h
      · exact (persistedMaxTime_foldl_applyDelta h).imp id fun hd => ⟨entry, mem_cons_self, hd⟩
  rcases hfold h with hnew | ⟨entry, hentry, hd⟩
  · cases hnew
  · exact ⟨entry, mem_of_mem_take hentry, hd⟩

end FileIndex
end VarveDB
