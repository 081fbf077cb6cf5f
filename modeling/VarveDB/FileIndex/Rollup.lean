import VarveDB.FileIndex.Query
import VarveDB.FileIndex.Replay

/-! Rollups of the file index: what survives the flattening into a snapshot and the restoring of it. -/
namespace VarveDB.FileIndex
open Library List SnapshotEntry
open KeyedList

def tableFiles (ix : FileIndex) (nodeId : String) (dbId tableId : Nat) : List SnapshotEntry :=
  ix.files.entries.filter fun e => e.inTable nodeId dbId tableId

/-- What `to_snapshot` may return: tables and watermarks in any order, each vector in its own. -/
structure IsSnapshotOf (snapshot : FileIndexSnapshot) (ix : FileIndex) : Prop where
  sequence : snapshot.sequence = ix.sequence
  tables : ∀ nodeId dbId tableId,
    (snapshot.files.filter fun e => e.inTable nodeId dbId tableId) = ix.tableFiles nodeId dbId tableId
  watermarks : snapshot.watermarks.Perm ix.watermarks.entries
  persistedMaxTimes : snapshot.persistedMaxTimes.Perm ix.persistedMaxTimes.entries

/-- The tables and watermarks in the order of the index itself are one of these orders. -/
theorem isSnapshotOf_toSnapshot (ix : FileIndex) : IsSnapshotOf ix.toSnapshot ix :=
  ⟨rfl, fun _ _ _ => rfl, .refl _, .refl _⟩

def IsNodeOrder (ix : FileIndex) (order : List String) : Prop := order.Nodup ∧ ∀ e ∈ ix.files, e.nodeId ∈ order

def getFilesFilteredIn (order : List String) (ix : FileIndex) (dbId tableId : Nat) (filter : ChunkFilter)
    (excludeNode : Option String) : List ParquetFile :=
  (((order.filter fun nodeId => excludeNode ≠ some nodeId).flatMap fun nodeId =>
    (ix.tableFiles nodeId dbId tableId).filter fun e =>
      filter.testTimeStampMinMax e.file.minTime e.file.maxTime).insertionSort SnapshotEntry.publishedBefore).map
      SnapshotEntry.file

structure Equivalent (ix ix' : FileIndex) : Prop where
  sequence : ix.sequence = ix'.sequence
  tables : ∀ nodeId dbId tableId, ix.tableFiles nodeId dbId tableId = ix'.tableFiles nodeId dbId tableId
  watermarks : ∀ nodeId, ix.publishedWatermark nodeId = ix'.publishedWatermark nodeId
  persistedMaxTimes : ∀ nodeId, ix.persistedMaxTime nodeId = ix'.persistedMaxTime nodeId

variable (files : KeyedList key) (sequence : Nat)

section Tables
variable {nodeId : String} {dbId tableId : Nat}

def insertPath (table : List SnapshotEntry) (e : SnapshotEntry) : List SnapshotEntry :=
  if e.file.path ∈ table.map (fun e' => e'.file.path) then table else table ++ [e]

private theorem filter_insertNew (e : SnapshotEntry) :
    ((files.insertNew e).entries.filter fun e' => e'.inTable nodeId dbId tableId) =
      if e.inTable nodeId dbId tableId then insertPath (files.entries.filter fun e' => e'.inTable nodeId dbId tableId) e
      else files.entries.filter fun e' => e'.inTable nodeId dbId tableId := by
  by_cases hin : e.inTable nodeId dbId tableId
  · have hiff : e.key ∈ files.entries.map key ↔
        e.file.path ∈ (files.entries.filter fun e' => e'.inTable nodeId dbId tableId).map fun e' => e'.file.path := by
      have he := inTable_iff.mp hin
      simp only [mem_map, mem_filter, inTable_iff, key, Prod.mk.injEq]
      constructor
      · rintro ⟨e', hmem, hnode, hdb, htable, hpath⟩
        exact ⟨e', ⟨hmem, hnode.trans he.1, hdb.trans he.2.1, htable.trans he.2.2⟩, hpath⟩
      · rintro ⟨e', ⟨hmem, hnode, hdb, htable⟩, hpath⟩
        exact ⟨e', hmem, hnode.trans he.1.symm, hdb.trans he.2.1.symm, htable.trans he.2.2.symm, hpath⟩
    rw [if_pos hin, insertPath]
    split
    · rename_i hmem
      rw [insertNew_of_mem (hiff.mpr hmem)]
    · rename_i hmem
      rw [entries_insertNew_of_not_mem fun h => hmem (hiff.mp h), filter_append]
      simp [hin]
  · rw [if_neg hin]
    by_cases hmem : e.key ∈ files.entries.map key
    · rw [insertNew_of_mem hmem]
    · rw [entries_insertNew_of_not_mem hmem, filter_append]
      simp [hin]

private theorem filter_foldl_insertNew (es : List SnapshotEntry) :
    ((es.foldl KeyedList.insertNew files).entries.filter fun e' => e'.inTable nodeId dbId tableId) =
      (es.filter fun e => e.inTable nodeId dbId tableId).foldl insertPath
        (files.entries.filter fun e' => e'.inTable nodeId dbId tableId) := by
  induction es generalizing files with
  | nil => rfl
  | cons e es ih =>
    rw [foldl_cons, ih, filter_insertNew]
    by_cases hin : e.inTable nodeId dbId tableId
    · simp [hin]
    · simp [hin]

/-- What a delta makes of a table depends on that table alone. -/
theorem tableFiles_applyDelta (ix : FileIndex) (d : FileIndexDelta) :
    (ix.applyDelta sequence d).tableFiles nodeId dbId tableId =
      ((d.added.map fun file => (⟨d.nodeId, d.dbId, d.tableId, file, sequence⟩ : SnapshotEntry)).filter fun e =>
        e.inTable nodeId dbId tableId).foldl insertPath ((ix.tableFiles nodeId dbId tableId).filter fun e =>
          !(e.inTable d.nodeId d.dbId d.tableId && d.removed.contains e.file.path)) := by
  simp only [tableFiles, applyDelta]
  rw [← foldl_map, filter_foldl_insertNew, entries_retain, filter_comm]

end Tables

namespace Equivalent
variable {ix ix' : FileIndex}

section
variable (h : Equivalent ix ix')
include h

theorem applyDelta (sequence : Nat) (d : FileIndexDelta) :
    Equivalent (ix.applyDelta sequence d) (ix'.applyDelta sequence d) where
  sequence := h.sequence
  tables nodeId dbId tableId := by rw [tableFiles_applyDelta, tableFiles_applyDelta, h.tables]
  watermarks nodeId := by
    have hraise := h.watermarks
    simp only [publishedWatermark] at hraise
    simp only [publishedWatermark, FileIndex.applyDelta, lookup_raise, hraise]
  persistedMaxTimes nodeId := by
    have hraise := h.persistedMaxTimes
    simp only [persistedMaxTime] at hraise
    simp only [persistedMaxTime, FileIndex.applyDelta]
    cases (d.added.map ParquetFile.maxTime).max? with
    | none => exact hraise nodeId
    | some highest => simp only [lookup_raise, hraise]

private theorem foldl_applyDelta (ds : List FileIndexDelta) :
    Equivalent (ds.foldl (FileIndex.applyDelta sequence) ix) (ds.foldl (FileIndex.applyDelta sequence) ix') := by
  induction ds generalizing ix ix' with
  | nil => exact h
  | cons d ds ih => exact ih (h.applyDelta sequence d)

theorem apply (e : FileIndexLogEntry) : Equivalent (ix.apply e) (ix'.apply e) := by
  unfold FileIndex.apply
  rw [h.sequence]
  split
  · exact h
  · exact { h.foldl_applyDelta e.sequence e.deltas with sequence := rfl }

theorem foldl_apply (es : List FileIndexLogEntry) :
    Equivalent (es.foldl FileIndex.apply ix) (es.foldl FileIndex.apply ix') := by
  induction es generalizing ix ix' with
  | nil => exact h
  | cons e es ih => exact ih (h.apply e)

theorem filesForTable (nodeId : String) (dbId tableId : Nat) :
    ix.filesForTable nodeId dbId tableId = ix'.filesForTable nodeId dbId tableId :=
  congrArg (List.map file) (h.tables nodeId dbId tableId)

end

end Equivalent

private theorem foldl_insertPath (es table : List SnapshotEntry)
    (h : ((table ++ es).map fun e => e.file.path).Nodup) : es.foldl insertPath table = table ++ es := by
  induction es generalizing table with
  | nil => simp
  | cons e es ih =>
    have hfresh : e.file.path ∉ table.map fun e' => e'.file.path := fun hmem => by
      rw [map_append] at h
      exact (nodup_append.mp h).2.2 _ hmem _ (by simp) rfl
    rw [foldl_cons, insertPath, if_neg hfresh, ih _ (by simpa using h)]
    simp

private theorem nodup_paths_tableFiles (ix : FileIndex) (nodeId : String) (dbId tableId : Nat) :
    ((ix.tableFiles nodeId dbId tableId).map fun e => e.file.path).Nodup := by
  have hkeys : ((ix.tableFiles nodeId dbId tableId).map key).Nodup :=
    ix.files.distinct.sublist (filter_sublist.map _)
  have hmap : (ix.tableFiles nodeId dbId tableId).map key =
      ((ix.tableFiles nodeId dbId tableId).map fun e => e.file.path).map fun path => (nodeId, dbId, tableId, path) := by
    rw [map_map]
    refine map_congr_left fun e he => ?_
    obtain ⟨hnode, hdb, htable⟩ := inTable_iff.mp (mem_filter.mp he).2
    simp [key, hnode, hdb, htable]
  exact List.Nodup.of_map _ (hmap ▸ hkeys)

private theorem lookup_foldl_raise_perm {ν : Type} [LinearOrder ν] {ps : List (String × ν)}
    {m : KeyedList (Prod.fst : String × ν → String)} (h : ps.Perm m.entries) (nodeId : String) :
    (ps.foldl (fun m p => m.raise p.1 p.2) (KeyedList.empty _)).lookup nodeId = m.lookup nodeId := by
  have hnodup : (ps.map Prod.fst).Nodup := (h.map Prod.fst).nodup_iff.mpr m.distinct
  have hsame : (⟨ps, hnodup⟩ : KeyedList (Prod.fst : String × ν → String)).lookup nodeId = m.lookup nodeId :=
    lookup_congr (fun p => h.mem_iff) nodeId
  have hraise := lookup_foldl_raise_entries (KeyedList.empty _) ⟨ps, hnodup⟩ nodeId
  rw [hraise, hsame]
  simp [KeyedList.lookup]

/-- Restoring a snapshot into an empty index gives the index back. -/
theorem IsSnapshotOf.restore {snapshot : FileIndexSnapshot} {ix : FileIndex} (h : IsSnapshotOf snapshot ix) :
    Equivalent (new.restore snapshot) ix where
  sequence := by simp [FileIndex.restore, h.sequence]
  tables nodeId dbId tableId := by
    simp only [tableFiles, FileIndex.restore, filter_foldl_insertNew, h.tables]
    exact foldl_insertPath _ [] (nodup_paths_tableFiles ix nodeId dbId tableId)
  watermarks nodeId := lookup_foldl_raise_perm h.watermarks nodeId
  persistedMaxTimes nodeId := lookup_foldl_raise_perm h.persistedMaxTimes nodeId

private theorem le_sequence_foldl_apply (es : List FileIndexLogEntry) (ix : FileIndex) :
    ix.sequence ≤ (es.foldl apply ix).sequence ∧ ∀ e ∈ es, e.sequence ≤ (es.foldl apply ix).sequence := by
  induction es generalizing ix with
  | nil => exact ⟨le_rfl, nofun⟩
  | cons e es ih =>
    obtain ⟨hle, hes⟩ := ih (ix.apply e)
    rw [sequence_apply] at hle
    refine ⟨(Nat.le_max_left _ _).trans hle, fun e' he' => ?_⟩
    rcases mem_cons.mp he' with rfl | he'
    · exact (Nat.le_max_right _ _).trans hle
    · exact hes e' he'

/-- A path belongs to one node, whose prefix it begins with. -/
def PathsOwned (log : List FileIndexLogEntry) : Prop :=
  ∃ owner : String → String, ∀ entry ∈ log, ∀ d ∈ entry.deltas, ∀ file ∈ d.added, owner file.path = d.nodeId

section Order
variable {owner : String → String}

variable {ix : FileIndex} {order : List String}

private def gathered (order : List String) (ix : FileIndex) (dbId tableId : Nat) (filter : ChunkFilter)
    (excludeNode : Option String) : List SnapshotEntry :=
  (order.filter fun nodeId => excludeNode ≠ some nodeId).flatMap fun nodeId =>
    (ix.tableFiles nodeId dbId tableId).filter fun e => filter.testTimeStampMinMax e.file.minTime e.file.maxTime

theorem mem_gathered (horder : IsNodeOrder ix order) {dbId tableId : Nat}
    {filter : ChunkFilter} {excludeNode : Option String} {e : SnapshotEntry} :
    e ∈ gathered order ix dbId tableId filter excludeNode ↔ e ∈ ix.files ∧ excludeNode ≠ some e.nodeId ∧
      e.dbId = dbId ∧ e.tableId = tableId ∧ filter.testTimeStampMinMax e.file.minTime e.file.maxTime = true := by
  simp only [gathered, tableFiles, mem_flatMap, mem_filter, inTable_iff, decide_eq_true_eq]
  constructor
  · rintro ⟨nodeId, ⟨-, hshown⟩, ⟨hmem, rfl, hdb, htable⟩, htest⟩
    exact ⟨hmem, hshown, hdb, htable, htest⟩
  · rintro ⟨hmem, hshown, hdb, htable, htest⟩
    exact ⟨e.nodeId, ⟨horder.2 e hmem, hshown⟩, ⟨hmem, rfl, hdb, htable⟩, htest⟩

private theorem nodup_gathered (horder : IsNodeOrder ix order) (dbId tableId : Nat)
    (filter : ChunkFilter) (excludeNode : Option String) :
    (gathered order ix dbId tableId filter excludeNode).Nodup := by
  refine nodup_flatMap.mpr ⟨fun nodeId _ => ?_, (horder.1.filter _).imp fun {a b} hne e ha hb => hne ?_⟩
  · exact ((List.Nodup.of_map _ ix.files.distinct).filter _).filter _
  · have hnode := (inTable_iff.mp (mem_filter.mp (mem_filter.mp ha).1).2).1
    have hnode' := (inTable_iff.mp (mem_filter.mp (mem_filter.mp hb).1).2).1
    exact hnode.symm.trans hnode'

/-- Where each path belongs to one node, the order of the hash maps does not show. -/
theorem getFilesFilteredIn_eq {order' : List String} (howned : ∀ e ∈ ix.files, owner e.file.path = e.nodeId)
    (horder : IsNodeOrder ix order) (horder' : IsNodeOrder ix order') (dbId tableId : Nat) (filter : ChunkFilter)
    (excludeNode : Option String) : getFilesFilteredIn order ix dbId tableId filter excludeNode =
      getFilesFilteredIn order' ix dbId tableId filter excludeNode := by
  have hperm : (gathered order ix dbId tableId filter excludeNode).Perm
      (gathered order' ix dbId tableId filter excludeNode) :=
    (perm_ext_iff_of_nodup (nodup_gathered horder ..) (nodup_gathered horder' ..)).mpr fun e =>
      (mem_gathered horder).trans (mem_gathered horder').symm
  refine congrArg (List.map file) (List.Perm.eq_of_pairwise (fun a b ha hb hab hba => ?_)
    (pairwise_insertionSort publishedBefore _)
    (pairwise_insertionSort publishedBefore _)
    ((perm_insertionSort _ _).trans (hperm.trans (perm_insertionSort _ _).symm)))
  obtain ⟨hamem, -, hadb, hatable, -⟩ := (mem_gathered horder).mp ((mem_insertionSort _).mp ha)
  obtain ⟨hbmem, -, hbdb, hbtable, -⟩ := (mem_gathered horder').mp ((mem_insertionSort _).mp hb)
  have hpath : a.file.path = b.file.path := by
    rcases hab with hab | ⟨heq, hab⟩ <;> rcases hba with hba | ⟨heq', hba⟩
    · omega
    · omega
    · omega
    · exact le_antisymm hab hba
  have hnode : a.nodeId = b.nodeId := (howned a hamem).symm.trans (hpath ▸ howned b hbmem)
  refine eq_of_key_eq hamem hbmem ?_
  simp [key, hnode, hpath, hadb, hbdb, hatable, hbtable]

end Order

def rebuild (snapshot : FileIndexSnapshot) (entries : List FileIndexLogEntry) : FileIndex :=
  entries.foldl apply (new.restore snapshot)

/-- Wherever a log is cut, the index rebuilt from the rollup of the first part and the second part answers every query
as the replay of the whole log does. -/
theorem rollup_round_trip (log : List FileIndexLogEntry) (k : Nat) {snapshot : FileIndexSnapshot}
    (hsnapshot : IsSnapshotOf snapshot (replay (log.take k))) :
    (∀ order dbId tableId filter excludeNode,
      getFilesFilteredIn order (rebuild snapshot (log.drop k)) dbId tableId filter excludeNode =
        getFilesFilteredIn order (replay log) dbId tableId filter excludeNode) ∧
    (PathsOwned log → ∀ order order', IsNodeOrder (rebuild snapshot (log.drop k)) order →
      IsNodeOrder (replay log) order' → ∀ dbId tableId filter excludeNode,
      getFilesFilteredIn order (rebuild snapshot (log.drop k)) dbId tableId filter excludeNode =
        getFilesFilteredIn order' (replay log) dbId tableId filter excludeNode) ∧
    (∀ nodeId dbId tableId, (rebuild snapshot (log.drop k)).maxFileId nodeId dbId tableId =
      (replay log).maxFileId nodeId dbId tableId) ∧
    (rebuild snapshot (log.drop k)).sequence = (replay log).sequence ∧
    (∀ nodeId, (rebuild snapshot (log.drop k)).publishedWatermark nodeId = (replay log).publishedWatermark nodeId) ∧
    (∀ nodeId, (rebuild snapshot (log.drop k)).persistedMaxTime nodeId = (replay log).persistedMaxTime nodeId) ∧
    ∀ again : List FileIndexLogEntry, (∀ e ∈ again, e ∈ log) →
      again.foldl apply (rebuild snapshot (log.drop k)) = rebuild snapshot (log.drop k) := by
  have hreplay : replay log = (log.drop k).foldl apply (replay (log.take k)) := by
    rw [replay, replay, ← foldl_append, take_append_drop]
  have hequiv : Equivalent (rebuild snapshot (log.drop k)) (replay log) := hreplay ▸ hsnapshot.restore.foldl_apply _
  have hfiles (order dbId tableId filter excludeNode) :
      getFilesFilteredIn order (rebuild snapshot (log.drop k)) dbId tableId filter excludeNode =
        getFilesFilteredIn order (replay log) dbId tableId filter excludeNode := by
    simp only [getFilesFilteredIn, hequiv.tables]
  refine ⟨hfiles, ?_, fun nodeId dbId tableId => ?_, hequiv.sequence, hequiv.watermarks, hequiv.persistedMaxTimes, ?_⟩
  · rintro ⟨owner, howner⟩ order order' horder horder' dbId tableId filter excludeNode
    rw [hfiles]
    have howned (e : SnapshotEntry) (he : e ∈ (replay log).files) : owner e.file.path = e.nodeId := by
      rcases adds_of_mem_foldl_apply he with he | ⟨entry, hentry, -, d, hd, hnode, -, hfile⟩
      · exact absurd he (KeyedList.not_mem_empty e)
      · exact hnode ▸ howner entry hentry d hd _ hfile
    refine getFilesFilteredIn_eq howned ⟨horder.1, fun e he => horder.2 e ?_⟩ horder' dbId tableId filter excludeNode
    have hin : e ∈ (replay log).tableFiles e.nodeId e.dbId e.tableId :=
      mem_filter.mpr ⟨he, inTable_iff.mpr ⟨rfl, rfl, rfl⟩⟩
    rw [← hequiv.tables] at hin
    exact (mem_filter.mp hin).1
  · rw [maxFileId, maxFileId, hequiv.filesForTable]
  · intro again hagain
    refine foldl_apply_of_le fun e he => ?_
    rw [hequiv.sequence]
    exact (le_sequence_foldl_apply log new).2 e (hagain e he)

private def replacedFile : List FileIndexLogEntry :=
  [⟨1, [⟨"a", 0, 0, 1, [⟨1, "a/1", 1, 1, 0, 0, 9⟩], []⟩, ⟨"b", 0, 0, 1, [⟨1, "b/1", 1, 1, 0, 0, 9⟩], []⟩]⟩,
    ⟨2, [⟨"a", 0, 0, 2, [⟨2, "a/2", 1, 1, 0, 0, 9⟩], ["a/1"]⟩]⟩]

theorem rollup_round_trip_replaced_file :
    getFilesFilteredIn ["b", "a"] (rebuild (replay (replacedFile.take 1)).toSnapshot (replacedFile.drop 1)) 0 0
      ⟨none, none⟩ none = getFilesFilteredIn ["a", "b"] (replay replacedFile) 0 0 ⟨none, none⟩ none := by
  refine (rollup_round_trip replacedFile 1 (isSnapshotOf_toSnapshot _)).2.1
    ⟨fun path => if path = "b/1" then "b" else "a", by decide⟩ _ _ ⟨by decide, ?_⟩ ⟨by decide, ?_⟩ _ _ _ _
  · exact (by decide : ∀ e ∈ (rebuild (replay (replacedFile.take 1)).toSnapshot (replacedFile.drop 1)).files.entries,
      e.nodeId ∈ ["b", "a"])
  · exact (by decide : ∀ e ∈ (replay replacedFile).files.entries, e.nodeId ∈ ["a", "b"])

end VarveDB.FileIndex
