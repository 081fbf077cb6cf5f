import VarveDB.Write.PersistedSnapshot

/-! The in-memory list of a node's persisted files: its updates, and its rebuild
from snapshot manifests. -/
namespace VarveDB
open Library List

structure PersistedFiles where
  files : TableKey → List ParquetFile
  parquetFilesCount : Nat
  parquetFilesRowCount : Nat

structure FoldedFiles where
  files : TableKey → List ParquetFile
  fileCount : Nat
  removedSize : Nat
  removedRowCount : Nat

variable (initialLoad : Bool)

namespace FoldedFiles

def addFiles (st : FoldedFiles) (table : TableKey × List ParquetFile) : FoldedFiles :=
  let fresh := if initialLoad then table.2 else table.2.filter fun file => file ∉ st.files table.1
  { st with files := Function.update st.files table.1 (st.files table.1 ++ fresh)
            fileCount := st.fileCount + fresh.length }

def removeFile (k : TableKey) (st : FoldedFiles) (file : ParquetFile) : FoldedFiles :=
  match (st.files k).findIdx? (fun f => f.id = file.id) with
  | none => st
  | some i =>
    { files := Function.update st.files k (swapRemove (st.files k) i)
      fileCount := st.fileCount - 1
      removedSize := st.removedSize + ((st.files k)[i]?.elim 0 ParquetFile.sizeBytes)
      removedRowCount := st.removedRowCount + ((st.files k)[i]?.elim 0 ParquetFile.rowCount) }

end FoldedFiles

def updatePersistedFilesWithSnapshot (snapshot : PersistedSnapshot) (files : TableKey → List ParquetFile) :
    FoldedFiles :=
  snapshot.removedFiles.foldl (fun st table => table.2.foldl (FoldedFiles.removeFile table.1) st)
    (snapshot.databases.foldl (FoldedFiles.addFiles initialLoad) ⟨files, 0, 0, 0⟩)

variable (st : FoldedFiles) (tables : List (TableKey × List ParquetFile)) {due : List (TableKey × Option Int)}
  {k' : TableKey}

namespace PersistedFiles

def empty : PersistedFiles := ⟨fun _ => [], 0, 0⟩

variable (inner : PersistedFiles) (k : TableKey) (file : ParquetFile) (l : List ParquetFile)
  (b : Ledger.Batch ParquetFile Nat)

def addPersistedFile : PersistedFiles :=
  if file ∈ inner.files k then { inner with parquetFilesCount := inner.parquetFilesCount + 1 }
  else { files := Function.update inner.files k (inner.files k ++ [file])
         parquetFilesCount := inner.parquetFilesCount + 1
         parquetFilesRowCount := inner.parquetFilesRowCount + file.rowCount }

def addCompactedFile : Bool × PersistedFiles :=
  if (inner.files k).any fun existing => existing.path = file.path then (false, inner)
  else (true, { files := Function.update inner.files k (inner.files k ++ [file])
                parquetFilesCount := inner.parquetFilesCount + 1
                parquetFilesRowCount := inner.parquetFilesRowCount + file.rowCount })

def removeFilesByPath (paths : List String) : List ParquetFile × PersistedFiles :=
  let removed := (inner.files k).filter fun file => file.path ∈ paths
  (removed, { files := Function.update inner.files k ((inner.files k).filter fun file => file.path ∉ paths)
              parquetFilesCount := inner.parquetFilesCount - removed.length
              parquetFilesRowCount := inner.parquetFilesRowCount - (removed.map ParquetFile.rowCount).sum })

/-- Adds before it removes, under one lock: files added, records removed, and the new state. -/
def applyCompaction (added : List ParquetFile) (removedPaths : List String) : Nat × List ParquetFile × PersistedFiles :=
  let step := fun (acc : Nat × PersistedFiles) file =>
    let (isNew, inner) := acc.2.addCompactedFile k file
    (if isNew then acc.1 + 1 else acc.1, inner)
  let (addedCount, inner) := added.foldl step (0, inner)
  (addedCount, inner.removeFilesByPath k removedPaths)

def dropRemoved (removed : List (TableKey × ParquetFile)) : PersistedFiles where
  files := fun k => (inner.files k).filter fun file => file.path ∉ removed.map (·.2.path)
  parquetFilesCount := inner.parquetFilesCount - removed.length
  parquetFilesRowCount := inner.parquetFilesRowCount - (removed.map (·.2.rowCount)).sum

/-- Files due for deletion, each path once: all of a deleted table, and those of a table with a
retention cutoff whose data is older. -/
def removeFilesForDeletion (due : List (TableKey × Option Int)) : List (TableKey × ParquetFile) × PersistedFiles :=
  let queued := due.flatMap fun d =>
    ((inner.files d.1).filter fun file => d.2.elim true (file.maxTime < ·)).map (d.1, ·)
  let removed := queued.foldl (fun removed e =>
    if e.2.path ∈ removed.map (·.2.path) then removed else removed ++ [e]) []
  (removed, inner.dropRemoved removed)

def newFromPersistedSnapshots (snapshots : List PersistedSnapshot) : PersistedFiles :=
  (orderedOldestFirst snapshots).foldl (fun inner snapshot =>
    let st := updatePersistedFilesWithSnapshot true snapshot inner.files
    { files := st.files
      parquetFilesCount := inner.parquetFilesCount + st.fileCount
      parquetFilesRowCount := inner.parquetFilesRowCount + snapshot.rowCount - st.removedRowCount }) empty

def post : List ParquetFile :=
  b.removed.foldl (Ledger.removeKey ParquetFile.id) (l ++ b.added)

private theorem post_perm (h : ((l ++ b.added).map ParquetFile.id).Nodup) :
    (post l b).Perm ((l ++ b.added).filter fun f => f.id ∉ b.removed) :=
  Ledger.foldl_removeKey_perm b.removed h

private theorem files_removeFile (k' : TableKey) : (st.removeFile k file).files k' =
      if k = k' then Ledger.removeKey ParquetFile.id (st.files k') file.id else st.files k' := by
  unfold FoldedFiles.removeFile Ledger.removeKey
  by_cases hk : k = k'
  · subst hk
    cases (st.files k).findIdx? (fun f => f.id = file.id) <;> simp
  · cases (st.files k).findIdx? (fun f => f.id = file.id) <;> simp [hk, Ne.symm hk]

private theorem files_removeFiles (fs : List ParquetFile) (k' : TableKey) :
    (fs.foldl (FoldedFiles.removeFile k) st).files k' =
      (if k = k' then fs else []).foldl (fun l f => Ledger.removeKey ParquetFile.id l f.id) (st.files k') := by
  induction fs generalizing st with
  | nil => simp
  | cons f fs ih =>
    rw [foldl_cons, ih, files_removeFile]
    by_cases hk : k = k' <;> simp [hk]

private theorem files_removeTables (k : TableKey) :
    (tables.foldl (fun st table => table.2.foldl (FoldedFiles.removeFile table.1) st) st).files k =
      (filesOf tables k).foldl (fun l f => Ledger.removeKey ParquetFile.id l f.id) (st.files k) := by
  induction tables generalizing st with
  | nil => rfl
  | cons table tables ih =>
    rw [foldl_cons, ih, files_removeFiles, filesOf_cons, foldl_append]

private theorem files_addTables (k : TableKey) :
    (tables.foldl (FoldedFiles.addFiles true) st).files k = st.files k ++ filesOf tables k := by
  induction tables generalizing st with
  | nil => simp [filesOf]
  | cons table tables ih =>
    rw [foldl_cons, ih]
    by_cases hk : table.1 = k
    · simp [FoldedFiles.addFiles, filesOf_cons, hk]
    · simp [FoldedFiles.addFiles, filesOf_cons, hk, Ne.symm hk]

private theorem files_updatePersistedFilesWithSnapshot (m : PersistedSnapshot) (files : TableKey → List ParquetFile)
    (k : TableKey) : (updatePersistedFilesWithSnapshot true m files).files k = post (files k) (m.batch k) := by
  rw [updatePersistedFilesWithSnapshot, files_removeTables, files_addTables, post, PersistedSnapshot.batch, foldl_map]
  rfl

theorem files_newFromPersistedSnapshots (ms : List PersistedSnapshot) (k : TableKey) :
    (newFromPersistedSnapshots ms).files k =
      ((orderedOldestFirst ms).map (PersistedSnapshot.batch k)).foldl post [] := by
  have hfold (l : List PersistedSnapshot) (inner : PersistedFiles) : (l.foldl (fun inner snapshot =>
        let st := updatePersistedFilesWithSnapshot true snapshot inner.files
        { files := st.files
          parquetFilesCount := inner.parquetFilesCount + st.fileCount
          parquetFilesRowCount := inner.parquetFilesRowCount + snapshot.rowCount - st.removedRowCount })
        inner).files k =
        (l.map (PersistedSnapshot.batch k)).foldl post (inner.files k) := by
    induction l generalizing inner with
    | nil => rfl
    | cons m l ih =>
      rw [foldl_cons, ih, map_cons, foldl_cons]
      simp only [files_updatePersistedFilesWithSnapshot]
  exact hfold _ _

variable {k : TableKey} {f : ParquetFile} {inner : PersistedFiles}

variable {ms : List PersistedSnapshot}

/-- The files a rebuild lists: those some manifest added and none removed. -/
theorem mem_newFromPersistedSnapshots (h : Consistent ms) : f ∈ (newFromPersistedSnapshots ms).files k ↔
      (∃ m ∈ ms, f ∈ m.addedTo k) ∧ ∀ m ∈ ms, f.id ∉ (m.removedFrom k).map ParquetFile.id := by
  rw [files_newFromPersistedSnapshots, (Ledger.foldl_perm_live post_perm (h.wellFormed k)).mem_iff, Ledger.mem_live]
  refine and_congr ?_ ?_
  · simp only [mem_map, exists_exists_and_eq_and, mem_orderedOldestFirst, PersistedSnapshot.batch]
  · simp only [forall_mem_map, mem_orderedOldestFirst, PersistedSnapshot.batch]

/-- One more manifest adds its own files to a rebuild and nothing else, and what it removes is gone. -/
theorem mem_newFromPersistedSnapshots_append {m : PersistedSnapshot} (h : Consistent ms)
    (h' : Consistent (ms ++ [m])) (hf : f ∈ (newFromPersistedSnapshots (ms ++ [m])).files k) :
    (f ∈ (newFromPersistedSnapshots ms).files k ∨ f ∈ m.addedTo k) ∧ f.id ∉ (m.removedFrom k).map ParquetFile.id := by
  obtain ⟨⟨a, ha, hfa⟩, hkept⟩ := (mem_newFromPersistedSnapshots h').mp hf
  refine ⟨?_, hkept m (by simp)⟩
  rcases mem_append.mp ha with ha | ha
  · exact .inl ((mem_newFromPersistedSnapshots h).mpr ⟨⟨a, ha, hfa⟩, fun d hd => hkept d (mem_append_left _ hd)⟩)
  · rw [mem_singleton] at ha
    exact .inr (ha ▸ hfa)

/-- Every file a rebuild lists was added by some manifest. -/
theorem added_of_mem_newFromPersistedSnapshots
    (hf : f ∈ (newFromPersistedSnapshots ms).files k) : ∃ m ∈ ms, f ∈ m.addedTo k := by
  have hfold (bs : List (Ledger.Batch ParquetFile Nat)) (l : List ParquetFile) (h : f ∈ bs.foldl post l) :
      f ∈ l ∨ ∃ b ∈ bs, f ∈ b.added := by
    induction bs generalizing l with
    | nil => exact .inl h
    | cons b bs ih =>
      rcases ih _ h with h | ⟨b', hb', h⟩
      · rcases mem_append.mp (Ledger.foldl_removeKey_subset _ _ _ h) with h | h
        · exact .inl h
        · exact .inr ⟨b, mem_cons_self, h⟩
      · exact .inr ⟨b', mem_cons_of_mem _ hb', h⟩
  rw [files_newFromPersistedSnapshots] at hf
  rcases hfold _ _ hf with hf | ⟨b, hb, hf⟩
  · exact absurd hf (by simp)
  · obtain ⟨m, hm, rfl⟩ := mem_map.mp hb
    exact ⟨m, mem_orderedOldestFirst.mp hm, hf⟩

theorem files_addPersistedFile (inner : PersistedFiles) (k k' : TableKey) (file : ParquetFile) :
    (inner.addPersistedFile k file).files k' = inner.files k' ∨
      k' = k ∧ (inner.addPersistedFile k file).files k' = inner.files k' ++ [file] := by
  unfold addPersistedFile
  split
  · exact .inl rfl
  · by_cases hk : k' = k
    · subst hk
      exact .inr ⟨rfl, by simp⟩
    · exact .inl (by simp [hk])

theorem mem_addPersistedFile {file : ParquetFile} (hf : f ∈ (inner.addPersistedFile k file).files k') :
    f ∈ inner.files k' ∨ k' = k ∧ f = file := by
  rcases files_addPersistedFile inner k k' file with heq | ⟨hk, heq⟩
  · exact .inl (heq ▸ hf)
  · rw [heq, mem_append, mem_singleton] at hf
    exact hf.imp id fun h => ⟨hk, h⟩

theorem mem_addPersistedFile_self (inner : PersistedFiles) (k : TableKey) (file : ParquetFile) :
    file ∈ (inner.addPersistedFile k file).files k := by
  unfold addPersistedFile
  split
  · assumption
  · simp

theorem mem_addPersistedFile_of_mem {file : ParquetFile} (hf : f ∈ inner.files k') :
    f ∈ (inner.addPersistedFile k file).files k' := by
  rcases files_addPersistedFile inner k k' file with heq | ⟨-, heq⟩
  · exact heq ▸ hf
  · exact heq ▸ mem_append_left _ hf

/-- The swap of one merged file leaves and removes only files that were there, and the merged one. -/
theorem mem_applyCompaction (inner : PersistedFiles) (k : TableKey) (merged : ParquetFile) (paths : List String) :
    (∀ k' f, f ∈ (inner.applyCompaction k [merged] paths).2.2.files k' → f ∈ inner.files k' ∨ k' = k ∧ f = merged) ∧
    ∀ f ∈ (inner.applyCompaction k [merged] paths).2.1, f ∈ inner.files k ∨ f = merged := by
  have hadd {k' : TableKey} {f : ParquetFile} (hf : f ∈ (inner.addCompactedFile k merged).2.files k') :
      f ∈ inner.files k' ∨ k' = k ∧ f = merged := by
    unfold addCompactedFile at hf
    split at hf
    · exact .inl hf
    · by_cases hk : k' = k
      · subst hk
        simp only [Function.update_self, mem_append, mem_singleton] at hf
        exact hf.imp id fun h => ⟨rfl, h⟩
      · exact .inl (by simpa [hk] using hf)
  simp only [applyCompaction, foldl_cons, foldl_nil, removeFilesByPath]
  constructor
  · intro k' f hf
    refine hadd ?_
    by_cases hk : k' = k
    · subst hk
      rw [Function.update_self] at hf
      exact (mem_filter.mp hf).1
    · rwa [Function.update_of_ne hk] at hf
  · intro f hf
    exact (hadd (mem_filter.mp hf).1).imp id And.right

/-- The paths that go are those named. -/
theorem path_applyCompaction (inner : PersistedFiles) (k : TableKey) (merged : ParquetFile) (paths : List String) :
    (∀ f ∈ (inner.applyCompaction k [merged] paths).2.2.files k, f.path ∉ paths) ∧
    ∀ f ∈ (inner.applyCompaction k [merged] paths).2.1, f.path ∈ paths := by
  simp only [applyCompaction, foldl_cons, foldl_nil, removeFilesByPath, Function.update_self]
  exact ⟨fun f hf => of_decide_eq_true (mem_filter.mp hf).2, fun f hf => of_decide_eq_true (mem_filter.mp hf).2⟩

/-- A merged file whose path is listed is not listed again. -/
theorem mem_files_of_applyCompaction {merged : ParquetFile} {paths : List String}
    (hlisted : ∃ f ∈ inner.files k, f.path = merged.path)
    (hf : f ∈ (inner.applyCompaction k [merged] paths).2.2.files k) : f ∈ inner.files k := by
  have hany : ((inner.files k).any fun existing => existing.path = merged.path) = true := by simpa using hlisted
  simp only [applyCompaction, foldl_cons, foldl_nil, removeFilesByPath, Function.update_self,
    addCompactedFile, hany, if_true] at hf
  exact mem_of_mem_filter hf

/-- What is queued is listed for a table that is due, and before the table's cutoff if there is one. -/
theorem due_of_mem_removeFilesForDeletion {e : TableKey × ParquetFile} (he : e ∈ (inner.removeFilesForDeletion due).1) :
    ∃ d ∈ due, d.1 = e.1 ∧ e.2 ∈ inner.files e.1 ∧
      d.2.elim true (fun cutoff => decide (e.2.maxTime < cutoff)) = true := by
  have hkeep (queued : List (TableKey × ParquetFile)) :
      e ∈ queued.foldl (fun acc e => if e.2.path ∈ acc.map (·.2.path) then acc else acc ++ [e]) [] → e ∈ queued := by
    refine List.foldlRecOn (motive := (e ∈ · → e ∈ queued)) queued _ nofun fun acc ih first hfirst he => ?_
    split at he
    · exact ih he
    · exact (mem_append.mp he).elim ih fun he => mem_singleton.mp he ▸ hfirst
  obtain ⟨d, hd, he⟩ := mem_flatMap.mp (hkeep _ he)
  obtain ⟨f, hf, rfl⟩ := mem_map.mp he
  obtain ⟨hf, hcutoff⟩ := mem_filter.mp hf
  exact ⟨d, hd, rfl, hf, hcutoff⟩

theorem mem_removeFilesForDeletion (inner : PersistedFiles) (due : List (TableKey × Option Int)) :
    (∀ k f, f ∈ (inner.removeFilesForDeletion due).2.files k → f ∈ inner.files k) ∧
    ∀ e ∈ (inner.removeFilesForDeletion due).1, e.2 ∈ inner.files e.1 := by
  refine ⟨fun k f hf => (mem_filter.mp hf).1, fun e he => ?_⟩
  obtain ⟨d, -, -, hf, -⟩ := due_of_mem_removeFilesForDeletion he
  exact hf

/-- Every listed file of a deleted table is queued, under its own path. -/
theorem path_mem_removeFilesForDeletion (hdue : (k, none) ∈ due)
    (hf : f ∈ inner.files k) : f.path ∈ (inner.removeFilesForDeletion due).1.map (·.2.path) := by
  have hqueue : ∀ (queued acc : List (TableKey × ParquetFile)), (k, f) ∈ queued ∨ f.path ∈ acc.map (·.2.path) →
      f.path ∈ (queued.foldl (fun acc e => if e.2.path ∈ acc.map (·.2.path) then acc else acc ++ [e]) acc).map
        (·.2.path) := by
    intro queued
    induction queued with
    | nil => exact fun acc h => h.resolve_left (by simp)
    | cons e queued ih =>
      intro acc h
      refine ih _ ?_
      rcases h with h | h
      · rcases mem_cons.mp h with rfl | h
        · refine .inr ?_
          simp only
          split
          · assumption
          · simp
        · exact .inl h
      · refine .inr ?_
        simp only
        split
        · exact h
        · rw [map_append]
          exact mem_append_left _ h
  refine hqueue _ [] (.inl (mem_flatMap.mpr ⟨(k, none), hdue, ?_⟩))
  exact mem_map.mpr ⟨f, mem_filter.mpr ⟨hf, rfl⟩, rfl⟩

end PersistedFiles
end VarveDB
