import VarveDB.Checkpoint.Compose

/-! The counters beside the list of persisted files, against the files it holds. -/
namespace VarveDB.PersistedFiles
open Library Runs List Checkpoint

def addPersistedSnapshot (inner : PersistedFiles) (snapshot : PersistedSnapshot) : PersistedFiles :=
  let st := updatePersistedFilesWithSnapshot false snapshot inner.files
  { files := st.files
    parquetFilesCount := inner.parquetFilesCount + st.fileCount
    parquetFilesRowCount := inner.parquetFilesRowCount + snapshot.rowCount - st.removedRowCount }

def grouped (held : List Entry) (k : TableKey) : List ParquetFile := (held.filter fun e => e.1 = k).map Prod.snd

def ofCheckpoint (c : PersistedSnapshotCheckpoint) : PersistedFiles where
  files := grouped c.databases
  parquetFilesCount := c.databases.length
  parquetFilesRowCount := c.rowCount

variable (checkpoints : List PersistedSnapshotCheckpoint) {initialLoad : Bool}

def ofCheckpoints : PersistedFiles :=
  (mergeCheckpoints (checkpoints.insertionSort fun c d => c.yearMonth ≤ d.yearMonth)).elim empty ofCheckpoint

def newFromCheckpointsAndSnapshots (additionalSnapshots : List PersistedSnapshot) : PersistedFiles :=
  (orderedOldestFirst additionalSnapshots).foldl addPersistedSnapshot (ofCheckpoints checkpoints)

inductive Action where
  | addPersistedFile (k : TableKey) (file : ParquetFile)
  | addPersistedSnapshotFiles (snapshot : PersistedSnapshot)
  | applyCompaction (k : TableKey) (added : List ParquetFile) (removedPaths : List String)
  | removeFilesForDeletion (due : List (TableKey × Option Int))

def step (s : PersistedFiles) : Action → Option PersistedFiles
  | .addPersistedFile k file => some (s.addPersistedFile k file)
  | .addPersistedSnapshotFiles snapshot => some (s.addPersistedSnapshot snapshot)
  | .applyCompaction k added removedPaths => some (s.applyCompaction k added removedPaths).2.2
  | .removeFilesForDeletion due => some (s.removeFilesForDeletion due).2

def Lists (files : TableKey → List ParquetFile) (held : List Entry) : Prop := ∀ k, (grouped held k).Perm (files k)

structure Counts (s : PersistedFiles) (held : List Entry) : Prop where
  lists : Lists s.files held
  count : s.parquetFilesCount = held.length
  rows : s.parquetFilesRowCount = (held.map (·.2.rowCount)).sum

/-- The row total of a manifest is that of the files it adds, and it removes no more files than it adds. -/
def Plain (m : PersistedSnapshot) : Prop :=
  m.rowCount = ((entries m.databases).map fun e => e.2.rowCount).sum ∧
    (entries m.removedFiles).length ≤ (entries m.databases).length

/-- A file or a manifest's files are added only if they are not held, a manifest is plain and lists each file once, and
when files are deleted no two files that are held have one path. -/
def Regular (s : PersistedFiles) : Action → Prop
  | .addPersistedFile k file => file ∉ s.files k
  | .addPersistedSnapshotFiles m => Plain m ∧ (entries m.databases).Nodup ∧ ∀ e ∈ entries m.databases, e.2 ∉ s.files e.1
  | .applyCompaction _ _ _ => True
  | .removeFilesForDeletion _ => (∀ k, (s.files k).Nodup) ∧
    ∀ k k' f f', f ∈ s.files k → f' ∈ s.files k' → f.path = f'.path → k = k' ∧ f = f'

inductive Source where
  | snapshots (persistedSnapshots : List PersistedSnapshot)
  | checkpoints (checkpoints : List PersistedSnapshotCheckpoint) (additionalSnapshots : List PersistedSnapshot)

def Source.build : Source → PersistedFiles
  | .snapshots ms => newFromPersistedSnapshots ms
  | .checkpoints cs ms => newFromCheckpointsAndSnapshots cs ms

/-- Manifests are plain, checkpoints have the row total of their files, and what is added to these is regular. -/
def Source.Regular : Source → Prop
  | .snapshots ms => ∀ m ∈ ms, Plain m
  | .checkpoints cs ms => (∀ c ∈ cs, c.rowCount = (c.databases.map fun e => e.2.rowCount).sum) ∧
      Guarded step PersistedFiles.Regular (ofCheckpoints cs) ((orderedOldestFirst ms).map .addPersistedSnapshotFiles)

section
variable {files : TableKey → List ParquetFile} {held : List Entry} {k : TableKey} {f : ParquetFile}
  {s s' : PersistedFiles} {st : FoldedFiles} {m : PersistedSnapshot} {rows : Nat}

theorem mem_grouped : f ∈ grouped held k ↔ (k, f) ∈ held := by
  simp [grouped]

private theorem grouped_filter (held : List Entry) (p : Entry → Bool) (k : TableKey) :
    grouped (held.filter p) k = (grouped held k).filter fun f => p (k, f) := by
  rw [grouped, grouped, filter_map, filter_filter, filter_filter]
  refine congrArg _ (filter_congr fun e _ => ?_)
  by_cases hk : e.1 = k
  · simp [← hk]
  · simp [hk]

theorem Lists.append (h : Lists files held) (k : TableKey) (l : List ParquetFile) :
    Lists (Function.update files k (files k ++ l)) (held ++ l.map (k, ·)) := by
  intro k'
  rw [grouped, filter_append, map_append, filter_map, map_map]
  by_cases hk : k' = k
  · subst hk
    simpa [grouped, Function.comp_def] using (h k').append_right l
  · simpa [grouped, Function.update_of_ne hk, Ne.symm hk, Function.comp_def] using h k'

theorem Lists.swapRemove (h : Lists files held) {i : Nat} (hi : i < (files k).length) :
    ∃ f held', (files k)[i]? = some f ∧ held.Perm ((k, f) :: held') ∧
      Lists (Function.update files k (swapRemove (files k) i)) held' := by
  have hmem : (k, (files k)[i]) ∈ held := mem_grouped.mp ((h k).mem_iff.mpr (getElem_mem hi))
  refine ⟨_, held.erase (k, (files k)[i]), getElem?_eq_getElem hi, perm_cons_erase hmem, fun k' => ?_⟩
  have hperm : (grouped ((k, (files k)[i]) :: held.erase (k, (files k)[i])) k').Perm (files k') :=
    (((perm_cons_erase hmem).symm.filter _).map _).trans (h k')
  by_cases hk : k' = k
  · subst hk
    rw [Function.update_self]
    refine List.Perm.trans ?_ (swapRemove_perm hi).symm
    simpa [grouped] using hperm.trans (getElem_cons_eraseIdx_perm hi).symm
  · simpa [grouped, Function.update_of_ne hk, Ne.symm hk] using hperm

theorem Counts.append (h : s.Counts held) (k : TableKey) (file : ParquetFile) :
    Counts ⟨Function.update s.files k (s.files k ++ [file]), s.parquetFilesCount + 1,
      s.parquetFilesRowCount + file.rowCount⟩
      (held ++ [(k, file)]) :=
  ⟨h.lists.append k [file], by simp [h.count], by simp [h.rows]⟩

/-- Files are dropped, and what is subtracted is counted from a list of them. -/
theorem Counts.drop (h : s.Counts held) {p : Entry → Bool} {removed : List ParquetFile}
    (hremoved : removed.Perm ((held.filter p).map Prod.snd)) :
    Counts ⟨fun k => (s.files k).filter fun f => !p (k, f), s.parquetFilesCount - removed.length,
      s.parquetFilesRowCount - (removed.map ParquetFile.rowCount).sum⟩ (held.filter (!p ·)) := by
  have hsplit := filter_append_perm p held
  have hcount := hsplit.length_eq
  have hrows := (hsplit.map (·.2.rowCount)).sum_nat
  rw [length_append, ← h.count] at hcount
  rw [map_append, sum_append, ← h.rows] at hrows
  refine ⟨fun k => ?_, ?_, ?_⟩
  · rw [grouped_filter]
    exact (h.lists k).filter _
  · simp only [hremoved.length_eq, length_map]
    omega
  · rw [(hremoved.map _).sum_nat, map_map]
    exact Nat.sub_eq_of_eq_add (hrows.symm.trans (Nat.add_comm _ _))

theorem Counts.addCompactedFile (h : ∃ held, s.Counts held) (k : TableKey) (file : ParquetFile) :
    ∃ held, (s.addCompactedFile k file).2.Counts held := by
  unfold PersistedFiles.addCompactedFile
  split
  · exact h
  · exact h.imp' _ fun _ h => h.append k file

theorem Counts.removeFilesByPath (h : s.Counts held) (k : TableKey) (paths : List String) :
    ∃ held, (s.removeFilesByPath k paths).2.Counts held := by
  have hremoved : ((s.files k).filter fun f => f.path ∈ paths).Perm
      ((held.filter fun e => e.1 = k ∧ e.2.path ∈ paths).map Prod.snd) := by
    refine ((h.lists k).symm.filter _).trans (List.Perm.of_eq ?_)
    rw [grouped, filter_map, filter_filter]
    exact congrArg _ (filter_congr fun e _ => by simp [Bool.and_comm])
  refine ⟨_, (Eq.subst (motive := (Counts · _)) ?_ (h.drop hremoved))⟩
  refine congrArg (PersistedFiles.mk · _ _) (funext fun k' => ?_)
  by_cases hk : k' = k
  · subst hk
    simp
  · simp [hk]

theorem Counts.applyCompaction (h : ∃ held, s.Counts held) (k : TableKey) (added : List ParquetFile)
    (removedPaths : List String) : ∃ held, (s.applyCompaction k added removedPaths).2.2.Counts held := by
  obtain ⟨held, h⟩ := List.foldlRecOn (motive := fun acc : Nat × PersistedFiles => ∃ held, acc.2.Counts held) added
    (fun acc file =>
      (if (acc.2.addCompactedFile k file).1 then acc.1 + 1 else acc.1, (acc.2.addCompactedFile k file).2))
    (b := (0, s)) h fun acc h file _ => addCompactedFile h k file
  exact h.removeFilesByPath k removedPaths

private theorem nodup_path_removed (s : PersistedFiles) (due : List (TableKey × Option Int)) :
    ((s.removeFilesForDeletion due).1.map (·.2.path)).Nodup := by
  refine List.foldlRecOn (motive := fun acc : List Entry => (acc.map (·.2.path)).Nodup) _ _ (b := []) nodup_nil
    fun acc h e _ => ?_
  split
  · exact h
  · next hnew =>
    rw [map_append]
    exact h.append (nodup_singleton _) (disjoint_singleton.mpr hnew)

/-- If a path names one file only, as many files are dropped as were queued. -/
theorem Counts.removeFilesForDeletion (h : s.Counts held) (due : List (TableKey × Option Int))
    (hnodup : ∀ k, (s.files k).Nodup)
    (hpaths : ∀ k k' f f', f ∈ s.files k → f' ∈ s.files k' → f.path = f'.path → k = k' ∧ f = f') :
    ∃ held, (s.removeFilesForDeletion due).2.Counts held := by
  have hheld (e : Entry) : e ∈ held ↔ e.2 ∈ s.files e.1 := by
    rw [← (h.lists e.1).mem_iff, mem_grouped]
  have hdistinct : held.Nodup := by
    refine nodup_iff_sublist.mpr fun e he => ?_
    refine nodup_iff_sublist.mp ((h.lists e.1).nodup_iff.mpr (hnodup e.1)) e.2 ?_
    simpa [grouped] using (he.filter fun e' => e'.1 = e.1).map Prod.snd
  have hremoved : ((s.removeFilesForDeletion due).1.map Prod.snd).Perm
      ((held.filter fun e => e.2.path ∈ (s.removeFilesForDeletion due).1.map (·.2.path)).map Prod.snd) := by
    refine ((perm_ext_iff_of_nodup (nodup_path_removed s due).of_map (hdistinct.filter _)).mpr fun e => ?_).map _
    have hqueued := (mem_removeFilesForDeletion s due).2
    simp only [mem_filter, hheld, decide_eq_true_eq, mem_map]
    refine ⟨fun he => ⟨hqueued e he, e, he, rfl⟩, fun ⟨he, e', he', hpath⟩ => ?_⟩
    obtain ⟨hk, hf⟩ := hpaths _ _ _ _ (hqueued e' he') he hpath
    exact (Prod.ext hk hf : e' = e) ▸ he'
  have hdropped := h.drop hremoved
  simp only [length_map, map_map, ← decide_not] at hdropped
  exact ⟨_, hdropped⟩

structure Merging (s : PersistedFiles) (rows : Nat) (st : FoldedFiles) (held : List Entry) : Prop where
  lists : Lists st.files held
  count : held.length = s.parquetFilesCount + st.fileCount
  rows : (held.map (·.2.rowCount)).sum + st.removedRowCount = rows

section
variable (h : Merging s rows st held)
include h

private theorem Merging.addTables {databases : List (TableKey × List ParquetFile)}
    (hnew : initialLoad = true ∨ (entries databases).Nodup ∧ Disjoint held (entries databases)) :
    Merging s (rows + ((entries databases).map (·.2.rowCount)).sum)
      (databases.foldl (FoldedFiles.addFiles initialLoad) st)
      (held ++ entries databases) := by
  induction databases generalizing st rows held with
  | nil => simpa [entries] using h
  | cons table databases ih =>
    have hentries : entries (table :: databases) = table.2.map (table.1, ·) ++ entries databases := rfl
    have hfresh : (if initialLoad then table.2 else table.2.filter fun file => file ∉ st.files table.1) = table.2 := by
      split
      · rfl
      · next hload =>
        refine filter_eq_self.mpr fun f hf => decide_eq_true fun hheld => ?_
        exact (hnew.resolve_left hload).2 (mem_grouped.mp ((h.lists _).mem_iff.mpr hheld))
          (mem_append_left _ (mem_map_of_mem hf))
    have hadded : Merging s (rows + (table.2.map ParquetFile.rowCount).sum) (st.addFiles initialLoad table)
        (held ++ table.2.map (table.1, ·)) := by
      simp only [FoldedFiles.addFiles, hfresh]
      refine ⟨h.lists.append _ _, ?_, ?_⟩
      · simp [h.count, Nat.add_assoc]
      · simp [← h.rows, Function.comp_def, Nat.add_right_comm]
    have hlater : initialLoad = true ∨
        (entries databases).Nodup ∧ Disjoint (held ++ table.2.map (table.1, ·)) (entries databases) := by
      refine hnew.imp_right fun hnew => ?_
      obtain ⟨hnodup, hheld⟩ := hnew
      exact ⟨hnodup.of_append_right,
        disjoint_append_left.mpr ⟨(disjoint_append_right.mp hheld).2, disjoint_of_nodup_append hnodup⟩⟩
    simpa [hentries, Function.comp_def, Nat.add_assoc] using ih hadded hlater

theorem Merging.removeFile (k : TableKey) (file : ParquetFile) (hpos : 0 < st.fileCount) :
    (∃ held, Merging s rows (st.removeFile k file) held) ∧ st.fileCount ≤ (st.removeFile k file).fileCount + 1 := by
  unfold FoldedFiles.removeFile
  cases hfind : (st.files k).findIdx? (fun f => f.id = file.id) with
  | none => exact ⟨⟨held, h⟩, Nat.le_succ _⟩
  | some i =>
    obtain ⟨hi, -⟩ := List.findIdx?_eq_some_iff_getElem.mp hfind
    obtain ⟨f, held', hf, hperm, hlists⟩ := h.lists.swapRemove hi
    have hcount := hperm.length_eq.symm.trans h.count
    have hrows := (hperm.map (·.2.rowCount)).sum_nat
    have := h.rows
    simp only [length_cons, map_cons, sum_cons] at hcount hrows
    simp only [hf, Option.elim_some]
    exact ⟨⟨held', hlists, by simp only; omega, by simp only; omega⟩, by omega⟩

private theorem Merging.removeTables {removed : List Entry} (hle : removed.length ≤ st.fileCount) :
    ∃ held, Merging s rows (removed.foldl (fun st e => st.removeFile e.1 e.2) st) held := by
  induction removed generalizing st held with
  | nil => exact ⟨held, h⟩
  | cons e removed ih =>
    rw [length_cons] at hle
    obtain ⟨⟨_, hremoved⟩, hcount⟩ := h.removeFile e.1 e.2 (by omega)
    exact ih hremoved (Nat.le_of_succ_le_succ (hle.trans hcount))

end

/-- A plain manifest changes the counters as it changes the files. -/
theorem Counts.snapshot (h : s.Counts held) (hm : Plain m)
    (hnew : initialLoad = true ∨ (entries m.databases).Nodup ∧ ∀ e ∈ entries m.databases, e.2 ∉ s.files e.1) :
    let st := updatePersistedFilesWithSnapshot initialLoad m s.files
    ∃ held, Counts ⟨st.files, s.parquetFilesCount + st.fileCount,
      s.parquetFilesRowCount + m.rowCount - st.removedRowCount⟩ held := by
  intro st
  have hstart : Merging s s.parquetFilesRowCount ⟨s.files, 0, 0, 0⟩ held := ⟨h.lists, h.count.symm, h.rows.symm⟩
  have hadded := hstart.addTables (hnew.imp_right fun hnew => ⟨hnew.1, fun e he he' =>
    hnew.2 e he' ((h.lists _).mem_iff.mp (mem_grouped.mpr he))⟩)
  have hcount := hadded.count
  rw [length_append, ← h.count, Nat.add_left_cancel_iff] at hcount
  obtain ⟨held', hremoved⟩ := hadded.removeTables (hcount ▸ hm.2)
  have hst : st = (entries m.removedFiles).foldl (fun st e => st.removeFile e.1 e.2)
      (m.databases.foldl (FoldedFiles.addFiles initialLoad) ⟨s.files, 0, 0, 0⟩) := by
    simp only [st, updatePersistedFilesWithSnapshot, entries, foldl_flatMap, foldl_map]
  rw [← hst, ← hm.1] at hremoved
  exact ⟨held', hremoved.lists, hremoved.count.symm, Nat.sub_eq_of_eq_add hremoved.rows.symm⟩

theorem Counts.step {a : Action} (h : ∃ held, s.Counts held) (hguard : s.Regular a) (hstep : s.step a = some s') :
    ∃ held, s'.Counts held := by
  obtain ⟨held, hs⟩ := h
  cases a <;> cases hstep
  case addPersistedFile k file =>
    rw [addPersistedFile, if_neg hguard]
    exact ⟨_, hs.append k file⟩
  case addPersistedSnapshotFiles => exact hs.snapshot hguard.1 (.inr hguard.2)
  case applyCompaction => exact applyCompaction ⟨held, hs⟩ ..
  case removeFilesForDeletion => exact hs.removeFilesForDeletion _ hguard.1 hguard.2

private theorem rows_merge {c : PersistedSnapshotCheckpoint}
    (h : c.rowCount = (c.databases.map fun e => e.2.rowCount).sum) (other : PersistedSnapshotCheckpoint) :
    (c.merge other).rowCount = ((c.merge other).databases.map fun e => e.2.rowCount).sum := by
  have hadded := List.foldlRecOn (motive := fun c : PersistedSnapshotCheckpoint =>
    c.rowCount = (c.databases.map fun e => e.2.rowCount).sum) other.databases PersistedSnapshotCheckpoint.addFile h
    fun c h e _ => by simp [PersistedSnapshotCheckpoint.addFile, h]
  have hswept := List.foldlRecOn (motive := fun acc : Bool × PersistedSnapshotCheckpoint =>
    acc.2.rowCount = (acc.2.databases.map fun e => e.2.rowCount).sum) other.pendingRemovedFiles
    (fun acc e => (acc.1 || (acc.2.removeFile e.1 e.2.id).1, (acc.2.removeFile e.1 e.2.id).2)) (b := (false, _)) hadded
    fun acc h e _ => PersistedSnapshotCheckpoint.rows_removeFile h _ _
  simp only [PersistedSnapshotCheckpoint.merge]
  split <;> exact hswept

private theorem counts_empty : empty.Counts [] := ⟨fun _ => .refl _, rfl, rfl⟩

private theorem Source.Regular.counts {source : Source} (h : source.Regular) : ∃ held, source.build.Counts held := by
  cases source with
  | snapshots ms =>
    refine List.foldlRecOn (motive := fun s => ∃ held, Counts s held) _ _ ⟨[], counts_empty⟩ fun s ⟨_, hs⟩ m hm => ?_
    exact hs.snapshot (h m (mem_orderedOldestFirst.mp hm)) (.inl rfl)
  | checkpoints cs ms =>
    have hstart : ∃ held, (ofCheckpoints cs).Counts held := by
      unfold ofCheckpoints
      have hmem {c : PersistedSnapshotCheckpoint} : c ∈ cs.insertionSort (fun c d => c.yearMonth ≤ d.yearMonth) →
          c ∈ cs :=
        (mem_insertionSort _).mp
      cases hsorted : cs.insertionSort fun c d => c.yearMonth ≤ d.yearMonth with
      | nil => exact ⟨[], counts_empty⟩
      | cons c rest =>
          exact ⟨_, fun _ => .refl _, rfl, List.foldlRecOn (motive := fun c : PersistedSnapshotCheckpoint =>
          c.rowCount = (c.databases.map fun e => e.2.rowCount).sum) rest _ (h.1 c (hmem (by simp [hsorted])))
          fun c hc d _ => rows_merge hc d⟩
    have hfold (ms : List PersistedSnapshot) (s : PersistedFiles) :
        run PersistedFiles.step s (ms.map .addPersistedSnapshotFiles) = some (ms.foldl addPersistedSnapshot s) := by
      induction ms generalizing s with
      | nil => rfl
      | cons m ms ih => exact ih _
    exact invariant Counts.step hstart h.2 (hfold _ _)

end

/-- However the list was built and changed, if all of that was regular the counters are those of its files. -/
theorem counters_count_files {source : Source} {actions : List Action} {s : PersistedFiles} (hsource : source.Regular)
    (hguard : Guarded step Regular source.build actions) (hrun : run step source.build actions = some s) :
    ∃ held, s.Counts held :=
  invariant Counts.step hsource.counts hguard hrun

private def counted (id : Nat) : ParquetFile := ⟨id, toString id, 100, 10, 0, id, id⟩

private def manifest (number : Nat) (added removed : List ParquetFile) : PersistedSnapshot :=
  { PersistedSnapshot.new "node" number 0 0 0 with
    rowCount := 10 * added.length, databases := [((0, 0), added)], removedFiles := [((0, 0), removed)] }

/-- Two files, one of them loaded, are merged into one. -/
theorem merged_file_counted : ∃ s, run step (Source.snapshots [manifest 1 [counted 1] []]).build
      [.addPersistedFile (0, 0) (counted 2), .applyCompaction (0, 0) [counted 3] ["1", "2"]] = some s ∧
    s.parquetFilesCount = 1 ∧ s.parquetFilesRowCount = 10 ∧ ∃ held, s.Counts held := by
  have hsource : (Source.snapshots [manifest 1 [counted 1] []]).Regular := fun m hm => by
    obtain rfl := mem_singleton.mp hm
    exact ⟨by decide, by decide⟩
  refine exists_and_and (by decide) fun s hrun _ _ => counters_count_files hsource ?_ hrun
  exact ⟨(by decide : counted 2 ∉ (Source.snapshots [manifest 1 [counted 1] []]).build.files (0, 0)), trivial, trivial⟩

/-- A file that is added again is counted again, and a list that is rebuilt from a manifest that removes two files and
adds the one they were merged to counts the removed ones still. -/
theorem counters_drift :
    (∃ s, run step (Source.snapshots []).build
      [.addPersistedFile (0, 0) (counted 1), .addPersistedFile (0, 0) (counted 1)] = some s ∧ ¬ ∃ held, s.Counts held) ∧
    ¬ ∃ held, (Source.snapshots
      [manifest 1 [counted 1, counted 2] [], manifest 2 [counted 3] [counted 1, counted 2]]).build.Counts
      held := by
  have hsingle {s : PersistedFiles} {held : List Entry} (hs : ∀ k ≠ (0, 0), s.files k = []) (h : s.Counts held) :
      s.parquetFilesCount = (s.files (0, 0)).length := by
    have hall : ∀ e ∈ held, decide (e.1 = (0, 0)) = true := fun e he => decide_eq_true (by_contra fun hk =>
      not_mem_nil (hs _ hk ▸ (h.lists e.1).mem_iff.mp (mem_grouped.mpr he)))
    rw [h.count, ← (h.lists _).length_eq, grouped, length_map, filter_eq_self.mpr hall]
  refine ⟨⟨_, rfl, fun ⟨held, h⟩ => ?_⟩, fun ⟨held, h⟩ => ?_⟩
  · refine absurd (hsingle (fun k hk => eq_nil_iff_forall_not_mem.mpr fun f hf => ?_) h) (by decide)
    rcases mem_addPersistedFile hf with hf | ⟨rfl, -⟩
    · exact (mem_addPersistedFile hf).elim not_mem_nil fun hf => hk hf.1
    · exact hk rfl
  · refine absurd (hsingle (fun k hk => eq_nil_iff_forall_not_mem.mpr fun f hf => ?_) h) (by decide)
    obtain ⟨m, hm, hf⟩ := added_of_mem_newFromPersistedSnapshots hf
    simp only [mem_cons, not_mem_nil, or_false] at hm
    rcases hm with rfl | rfl <;> simp [manifest, PersistedSnapshot.addedTo, filesOf, hk.symm] at hf

end VarveDB.PersistedFiles
