import VarveDB.Compaction.Merge
import VarveDB.Library.Runs

/-! When a compaction leaves query answers as they were. -/
namespace VarveDB.Compactor
open Library FileIndex List
variable {κ ρ : Type*}

abbrev Contents (κ ρ : Type*) := String → κ → Option ρ

/-- The deduplicated answer: for each primary key within the time bounds, the row of the last
file of the slice that holds it. -/
def answer (time : κ → Int) (contents : Contents κ ρ) (ix : FileIndex) (dbId tableId : Nat) (filter : ChunkFilter)
    (excludeNode : Option String) (k : κ) : Option ρ :=
  if filter.testTimeStampMinMax (time k) (time k) then
    lastWins ((ix.getFilesFiltered dbId tableId filter excludeNode).map fun f => contents f.path) k
  else none

def MergeGroup.rows (g : MergeGroup) (contents : Contents κ ρ) : κ → Option ρ :=
  lastWins (g.inputs.map fun f => contents f.path)

def MergeGroup.publish (g : MergeGroup) (target : String) (sequence snapshotSequence : Nat) (merged : ParquetFile) :
    FileIndexLogEntry := ⟨sequence, [g.delta target snapshotSequence merged]⟩

def Covers (time : κ → Int) (contents : Contents κ ρ) (ix : FileIndex) : Prop :=
  ∀ e ∈ ix.files, ∀ k, (contents e.file.path k).isSome → e.file.minTime ≤ time k ∧ time k ≤ e.file.maxTime

def FreshPath (ix : FileIndex) (target : String) (g : MergeGroup) (path : String) : Prop :=
  ∀ e ∈ ix.files, e.file.path = path → e.inTable target g.dbId g.tableId ∧ path ∈ g.paths

/-- For every key of the group, the last input that holds it carries the row that the last
published file carries, in every slice that shows the group. -/
def LastPublished (contents : Contents κ ρ) (ix : FileIndex) (target : String) (g : MergeGroup) : Prop :=
  ∀ excludeNode, excludeNode ≠ some target → ∀ k, (g.rows contents k).isSome →
    lastWins ((ix.slice g.dbId g.tableId excludeNode).map fun e => contents e.file.path) k = g.rows contents k

theorem answer_eq {time : κ → Int} {contents : Contents κ ρ} {ix : FileIndex} (h : Covers time contents ix)
    (dbId tableId : Nat) (filter : ChunkFilter) (excludeNode : Option String) (k : κ) :
    answer time contents ix dbId tableId filter excludeNode k = if filter.testTimeStampMinMax (time k) (time k) then
        lastWins ((ix.slice dbId tableId excludeNode).map fun e => contents e.file.path) k else none := by
  unfold answer
  split
  case isFalse => rfl
  case isTrue hadmits =>
    rw [getFilesFiltered_eq, map_map]
    refine lastWins_map_filter fun e he hout => Option.not_isSome_iff_eq_none.mp fun hsome => ?_
    obtain ⟨hmin, hmax⟩ := h e (mem_slice.mp he).1 k hsome
    exact Bool.false_ne_true (hout.symm.trans (ChunkFilter.test_of_covers hadmits hmin hmax))

variable {excludeNode : Option String} (late : Bool) {dbId tableId : Nat}

section Publish
variable {ix : FileIndex} {target : String} {g : MergeGroup} {merged : ParquetFile} {sequence snapshotSequence : Nat}

theorem entries_apply_publish (hfresh : FreshPath ix target g merged.path) (hseq : ix.sequence < sequence) :
    (ix.apply (g.publish target sequence snapshotSequence merged)).files.entries = (ix.files.entries.filter fun e =>
        !(e.inTable target g.dbId g.tableId && g.paths.contains e.file.path)) ++
        [⟨target, g.dbId, g.tableId, merged, sequence⟩] := by
  have hnew : ¬ sequence ≤ ix.sequence := by omega
  simp only [FileIndex.apply, MergeGroup.publish, MergeGroup.delta, hnew, if_false, foldl_cons, foldl_nil,
    applyDelta]
  refine KeyedList.entries_insertNew_of_not_mem fun hmem => ?_
  obtain ⟨e, he, hkey⟩ := mem_map.mp hmem
  simp only [KeyedList.entries_retain, mem_filter, Bool.not_eq_true', Bool.and_eq_false_iff] at he
  have hpath : e.file.path = merged.path := congrArg (fun k => k.2.2.2) hkey
  obtain ⟨htable, hpaths⟩ := hfresh e he.1 hpath
  rcases he.2 with hout | hout
  · exact Bool.false_ne_true (hout.symm.trans htable)
  · simp [hpath, hpaths] at hout

private theorem slice_apply_shown (hix : Reachable ix) (hfresh : FreshPath ix target g merged.path)
    (hseq : ix.sequence < sequence) (hshown : excludeNode ≠ some target) :
    (ix.apply (g.publish target sequence snapshotSequence merged)).slice g.dbId g.tableId excludeNode =
      ((ix.slice g.dbId g.tableId excludeNode).filter fun e =>
        !(e.inTable target g.dbId g.tableId && g.paths.contains e.file.path)) ++
        [⟨target, g.dbId, g.tableId, merged, sequence⟩] := by
  have hmerged : [(⟨target, g.dbId, g.tableId, merged, sequence⟩ : SnapshotEntry)].filter (fun e =>
      excludeNode ≠ some e.nodeId ∧ e.dbId = g.dbId ∧ e.tableId = g.tableId) =
        [⟨target, g.dbId, g.tableId, merged, sequence⟩] := by simp [hshown]
  rw [slice, entries_apply_publish hfresh hseq, filter_append, hmerged, insertionSort_append_singleton,
    filter_comm, insertionSort_filter]
  · rfl
  · intro e he
    have hmem : e ∈ ix.files := (mem_filter.mp (mem_filter.mp he).1).1
    exact .inl (Nat.lt_of_le_of_lt (hix.addedAt_le hmem) hseq)

private theorem slice_apply_hidden (hfresh : FreshPath ix target g merged.path) (hseq : ix.sequence < sequence)
    (hhidden : ¬ (excludeNode ≠ some target ∧ g.dbId = dbId ∧ g.tableId = tableId)) :
    (ix.apply (g.publish target sequence snapshotSequence merged)).slice dbId tableId excludeNode =
      ix.slice dbId tableId excludeNode := by
  have hmerged : [(⟨target, g.dbId, g.tableId, merged, sequence⟩ : SnapshotEntry)].filter (fun e =>
      excludeNode ≠ some e.nodeId ∧ e.dbId = dbId ∧ e.tableId = tableId) = [] := by
    simpa using hhidden
  rw [slice, entries_apply_publish hfresh hseq, filter_append, hmerged, append_nil, filter_filter]
  refine congrArg _ (filter_congr fun e _ => Bool.eq_iff_iff.mpr ?_)
  simp only [Bool.and_eq_true, decide_eq_true_eq, Bool.not_eq_true', and_iff_left_iff_imp]
  rintro ⟨hnode, hdb, htable⟩
  refine Bool.eq_false_iff.mpr fun hdropped => hhidden ?_
  obtain ⟨rfl, hdb', htable'⟩ := inTable_iff.mp (Bool.and_eq_true_iff.mp hdropped).1
  exact ⟨hnode, hdb' ▸ hdb, htable' ▸ htable⟩

end Publish

section Preserve
variable {time : κ → Int} {contents : Contents κ ρ} {ix : FileIndex} {target : String} {g : MergeGroup}
  {merged : ParquetFile} {sequence snapshotSequence : Nat}

/-- What the merge writes leaves the rows of every file that stays listed alone. -/
theorem put_of_listed (hfresh : FreshPath ix target g merged.path) {e : SnapshotEntry} (he : e ∈ ix.files)
    (hkept : ¬ (e.inTable target g.dbId g.tableId ∧ e.file.path ∈ g.paths)) :
    Function.update contents merged.path (g.rows contents) e.file.path = contents e.file.path := by
  refine Function.update_of_ne (fun hpath => hkept ?_) _ _
  obtain ⟨htable, hpaths⟩ := hfresh e he hpath
  exact ⟨htable, hpath ▸ hpaths⟩

private theorem rows_eq_none {k : κ} : g.rows contents k = none ↔ ∀ path ∈ g.paths, contents path k = none := by
  simp [MergeGroup.rows, MergeGroup.paths, lastWins_eq_none]

private theorem lastWins_apply_shown (hix : Reachable ix) (hfresh : FreshPath ix target g merged.path)
    (hseq : ix.sequence < sequence) (hshown : excludeNode ≠ some target) (k : κ) :
    lastWins (((ix.apply (g.publish target sequence snapshotSequence merged)).slice g.dbId g.tableId excludeNode).map
      fun e => Function.update contents merged.path (g.rows contents) e.file.path) k = (g.rows contents k).or
        (lastWins ((ix.slice g.dbId g.tableId excludeNode).map fun e => contents e.file.path) k) := by
  rw [slice_apply_shown hix hfresh hseq hshown, map_append, lastWins_append, map_singleton,
    lastWins_singleton, Function.update_self]
  cases hrows : g.rows contents k with
  | some r => rfl
  | none =>
    refine (lastWins_map_congr fun e he => ?_).trans (lastWins_map_filter fun e he hout => ?_)
    · obtain ⟨he, hkept⟩ := mem_filter.mp he
      refine congrFun (put_of_listed hfresh (mem_slice.mp he).1 fun hboth => ?_) k
      simp [hboth.1, hboth.2] at hkept
    · have hpath : e.file.path ∈ g.paths := by
        simp only [Bool.not_eq_false', Bool.and_eq_true, contains_iff_mem] at hout
        exact hout.2
      exact rows_eq_none.mp hrows _ hpath

private theorem lastWins_apply_hidden (hfresh : FreshPath ix target g merged.path) (hseq : ix.sequence < sequence)
    (hhidden : ¬ (excludeNode ≠ some target ∧ g.dbId = dbId ∧ g.tableId = tableId)) (k : κ) :
    lastWins (((ix.apply (g.publish target sequence snapshotSequence merged)).slice dbId tableId excludeNode).map
      fun e => Function.update contents merged.path (g.rows contents) e.file.path) k =
      lastWins ((ix.slice dbId tableId excludeNode).map fun e => contents e.file.path) k := by
  rw [slice_apply_hidden hfresh hseq hhidden]
  refine lastWins_map_congr fun e he => congrFun (put_of_listed hfresh (mem_slice.mp he).1 fun hboth => ?_) k
  obtain ⟨-, hnode, hdb, htable⟩ := mem_slice.mp he
  obtain ⟨rfl, hdb', htable'⟩ := inTable_iff.mp hboth.1
  exact hhidden ⟨hnode, hdb' ▸ hdb, htable' ▸ htable⟩

private theorem covers_apply (hcovers : Covers time contents ix)
    (hinputs : ∀ f ∈ g.inputs, ∃ e ∈ ix.files, e.file = f) (hfresh : FreshPath ix target g merged.path)
    (hseq : ix.sequence < sequence) (hmin : merged.minTime = g.minTime) (hmax : merged.maxTime = g.maxTime) :
    Covers time (Function.update contents merged.path (g.rows contents))
      (ix.apply (g.publish target sequence snapshotSequence merged)) := by
  intro e he k hsome
  rw [KeyedList.mem_def, entries_apply_publish hfresh hseq, mem_append] at he
  rcases he with he | he
  · obtain ⟨hmem, hkept⟩ := mem_filter.mp he
    rw [put_of_listed hfresh hmem fun hboth => by simp [hboth.1, hboth.2] at hkept] at hsome
    exact hcovers e hmem k hsome
  · rw [mem_singleton.mp he] at hsome ⊢
    rw [Function.update_self] at hsome
    obtain ⟨r, hr⟩ := Option.isSome_iff_exists.mp hsome
    obtain ⟨m, hm, hmk⟩ := exists_of_findSome?_eq_some hr
    obtain ⟨f, hf, rfl⟩ := mem_map.mp (mem_reverse.mp hm)
    obtain ⟨i, hi, rfl⟩ := hinputs f hf
    obtain ⟨hlow, hhigh⟩ := hcovers i hi k (Option.isSome_iff_exists.mpr ⟨r, hmk⟩)
    rw [hmin, hmax]
    exact ⟨Int.le_trans (MergeGroup.minTime_le hf) hlow, Int.le_trans hhigh (MergeGroup.le_maxTime hf)⟩

/-- Replacing the inputs of a selected group by their merge leaves every answer as it was
exactly when, for each key of the group, its last input carries the row published last. -/
theorem answers_preserved_iff_last_published {dbId tableId : Nat} {coldBefore : Int} {config : CompactionConfig}
    {id sizeBytes rowCount : Nat} {path : String} (hix : Reachable ix)
    (hg : g ∈ selectMerges dbId tableId (ix.filesForTable target dbId tableId) coldBefore config)
    (hcovers : Covers time contents ix) (hfresh : FreshPath ix target g path) (hseq : ix.sequence < sequence) :
    (∀ db table filter excludeNode k, answer time (Function.update contents path (g.rows contents))
          (ix.apply (g.publish target sequence snapshotSequence (g.merged id path sizeBytes rowCount)))
          db table filter excludeNode k =
        answer time contents ix db table filter excludeNode k) ↔
      LastPublished contents ix target g := by
  obtain ⟨hdb, htable, hfiles⟩ := mem_files_of_mem_selectMerges hg
  have hinputs : ∀ f ∈ g.inputs, ∃ e ∈ ix.files, e.file = f := by
    intro f hf
    obtain ⟨e, he, hef⟩ := mem_map.mp (hfiles f hf)
    exact ⟨e, (mem_filter.mp he).1, hef⟩
  obtain ⟨merged, hmerged, hpath, hmin, hmax⟩ : ∃ merged, g.merged id path sizeBytes rowCount = merged ∧
      path = merged.path ∧ merged.minTime = g.minTime ∧ merged.maxTime = g.maxTime := ⟨_, rfl, rfl, rfl, rfl⟩
  rw [hmerged]
  subst hpath
  have hcovers' : Covers time (Function.update contents merged.path (g.rows contents))
      (ix.apply (g.publish target sequence snapshotSequence merged)) :=
    covers_apply hcovers hinputs hfresh hseq hmin hmax
  refine ⟨fun hsame excludeNode hshown k hsome => ?_, fun hlast db table filter excludeNode k => ?_⟩
  · have h := hsame g.dbId g.tableId ⟨none, none⟩ excludeNode k
    rw [answer_eq hcovers, answer_eq hcovers', lastWins_apply_shown hix hfresh hseq hshown] at h
    simp only [ChunkFilter.testTimeStampMinMax, if_true] at h
    obtain ⟨r, hr⟩ := Option.isSome_iff_exists.mp hsome
    rw [← h, hr, Option.some_or]
  · rw [answer_eq hcovers, answer_eq hcovers']
    refine if_congr Iff.rfl ?_ rfl
    by_cases hshown : excludeNode ≠ some target ∧ g.dbId = db ∧ g.tableId = table
    · obtain ⟨hshown, rfl, rfl⟩ := hshown
      rw [lastWins_apply_shown hix hfresh hseq hshown]
      cases hrows : g.rows contents k with
      | none => exact Option.none_or
      | some r => rw [hlast excludeNode hshown k (by simp [hrows]), hrows, Option.some_or]
    · exact lastWins_apply_hidden hfresh hseq hshown k

end Preserve

private def listedFile (i : Nat) (path : String) (minTime : Int) : ParquetFile := ⟨i, path, 1, 1, 0, minTime, 1⟩

private def twoFiles : FileIndex :=
  (new.apply ⟨1, [⟨"n", 0, 1, 1, [listedFile 1 "a" 1], []⟩]⟩).apply
    ⟨2, [⟨"n", 0, 1, 2, [listedFile 2 "b" (if late then 0 else 1)], []⟩]⟩

private def twoFilesGroup : MergeGroup :=
  ⟨0, 1, if late then [listedFile 2 "b" 0, listedFile 1 "a" 1] else [listedFile 1 "a" 1, listedFile 2 "b" 1]⟩

private def twoContents : Contents Bool Nat := fun path k =>
  if path = "a" ∧ k then some 1
  else if path = "b" ∧ k then some 2
  else if path = "b" ∧ !k ∧ late then some 3
  else none

private def keyTime (k : Bool) : Int := k.toNat

private theorem slice_twoFiles (h : excludeNode ≠ some "n") :
    (twoFiles late).slice 0 1 excludeNode = (twoFiles late).slice 0 1 none := by
  have hnode : ∀ e ∈ (twoFiles late).files.entries, e.nodeId = "n" := by cases late <;> decide
  rw [slice, slice]
  refine congrArg _ (filter_congr fun e he => ?_)
  simp [hnode e he, h]

/-- Two files that are merged in the order they were published in. -/
theorem in_order_merge_preserves_answers :
    LastPublished (twoContents false) (twoFiles false) "n" (twoFilesGroup false) ∧
    ∀ db table filter excludeNode k,
      answer keyTime (Function.update (twoContents false) "m" ((twoFilesGroup false).rows (twoContents false)))
          ((twoFiles false).apply ((twoFilesGroup false).publish "n" 3 3 ((twoFilesGroup false).merged 3 "m" 2 2)))
          db table filter excludeNode k =
        answer keyTime (twoContents false) (twoFiles false) db table filter excludeNode k := by
  have hlast : LastPublished (twoContents false) (twoFiles false) "n" (twoFilesGroup false) := by
    intro excludeNode hshown
    have hslice : (twoFiles false).slice (twoFilesGroup false).dbId (twoFilesGroup false).tableId excludeNode =
        (twoFiles false).slice 0 1 none := slice_twoFiles false hshown
    rw [hslice]
    decide
  have hgroup : twoFilesGroup false ∈
      selectMerges 0 1 ((twoFiles false).filesForTable "n" 0 1) 10 ⟨100, 100, 10⟩ := by decide
  have hcovers : ∀ e ∈ (twoFiles false).files.entries, ∀ k, (twoContents false e.file.path k).isSome →
      e.file.minTime ≤ keyTime k ∧ keyTime k ≤ e.file.maxTime := by decide
  have hfresh : ∀ e ∈ (twoFiles false).files.entries, e.file.path = "m" →
      e.inTable "n" 0 1 ∧ "m" ∈ (twoFilesGroup false).paths := by decide
  exact ⟨hlast, (answers_preserved_iff_last_published (.apply (.apply .new _) _) hgroup hcovers hfresh
    (by decide)).mpr hlast⟩

/-- The second file overwrites a key of the first and starts earlier, so the merge sorts it
first and the overwritten row comes back. -/
theorem early_minimum_restores_old_row :
    twoFilesGroup true ∈ selectMerges 0 1 ((twoFiles true).filesForTable "n" 0 1) 10 ⟨100, 100, 10⟩ ∧
    answer keyTime (twoContents true) (twoFiles true) 0 1 ⟨none, none⟩ none true = some 2 ∧
    answer keyTime (Function.update (twoContents true) "m" ((twoFilesGroup true).rows (twoContents true)))
      ((twoFiles true).apply ((twoFilesGroup true).publish "n" 3 3 ((twoFilesGroup true).merged 3 "m" 2 2)))
      0 1 ⟨none, none⟩ none true = some 1 := by
  decide

end VarveDB.Compactor
