import VarveDB.FileIndex.Query

/-! Folding one replay of the log into another. -/
namespace VarveDB.FileIndex
open Library List

variable (ix other : FileIndex) (log : List FileIndexLogEntry) (nodeId : String)

def mergeFrom : FileIndex := ix.restore other.toSnapshot

structure Agrees (ix ix' : FileIndex) : Prop where
  files : ∀ e, e ∈ ix.files ↔ e ∈ ix'.files
  watermarks : ∀ nodeId, ix.publishedWatermark nodeId = ix'.publishedWatermark nodeId
  persistedMaxTimes : ∀ nodeId, ix.persistedMaxTime nodeId = ix'.persistedMaxTime nodeId

def StillListed (ix ix' : FileIndex) : Prop := ∀ e ∈ ix.files, e ∈ ix'.files

def PathsListed (ix ix' : FileIndex) : Prop := ∀ e ∈ ix.files, ∃ e' ∈ ix'.files, e'.key = e.key

section Watermarks

private theorem watermarks_below_apply (ix : FileIndex) (entry : FileIndexLogEntry) :
    ix.watermarks.Below (ix.apply entry).watermarks ∧
      ix.persistedMaxTimes.Below (ix.apply entry).persistedMaxTimes := by
  unfold apply
  split
  · exact ⟨.refl _, .refl _⟩
  · refine List.foldlRecOn (motive := fun ix' : FileIndex => ix.watermarks.Below ix'.watermarks ∧
      ix.persistedMaxTimes.Below ix'.persistedMaxTimes) entry.deltas _ ⟨.refl _, .refl _⟩ fun ix' h d _ => ?_
    refine ⟨h.1.trans (KeyedList.below_raise _ _ _), h.2.trans ?_⟩
    simp only [applyDelta]
    split
    · exact .refl _
    · exact KeyedList.below_raise _ _ _

/-- Watermarks never fall along a log. -/
theorem watermarks_below_foldl (ix : FileIndex) : ix.watermarks.Below (log.foldl apply ix).watermarks ∧
      ix.persistedMaxTimes.Below (log.foldl apply ix).persistedMaxTimes := by
  induction log generalizing ix with
  | nil => exact ⟨.refl _, .refl _⟩
  | cons entry log ih =>
    obtain ⟨hwater, htimes⟩ := watermarks_below_apply ix entry
    obtain ⟨hwater', htimes'⟩ := ih (ix.apply entry)
    exact ⟨hwater.trans hwater', htimes.trans htimes'⟩

private theorem watermarks_below_take {i j : Nat} (h : i ≤ j) :
    (replay (log.take i)).watermarks.Below (replay (log.take j)).watermarks ∧
      (replay (log.take i)).persistedMaxTimes.Below (replay (log.take j)).persistedMaxTimes := by
  have htake : log.take i = (log.take j).take i := by rw [take_take, Nat.min_eq_left h]
  have hreplay : replay (log.take j) = ((log.take j).drop i).foldl apply (replay (log.take i)) := by
    rw [htake, replay, replay, ← foldl_append, take_append_drop]
  exact hreplay ▸ watermarks_below_foldl ..

end Watermarks

theorem mem_files_mergeFrom {ix other : FileIndex} {e : SnapshotEntry} :
    e ∈ (ix.mergeFrom other).files ↔ e ∈ ix.files ∨ e ∈ other.files ∧ e.key ∉ ix.files.entries.map SnapshotEntry.key :=
  KeyedList.mem_foldl_insertNew_entries

private theorem publishedWatermark_mergeFrom : (ix.mergeFrom other).publishedWatermark nodeId =
      Option.merge max (ix.publishedWatermark nodeId) (other.publishedWatermark nodeId) :=
  KeyedList.lookup_foldl_raise_entries ..

private theorem persistedMaxTime_mergeFrom : (ix.mergeFrom other).persistedMaxTime nodeId =
      Option.merge max (ix.persistedMaxTime nodeId) (other.persistedMaxTime nodeId) :=
  KeyedList.lookup_foldl_raise_entries ..

/-- Folding in a later index keeps every file this one lists. -/
theorem mem_files_mergeFrom_later {ix later : FileIndex} :
    (∀ e, e ∈ (ix.mergeFrom later).files ↔ e ∈ later.files) ↔ StillListed ix later := by
  constructor
  · intro h e he
    exact (h e).mp (mem_files_mergeFrom.mpr (.inl he))
  · intro h e
    rw [mem_files_mergeFrom]
    refine ⟨fun he => he.elim (h e) And.left, fun he => ?_⟩
    by_cases hkey : e.key ∈ ix.files.entries.map SnapshotEntry.key
    · -- the entry with this key is the one the later index lists
      obtain ⟨e', he', heq⟩ := mem_map.mp hkey
      exact .inl (KeyedList.eq_of_key_eq he (h e' he') heq.symm ▸ he')
    · exact .inr ⟨he, hkey⟩

/-- Folding in an earlier index brings back every path this one no longer lists. -/
theorem mem_files_mergeFrom_earlier {ix earlier : FileIndex} :
    (∀ e, e ∈ (ix.mergeFrom earlier).files ↔ e ∈ ix.files) ↔ PathsListed earlier ix := by
  constructor
  · intro h e he
    by_cases hkey : e.key ∈ ix.files.entries.map SnapshotEntry.key
    · exact mem_map.mp hkey
    · exact ⟨e, (h e).mp (mem_files_mergeFrom.mpr (.inr ⟨he, hkey⟩)), rfl⟩
  · intro h e
    rw [mem_files_mergeFrom]
    refine ⟨fun he => he.elim id fun ⟨he, hkey⟩ => ?_, .inl⟩
    exact absurd (mem_map.mpr (h e he)) hkey

/-- Two replays of one log are merged into the longer one exactly when no file of the shorter
is gone from the longer; folded into the longer, a file may also have been listed anew. -/
theorem mergeFrom_agrees_iff (log : List FileIndexLogEntry) (i j : Nat) :
    Agrees ((replay (log.take i)).mergeFrom (replay (log.take j))) (replay (log.take (max i j))) ↔
      if i ≤ j then StillListed (replay (log.take i)) (replay (log.take j))
      else PathsListed (replay (log.take j)) (replay (log.take i)) := by
  rcases Nat.lt_or_ge j i with hji | hij
  · obtain ⟨hwater, htimes⟩ := watermarks_below_take log hji.le
    rw [if_neg (Nat.not_le.mpr hji), Nat.max_eq_left hji.le, ← mem_files_mergeFrom_earlier]
    refine ⟨Agrees.files, fun h => ⟨h, fun nodeId => ?_, fun nodeId => ?_⟩⟩
    · rw [publishedWatermark_mergeFrom]
      exact (hwater.merge_eq nodeId).2
    · rw [persistedMaxTime_mergeFrom]
      exact (htimes.merge_eq nodeId).2
  · obtain ⟨hwater, htimes⟩ := watermarks_below_take log hij
    rw [if_pos hij, Nat.max_eq_right hij, ← mem_files_mergeFrom_later]
    refine ⟨Agrees.files, fun h => ⟨h, fun nodeId => ?_, fun nodeId => ?_⟩⟩
    · rw [publishedWatermark_mergeFrom]
      exact (hwater.merge_eq nodeId).1
    · rw [persistedMaxTime_mergeFrom]
      exact (htimes.merge_eq nodeId).1

private def persistedFile : ParquetFile := ⟨1, "dbs/1.parquet", 10, 2, 0, 0, 9⟩

private def compactingLog : List FileIndexLogEntry :=
  [⟨1, [⟨"node0", 0, 0, 1, [persistedFile], []⟩]⟩, ⟨2, [⟨"node0", 0, 0, 2, [], ["dbs/1.parquet"]⟩]⟩]

/-- A file compacted away by the second entry is listed again when the replay of both is
merged with the replay of the first, whichever of the two is folded into the other. -/
theorem mergeFrom_keeps_retired_file :
    ¬Agrees ((replay (compactingLog.take 1)).mergeFrom (replay (compactingLog.take 2)))
        (replay (compactingLog.take 2)) ∧
      ¬Agrees ((replay (compactingLog.take 2)).mergeFrom (replay (compactingLog.take 1)))
        (replay (compactingLog.take 2)) := by
  have hgone : ⟨"node0", 0, 0, persistedFile, 1⟩ ∉ (replay (compactingLog.take 2)).files.entries := by decide
  constructor
  · intro h
    exact hgone ((h.files _).mp (KeyedList.mem_def.mpr (by decide)))
  · intro h
    exact hgone ((h.files _).mp (KeyedList.mem_def.mpr (by decide)))

end VarveDB.FileIndex
