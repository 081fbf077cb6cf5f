import VarveDB.Checkpoint.History

/-! Checkpoints of consecutive stretches of a history against the checkpoint of the whole. -/
namespace VarveDB.Checkpoint
open Library List CachedCheckpoint
open Wal (i64Min i64Max)

variable {p : Entry → Bool} {l : List Entry} {e : Entry}

namespace PersistedSnapshotCheckpoint

structure Summed (c : PersistedSnapshotCheckpoint) : Prop where
  size : c.parquetSizeBytes = (c.databases.map fun e => e.2.sizeBytes).sum
  rows : c.rowCount = (c.databases.map fun e => e.2.rowCount).sum

structure Timed (c : PersistedSnapshotCheckpoint) : Prop where
  minTime : c.minTime = c.databases.foldl (fun t e => min t e.2.minTime) i64Max
  maxTime : c.maxTime = c.databases.foldl (fun t e => max t e.2.maxTime) i64Min

private structure Sweeping (acc : Bool × PersistedSnapshotCheckpoint) : Prop where
  summed : acc.2.Summed
  timed : acc.1 = false → acc.2.Timed

variable {c : PersistedSnapshotCheckpoint}

private theorem Summed.addFile (h : c.Summed) (e : Entry) : (c.addFile e).Summed :=
  ⟨by simp [PersistedSnapshotCheckpoint.addFile, h.size], by simp [PersistedSnapshotCheckpoint.addFile, h.rows]⟩

private theorem Timed.addFile (h : c.Timed) (e : Entry) : (c.addFile e).Timed :=
  ⟨by simp [PersistedSnapshotCheckpoint.addFile, h.minTime], by simp [PersistedSnapshotCheckpoint.addFile, h.maxTime]⟩

private theorem perm_of_find? (h : l.find? p = some e) : l.Perm (e :: l.eraseP p) := by
  obtain ⟨he, as, bs, rfl, has⟩ := List.find?_eq_some_iff_append.mp h
  rw [eraseP_append_right _ fun a ha => by simpa using has a ha, eraseP_cons_of_pos he]
  exact perm_middle

private theorem sum_eraseP (h : l.find? p = some e) (f : Entry → Nat) :
    (l.map f).sum - f e = ((l.eraseP p).map f).sum := by
  rw [((perm_of_find? h).map f).sum_nat, map_cons, sum_cons, Nat.add_sub_cancel_left]

theorem rows_removeFile (h : c.rowCount = (c.databases.map fun e => e.2.rowCount).sum) (k : TableKey) (fileId : Nat) :
    (c.removeFile k fileId).2.rowCount = ((c.removeFile k fileId).2.databases.map fun e => e.2.rowCount).sum := by
  unfold removeFile
  cases hfind : c.databases.find? (fun e => e.1 = k ∧ e.2.id = fileId) with
  | none => exact h
  | some removed => exact h ▸ sum_eraseP hfind _

private theorem Summed.removeFile (h : c.Summed) (k : TableKey) (fileId : Nat) : (c.removeFile k fileId).2.Summed := by
  refine ⟨?_, rows_removeFile h.rows k fileId⟩
  unfold PersistedSnapshotCheckpoint.removeFile
  cases hfind : c.databases.find? (fun e => e.1 = k ∧ e.2.id = fileId) with
  | none => exact h.size
  | some removed => exact h.size ▸ sum_eraseP hfind _

private theorem removeFile_of_not_found {k : TableKey} {fileId : Nat} (h : (c.removeFile k fileId).1 = false) :
    (c.removeFile k fileId).2 = c := by
  revert h
  unfold removeFile
  cases c.databases.find? (fun e => e.1 = k ∧ e.2.id = fileId) with
  | none => exact fun _ => rfl
  | some removed => exact nofun

private theorem Sweeping.settled {acc : Bool × PersistedSnapshotCheckpoint} (h : Sweeping acc) :
    (if acc.1 then acc.2.recalculateTimeRange else acc.2).Summed ∧
      (if acc.1 then acc.2.recalculateTimeRange else acc.2).Timed := by
  obtain ⟨flag, c⟩ := acc
  cases flag
  · exact ⟨h.summed, h.timed rfl⟩
  · exact ⟨⟨h.summed.size, h.summed.rows⟩, rfl, rfl⟩

private theorem merge_exact (hsum : c.Summed) (htime : c.Timed) (other : PersistedSnapshotCheckpoint) :
    (c.merge other).Summed ∧ (c.merge other).Timed := by
  obtain ⟨hsum, htime⟩ := List.foldlRecOn (motive := fun c => Summed c ∧ Timed c) other.databases addFile ⟨hsum, htime⟩
    fun c h e _ => ⟨h.1.addFile e, h.2.addFile e⟩
  have hsweep : Sweeping _ := List.foldlRecOn other.pendingRemovedFiles
    (fun acc e => (acc.1 || (acc.2.removeFile e.1 e.2.id).1, (acc.2.removeFile e.1 e.2.id).2)) (b := (false, _))
    ⟨hsum, fun _ => htime⟩ fun acc h e _ => by
      refine ⟨h.summed.removeFile _ _, fun hnone => ?_⟩
      obtain ⟨hflag, hnone⟩ := Bool.or_eq_false_iff.mp hnone
      exact (removeFile_of_not_found hnone).symm ▸ h.timed hflag
  obtain ⟨hsum, htime⟩ := hsweep.settled
  exact ⟨⟨hsum.size, hsum.rows⟩, htime.minTime, htime.maxTime⟩

end PersistedSnapshotCheckpoint

open PersistedSnapshotCheckpoint

private theorem applySnapshot_exact {a : CachedCheckpoint} (hsum : a.checkpoint.Summed) (htime : a.checkpoint.Timed)
    (m : PersistedSnapshot) : (a.applySnapshot m).checkpoint.Summed ∧ (a.applySnapshot m).checkpoint.Timed := by
  obtain ⟨hsum, htime⟩ :=
      List.foldlRecOn (motive := fun a : CachedCheckpoint => a.checkpoint.Summed ∧ a.checkpoint.Timed)
    (entries m.databases) addEntry (b := ⟨a.checkpoint.updateFromSnapshot m, a.fileIndex⟩)
    ⟨⟨hsum.size, hsum.rows⟩, htime.minTime, htime.maxTime⟩ fun a h e _ => ⟨h.1.addFile e, h.2.addFile e⟩
  have hsweep := List.foldlRecOn (motive := fun acc : Bool × CachedCheckpoint => Sweeping (acc.1, acc.2.checkpoint))
    (entries m.removedFiles) removeEntry (b := (false, _)) ⟨hsum, fun _ => htime⟩ fun acc h e _ => by
      unfold removeEntry
      cases acc.2.fileIndex e.2.id with
      | none => exact ⟨⟨h.summed.size, h.summed.rows⟩, fun hflag => ⟨(h.timed hflag).minTime, (h.timed hflag).maxTime⟩⟩
      | some k => exact ⟨h.summed.removeFile _ _, nofun⟩
  simp only [applySnapshot, processRemovedFiles, apply_ite checkpoint]
  exact hsweep.settled

private theorem foldSnapshots_exact (yearMonth : Nat) (ms : List PersistedSnapshot) :
    (foldSnapshots yearMonth ms).checkpoint.Summed ∧ (foldSnapshots yearMonth ms).checkpoint.Timed := by
  induction ms using List.reverseRecOn with
  | nil => exact ⟨⟨rfl, rfl⟩, rfl, rfl⟩
  | append_singleton ms m ih =>
    rw [foldSnapshots_append]
    exact applySnapshot_exact ih.1 ih.2 m

private theorem foldl_merge_exact {c : PersistedSnapshotCheckpoint} (hsum : c.Summed) (htime : c.Timed)
    (cs : List PersistedSnapshotCheckpoint) : (cs.foldl PersistedSnapshotCheckpoint.merge c).Summed ∧
      (cs.foldl PersistedSnapshotCheckpoint.merge c).Timed ∧
      (c :: cs).getLast?.map numbers = some (cs.foldl PersistedSnapshotCheckpoint.merge c).numbers := by
  induction cs using List.reverseRecOn with
  | nil => exact ⟨hsum, htime, rfl⟩
  | append_singleton cs d ih =>
    rw [foldl_append, foldl_cons, foldl_nil, ← cons_append, getLast?_concat]
    obtain ⟨hsum, htime⟩ := merge_exact ih.1 ih.2.1 d
    exact ⟨hsum, htime, rfl⟩

/-- However a history is cut into stretches, the merged checkpoints of the stretches hold the files,
totals, time range and numbers of the checkpoint of the whole, and these are exact. -/
theorem merged_checkpoints_eq_whole (segments : List (Nat × List PersistedSnapshot)) (hne : segments ≠ [])
    (hsegments : ∀ s ∈ segments, s.2 ≠ []) (h : Sound (segments.flatMap Prod.snd)) (yearMonth : Nat) :
    ∃ merged m, mergeCheckpoints (segments.map fun s => (foldSnapshots s.1 s.2).checkpoint) = some merged ∧
      (segments.flatMap Prod.snd).getLast? = some m ∧
      let whole := (foldSnapshots yearMonth (segments.flatMap Prod.snd)).checkpoint
      merged.databases = whole.databases ∧ merged.parquetSizeBytes = whole.parquetSizeBytes ∧
        merged.rowCount = whole.rowCount ∧ merged.minTime = whole.minTime ∧ merged.maxTime = whole.maxTime ∧
        merged.Summed ∧ merged.Timed ∧ merged.numbers.2 = whole.numbers.2 ∧
        merged.numbers.2 = (m.snapshotSequenceNumber, some m.nextFileId, m.walFileSequenceNumber,
          m.catalogSequenceNumber) := by
  obtain ⟨merged, hmerged, hdatabases⟩ := mergeCheckpoints_folds segments hne h
  have hfiles := hdatabases.trans (tracks_foldSnapshots yearMonth h).databases.symm
  obtain ⟨hsum, htime⟩ := foldSnapshots_exact yearMonth (segments.flatMap Prod.snd)
  obtain ⟨init, last, hinit⟩ := (eq_nil_or_concat segments).resolve_left hne
  rw [concat_eq_append] at hinit
  obtain ⟨ms, m, hlast⟩ := (eq_nil_or_concat last.2).resolve_left (hsegments last (by simp [hinit]))
  have hhistory : segments.flatMap Prod.snd = (init.flatMap Prod.snd ++ ms) ++ [m] := by simp [hinit, hlast]
  obtain ⟨hsum', htime', hnumbers⟩ : merged.Summed ∧ merged.Timed ∧
      merged.numbers = (foldSnapshots last.1 last.2).checkpoint.numbers := by
    cases segments with
    | nil => exact absurd rfl hne
    | cons s segments =>
      obtain ⟨hs, ht⟩ := foldSnapshots_exact s.1 s.2
      have hfold := foldl_merge_exact hs ht (segments.map fun s => (foldSnapshots s.1 s.2).checkpoint)
      rw [Option.some.inj hmerged,
        ← map_cons (f := fun s : Nat × List PersistedSnapshot => (foldSnapshots s.1 s.2).checkpoint),
        hinit, map_append, map_singleton, getLast?_concat] at hfold
      exact ⟨hfold.1, hfold.2.1, (Option.some.inj hfold.2.2).symm⟩
  rw [hlast, concat_eq_append, numbers_foldSnapshots] at hnumbers
  have hnumbers' := hhistory ▸ numbers_foldSnapshots yearMonth (init.flatMap Prod.snd ++ ms) m
  refine ⟨merged, m, hmerged, by simp [hhistory], hfiles, ?_, ?_, ?_, ?_, hsum', htime', ?_, congrArg Prod.snd hnumbers⟩
  · rw [hsum'.size, hsum.size, hfiles]
  · rw [hsum'.rows, hsum.rows, hfiles]
  · rw [htime'.minTime, htime.minTime, hfiles]
  · rw [htime'.maxTime, htime.maxTime, hfiles]
  · rw [hnumbers, hnumbers']

private def tenRows (i : Nat) : ParquetFile := ⟨i, "f", 100, 10, 0, i, i⟩

private def numbered (number : Nat) (added removed : List ParquetFile) : PersistedSnapshot :=
  ⟨"n", number, number, number, 0, 0, 0, 0, 0, [((0, 1), added)], [((0, 1), removed)]⟩

private def twoMonths : List (Nat × List PersistedSnapshot) :=
  [(0, [numbered 1 [tenRows 1, tenRows 2] []]),
    (1, [numbered 2 [tenRows 3, tenRows 4] [tenRows 1], numbered 3 [] [tenRows 4]])]

/-- The second month removes a file of the first and one of its own. -/
theorem two_months_merge_to_whole :
    ∃ merged, mergeCheckpoints (twoMonths.map fun s => (foldSnapshots s.1 s.2).checkpoint) = some merged ∧
      merged.databases = [((0, 1), tenRows 2), ((0, 1), tenRows 3)] ∧ merged.rowCount = 20 ∧ merged.Timed := by
  have hsound : Sound (twoMonths.flatMap Prod.snd) :=
    ((Sound.nil.append (by decide) (by decide) (by decide) (by decide)).append (by decide) (by decide) (by decide)
      (by decide)).append (by decide) (by decide) (by decide) (by decide)
  obtain ⟨merged, m, hmerged, -, hfiles, -, hrows, -, -, -, htime, -⟩ :=
    merged_checkpoints_eq_whole twoMonths (by decide) (by decide) hsound 0
  exact ⟨merged, hmerged, hfiles.trans (by decide), hrows.trans (by decide), htime⟩

end VarveDB.Checkpoint
