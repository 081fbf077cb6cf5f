import VarveDB.Checkpoint.Persister

/-! Stored checkpoints that are exact folds of their month, over months that are all stored to their end. -/
namespace VarveDB.Checkpoint
open Library List PersistedSnapshotCheckpoint

variable {months : List Nat}

theorem mem_sortedMonths {m : Nat} : m ∈ sortedMonths months ↔ m ∈ months := by
  rw [sortedMonths, mem_insertionSort, mem_dedup]

theorem sortedMonths_increasing (months : List Nat) : Increasing id (sortedMonths months) := by
  have hsorted := pairwise_insertionSort (fun a b : Nat => a ≤ b) months.dedup
  have hnodup : (sortedMonths months).Nodup := (perm_insertionSort _ _).nodup_iff.mpr months.nodup_dedup
  exact (hsorted.and hnodup).imp fun hab => Nat.lt_of_le_of_ne hab.1 hab.2

section Latest
variable {cs : List PersistedSnapshotCheckpoint} {c d : PersistedSnapshotCheckpoint} {month : Nat}

theorem latestOfMonth_spec (h : latestOfMonth cs month = some c) : c ∈ cs ∧ c.yearMonth = month ∧
    ∀ d ∈ cs, d.yearMonth = month → d.lastSnapshotSequenceNumber ≤ c.lastSnapshotSequenceNumber := by
  have hmem := argmax_mem (Option.mem_def.mpr h)
  simp only [mem_filter, decide_eq_true_eq] at hmem
  refine ⟨hmem.1, hmem.2, fun d hd hmonth => ?_⟩
  exact le_of_mem_argmax (mem_filter.mpr ⟨hd, decide_eq_true hmonth⟩) h

theorem exists_latestOfMonth (hd : d ∈ cs) : ∃ c, latestOfMonth cs d.yearMonth = some c := by
  cases h : latestOfMonth cs d.yearMonth with
  | some c => exact ⟨c, rfl⟩
  | none =>
    have hnil := argmax_eq_none.mp h
    exact absurd (mem_filter.mpr ⟨hd, decide_eq_true rfl⟩) (hnil ▸ not_mem_nil)

end Latest

structure History (ms : List StoredSnapshot) : Prop where
  sound : Sound (ms.map StoredSnapshot.snapshot)
  months : ms.Pairwise fun x y => x.month ≤ y.month

namespace History
variable {ms : List StoredSnapshot} {x y : StoredSnapshot} (h : History ms)
include h

theorem numbers : Increasing StoredSnapshot.number ms := by
  have hpairs := pairwise_map.mp h.sound.numbers
  exact hpairs

theorem month_le (hx : x ∈ ms) (hy : y ∈ ms) (hle : x.number ≤ y.number) : x.month ≤ y.month := by
  rcases Nat.eq_or_lt_of_le hle with heq | hlt
  · exact Nat.le_of_eq (congrArg StoredSnapshot.month (h.numbers.eq_of_key_eq hx hy heq))
  · exact h.numbers.rel_of_lt h.months hx hy hlt

theorem number_lt (hx : x ∈ ms) (hy : y ∈ ms) (hlt : x.month < y.month) : x.number < y.number := by
  refine Nat.lt_of_not_le fun hle => ?_
  have := h.month_le hy hx hle
  omega

end History

def monthlyUpTo (ms : List StoredSnapshot) (month number : Nat) : List PersistedSnapshot :=
  (ms.filter fun x => x.month = month ∧ x.number ≤ number).map StoredSnapshot.snapshot

structure Exact (ms : List StoredSnapshot) (c : PersistedSnapshotCheckpoint) : Prop where
  fold : c = (foldSnapshots c.yearMonth (monthlyUpTo ms c.yearMonth c.lastSnapshotSequenceNumber)).checkpoint
  last : ∃ x ∈ ms, x.month = c.yearMonth ∧ x.number = c.lastSnapshotSequenceNumber

def Whole (ms : List StoredSnapshot) (c : PersistedSnapshotCheckpoint) : Prop :=
  ∀ x ∈ ms, x.month = c.yearMonth → x.number ≤ c.lastSnapshotSequenceNumber

def Preceded (ms : List StoredSnapshot) (cs : List PersistedSnapshotCheckpoint) (month : Nat) : Prop :=
  ∀ x ∈ ms, x.month < month → ∃ c ∈ cs, c.yearMonth = x.month ∧ Whole ms c

variable (segments : List (Nat × List PersistedSnapshot))

private theorem databases_foldl_merge {as : List PersistedSnapshot}
    {c : PersistedSnapshotCheckpoint} (hc : c.databases = Ledger.live entryId (as.map batch))
    (h : Sound (as ++ segments.flatMap Prod.snd)) :
    ((segments.map fun s => (foldSnapshots s.1 s.2).checkpoint).foldl merge c).databases =
      Ledger.live entryId ((as ++ segments.flatMap Prod.snd).map batch) := by
  induction segments generalizing as c with
  | nil => simpa using hc
  | cons s segments ih =>
    rw [flatMap_cons, ← append_assoc] at h ⊢
    have hfirst : Sound (as ++ s.2) := h.sublist (sublist_append_left _ _)
    have hsegment := tracks_foldSnapshots s.1 (hfirst.sublist (sublist_append_right as s.2))
    exact ih (databases_merge_eq_live hfirst hc hsegment) h

/-- Merging the folds of consecutive stretches rebuilds the live files of all of them. -/
theorem mergeCheckpoints_folds (hne : segments ≠ []) (h : Sound (segments.flatMap Prod.snd)) :
    ∃ merged, mergeCheckpoints (segments.map fun s => (foldSnapshots s.1 s.2).checkpoint) = some merged ∧
      merged.databases = Ledger.live entryId ((segments.flatMap Prod.snd).map batch) := by
  cases segments with
  | nil => exact absurd rfl hne
  | cons s segments =>
    have hsegment := tracks_foldSnapshots s.1 (h.sublist (sublist_append_left s.2 _))
    exact ⟨_, rfl, databases_foldl_merge segments hsegment.databases h⟩

section Complete
variable {ms : List StoredSnapshot} {cs : List PersistedSnapshotCheckpoint} {c : PersistedSnapshotCheckpoint}

private def candidates (cs : List PersistedSnapshotCheckpoint) (c : PersistedSnapshotCheckpoint) :
    List PersistedSnapshotCheckpoint :=
  cs.filter fun d => d.yearMonth ≤ c.yearMonth ∧ d.lastSnapshotSequenceNumber ≤ c.lastSnapshotSequenceNumber

theorem mem_candidates {d : PersistedSnapshotCheckpoint} : d ∈ candidates cs c ↔
    d ∈ cs ∧ d.yearMonth ≤ c.yearMonth ∧ d.lastSnapshotSequenceNumber ≤ c.lastSnapshotSequenceNumber := by
  simp [candidates]

variable (h : History ms)
include h

private theorem candidates_end (hexact : ∀ d ∈ cs, Exact ms d) (hc : c ∈ cs)
    (hpreceded : Preceded ms cs c.yearMonth) {x : StoredSnapshot} (hx : x ∈ ms)
    (hnumber : x.number ≤ c.lastSnapshotSequenceNumber) : ∃ d ∈ candidates cs c, d.yearMonth = x.month ∧
      ∀ y ∈ ms, y.month = x.month → y.number ≤ c.lastSnapshotSequenceNumber →
        y.number ≤ d.lastSnapshotSequenceNumber := by
  obtain ⟨z, hz, hzmonth, hznumber⟩ := (hexact c hc).last
  have hmonth := h.month_le hx hz (by omega)
  rcases Nat.eq_or_lt_of_le hmonth with heq | hlt
  · exact ⟨c, mem_candidates.mpr ⟨hc, le_rfl, le_rfl⟩, by omega, fun _ _ _ hy => hy⟩
  · obtain ⟨d, hd, hdmonth, hwhole⟩ := hpreceded x hx (by omega)
    obtain ⟨y, hy, hymonth, hynumber⟩ := (hexact d hd).last
    have hyz := h.number_lt hy hz (by omega)
    exact ⟨d, mem_candidates.mpr ⟨hd, by omega, by omega⟩, hdmonth, fun w hw hwmonth _ =>
      hwhole w hw (by omega)⟩

private theorem latestOfMonth_candidates (hexact : ∀ d ∈ cs, Exact ms d) (hc : c ∈ cs)
    (hpreceded : Preceded ms cs c.yearMonth) {month : Nat} (hmonth : month ∈ (candidates cs c).map yearMonth) :
    latestOfMonth (candidates cs c) month =
      some (foldSnapshots month (monthlyUpTo ms month c.lastSnapshotSequenceNumber)).checkpoint := by
  obtain ⟨d₀, hd₀, rfl⟩ := mem_map.mp hmonth
  obtain ⟨d, hlatest⟩ := exists_latestOfMonth hd₀
  obtain ⟨hd, hdmonth, hmax⟩ := latestOfMonth_spec hlatest
  obtain ⟨hdcs, -, hdnumber⟩ := mem_candidates.mp hd
  rw [hlatest, (hexact d hdcs).fold, hdmonth]
  refine congrArg (fun seg => some (foldSnapshots _ (List.map _ seg)).checkpoint) (filter_congr fun x hx => ?_)
  refine Bool.eq_iff_iff.mpr ?_
  simp only [decide_eq_true_eq]
  refine and_congr_right fun hxmonth => ⟨fun hle => Nat.le_trans hle hdnumber, fun hle => ?_⟩
  obtain ⟨e, he, hemonth, hend⟩ := candidates_end h hexact hc hpreceded hx hle
  exact Nat.le_trans (hend x hx rfl hle) (hmax e he (hemonth.trans hxmonth))

private theorem flatMap_monthlyUpTo (hmonths : Increasing id months)
    (number : Nat) (hcover : ∀ x ∈ ms, x.number ≤ number → x.month ∈ months) :
    (months.flatMap fun month => monthlyUpTo ms month number) =
      (ms.filter fun x => x.number ≤ number).map StoredSnapshot.snapshot := by
  have hgroup := flatMap_filter_key (h.months.filter fun x => x.number ≤ number) hmonths fun x hx =>
    hcover x (mem_filter.mp hx).1 (of_decide_eq_true (mem_filter.mp hx).2)
  rw [← hgroup, map_flatMap]
  refine flatMap_congr fun month _ => ?_
  rw [monthlyUpTo, filter_filter]
  exact congrArg (List.map _) (filter_congr fun x _ => Bool.eq_iff_iff.mpr (by simp))

end Complete

/-- Stored checkpoints that are exact, over months stored to their end, are complete. -/
theorem complete_of_preceded {s : Persister} (h : History s.snapshots)
    (hexact : ∀ c ∈ s.checkpoints, Exact s.snapshots c)
    (hpreceded : ∀ c ∈ s.checkpoints, Preceded s.snapshots s.checkpoints c.yearMonth) : s.CheckpointsComplete := by
  intro c hc
  have hsound := h.sound.sublist
    ((filter_sublist (p := fun x => x.number ≤ c.lastSnapshotSequenceNumber)).map StoredSnapshot.snapshot)
  have hlist : Persister.latestUpTo s.checkpoints c =
      (sortedMonths ((candidates s.checkpoints c).map yearMonth)).map fun month =>
        (foldSnapshots month (monthlyUpTo s.snapshots month c.lastSnapshotSequenceNumber)).checkpoint := by
    rw [← filterMap_eq_map]
    refine filterMap_congr fun month hmonth => ?_
    exact latestOfMonth_candidates h hexact hc (hpreceded c hc) (mem_sortedMonths.mp hmonth)
  have hfold := flatMap_monthlyUpTo h
    (sortedMonths_increasing ((candidates s.checkpoints c).map yearMonth))
    c.lastSnapshotSequenceNumber fun x hx hnumber => by
      obtain ⟨d, hd, hdmonth, -⟩ := candidates_end h hexact hc (hpreceded c hc) hx hnumber
      exact mem_sortedMonths.mpr (mem_map.mpr ⟨d, hd, hdmonth⟩)
  have hne : sortedMonths ((candidates s.checkpoints c).map yearMonth) ≠ [] :=
    ne_nil_of_mem (mem_sortedMonths.mpr (mem_map_of_mem (mem_candidates.mpr ⟨hc, le_rfl, le_rfl⟩)))
  have hfolds := mergeCheckpoints_folds ((sortedMonths _).map fun month =>
    (month, monthlyUpTo s.snapshots month c.lastSnapshotSequenceNumber)) (map_eq_nil_iff.not.mpr hne)
  rw [map_map, flatMap_map] at hfolds
  obtain ⟨merged, hmerged, hdatabases⟩ := hfolds (hfold.symm ▸ hsound)
  refine ⟨merged, hlist ▸ hmerged, fun k f => ?_⟩
  rw [hdatabases, hfold]
  exact hsound.mem_newFromPersistedSnapshots.symm

end VarveDB.Checkpoint
