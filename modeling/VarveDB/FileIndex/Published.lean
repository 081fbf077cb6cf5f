import VarveDB.FileIndex.Publisher
import VarveDB.FileIndex.Query
import VarveDB.FileIndex.Replay

/-! What a log says of a node's manifests. -/
namespace VarveDB.Publisher
open Library FileIndex List

def logDeltas (log : List FileIndexLogEntry) : List FileIndexDelta := log.flatMap FileIndexLogEntry.deltas

def ownDeltas (nodeId : String) (log : List FileIndexLogEntry) : List FileIndexDelta :=
  (logDeltas log).filter fun d => d.nodeId = nodeId

variable {f : ParquetFile} {durable : List PersistedSnapshot} {w : Option Nat}

section Deltas
variable {m : PersistedSnapshot} {d : FileIndexDelta}

theorem snapshotSequence_of_mem (h : d ∈ deltasFromSnapshot m) :
    d.snapshotSequence = m.snapshotSequenceNumber ∧ d.nodeId = m.nodeId := by
  obtain ⟨k, -, rfl⟩ := mem_map.mp h
  exact ⟨rfl, rfl⟩

variable {k : TableKey}

theorem mem_tablesOf_of_added (h : f ∈ m.addedTo k) : k ∈ tablesOf m := by
  obtain ⟨⟨k', files⟩, hmem, hf⟩ := mem_flatMap.mp h
  have hk : k' = k := by
    by_contra hne
    simp [hne] at hf
  rw [tablesOf, mem_dedup, mem_append]
  exact .inr (hk ▸ mem_map_of_mem hmem)

theorem mem_tablesOf_of_removed (h : f ∈ m.removedFrom k) : k ∈ tablesOf m := by
  obtain ⟨⟨k', files⟩, hmem, hf⟩ := mem_flatMap.mp h
  have hk : k' = k := by
    by_contra hne
    simp [hne] at hf
  rw [tablesOf, mem_dedup, mem_append]
  exact .inl (hk ▸ mem_map_of_mem hmem)

/-- What a delta adds to a table, the manifest it stands for adds. -/
theorem mem_addedTo_of_adds {nodeId : String} (hd : d ∈ deltasFromSnapshot m)
    (h : Adds d nodeId k f) : m.nodeId = nodeId ∧ f ∈ m.addedTo k := by
  obtain ⟨k', -, rfl⟩ := mem_map.mp hd
  obtain ⟨hnode, rfl, hf⟩ := h
  exact ⟨hnode, hf⟩

theorem exists_manifest_of_mem_pendingDeltas
    (h : d ∈ pendingDeltas w durable) : ∃ m ∈ durable, above w m = true ∧ d ∈ deltasFromSnapshot m := by
  obtain ⟨m, hm, hd⟩ := mem_flatMap.mp h
  obtain ⟨hm, habove⟩ := mem_filter.mp hm
  refine ⟨m, ?_, habove, hd⟩
  have hload {n : Nat} (h : m ∈ loadSnapshots n durable) : m ∈ durable :=
    mem_orderedOldestFirst.mp (mem_reverse.mp (mem_of_mem_take h))
  rw [mem_orderedOldestFirst] at hm
  cases w with
  | none => exact hload hm
  | some v => exact hload (mem_of_mem_filter hm)

end Deltas

private theorem filter_above_prefix {l : List PersistedSnapshot} (w : Option Nat)
    (h : l.Pairwise fun a b => b.snapshotSequenceNumber ≤ a.snapshotSequenceNumber) : l.filter (above w) <+: l := by
  induction l with
  | nil => simp
  | cons a l ih =>
    rw [pairwise_cons] at h
    by_cases ha : above w a = true
    · rw [filter_cons_of_pos ha]
      exact (prefix_cons_inj a).mpr (ih h.2)
    · have hnone : l.filter (above w) = [] := by
        refine filter_eq_nil_iff.mpr fun b hb hab => ha ?_
        have hle := h.1 b hb
        cases w with
        | none => rfl
        | some v =>
          have hlt : v < b.snapshotSequenceNumber := by simpa [above] using hab
          simpa [above] using hlt.trans_le hle
      rw [filter_cons_of_neg ha, hnone]
      exact nil_prefix

/-- A pass that is not cut short by its limit drains exactly the manifests above the watermark. -/
theorem mem_manifestsToPublish {m : PersistedSnapshot} (h : (durable.filter (above w)).length ≤ maxManifestsPerPass) :
    m ∈ manifestsToPublish w durable ↔ m ∈ durable ∧ above w m = true := by
  have hperm : (orderedOldestFirst durable).reverse.Perm durable :=
    (reverse_perm _).trans (orderedOldestFirst_perm durable)
  have hinit := filter_above_prefix w (pairwise_reverse.mpr (orderedOldestFirst_sorted durable))
  have htake : (orderedOldestFirst durable).reverse.filter (above w) <+: loadSnapshots maxManifestsPerPass durable :=
    prefix_take_iff.mpr ⟨hinit, by rw [(hperm.filter _).length_eq]; exact h⟩
  have hload : m ∈ loadSnapshots maxManifestsPerPass durable ∧ above w m = true ↔ m ∈ durable ∧ above w m = true := by
    refine and_congr_left fun hab => ⟨fun hm => hperm.subset (take_subset _ _ hm), fun hm => htake.subset ?_⟩
    exact mem_filter.mpr ⟨hperm.symm.subset hm, hab⟩
  rw [← hload]
  simp only [manifestsToPublish, mem_filter, mem_orderedOldestFirst]
  refine and_congr_left fun hab => ?_
  cases w with
  | none => rfl
  | some v =>
    have hlt : v < m.snapshotSequenceNumber := by simpa [above] using hab
    simp [loadSnapshotsAfter, hlt]

section Watermark
variable {log : List FileIndexLogEntry} {nodeId : String}

private theorem logDeltas_append (log : List FileIndexLogEntry) (e : FileIndexLogEntry) :
    logDeltas (log ++ [e]) = logDeltas log ++ e.deltas := by simp [logDeltas]

theorem ownDeltas_append (log : List FileIndexLogEntry) (e : FileIndexLogEntry) :
    ownDeltas nodeId (log ++ [e]) = ownDeltas nodeId log ++ e.deltas.filter fun d => d.nodeId = nodeId := by
  rw [ownDeltas, logDeltas_append, filter_append]
  rfl

private theorem watermarks_deltas (sequence : Nat) (ds : List FileIndexDelta) (ix : FileIndex) :
    (ds.foldl (applyDelta sequence) ix).watermarks =
      (ds.map fun d => (d.nodeId, d.snapshotSequence)).foldl (fun m p => m.raise p.1 p.2) ix.watermarks := by
  induction ds generalizing ix with
  | nil => rfl
  | cons d ds ih => rw [foldl_cons, ih]; rfl

private theorem watermarks_replay (h : NumberedLog log) : (replay log).watermarks =
    ((logDeltas log).map fun d => (d.nodeId, d.snapshotSequence)).foldl (fun m p => m.raise p.1 p.2)
      (KeyedList.empty _) := by
  induction log using List.reverseRecOn with
  | nil => rfl
  | append_singleton log e ih =>
    obtain ⟨hlog, hseq⟩ := h.init
    have hnew : ¬ e.sequence ≤ (replay log).sequence := by rw [sequence_replay hlog]; omega
    rw [replay_append_singleton, FileIndex.apply, if_neg hnew, logDeltas_append, map_append, foldl_append, ← ih hlog]
    exact watermarks_deltas ..

structure IsTop (w : Option Nat) (ds : List FileIndexDelta) : Prop where
  attained : ∀ v, w = some v → ∃ d ∈ ds, d.snapshotSequence = v
  bound : ∀ d ∈ ds, ∃ v, w = some v ∧ d.snapshotSequence ≤ v

theorem isTop_watermark (h : NumberedLog log) :
    IsTop ((replay log).watermarks.lookup nodeId) (ownDeltas nodeId log) := by
  have hspec := KeyedList.lookup_foldl_raise ((logDeltas log).map fun d => (d.nodeId, d.snapshotSequence)) nodeId
  rw [← watermarks_replay h] at hspec
  obtain ⟨hsome, hnone⟩ := hspec
  refine ⟨fun v hv => ?_, fun d hd => ?_⟩
  · obtain ⟨d, hd, heq⟩ := mem_map.mp (hsome v hv).1
    obtain ⟨hnode, hseq⟩ := Prod.mk.inj heq
    exact ⟨d, mem_filter.mpr ⟨hd, by simpa using hnode⟩, hseq⟩
  · obtain ⟨hd, hnode⟩ := mem_filter.mp hd
    have hmem := mem_map_of_mem (f := fun d : FileIndexDelta => (d.nodeId, d.snapshotSequence)) hd
    have hnode : d.nodeId = nodeId := by simpa using hnode
    cases hl : (replay log).watermarks.lookup nodeId with
    | none => exact absurd hnode (hnone hl _ hmem)
    | some v => exact ⟨v, rfl, (hsome v hl).2 _ hmem hnode⟩

end Watermark

section Lists
variable {ix : FileIndex} {nodeId : String} {k : TableKey} {path : String} {d : FileIndexDelta} {sequence : Nat}
  {log : List FileIndexLogEntry}

def Lists (ix : FileIndex) (nodeId : String) (k : TableKey) (path : String) : Prop :=
  ∃ e ∈ ix.files, e.key = (nodeId, k.1, k.2, path)

def Removes (d : FileIndexDelta) (nodeId : String) (k : TableKey) (path : String) : Prop :=
  d.nodeId = nodeId ∧ (d.dbId, d.tableId) = k ∧ path ∈ d.removed

private theorem lists_applyDelta (h : Lists ix nodeId k path) (hkept : ¬Removes d nodeId k path) :
    Lists (applyDelta sequence ix d) nodeId k path := by
  obtain ⟨e, he, hkey⟩ := h
  refine ⟨e, ?_, hkey⟩
  simp only [applyDelta]
  rw [← foldl_map]
  refine KeyedList.mem_foldl_insertNew_of_mem (KeyedList.mem_retain.mpr ⟨he, ?_⟩) _
  simp only [SnapshotEntry.key, Prod.mk.injEq] at hkey
  obtain ⟨rfl, hdb, htable, rfl⟩ := hkey
  by_contra hremoved
  simp only [SnapshotEntry.inTable, Bool.not_eq_true, Bool.not_eq_false', Bool.and_eq_true, beq_iff_eq,
    contains_iff_mem] at hremoved
  obtain ⟨⟨⟨hnode, hdb'⟩, htable'⟩, hpath⟩ := hremoved
  exact hkept ⟨hnode.symm, Prod.ext (hdb'.symm.trans hdb) (htable'.symm.trans htable), hpath⟩

private theorem lists_of_adds (h : Adds d nodeId k f) : Lists (applyDelta sequence ix d) nodeId k f.path := by
  obtain ⟨rfl, rfl, hf⟩ := h
  simp only [Lists, applyDelta]
  rw [← foldl_map]
  exact KeyedList.exists_key_foldl_insertNew (mem_map_of_mem hf) _

/-- After a delta, a path is listed if it is added, or was listed and is not removed. -/
theorem lists_applyDelta_iff : Lists (applyDelta sequence ix d) nodeId k path ↔
    (∃ f, Adds d nodeId k f ∧ f.path = path) ∨ Lists ix nodeId k path ∧ ¬Removes d nodeId k path := by
  constructor
  · rintro ⟨e, he, hkey⟩
    simp only [applyDelta] at he
    rw [← foldl_map] at he
    simp only [SnapshotEntry.key, Prod.mk.injEq] at hkey
    obtain ⟨hnode, hdb, htable, hpath⟩ := hkey
    rcases KeyedList.mem_of_mem_foldl_insertNew he with he | he
    · obtain ⟨he, hkept⟩ := KeyedList.mem_retain.mp he
      refine .inr ⟨⟨e, he, by simp only [SnapshotEntry.key, hnode, hdb, htable, hpath]⟩, ?_⟩
      rintro ⟨rfl, rfl, hremoved⟩
      simp [SnapshotEntry.inTable, hnode, hdb, htable, hpath, hremoved] at hkept
    · obtain ⟨f, hf, rfl⟩ := mem_map.mp he
      exact .inl ⟨f, ⟨hnode, Prod.ext hdb htable, hf⟩, hpath⟩
  · rintro (⟨f, hadds, rfl⟩ | ⟨hlist, hkept⟩)
    · exact lists_of_adds hadds
    · exact lists_applyDelta hlist hkept

def listedAfter (nodeId : String) (k : TableKey) (path : String) (ds : List FileIndexDelta) (listed : Prop) : Prop :=
  ds.foldl (fun listed d => (∃ f, Adds d nodeId k f ∧ f.path = path) ∨ listed ∧ ¬Removes d nodeId k path) listed

theorem listedAfter_append (ds ds' : List FileIndexDelta) (listed : Prop) :
    listedAfter nodeId k path (ds ++ ds') listed =
      listedAfter nodeId k path ds' (listedAfter nodeId k path ds listed) :=
  foldl_append

private theorem lists_foldl_applyDelta (sequence : Nat) (ds : List FileIndexDelta) (ix : FileIndex) :
    Lists (ds.foldl (applyDelta sequence) ix) nodeId k path ↔
      listedAfter nodeId k path ds (Lists ix nodeId k path) := by
  induction ds generalizing ix with
  | nil => exact Iff.rfl
  | cons d ds ih =>
    rw [foldl_cons, ih, propext lists_applyDelta_iff]
    exact Iff.rfl

theorem lists_foldl_apply (h : (ix.sequence :: log.map FileIndexLogEntry.sequence).Pairwise (· < ·)) :
    Lists (log.foldl FileIndex.apply ix) nodeId k path ↔
      listedAfter nodeId k path (logDeltas log) (Lists ix nodeId k path) := by
  induction log generalizing ix with
  | nil => exact Iff.rfl
  | cons e log ih =>
    obtain ⟨hfirst, hrest⟩ := pairwise_cons.mp h
    have hnew : ix.sequence < e.sequence := hfirst _ mem_cons_self
    have hseq : (ix.apply e).sequence = e.sequence := by rw [sequence_apply]; omega
    have hlists : Lists (ix.apply e) nodeId k path ↔ listedAfter nodeId k path e.deltas (Lists ix nodeId k path) := by
      rw [FileIndex.apply, if_neg (by omega)]
      exact lists_foldl_applyDelta e.sequence e.deltas ix
    rw [foldl_cons, ih (hseq ▸ hrest), propext hlists, ← listedAfter_append]
    exact Iff.rfl

/-- A file that the log adds and whose path it never removes is listed. -/
theorem lists_replay (h : NumberedLog log)
    (hadds : ∃ d ∈ logDeltas log, Adds d nodeId k f) (hkept : ∀ d ∈ logDeltas log, ¬Removes d nodeId k f.path) :
    Lists (replay log) nodeId k f.path := by
  have hlisted {ds : List FileIndexDelta} (listed : Prop) (hadds : listed ∨ ∃ d ∈ ds, Adds d nodeId k f)
      (hkept : ∀ d ∈ ds, ¬Removes d nodeId k f.path) : listedAfter nodeId k f.path ds listed := by
    induction ds generalizing listed with
    | nil => exact hadds.elim id fun ⟨d, hd, _⟩ => nomatch hd
    | cons d ds ih =>
      obtain ⟨hd, hkept⟩ := forall_mem_cons.mp hkept
      refine ih _ ?_ hkept
      rcases hadds with hlisted | ⟨d', hd', hadds⟩
      · exact .inl (.inr ⟨hlisted, hd⟩)
      · rcases mem_cons.mp hd' with rfl | hd'
        · exact .inl (.inl ⟨f, hadds, rfl⟩)
        · exact .inr ⟨d', hd', hadds⟩
  have hincreasing : (0 :: log.map FileIndexLogEntry.sequence).Pairwise (· < ·) :=
    h ▸ pairwise_lt_range' (n := log.length + 1)
  exact (lists_foldl_apply hincreasing).mpr (hlisted _ (.inr hadds) hkept)

end Lists

end VarveDB.Publisher
