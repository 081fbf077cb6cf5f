import VarveDB.Cluster.Buffer
import VarveDB.FileIndex.Published

/-! What every state of a cluster keeps of buffers, recorded files and objects. -/
namespace VarveDB.Cluster
open Library Runs FileIndex Compaction Compactor Query Publisher List

variable {contents' : Contents} {k : TableKey} {m : PersistedSnapshot}

namespace Node

def manifests (x : Node) : List PersistedSnapshot :=
  x.snapshot.toList ++ x.applying.filterMap Applying.manifest ++ x.durable

theorem mem_manifests {x : Node} :
    m ∈ x.manifests ↔ x.snapshot = some m ∨ (∃ d ∈ x.applying, d.manifest = some m) ∨ m ∈ x.durable := by
  simp [manifests]

inductive Records (x : Node) (k : TableKey) (f : ParquetFile) : Prop
  | listed (h : f ∈ x.persistedFiles.files k)
  | job {c : SnapshotChunk} (h : (c, f) ∈ x.persisted) (hk : c.table = k)
  | manifest {m : PersistedSnapshot} (hm : m ∈ x.manifests) (hf : f ∈ m.addedTo k)
  | merged {d : Applying} (hd : d ∈ x.applying) (hk : d.table = k) (hf : d.merged = f)

inductive Makes (cfg : Config) (nodeId : String) (log : List FileIndexLogEntry) (contents : Contents) (x : Node) :
    NodeAction → TableKey → ParquetFile → Prop
  | persist {m : PersistedSnapshot} {chunk : SnapshotChunk} {sizeBytes : Nat} (hm : x.snapshot = some m)
      (hchunk : chunk ∈ x.snapshotting) : Makes cfg nodeId log contents x (.persistChunk chunk sizeBytes) chunk.table
        (x.fileOf chunk (pathOf cfg nodeId m chunk) sizeBytes)
  | compact {position : Nat} {coldBefore : Int} {config : CompactionConfig} {group : MergeGroup} {path : String}
      {sizeBytes : Nat}
      (hinputs : ∀ f ∈ group.inputs, f ∈ (replay (log.take position)).filesForTable nodeId group.dbId group.tableId)
      (hne : group.inputs ≠ []) :
      Makes cfg nodeId log contents x (.compact position coldBefore config group path sizeBytes) (table group)
        (group.merged x.nextFileId path sizeBytes (mergedRows contents group).length)

variable {cfg : Config} {nodeId : String} {log : List FileIndexLogEntry} {contents : Contents} {x : Node}
  {a : NodeAction} {e : Effect}

theorem mem_applyMerge {merged : ParquetFile} {paths : List String} {d : Applying}
    (hd : d ∈ (x.applyMerge k merged paths).applying) :
    d ∈ x.applying ∨ d.table = k ∧ d.merged = merged ∧ d.manifest = none ∧
      ∀ f ∈ d.removed, f.path ∈ paths ∧ (f ∈ x.persistedFiles.files k ∨ f = merged) := by
  simp only [applyMerge] at hd
  split at hd
  · exact .inl hd
  · rcases mem_snoc.mp hd with hd | rfl
    · exact .inl hd
    · exact .inr ⟨rfl, rfl, rfl, fun f hf => ⟨(PersistedFiles.path_applyCompaction _ _ _ _).2 f hf,
        (PersistedFiles.mem_applyCompaction _ _ _ _).2 f hf⟩⟩

section
variable (h : Stepped cfg nodeId log contents x a e)
include h

/-- After an action the manifests are those from before, the one a snapshot begins or continues,
or the one of a merge. -/
theorem mem_manifests_of_stepped (hm : m ∈ e.node.manifests) : m ∈ x.manifests ∨
      (m.nodeId = nodeId ∧ ∀ k, m.addedTo k = [] ∧ m.removedFrom k = []) ∨
      (∃ m₀ c file, a = .handOver c ∧ x.snapshot = some m₀ ∧ (c, file) ∈ x.persisted ∧
        m = m₀.addParquetFile x.nextFileId c.table file) ∨
      m.nodeId = nodeId ∧ ∃ d ∈ x.applying, ∀ k, m.addedTo k = (if d.table = k then [d.merged] else []) ∧
        m.removedFrom k = if d.table = k then d.removed else [] := by
  have hput {m₀ : PersistedSnapshot} (hm₀ : m₀ ∈ x.manifests) (h : m ∈ putSnapshot x.durable m₀) : m ∈ x.manifests := by
    rcases mem_putSnapshot.mp h with ⟨h, -⟩ | rfl
    · exact mem_manifests.mpr (.inr (.inr h))
    · exact hm₀
  simp only [mem_manifests] at hput
  rw [mem_manifests] at hm ⊢
  cases h with
  | write | persistChunk | publish => exact .inl hm
  | freeze hfree =>
    rcases hm with hm | hm
    · cases hm
      exact .inr (.inl ⟨rfl, fun k => ⟨rfl, rfl⟩⟩)
    · exact .inl (.inr hm)
  | @handOver chunk file hjob =>
    rcases hm with hm | hm
    · obtain ⟨m₀, hm₀, rfl⟩ := map_eq_some_iff.mp hm
      exact .inr (.inr (.inl ⟨m₀, chunk, file, rfl, hm₀, hjob, rfl⟩))
    · exact .inl (.inr hm)
  | persistSnapshot hsnapshot =>
    rcases hm with hm | hm | hm
    · cases hm
    · exact .inl (.inr (.inl hm))
    · exact .inl (hput (.inl hsnapshot) hm)
  | compact =>
    rcases hm with hm | ⟨d, hd, hm⟩ | hm
    · exact .inl (.inl hm)
    · rcases mem_applyMerge hd with hd | ⟨-, -, hnone, -⟩
      · exact .inl (.inr (.inl ⟨d, hd, hm⟩))
      · cases hnone.symm.trans hm
    · exact .inl (.inr (.inr hm))
  | @reserve d hd =>
    rcases hm with hm | ⟨d', hd', hm⟩ | hm
    · exact .inl (.inl hm)
    · obtain ⟨d₀, hd₀, rfl⟩ := mem_map.mp hd'
      split at hm
      · cases hm
        exact .inr (.inr (.inr ⟨rfl, d, hd, fun k => ⟨addedTo_compactionSnapshot k, removedFrom_compactionSnapshot k⟩⟩))
      · exact .inl (.inr (.inl ⟨d₀, hd₀, hm⟩))
    · exact .inl (.inr (.inr hm))
  | @persistCompaction d m₀ stored hd hm₀ =>
    rcases hm with hm | ⟨d', hd', hm⟩ | hm
    · exact .inl (.inl hm)
    · exact .inl (.inr (.inl ⟨d', mem_of_mem_filter hd', hm⟩))
    · simp only at hm
      split at hm
      · exact .inl (hput (.inr (.inl ⟨d, hd, hm₀⟩)) hm)
      · exact .inl (.inr (.inr hm))

/-- An action records what was recorded and the file it makes. -/
theorem Records.of_stepped {f : ParquetFile}
    (hr : Records e.node k f) : Records x k f ∨ Makes cfg nodeId log contents x a k f := by
  cases hr with
  | manifest hm hf =>
    rcases mem_manifests_of_stepped h hm with hm | ⟨-, hnone⟩ | ⟨m₀, c, file, -, hm₀, hjob, rfl⟩ | ⟨-, d, hd, hadded⟩
    · exact .inl (.manifest hm hf)
    · rw [(hnone k).1] at hf
      cases hf
    · rw [PersistedSnapshot.addedTo_addParquetFile, mem_append, mem_ite_nil_right, mem_singleton] at hf
      rcases hf with hf | ⟨hk, rfl⟩
      · exact .inl (.manifest (mem_manifests.mpr (.inl hm₀)) hf)
      · exact .inl (.job hjob hk)
    · rw [(hadded k).1, mem_ite_nil_right, mem_singleton] at hf
      exact .inl (.merged hd hf.1 hf.2.symm)
  | listed hf =>
    cases h with
    | handOver hjob =>
      rcases PersistedFiles.mem_addPersistedFile hf with hf | ⟨rfl, rfl⟩
      · exact .inl (.listed hf)
      · exact .inl (.job hjob rfl)
    | compact hinputs hne =>
      rcases (PersistedFiles.mem_applyCompaction _ _ _ _).1 k f hf with hf | ⟨rfl, rfl⟩
      · exact .inl (.listed hf)
      · exact .inr (.compact hinputs hne)
    | _ => exact .inl (.listed hf)
  | job hjob hk =>
    cases h with
    | handOver => exact .inl (.job (mem_of_mem_erase hjob) hk)
    | persistChunk hm hchunk =>
      rcases mem_snoc.mp hjob with hjob | hjob
      · exact .inl (.job hjob hk)
      · cases hjob
        exact .inr (hk ▸ .persist hm hchunk)
    | _ => exact .inl (.job hjob hk)
  | merged hd hk hf =>
    cases h with
    | compact hinputs hne =>
      rcases mem_applyMerge hd with hd | ⟨htable, hmerged, -⟩
      · exact .inl (.merged hd hk hf)
      · obtain rfl := htable.symm.trans hk
        exact .inr (hmerged.symm.trans hf ▸ .compact hinputs hne)
    | reserve =>
      obtain ⟨d₀, hd₀, rfl⟩ := mem_map.mp hd
      refine .inl (.merged hd₀ ?_ ?_)
      · split at hk <;> exact hk
      · split at hf <;> exact hf
    | persistCompaction => exact .inl (.merged (mem_of_mem_filter hd) hk hf)
    | _ => exact .inl (.merged hd hk hf)

end

structure IsFileOf (cfg : Config) (nodeId : String) (contents : Contents) (m : PersistedSnapshot) (c : SnapshotChunk)
    (f : ParquetFile) : Prop where
  path : f.path = pathOf cfg nodeId m c
  chunkTime : f.chunkTime = c.chunkTime
  range : (f.minTime, f.maxTime) = c.timestampMinMax
  object : contents f.path = some (lastOfKey c.rows)

/-- What every action keeps of a node: its buffer, and jobs that belong to the snapshot under way. -/
structure WellFormed (cfg : Config) (nodeId : String) (contents : Contents) (x : Node) : Prop where
  buffered : Buffered nodeId x.live x.writes
  frozen : Frozen cfg nodeId x.snapshotting
  jobs : ∀ job ∈ x.persisted, job.1 ∈ x.snapshotting ∧
    ∃ m, x.snapshot = some m ∧ IsFileOf cfg nodeId contents m job.1 job.2
  once : (x.persisted.map Prod.fst).Nodup
  idle : x.snapshot = none → x.snapshotting = []
  owned : ∀ m ∈ x.manifests, m.nodeId = nodeId

def Extends (contents contents' : Contents) : Prop :=
  ∀ path rows, contents path = some rows → contents' path = some rows

section
variable (h : WellFormed cfg nodeId contents x)
include h

theorem WellFormed.mono (hext : Extends contents contents') : WellFormed cfg nodeId contents' x :=
  { h with jobs := fun job hjob =>
      let ⟨hmem, m, hm, hfile⟩ := h.jobs job hjob
      ⟨hmem, m, hm, hfile.path, hfile.chunkTime, hfile.range, hext _ _ hfile.object⟩ }

private theorem WellFormed.owned_of_stepped (hstep : Stepped cfg nodeId log contents x a e) :
    ∀ m ∈ e.node.manifests, m.nodeId = nodeId := by
  intro m hm
  rcases mem_manifests_of_stepped hstep hm with hm | ⟨hm, -⟩ | ⟨m₀, c, file, -, hm₀, -, rfl⟩ | ⟨hm, -⟩
  · exact h.owned m hm
  · exact hm
  · exact h.owned m₀ (mem_manifests.mpr (.inl hm₀))
  · exact hm

private theorem WellFormed.persisted_eq_nil (hnone : x.snapshotting = []) : x.persisted = [] :=
  eq_nil_iff_forall_not_mem.mpr fun job hjob => not_mem_nil (hnone ▸ (h.jobs job hjob).1)

private theorem WellFormed.handOver_jobs {chunk : SnapshotChunk} {file : ParquetFile}
    (hjob : (chunk, file) ∈ x.persisted)
    {job : SnapshotChunk × ParquetFile} (hmem : job ∈ x.persisted.erase (chunk, file)) :
    job ∈ x.persisted ∧ job.1 ≠ chunk := by
  refine ⟨mem_of_mem_erase hmem, fun heq => ?_⟩
  have hnodup : x.persisted.Nodup := h.once.of_map
  obtain ⟨hne, hold⟩ := hnodup.mem_erase_iff.mp hmem
  exact hne (inj_on_of_nodup_map h.once hold hjob heq)

private theorem WellFormed.stepped (hstep : Stepped cfg nodeId log contents x a e)
    (hext : Extends contents contents') (hobject : ∀ object ∈ e.object, contents' object.1 = some object.2) :
    WellFormed cfg nodeId contents' e.node := by
  have howned := h.owned_of_stepped hstep
  have hjobs := (h.mono hext).jobs
  cases hstep with
  | write => exact { h with buffered := h.buffered.foldl _, jobs := hjobs, owned := howned }
  | freeze hfree =>
    have hnone := h.persisted_eq_nil (h.idle hfree)
    exact {
      buffered := (h.buffered.foldl _).filter _
      frozen := (h.buffered.foldl _).frozen
      jobs := fun job hjob => absurd hjob (by simp [hnone])
      once := h.once
      idle := fun hnone => nomatch hnone
      owned := howned }
  | @persistChunk m chunk sizeBytes hm hchunk hnew =>
    refine { h with jobs := fun job hjob => ?_, once := ?_, owned := howned }
    · rcases mem_snoc.mp hjob with hjob | rfl
      · exact hjobs job hjob
      · exact ⟨hchunk, m, hm, rfl, rfl, rfl, hobject _ rfl⟩
    · rw [map_append, nodup_append]
      refine ⟨h.once, nodup_singleton _, ?_⟩
      simp only [mem_map, map_cons, map_nil, mem_singleton]
      rintro _ ⟨job, hjob, rfl⟩ _ rfl
      exact hnew job hjob
  | @handOver chunk file hjob =>
    refine ⟨h.buffered, ⟨fun c hc => h.frozen.valid c (mem_of_mem_erase hc), h.frozen.apart.sublist erase_sublist⟩,
      fun job hmem => ?_, ?_, fun hnone => ?_, howned⟩
    · obtain ⟨hold, hne⟩ := h.handOver_jobs hjob hmem
      obtain ⟨hchunk, m, hm, hfile⟩ := hjobs job hold
      exact ⟨(mem_erase_of_ne hne).mpr hchunk, _, congrArg (Option.map _) hm, hfile.path, hfile.chunkTime,
        hfile.range, hfile.object⟩
    · exact h.once.sublist (erase_sublist.map _)
    · have hidle := h.idle (Option.map_eq_none_iff.mp hnone)
      simp [handOver, hidle]
  | persistSnapshot hm hdone =>
    exact { h with
      jobs := fun job hjob => absurd hjob (by simp [h.persisted_eq_nil hdone])
      idle := fun _ => hdone
      owned := howned }
  | _ => exact { h with jobs := hjobs, owned := howned }

end

end Node

def Published (log : List FileIndexLogEntry) (nodeId : String) (k : TableKey) (f : ParquetFile) : Prop :=
  ∃ entry ∈ log, ∃ d ∈ entry.deltas, Adds d nodeId k f

variable {nodeId node : String} {f : ParquetFile} {contents : Contents} {files : List ParquetFile} {p : Point}

theorem published_of_mem_filesForTable {log : List FileIndexLogEntry} {dbId tableId : Nat}
    (hf : f ∈ (replay log).filesForTable nodeId dbId tableId) : Published log nodeId (dbId, tableId) f := by
  obtain ⟨e, he, rfl⟩ := mem_map.mp hf
  obtain ⟨hmem, hin⟩ := mem_filter.mp he
  obtain ⟨rfl, rfl, rfl⟩ := inTable_iff.mp hin
  rcases adds_of_mem_foldl_apply hmem with hnew | ⟨entry, hentry, -, hadds⟩
  · exact absurd hnew (KeyedList.not_mem_empty e)
  · exact ⟨entry, hentry, hadds⟩

theorem Published.of_take {log : List FileIndexLogEntry} {position : Nat}
    (h : Published (log.take position) nodeId k f) :
    Published log nodeId k f := h.imp fun _ h => ⟨mem_of_mem_take h.1, h.2⟩

structure Stored (contents : Contents) (nodeId : String) (f : ParquetFile) : Prop where
  range : f.minTime ≤ f.maxTime
  object : ∃ rows, contents f.path = some rows
  rows : ∀ p ∈ rowsAt contents f, p.node = nodeId ∧ f.minTime ≤ p.row.time ∧ p.row.time ≤ f.maxTime

theorem rowsAt_eq (hext : Node.Extends contents contents')
    (hobject : ∃ rows, contents f.path = some rows) : rowsAt contents' f = rowsAt contents f := by
  obtain ⟨rows, hrows⟩ := hobject
  rw [rowsAt, rowsAt, hext _ _ hrows, hrows]

theorem Stored.mono (h : Stored contents nodeId f) (hext : Node.Extends contents contents') :
    Stored contents' nodeId f where
  range := h.range
  object := h.object.imp fun _ hrows => hext _ _ hrows
  rows := rowsAt_eq hext h.object ▸ h.rows

theorem mem_fileChunks {c : QueryChunk} :
    c ∈ fileChunks contents files ↔ ∃ i f, files[i]? = some f ∧ c = parquetChunkFromFile contents i i f := by
  simp only [fileChunks, mem_mapIdx, List.getElem?_eq_some_iff]
  exact ⟨fun ⟨i, hi, h⟩ => ⟨i, _, ⟨hi, rfl⟩, h.symm⟩, fun ⟨i, f, ⟨hi, hf⟩, h⟩ => ⟨i, hi, hf ▸ h.symm⟩⟩

theorem Stored.covered (h : Stored contents nodeId f) (id : Nat) (chunkOrder : Int) :
    (parquetChunkFromFile contents id chunkOrder f).Covered := by
  intro range hrange
  cases hrange
  exact ⟨h.range, fun p hp => (h.rows p hp).2⟩

theorem covered_fileChunks (h : ∀ f ∈ files, Stored contents nodeId f) :
    ∀ c ∈ fileChunks contents files, c.Covered := by
  intro c hc
  obtain ⟨i, f, hf, rfl⟩ := mem_fileChunks.mp hc
  exact (h f (mem_of_getElem? hf)).covered _ _

theorem planned_compactPlan (chunks : List QueryChunk) : Planned chunks (fuseGroups (flaggedGroups chunks)) :=
  ⟨_, .refl _, rfl⟩

private theorem nodup_fileChunks (contents : Contents) (files : List ParquetFile) :
    (fileChunks contents files).Nodup := by
  refine List.Nodup.of_map QueryChunk.id ?_
  have hids : (fileChunks contents files).map QueryChunk.id = List.range files.length := by
    refine ext_getElem (by simp [fileChunks]) fun i hi hi' => ?_
    simp [fileChunks, parquetChunkFromFile]
  exact hids ▸ nodup_range

section
variable (h : ∀ f ∈ files, Stored contents nodeId f)
include h

/-- A reorganisation of files that hold each key once and share keys within windows only leaves
each key once. -/
theorem nodup_compactPlan (hkeys : ∀ f ∈ files, ((rowsAt contents f).map Point.row).Nodup)
    (hwindows : ∀ f ∈ files, ∀ g ∈ files, ShareKey (rowsAt contents f) (rowsAt contents g) →
      f.chunkTime = g.chunkTime) : ((compactPlan contents files).map Point.row).Nodup := by
  refine nodup_output (fun c hc => ⟨covered_fileChunks h c hc, fun _ => ?_⟩) (nodup_fileChunks contents files) ?_
    (planned_compactPlan _)
  · obtain ⟨i, f, hf, rfl⟩ := mem_fileChunks.mp hc
    exact hkeys f (mem_of_getElem? hf)
  · intro c hc c' hc' hshare
    obtain ⟨i, f, hf, rfl⟩ := mem_fileChunks.mp hc
    obtain ⟨j, g, hg, rfl⟩ := mem_fileChunks.mp hc'
    have hwindow := hwindows f (mem_of_getElem? hf) g (mem_of_getElem? hg) hshare
    simp [parquetChunkFromFile, hwindow]

/-- A reorganisation keeps every key. -/
theorem exists_mem_compactPlan (hf : f ∈ files) (hp : p ∈ rowsAt contents f) :
    ∃ q ∈ compactPlan contents files, q.row = p.row := by
  obtain ⟨i, hi⟩ := mem_iff_getElem?.mp hf
  exact exists_mem_plan (covered_fileChunks h) (planned_compactPlan _) (mem_fileChunks.mpr ⟨i, f, hi, rfl⟩) hp

/-- A reorganisation returns rows of the files it reads. -/
theorem exists_file_of_mem_compactPlan (hp : p ∈ compactPlan contents files) : ∃ f ∈ files, p ∈ rowsAt contents f := by
  obtain ⟨c, hc, hp⟩ := exists_chunk_of_mem_plan (covered_fileChunks h) (planned_compactPlan _) hp
  obtain ⟨i, f, hf, rfl⟩ := mem_fileChunks.mp hc
  exact ⟨f, mem_of_getElem? hf, hp⟩

end

namespace State
variable {cfg : Config} {s s' : State}

theorem stepped_of_step {a : String × NodeAction} (h : s.step cfg a = some s') :
    ∃ e, Node.Stepped cfg a.1 s.log s.contents (s.nodes a.1) a.2 e ∧ s' = s.after a.1 e := by
  obtain ⟨e, he, rfl⟩ := map_eq_some_iff.mp h
  exact ⟨e, Node.stepped_of_step he, rfl⟩

variable {n : String} {a : NodeAction} {e : Effect}

theorem extends_after (h : Node.Stepped cfg n s.log s.contents (s.nodes n) a e) :
    Node.Extends s.contents (s.after n e).contents := by
  intro path rows hrows
  have hput {object : String × List Point} (hobject : e.object = some object)
      (hfree : s.contents object.1 = none ∨ s.contents object.1 = some object.2) :
      (s.after n e).contents path = some rows := by
    simp only [after, hobject]
    by_cases heq : path = object.1
    · subst heq
      rcases hfree with hfree | hfree
      · cases hfree.symm.trans hrows
      · rw [Function.update_self, ← hfree, hrows]
    · rw [Function.update_of_ne heq, hrows]
  cases h with
  | persistChunk _ _ _ hpath => exact hput rfl (.inl hpath)
  | compact _ _ hpath => exact hput rfl hpath
  | _ => exact hrows

theorem contents_after {object : String × List Point} (h : object ∈ e.object) :
    (s.after n e).contents object.1 = some object.2 := by
  simp [after, Option.mem_def.mp h]

section
variable (h : Node.Stepped cfg n s.log s.contents (s.nodes n) a e)
include h

/-- What a step appends to the log was in a durable manifest of the node. -/
theorem delta_after {entry : FileIndexLogEntry}
    (hentry : entry ∈ (s.after n e).log) {d : FileIndexDelta} (hd : d ∈ entry.deltas) :
    entry ∈ s.log ∨ ∃ m ∈ (s.nodes n).durable, d ∈ deltasFromSnapshot m := by
  refine (mem_append.mp hentry).imp_right fun hentry => ?_
  cases h with
  | publish =>
    obtain rfl := mem_singleton.mp hentry
    obtain ⟨m, hm, -, hdm⟩ := exists_manifest_of_mem_pendingDeltas hd
    exact ⟨m, hm, hdm⟩
  | _ => cases hentry

/-- What a step publishes was in a durable manifest of the node. -/
theorem published_after {n' : String} (hf : Published (s.after n e).log n' k f) : Published s.log n' k f ∨
      ∃ m ∈ (s.nodes n).durable, m.nodeId = n' ∧ f ∈ m.addedTo k := by
  obtain ⟨entry, hentry, d, hd, hadds⟩ := hf
  rcases delta_after h hentry hd with hentry | ⟨m, hm, hdm⟩
  · exact .inl ⟨entry, hentry, d, hd, hadds⟩
  · exact .inr ⟨m, hm, mem_addedTo_of_adds hdm hadds⟩

end

def NumbersBelow (entry entry' : FileIndexLogEntry) : Prop :=
  ∀ d ∈ entry.deltas, ∀ d' ∈ entry'.deltas, d.nodeId = d'.nodeId → d.snapshotSequence < d'.snapshotSequence

structure Recorded (cfg : Config) (s : State) : Prop where
  numbered : NumberedLog s.log
  published : s.log.Pairwise NumbersBelow
  nodes : ∀ n, (s.nodes n).WellFormed cfg n s.contents
  stored : ∀ n k f, (s.nodes n).Records k f ∨ Published s.log n k f → Stored s.contents n f

theorem Recorded.empty (cfg : Config) : Recorded cfg .empty := by
  refine ⟨Numbered.nil, .nil, fun n => ⟨⟨nofun, .nil⟩, ⟨nofun, .nil⟩, nofun, nodup_nil, fun _ => rfl, nofun⟩,
    fun n k f hf => ?_⟩
  rcases hf with (⟨⟨⟩⟩ | ⟨⟨⟩, -⟩ | ⟨⟨⟩, -⟩ | ⟨⟨⟩, -, -⟩) | ⟨entry, ⟨⟩, -⟩

variable (h : Recorded cfg s)
include h

private theorem Recorded.published_step (n : String) : List.Pairwise NumbersBelow (s.log ++
    [⟨s.log.length + 1, pendingDeltas ((replay s.log).watermarks.lookup n) (s.nodes n).durable⟩]) := by
  refine pairwise_append.mpr ⟨h.published, pairwise_singleton _ _, ?_⟩
  intro entry hentry entry' hentry' d hd d' hd' hnode
  obtain rfl := mem_singleton.mp hentry'
  obtain ⟨m, hm, habove, hdm⟩ := exists_manifest_of_mem_pendingDeltas hd'
  obtain ⟨hnumber, howner⟩ := snapshotSequence_of_mem hdm
  rw [(h.nodes n).owned m (Node.mem_manifests.mpr (.inr (.inr hm)))] at howner
  have hown : d ∈ ownDeltas n s.log :=
    mem_filter.mpr ⟨mem_flatMap.mpr ⟨entry, hentry, hd⟩, by simp [hnode, howner]⟩
  obtain ⟨v, hv, hle⟩ := (isTop_watermark h.numbered).bound d hown
  rw [hv] at habove
  exact hle.trans_lt (hnumber ▸ (by simpa [above] using habove))

private theorem Recorded.stored_of_makes (hstepped : Node.Stepped cfg n s.log s.contents (s.nodes n) a e)
    (hmakes : Node.Makes cfg n s.log s.contents (s.nodes n) a k f) : Stored (s.after n e).contents n f := by
  have hput {rows : List Point} (hobject : (f.path, rows) ∈ e.object) :
      (s.after n e).contents f.path = some rows := contents_after hobject
  have hrows {rows : List Point} (hobject : (f.path, rows) ∈ e.object) : rowsAt (s.after n e).contents f = rows := by
    rw [rowsAt, hput hobject, Option.getD_some]
  cases hmakes with
  | @persist m chunk sizeBytes hm hchunk =>
    cases hstepped with | persistChunk hm' =>
    obtain rfl := some.inj (hm.symm.trans hm')
    have hvalid := (h.nodes n).frozen.valid chunk hchunk
    refine ⟨hvalid.range, ⟨_, hput rfl⟩, fun p hp => ?_⟩
    rw [hrows rfl] at hp
    obtain ⟨hnode, -, hrange⟩ := hvalid.rows p ((pwFilter_sublist _).subset hp)
    exact ⟨hnode, hrange⟩
  | @compact position coldBefore config group path sizeBytes hinputs hne =>
    cases hstepped with | compact =>
    have hstored (f : ParquetFile) (hf : f ∈ group.inputs) : Stored s.contents n f :=
      h.stored n _ f (.inr (published_of_mem_filesForTable (hinputs f hf)).of_take)
    have hrange (f : ParquetFile) (hf : f ∈ group.inputs) : group.minTime ≤ f.minTime ∧ f.maxTime ≤ group.maxTime :=
      ⟨MergeGroup.minTime_le hf, MergeGroup.le_maxTime hf⟩
    refine ⟨?_, ⟨_, hput rfl⟩, fun p hp => ?_⟩
    · obtain ⟨f, hf⟩ := exists_mem_of_ne_nil _ hne
      exact (hrange f hf).1.trans ((hstored f hf).range.trans (hrange f hf).2)
    · rw [hrows rfl] at hp
      obtain ⟨f, hf, hp⟩ := exists_file_of_mem_compactPlan hstored hp
      obtain ⟨hnode, hmin, hmax⟩ := (hstored f hf).rows p hp
      exact ⟨hnode, (hrange f hf).1.trans hmin, hmax.trans (hrange f hf).2⟩

/-- A file that is recorded or published after an action was so before, or the action made it. -/
theorem Recorded.known_of_stepped (hstepped : Node.Stepped cfg node s.log s.contents (s.nodes node) a e)
    (hf : ((s.after node e).nodes n).Records k f ∨ Published (s.after node e).log n k f) :
    ((s.nodes n).Records k f ∨ Published s.log n k f) ∨
      n = node ∧ Node.Makes cfg node s.log s.contents (s.nodes node) a k f := by
  rcases hf with hf | hf
  · by_cases hn : n = node
    · subst hn
      have hf : e.node.Records k f := by simpa [after] using hf
      exact (Node.Records.of_stepped hstepped hf).imp .inl fun h => ⟨rfl, h⟩
    · exact .inl (.inl (by simpa [after, hn] using hf))
  · rcases published_after hstepped hf with hf | ⟨m, hm, hnode, hadded⟩
    · exact .inl (.inr hf)
    · have hmem := Node.mem_manifests.mpr (.inr (.inr hm))
      obtain rfl : node = n := ((h.nodes node).owned m hmem).symm.trans hnode
      exact .inl (.inl (.manifest hmem hadded))

theorem Recorded.step (hstep : s.step cfg (node, a) = some s') : Recorded cfg s' := by
  obtain ⟨e, hstepped, rfl⟩ := stepped_of_step hstep
  have hext := extends_after hstepped
  refine ⟨?_, ?_, fun n => ?_, fun n k f hf => ?_⟩
  · cases hstepped with
    | publish => exact h.numbered.append_singleton rfl
    | _ => simpa [after] using h.numbered
  · cases hstepped with
    | publish => exact h.published_step node
    | _ => simpa [after] using h.published
  · by_cases hn : n = node
    · subst hn
      simpa [after] using (h.nodes n).stepped hstepped hext fun _ => contents_after
    · simpa [after, hn] using (h.nodes n).mono hext
  · rcases h.known_of_stepped hstepped hf with hold | ⟨rfl, hmakes⟩
    · exact (h.stored n k f hold).mono hext
    · exact h.stored_of_makes hstepped hmakes

end State
end VarveDB.Cluster
