import VarveDB.Cluster.Served

/-! When a query returns each key once: the partitions its chunks are planned in, against the
places a key can be in. -/
namespace VarveDB.Cluster
open Library Runs FileIndex Query List ClusterWriteBuffer

/-- Inputs of a merge that hold a common key are of one window. -/
def MergesWithinWindows (s : State) : String × NodeAction → Prop
  | (_, .compact _ _ _ group _ _) => ∀ f ∈ group.inputs, ∀ g ∈ group.inputs,
      ShareKey (rowsAt s.contents f) (rowsAt s.contents g) → f.chunkTime = g.chunkTime
  | _ => True

instance (s : State) (a : String × NodeAction) : Decidable (MergesWithinWindows s a) := by
  rcases a with ⟨_, _ | _⟩ <;> dsimp only [MergesWithinWindows] <;> infer_instance

structure State.KeysOnce (cfg : Config) (s : State) : Prop where
  recorded : s.Recorded cfg
  keys : ∀ n k f, (s.nodes n).Records k f ∨ Published s.log n k f → ((rowsAt s.contents f).map Point.row).Nodup

namespace State.KeysOnce
variable {cfg : Config} {s s' : State} {a : String × NodeAction}

theorem step (h : KeysOnce cfg s) (hwithin : MergesWithinWindows s a) (hstep : s.step cfg a = some s') :
    KeysOnce cfg s' := by
  refine ⟨h.recorded.step hstep, fun n k f hf => ?_⟩
  obtain ⟨node, action⟩ := a
  obtain ⟨e, hstepped, rfl⟩ := stepped_of_step hstep
  rcases h.recorded.known_of_stepped hstepped hf with hold | ⟨rfl, hmakes⟩
  · rw [rowsAt_eq (extends_after hstepped) (h.recorded.stored n k f hold).object]
    exact h.keys n k f hold
  · have hrows {rows : List Point} (hobject : (f.path, rows) ∈ e.object) : rowsAt (s.after n e).contents f = rows := by
      rw [rowsAt, contents_after hobject, Option.getD_some]
    cases hmakes with
    | persist hm =>
      cases hstepped with | persistChunk hm' =>
      obtain rfl := some.inj (hm.symm.trans hm')
      rw [hrows rfl]
      exact nodup_lastOfKey _
    | @compact position coldBefore config group path sizeBytes hinputs =>
      cases hstepped with | compact =>
      have hknown (f : ParquetFile) (hf : f ∈ group.inputs) : Published s.log n (group.dbId, group.tableId) f :=
        (published_of_mem_filesForTable (hinputs f hf)).of_take
      rw [hrows rfl]
      exact nodup_compactPlan (fun f hf => h.recorded.stored n _ f (.inr (hknown f hf)))
        (fun f hf => h.keys n _ f (.inr (hknown f hf))) hwithin

end State.KeysOnce

variable {files : List ParquetFile} {first : Nat}

section Keys
variable {cfg : Config} {x : Node} {k : TableKey} {filter : ChunkFilter} {chunks chunks' : List QueryChunk}
  {contents : Contents} {id : PartitionId} {row : Wal.Row}

def HoldsKey (chunks : List QueryChunk) (id : PartitionId) (row : Wal.Row) : Prop :=
  ∃ c ∈ chunks, c.partitionId = id ∧ ∃ p ∈ c.rows, p.row = row

theorem holdsKey_append : HoldsKey (chunks ++ chunks') id row ↔ HoldsKey chunks id row ∨ HoldsKey chunks' id row := by
  simp only [HoldsKey, mem_append, or_and_right, exists_or]

private theorem holdsKey_numberChunks : HoldsKey (numberChunks chunks) id row ↔ HoldsKey chunks id row := by
  constructor
  · rintro ⟨c, hc, hid, hp⟩
    obtain ⟨c₀, hc₀, i, rfl⟩ := exists_of_mem_numberChunks hc
    exact ⟨c₀, hc₀, hid, hp⟩
  · rintro ⟨c, hc, hid, hp⟩
    obtain ⟨i, hi⟩ := exists_mem_numberChunks hc
    exact ⟨_, hi, hid, hp⟩

/-- Chunks that share a key are of one partition exactly if no key is held in two. -/
theorem share_partition_iff : (∀ c ∈ chunks, ∀ c' ∈ chunks, c.Share c' → c.partitionId = c'.partitionId) ↔
    ∀ id id' row, HoldsKey chunks id row → HoldsKey chunks id' row → id = id' := by
  constructor
  · rintro h _ _ row ⟨c, hc, rfl, p, hp, rfl⟩ ⟨c', hc', rfl, q, hq, hrow⟩
    exact h c hc c' hc' ⟨p, hp, q, hq, hrow.symm⟩
  · rintro h c hc c' hc' ⟨p, hp, q, hq, hrow⟩
    exact h _ _ p.row ⟨c, hc, rfl, p, hp, rfl⟩ ⟨c', hc', rfl, q, hq, hrow.symm⟩

private theorem holdsKey_filesFrom : HoldsKey (filesFrom contents first files) id row ↔
    ∃ f ∈ files, id = ⟨0, .window f.chunkTime⟩ ∧ ∃ p ∈ rowsAt contents f, p.row = row := by
  constructor
  · rintro ⟨c, hc, rfl, hp⟩
    obtain ⟨i, f, hf, rfl⟩ := mem_filesFrom.mp hc
    exact ⟨f, mem_of_getElem? hf, rfl, hp⟩
  · rintro ⟨f, hf, rfl, hp⟩
    obtain ⟨i, hi⟩ := mem_iff_getElem?.mp hf
    exact ⟨_, mem_filesFrom.mpr ⟨i, f, hi, rfl⟩, rfl, hp⟩

private theorem holdsKey_tableChunksLocked {nodeId : String} (h : x.WellFormed cfg nodeId contents) :
    HoldsKey (x.tableChunksLocked cfg k filter) id row ↔ id = ⟨k.2, .window (cfg.roundDown row.time)⟩ ∧
      ∃ p ∈ x.buffered cfg k filter, p.row = row := by
  constructor
  · rintro ⟨c, hc, rfl, p, hp, rfl⟩
    refine ⟨(h.valid_tableChunksLocked hc).2 p hp, p, mem_append.mpr ?_, rfl⟩
    exact (Node.isBufferChunk_of_mem_tableChunksLocked hc).imp (fun hb => hb.subset hp) fun hb => hb.subset hp
  · rintro ⟨rfl, p, hp, rfl⟩
    obtain ⟨c, hc, hpc⟩ := mem_flatMap.mp
      (Node.mem_batches.mpr (mem_append.mp hp) : p ∈ (x.bufferBatches cfg k filter none).batches)
    exact ⟨c, hc, (h.valid_tableChunksLocked hc).2 p hpc, p, hpc, rfl⟩

private theorem holdsKey_peerBufferChunks {s : State} (h : s.Recorded cfg) {reader : Reader} :
    HoldsKey (peerBufferChunks cfg s reader k filter) id row ↔ ∃ r ∈ reader.peersRead filter, id = ⟨0, .peerBuffer r⟩ ∧
        ∃ p ∈ (s.nodes r).served cfg s.contents k filter (reader.sinceFileId r k), p.row = row := by
  constructor
  · rintro ⟨c, hc, rfl, hp⟩
    obtain ⟨node, hnode, rfl⟩ := mem_map.mp hc
    exact ⟨node.nodeId, mem_map_of_mem hnode, rfl, h.exists_mem_doGet_iff.mp hp⟩
  · rintro ⟨r, hr, rfl, hp⟩
    obtain ⟨node, hnode, rfl⟩ := mem_map.mp hr
    exact ⟨_, mem_map.mpr ⟨node, hnode, rfl⟩, rfl, h.exists_mem_doGet_iff.mpr hp⟩

end Keys

/-- A buffered key is in a file only if the table has the id that files are planned under, 0, and the file is of its
window; two files share a key only in one window. -/
structure SharedWithinWindows (cfg : Config) (contents : Contents) (k : TableKey) (buffered : List Point)
    (files : List ParquetFile) : Prop where
  buffered : ∀ f ∈ files, ∀ p ∈ rowsAt contents f, ∀ q ∈ buffered, p.row = q.row →
    k.2 = 0 ∧ f.chunkTime = cfg.roundDown p.row.time
  files : ∀ f ∈ files, ∀ g ∈ files, ShareKey (rowsAt contents f) (rowsAt contents g) → f.chunkTime = g.chunkTime

def scannedFiles (s : State) (reader : ClusterWriteBuffer.Reader) (k : TableKey) (filter : ChunkFilter) :
    List ParquetFile :=
  (s.nodes reader.nodeId).getFilesFilteredUnsorted k filter ++ reader.peerParquet k filter

structure ServedElsewhereOnly (cfg : Config) (s : State) (reader : ClusterWriteBuffer.Reader) (k : TableKey)
    (filter : ChunkFilter) : Prop where
  buffered : ∀ r ∈ reader.peersRead filter, ∀ p ∈ (s.nodes r).served cfg s.contents k filter (reader.sinceFileId r k),
    ∀ q ∈ (s.nodes reader.nodeId).buffered cfg k filter, p.row ≠ q.row
  files : ∀ r ∈ reader.peersRead filter, ∀ p ∈ (s.nodes r).served cfg s.contents k filter (reader.sinceFileId r k),
    ∀ f ∈ scannedFiles s reader k filter, ∀ q ∈ rowsAt s.contents f, p.row ≠ q.row
  peers : ∀ r ∈ reader.peersRead filter, ∀ r' ∈ reader.peersRead filter, r ≠ r' →
    ∀ p ∈ (s.nodes r).served cfg s.contents k filter (reader.sinceFileId r k),
      ∀ q ∈ (s.nodes r').served cfg s.contents k filter (reader.sinceFileId r' k), p.row ≠ q.row

instance (cfg : Config) (contents : Contents) (k : TableKey) (buffered : List Point) (files : List ParquetFile) :
    Decidable (SharedWithinWindows cfg contents k buffered files) :=
  decidable_of_iff (_ ∧ _) ⟨fun h => ⟨h.1, h.2⟩, fun h => ⟨h.buffered, h.files⟩⟩

instance (cfg : Config) (s : State) (reader : ClusterWriteBuffer.Reader) (k : TableKey) (filter : ChunkFilter) :
    Decidable (ServedElsewhereOnly cfg s reader k filter) :=
  decidable_of_iff (_ ∧ _ ∧ _) ⟨fun h => ⟨h.1, h.2.1, h.2.2⟩, fun h => ⟨h.buffered, h.files, h.peers⟩⟩

private theorem nodup_numberChunks (chunks : List QueryChunk) : (numberChunks chunks).Nodup := by
  refine List.Nodup.of_map QueryChunk.id ?_
  have hids : (numberChunks chunks).map QueryChunk.id = List.range chunks.length :=
    ext_getElem (by simp [numberChunks]) fun i hi hi' => by simp [numberChunks]
  exact hids ▸ nodup_range

namespace State.KeysOnce
variable {cfg : Config} {s : State} {n : String} {k : TableKey} {filter : ChunkFilter} {c : QueryChunk}

section
variable (h : s.KeysOnce cfg)
include h

private theorem sound_files (hfiles : ∀ f ∈ files, ∃ n, (s.nodes n).Records k f ∨ Published s.log n k f)
    (hc : c ∈ filesFrom s.contents first files) : c.Sound := by
  obtain ⟨i, f, hf, rfl⟩ := mem_filesFrom.mp hc
  obtain ⟨n, hknown⟩ := hfiles f (mem_of_getElem? hf)
  exact ⟨(h.recorded.stored n k f hknown).covered _ _, fun _ => h.keys n k f hknown⟩

private theorem sound_localChunks (hc : c ∈ WriteBufferImpl.localChunks cfg s.contents (s.nodes n) k filter) :
    c.Sound := by
  rcases mem_append.mp hc with hc | hc
  · refine ⟨((h.recorded.nodes n).valid_tableChunksLocked hc).1, fun hno => ?_⟩
    rcases Node.isBufferChunk_of_mem_tableChunksLocked hc with hb | hb <;> exact absurd hno (by simp [hb.duplicates])
  · exact h.sound_files (fun f hf => ⟨n, .inl (.listed (Node.mem_parquetFiles.mp hf).1)⟩) hc

private theorem sound_allChunks {reader : Reader} {position : Nat}
    (hindex : reader.fileIndex = replay (s.log.take position))
    (hc : c ∈ allChunks cfg s reader k filter) : c.Sound := by
  rcases mem_append.mp hc with hc | hc
  · rcases mem_append.mp hc with hc | hc
    · exact h.sound_localChunks hc
    · obtain ⟨node, -, rfl⟩ := mem_map.mp hc
      exact ⟨nofun, nofun⟩
  · refine h.sound_files (k := k) (fun f hf => ?_) hc
    obtain ⟨entries, hfiles, -, hentries⟩ :=
      reader.fileIndex.exists_entries_getFilesFiltered k.1 k.2 filter (some reader.nodeId)
    rw [Reader.peerParquet, hfiles] at hf
    obtain ⟨e, he, rfl⟩ := mem_map.mp hf
    obtain ⟨hmem, -, htable⟩ := hentries e he
    obtain ⟨entry, hentry, -, d, hd, hadds⟩ := adds_of_mem_replay_take (hindex ▸ hmem)
    exact ⟨e.nodeId, .inr ⟨entry, hentry, d, hd, (show (e.dbId, e.tableId) = k from htable) ▸ hadds⟩⟩

private theorem holdsKey_localChunks {id : PartitionId} {row : Wal.Row} :
    HoldsKey (WriteBufferImpl.localChunks cfg s.contents (s.nodes n) k filter) id row ↔
      (id = ⟨k.2, .window (cfg.roundDown row.time)⟩ ∧ ∃ p ∈ (s.nodes n).buffered cfg k filter, p.row = row) ∨
      ∃ f ∈ (s.nodes n).getFilesFilteredUnsorted k filter, id = ⟨0, .window f.chunkTime⟩ ∧
        ∃ p ∈ rowsAt s.contents f, p.row = row := by
  rw [WriteBufferImpl.localChunks, holdsKey_append, holdsKey_tableChunksLocked (h.recorded.nodes n), holdsKey_filesFrom]
  simp only [Node.parquetFiles, Node.sortByMinTimeDesc, mem_insertionSort]

end

/-- Chunks of files and buffers share keys within partitions exactly if the rows are where they
can be planned together. -/
theorem unique_iff {buffered : List Point} {Holds : PartitionId → Wal.Row → Prop}
    (hholds : ∀ id row, Holds id row ↔ (id = ⟨k.2, .window (cfg.roundDown row.time)⟩ ∧ ∃ p ∈ buffered, p.row = row) ∨
      ∃ f ∈ files, id = ⟨0, .window f.chunkTime⟩ ∧ ∃ p ∈ rowsAt s.contents f, p.row = row) :
    (∀ id id' row, Holds id row → Holds id' row → id = id') ↔ SharedWithinWindows cfg s.contents k buffered files := by
  simp only [hholds]
  constructor
  · intro hunique
    refine ⟨fun f hf p hp q hq hrow => ?_, fun f hf g hg ⟨p, hp, q, hq, hrow⟩ => ?_⟩
    · have heq := hunique _ _ p.row (.inl ⟨rfl, q, hq, hrow.symm⟩) (.inr ⟨f, hf, rfl, p, hp, rfl⟩)
      simp only [PartitionId.mk.injEq, PartitionKey.window.injEq] at heq
      exact ⟨heq.1, heq.2.symm⟩
    · have heq := hunique _ _ p.row (.inr ⟨f, hf, rfl, p, hp, rfl⟩) (.inr ⟨g, hg, rfl, q, hq, hrow.symm⟩)
      simpa using heq
  · rintro ⟨hbuffered, hfiles⟩ id id' row (⟨rfl, p, hp, rfl⟩ | ⟨f, hf, rfl, p, hp, rfl⟩)
      (⟨rfl, q, hq, hrow⟩ | ⟨g, hg, rfl, q, hq, hrow⟩)
    · rfl
    · obtain ⟨htable, hwindow⟩ := hbuffered g hg q hq p hp hrow
      rw [htable, hwindow, hrow]
    · obtain ⟨htable, hwindow⟩ := hbuffered f hf p hp q hq hrow.symm
      rw [htable, hwindow]
    · rw [hfiles f hf g hg ⟨p, hp, q, hq, hrow.symm⟩]

section Reader
variable {reader : Reader} {id id' : PartitionId} {row : Wal.Row}

private def HoldsHere (cfg : Config) (s : State) (reader : ClusterWriteBuffer.Reader) (k : TableKey)
    (filter : ChunkFilter) (id : PartitionId) (row : Wal.Row) : Prop :=
  (id = ⟨k.2, .window (cfg.roundDown row.time)⟩ ∧ ∃ p ∈ (s.nodes reader.nodeId).buffered cfg k filter, p.row = row) ∨
  ∃ f ∈ scannedFiles s reader k filter, id = ⟨0, .window f.chunkTime⟩ ∧ ∃ p ∈ rowsAt s.contents f, p.row = row

private def HoldsThere (cfg : Config) (s : State) (reader : ClusterWriteBuffer.Reader) (k : TableKey)
    (filter : ChunkFilter) (r : String) (row : Wal.Row) : Prop :=
  r ∈ reader.peersRead filter ∧ ∃ p ∈ (s.nodes r).served cfg s.contents k filter (reader.sinceFileId r k), p.row = row

private theorem holdsKey_allChunks (h : s.KeysOnce cfg) : HoldsKey (allChunks cfg s reader k filter) id row ↔
    HoldsHere cfg s reader k filter id row ∨ ∃ r, id = ⟨0, .peerBuffer r⟩ ∧ HoldsThere cfg s reader k filter r row := by
  rw [allChunks, bufferedAndLocal, holdsKey_append, holdsKey_append,
    h.holdsKey_localChunks, holdsKey_peerBufferChunks h.recorded, holdsKey_filesFrom]
  have hscanned (P : ParquetFile → Prop) : (∃ f ∈ scannedFiles s reader k filter, P f) ↔
      (∃ f ∈ (s.nodes reader.nodeId).getFilesFilteredUnsorted k filter, P f) ∨ ∃ f ∈ reader.peerParquet k filter,
        P f := by
    simp only [scannedFiles, mem_append, or_and_right, exists_or]
  have hserved : (∃ r ∈ reader.peersRead filter, id = ⟨0, .peerBuffer r⟩ ∧
        ∃ p ∈ (s.nodes r).served cfg s.contents k filter (reader.sinceFileId r k), p.row = row) ↔
      ∃ r, id = ⟨0, .peerBuffer r⟩ ∧ HoldsThere cfg s reader k filter r row :=
    exists_congr fun r => and_left_comm
  rw [HoldsHere, hscanned, hserved]
  exact or_right_comm.trans (or_congr_left or_assoc)

private theorem served_unique_iff {Here : PartitionId → Wal.Row → Prop} {There : String → Wal.Row → Prop}
    (hkey : ∀ id row r, Here id row → id ≠ ⟨0, .peerBuffer r⟩) :
    (∀ id id' row, (Here id row ∨ ∃ r, id = ⟨0, .peerBuffer r⟩ ∧ There r row) →
      (Here id' row ∨ ∃ r, id' = ⟨0, .peerBuffer r⟩ ∧ There r row) → id = id') ↔
    (∀ id id' row, Here id row → Here id' row → id = id') ∧ (∀ id row, Here id row → ∀ r, ¬There r row) ∧
      ∀ r r' row, There r row → There r' row → r = r' := by
  constructor
  · intro hunique
    refine ⟨fun id id' row hid hid' => hunique id id' row (.inl hid) (.inl hid'), fun id row hid r hr => ?_,
      fun r r' row hr hr' => ?_⟩
    · exact hkey id row r hid (hunique _ _ row (.inl hid) (.inr ⟨r, rfl, hr⟩))
    · simpa using hunique _ _ row (.inr ⟨r, rfl, hr⟩) (.inr ⟨r', rfl, hr'⟩)
  · rintro ⟨hhere, hcross, hthere⟩ id id' row (hid | ⟨r, rfl, hr⟩) (hid' | ⟨r', rfl, hr'⟩)
    · exact hhere id id' row hid hid'
    · exact absurd hr' (hcross id row hid r')
    · exact absurd hr (hcross id' row hid' r)
    · rw [hthere r r' row hr hr']

private theorem servedElsewhereOnly_iff : ServedElsewhereOnly cfg s reader k filter ↔
    (∀ id row, HoldsHere cfg s reader k filter id row → ∀ r, ¬HoldsThere cfg s reader k filter r row) ∧
      ∀ r r' row, HoldsThere cfg s reader k filter r row → HoldsThere cfg s reader k filter r' row → r = r' := by
  constructor
  · rintro ⟨hbuffered, hfiles, hpeers⟩
    refine ⟨?_, ?_⟩
    · rintro id row (⟨-, q, hq, rfl⟩ | ⟨f, hf, -, q, hq, rfl⟩) r ⟨hreads, p, hp, hrow⟩
      · exact hbuffered r hreads p hp q hq hrow
      · exact hfiles r hreads p hp f hf q hq hrow
    · rintro r r' row ⟨hreads, p, hp, rfl⟩ ⟨hreads', q, hq, hrow⟩
      by_contra hne
      exact hpeers r hreads r' hreads' hne p hp q hq hrow.symm
  · rintro ⟨hcross, hthere⟩
    refine ⟨fun r hreads p hp q hq hrow => ?_, fun r hreads p hp f hf q hq hrow => ?_,
      fun r hreads r' hreads' hne p hp q hq hrow => ?_⟩
    · exact hcross _ q.row (.inl ⟨rfl, q, hq, rfl⟩) r ⟨hreads, p, hp, hrow⟩
    · exact hcross _ q.row (.inr ⟨f, hf, rfl, q, hq, rfl⟩) r ⟨hreads, p, hp, hrow⟩
    · exact hne (hthere r r' p.row ⟨hreads, p, hp, rfl⟩ ⟨hreads', q, hq, hrow.symm⟩)

end Reader
end State.KeysOnce

section
variable {cfg : Config} {as : List (String × NodeAction)} {s : State}

/-- In a run whose merges share keys within windows only, the plan of a query returns each key once exactly if a key
is where its chunks are of one partition. -/
theorem one_row_per_key_iff (hrun : run (State.step cfg) .empty as = some s)
    (hwithin : Guarded (State.step cfg) MergesWithinWindows .empty as) (k : TableKey) (filter : ChunkFilter) :
    (∀ n queryFileLimit own,
      WriteBufferImpl.getTableChunks cfg s.contents queryFileLimit (s.nodes n) k filter = .ok own →
      (Deduplicated own ↔ SharedWithinWindows cfg s.contents k ((s.nodes n).buffered cfg k filter)
        ((s.nodes n).getFilesFilteredUnsorted k filter))) ∧
    ∀ (reader : ClusterWriteBuffer.Reader) position chunks, reader.fileIndex = replay (s.log.take position) →
      ClusterWriteBuffer.getTableChunks cfg s reader k filter = .ok chunks →
      (Deduplicated chunks ↔ SharedWithinWindows cfg s.contents k ((s.nodes reader.nodeId).buffered cfg k filter)
        (scannedFiles s reader k filter) ∧ ServedElsewhereOnly cfg s reader k filter) := by
  have h : s.KeysOnce cfg := invariant State.KeysOnce.step
    (by exact ⟨.empty cfg, fun _ _ _ _ => nodup_nil⟩) hwithin hrun
  have hsound {chunks : List QueryChunk} (hall : ∀ c ∈ chunks, c.Sound) : ∀ c ∈ numberChunks chunks, c.Sound := by
    intro c hc
    obtain ⟨c₀, hc₀, i, rfl⟩ := exists_of_mem_numberChunks hc
    exact ⟨(hall c₀ hc₀).covers, (hall c₀ hc₀).nodup⟩
  constructor
  · intro n limit own hown
    obtain rfl := WriteBufferImpl.getTableChunks_eq_ok hown
    rw [deduplicated_iff (hsound fun c hc => h.sound_localChunks hc) (nodup_numberChunks _), share_partition_iff]
    simp only [holdsKey_numberChunks]
    exact State.KeysOnce.unique_iff fun id row => h.holdsKey_localChunks
  · intro reader position chunks hindex hchunks
    obtain rfl := ClusterWriteBuffer.getTableChunks_eq_ok hchunks
    rw [deduplicated_iff (hsound fun c hc => h.sound_allChunks hindex hc) (nodup_numberChunks _), share_partition_iff]
    simp only [holdsKey_numberChunks, h.holdsKey_allChunks]
    rw [State.KeysOnce.servedElsewhereOnly_iff]
    refine (State.KeysOnce.served_unique_iff ?_).trans
      (and_congr_left fun _ => State.KeysOnce.unique_iff fun _ _ => Iff.rfl)
    rintro id row r (⟨rfl, -⟩ | ⟨f, -, rfl, -⟩) <;> simp

private def overwrittenTwice : List (String × NodeAction) :=
  samplePersist (0, 0) 0 [5] (5, 5) ++ [sampleWrite "a" (0, 0) [5] false, sampleWrite "b" (0, 0) [25] false]

private def readerA (s : State) : ClusterWriteBuffer.Reader := { sampleReader s 1 with nodeId := "a" }

theorem one_row_per_key_of_table_zero : ∃ s own chunks, run (State.step sampleConfig) .empty overwrittenTwice = some s ∧
    WriteBufferImpl.getTableChunks sampleConfig s.contents 100 (s.nodes "a") (0, 0) ⟨none, none⟩ = .ok own ∧
    ClusterWriteBuffer.getTableChunks sampleConfig s (readerA s) (0, 0) ⟨none, none⟩ = .ok chunks ∧
    (own.length, chunks.length) = (2, 3) ∧ Deduplicated own ∧ Deduplicated chunks := by
  obtain ⟨s, hrun, own, hown, chunks, hchunks, hlen, hshared, hshared', hserved⟩ :
      ∃ s, run (State.step sampleConfig) .empty overwrittenTwice = some s ∧
        ∃ own, WriteBufferImpl.getTableChunks sampleConfig s.contents 100 (s.nodes "a") (0, 0) ⟨none, none⟩ = .ok own ∧
        ∃ chunks, ClusterWriteBuffer.getTableChunks sampleConfig s (readerA s) (0, 0) ⟨none, none⟩ = .ok chunks ∧
          (own.length, chunks.length) = (2, 3) ∧
          SharedWithinWindows sampleConfig s.contents (0, 0) ((s.nodes "a").buffered sampleConfig (0, 0) ⟨none, none⟩)
            ((s.nodes "a").getFilesFilteredUnsorted (0, 0) ⟨none, none⟩) ∧
          SharedWithinWindows sampleConfig s.contents (0, 0) ((s.nodes "a").buffered sampleConfig (0, 0) ⟨none, none⟩)
            (scannedFiles s (readerA s) (0, 0) ⟨none, none⟩) ∧
          ServedElsewhereOnly sampleConfig s (readerA s) (0, 0) ⟨none, none⟩ := by decide
  obtain ⟨hnode, hreader⟩ := one_row_per_key_iff hrun (by decide) (0, 0) ⟨none, none⟩
  exact ⟨s, own, chunks, hrun, hown, hchunks, hlen, (hnode "a" 100 own hown).mpr hshared,
    (hreader (readerA s) 1 chunks rfl hchunks).mpr ⟨hshared', hserved⟩⟩

private def overwrittenLive : List (String × NodeAction) :=
  samplePersist (0, 1) 0 [5] (5, 5) ++ [sampleWrite "a" (0, 1) [5] false]

/-- The live row and the file's are planned under different table ids, so a query of the node
returns the key twice; a reader plans the peer's rows in a partition of their own. -/
theorem not_one_row_per_key : ∃ s own chunks, run (State.step sampleConfig) .empty overwrittenLive = some s ∧
    WriteBufferImpl.getTableChunks sampleConfig s.contents 100 (s.nodes "a") (0, 1) ⟨none, none⟩ = .ok own ∧
    ClusterWriteBuffer.getTableChunks sampleConfig s (sampleReader s 1) (0, 1) ⟨none, none⟩ = .ok chunks ∧
    ¬Deduplicated own ∧ ¬Deduplicated chunks := by
  obtain ⟨s, hrun, own, hown, chunks, hchunks, hdup, hdup'⟩ :
      ∃ s, run (State.step sampleConfig) .empty overwrittenLive = some s ∧
        ∃ own, WriteBufferImpl.getTableChunks sampleConfig s.contents 100 (s.nodes "a") (0, 1) ⟨none, none⟩ = .ok own ∧
        ∃ chunks, ClusterWriteBuffer.getTableChunks sampleConfig s (sampleReader s 1) (0, 1) ⟨none, none⟩ = .ok chunks ∧
          ¬(((fuseGroups (flaggedGroups own)).flatMap GroupWithDedupFlag.output).map Point.row).Nodup ∧
          ¬(((fuseGroups (flaggedGroups chunks)).flatMap GroupWithDedupFlag.output).map Point.row).Nodup := by decide
  exact ⟨s, own, chunks, hrun, hown, hchunks, fun h => hdup (h.nodup _ (planned_compactPlan _)),
    fun h => hdup' (h.nodup _ (planned_compactPlan _))⟩

end
end VarveDB.Cluster
