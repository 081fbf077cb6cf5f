import VarveDB.Cluster.Buffer

/-! The chunks a query plans with: buffers and Parquet files, of the node and of its peers. -/
namespace VarveDB.Cluster
open Library FileIndex Query List

structure Batch where
  chunkTime : Int
  timestampMinMax : Int × Int
  rows : List Point

variable {since : Option Nat} {f : ParquetFile} {chunkOrder : Int}

namespace Node

variable (cfg : Config) (x : Node) (table : TableKey) (filter : ChunkFilter) (contents : Contents)

def snapshottingBatches : List Batch :=
  (x.snapshotting.filter fun c => c.table = table ∧
    filter.testTimeStampMinMax c.timestampMinMax.1 c.timestampMinMax.2).map
    fun c => ⟨c.chunkTime, c.timestampMinMax, c.rows⟩

/-- The batches of the mutable chunks. Their time ranges cover superseded rows, too. -/
def liveBatches : List Batch :=
  (((chunkKeys cfg x.live).filter fun k => k.1 = table).map fun k =>
    let rows := chunkRows cfg x.live k
    (⟨k.2.1, timestampMinMax (rows.map BufferedRow.point), batchRows rows⟩ : Batch)).filter
      fun b => filter.testTimeStampMinMax b.timestampMinMax.1 b.timestampMinMax.2

def unionRange (r r' : Int × Int) : Int × Int := (min r.1 r'.1, max r.2 r'.2)

def bufferChunk (chunkTime chunkOrder : Int) : List Batch → Option QueryChunk
  | [] => none
  | b :: bs => some ⟨0, ⟨table.2, .window chunkTime⟩,
      some (bs.foldl (fun range b => unionRange range b.timestampMinMax) b.timestampMinMax), true, chunkOrder,
      (b :: bs).flatMap Batch.rows⟩

def tableChunksLocked : List QueryChunk :=
  let frozen := x.snapshottingBatches table filter
  let live := x.liveBatches cfg table filter
  ((frozen ++ live).map Batch.chunkTime).dedup.flatMap fun t =>
    (bufferChunk table t (Wal.i64Max - 1) (frozen.filter fun b => b.chunkTime = t)).toList ++
      (bufferChunk table t Wal.i64Max (live.filter fun b => b.chunkTime = t)).toList

def frozenRows : List Point :=
  (x.snapshottingBatches table filter).flatMap Batch.rows

def liveRows : List Point :=
  (x.liveBatches cfg table filter).flatMap Batch.rows

def sortByMinTimeDesc (files : List ParquetFile) : List ParquetFile :=
  files.insertionSort fun a b => b.minTime ≤ a.minTime

def getFilesFilteredUnsorted : List ParquetFile :=
  (x.persistedFiles.files table).filter fun f => filter.testTimeStampMinMax f.minTime f.maxTime

def parquetFiles : List ParquetFile :=
  sortByMinTimeDesc (x.getFilesFilteredUnsorted table filter)

theorem mem_parquetFiles {x : Node} {table : TableKey} {filter : ChunkFilter} : f ∈ x.parquetFiles table filter ↔
      f ∈ x.persistedFiles.files table ∧ filter.testTimeStampMinMax f.minTime f.maxTime = true := by
  simp [parquetFiles, sortByMinTimeDesc, getFilesFilteredUnsorted, mem_insertionSort]

structure BufferAnswer where
  batches : List Point
  unseen : List ParquetFile

def bufferBatches (sinceFileId : Option Nat) : BufferAnswer where
  batches := (x.tableChunksLocked cfg table filter).flatMap QueryChunk.rows
  unseen := match sinceFileId with
    | some since => (x.parquetFiles table filter).filter fun f => since < f.id
    | none => x.parquetFiles table filter

def Unseen (since : Option Nat) (f : ParquetFile) : Prop :=
  filter.testTimeStampMinMax f.minTime f.maxTime = true ∧ ∀ i ∈ since, i < f.id

instance (filter : ChunkFilter) (since : Option Nat) : DecidablePred (Unseen filter since) :=
  fun _ => inferInstanceAs (Decidable (_ ∧ _))

theorem mem_unseen {cfg : Config} {x : Node} {table : TableKey} {filter : ChunkFilter} :
    f ∈ (x.bufferBatches cfg table filter since).unseen ↔ f ∈ x.persistedFiles.files table ∧ Unseen filter since f := by
  cases since <;> simp [bufferBatches, Unseen, mem_parquetFiles, and_assoc]

def buffered : List Point :=
  x.frozenRows table filter ++ x.liveRows cfg table filter

def served (x : Node) (table : TableKey) (filter : ChunkFilter) (since : Option Nat) : List Point :=
  x.buffered cfg table filter ++ ((x.persistedFiles.files table).filter (Unseen filter since)).flatMap (rowsAt contents)

theorem mem_served {cfg : Config} {contents : Contents} {x : Node} {table : TableKey} {filter : ChunkFilter}
    {p : Point} :
    p ∈ x.served cfg contents table filter since ↔ (p ∈ x.frozenRows table filter ∨ p ∈ x.liveRows cfg table filter) ∨
        ∃ f ∈ x.persistedFiles.files table, Unseen filter since f ∧ p ∈ rowsAt contents f := by
  simp [served, buffered, and_assoc, or_assoc]

def doGet (x : Node) (table : TableKey) (filter : ChunkFilter) (sinceFileId : Option Nat) : List Point :=
  let answer := x.bufferBatches cfg table filter sinceFileId
  answer.batches ++ compactPlan contents answer.unseen

end Node

/-- Chunk ids are random in the source; here they are the positions. -/
def numberChunks (chunks : List QueryChunk) : List QueryChunk := chunks.mapIdx fun i c => { c with id := i }

def filesFrom (contents : Contents) (first : Nat) (files : List ParquetFile) : List QueryChunk :=
  files.mapIdx fun i f => parquetChunkFromFile contents 0 ((first + i : Nat) : Int) f

section
variable {contents : Contents} {chunks : List QueryChunk} {c : QueryChunk}

theorem mem_filesFrom {files : List ParquetFile} {first : Nat} : c ∈ filesFrom contents first files ↔
    ∃ i f, files[i]? = some f ∧ c = parquetChunkFromFile contents 0 ((first + i : Nat) : Int) f := by
  simp only [filesFrom, mem_mapIdx, List.getElem?_eq_some_iff]
  exact ⟨fun ⟨i, hi, h⟩ => ⟨i, _, ⟨hi, rfl⟩, h.symm⟩, fun ⟨i, f, ⟨hi, hf⟩, h⟩ => ⟨i, hi, hf ▸ h.symm⟩⟩

/-- Numbering the chunks changes nothing else. -/
theorem exists_of_mem_numberChunks (hc : c ∈ numberChunks chunks) : ∃ c₀ ∈ chunks, ∃ i, c = { c₀ with id := i } := by
  obtain ⟨i, hi, rfl⟩ := mem_mapIdx.mp hc
  exact ⟨_, getElem_mem hi, i, rfl⟩

theorem exists_mem_numberChunks {c₀ : QueryChunk} (hc₀ : c₀ ∈ chunks) :
    ∃ i, { c₀ with id := i } ∈ numberChunks chunks := by
  obtain ⟨i, hi, rfl⟩ := getElem_of_mem hc₀
  exact ⟨i, mem_mapIdx.mpr ⟨i, hi, rfl⟩⟩

end

namespace WriteBufferImpl

/-- The message names the limit, not the number of files. -/
def fileLimitError (queryFileLimit : Nat) : String :=
  "Query would scan " ++ toString queryFileLimit ++ " Parquet files, exceeding the file limit. " ++
  "InfluxDB 3 Core caps file access to prevent performance degradation and memory issues. " ++
  "Use a narrower time range, or increase the limit with --query-file-limit " ++
  "(this may cause slower queries or instability).\n\n" ++
  "To remove this limitation, upgrade to InfluxDB 3 Enterprise, which automatically compacts files " ++
  "for efficient querying across any time range. Free for non-commercial and home use, " ++
  "and free trials for commercial evaluation: https://www.influxdata.com/downloads"

def localChunks (cfg : Config) (contents : Contents) (x : Node) (table : TableKey) (filter : ChunkFilter) :
    List QueryChunk :=
  let chunks := x.tableChunksLocked cfg table filter
  chunks ++ filesFrom contents chunks.length (x.parquetFiles table filter)

def getTableChunks (cfg : Config) (contents : Contents) (queryFileLimit : Nat) (x : Node) (table : TableKey)
    (filter : ChunkFilter) : Except String (List QueryChunk) :=
  if (x.parquetFiles table filter).length > queryFileLimit then .error (fileLimitError queryFileLimit)
  else .ok (numberChunks (localChunks cfg contents x table filter))

theorem getTableChunks_eq_ok {cfg : Config} {contents : Contents} {queryFileLimit : Nat} {x : Node} {table : TableKey}
    {filter : ChunkFilter} {chunks : List QueryChunk}
    (h : getTableChunks cfg contents queryFileLimit x table filter = .ok chunks) :
    chunks = numberChunks (localChunks cfg contents x table filter) := by
  rw [getTableChunks] at h
  split at h
  · cases h
  · exact (Except.ok.inj h).symm

end WriteBufferImpl

inductive NodeMode where
  | core | query | ingest | compact | process | all
  deriving DecidableEq

structure NodeDefinition where
  nodeId : String
  modes : List NodeMode
  connInfo : Option String

def NodeDefinition.ingests (node : NodeDefinition) : Bool :=
  node.modes.any fun m => m = .all || m = .ingest || m = .core

namespace ClusterWriteBuffer

def peerBufferChunkOrder : Int := Wal.i64Max - 1

structure Reader where
  nodeId : String
  nodes : List NodeDefinition
  queryFileLimit : Nat
  fileIndex : FileIndex

def predatesWatermark (fileIndex : FileIndex) (peerId : String) (filter : ChunkFilter) : Bool :=
  match filter.timeUpperBoundNs, fileIndex.persistedMaxTime peerId with
  | some upper, some watermark => upper ≤ watermark
  | _, _ => false

variable (cfg : Config) (s : State) (reader : Reader) (table : TableKey) (filter : ChunkFilter) (peerId : String)

def Reader.asks (node : NodeDefinition) (filter : ChunkFilter) : Bool :=
  node.nodeId ≠ reader.nodeId && node.ingests && node.connInfo.isSome &&
    !predatesWatermark reader.fileIndex node.nodeId filter

def Reader.sinceFileId (table : TableKey) : Option Nat :=
  reader.fileIndex.maxFileId peerId table.1 table.2

def Reader.peersRead : List String :=
  (reader.nodes.filter fun node => reader.asks node filter).map NodeDefinition.nodeId

def peerBufferChunk : QueryChunk :=
  ⟨0, ⟨0, .peerBuffer peerId⟩, none, true, peerBufferChunkOrder,
    (s.nodes peerId).doGet cfg s.contents table filter (reader.sinceFileId peerId table)⟩

def peerBufferChunks : List QueryChunk :=
  (reader.nodes.filter fun node => reader.asks node filter).map fun node =>
    peerBufferChunk cfg s reader table filter node.nodeId

def fileLimitError (totalFiles queryFileLimit : Nat) : String :=
  "Query would scan " ++ toString totalFiles ++ " Parquet files across the cluster, exceeding the file limit of " ++
  toString queryFileLimit ++ ". Use a narrower time range, or increase the limit with --query-file-limit."

def Reader.peerParquet : List ParquetFile :=
  reader.fileIndex.getFilesFiltered table.1 table.2 filter (some reader.nodeId)

def bufferedAndLocal : List QueryChunk :=
  WriteBufferImpl.localChunks cfg s.contents (s.nodes reader.nodeId) table filter ++
    peerBufferChunks cfg s reader table filter

def getTableChunks : Except String (List QueryChunk) := do
  let _ ← WriteBufferImpl.getTableChunks cfg s.contents reader.queryFileLimit (s.nodes reader.nodeId) table filter
  let chunks := bufferedAndLocal cfg s reader table filter
  let peerParquet := reader.peerParquet table filter
  if peerParquet.isEmpty then .ok (numberChunks chunks)
  else if chunks.length + peerParquet.length > reader.queryFileLimit then
    .error (fileLimitError (chunks.length + peerParquet.length) reader.queryFileLimit)
  else .ok (numberChunks (chunks ++ filesFrom s.contents chunks.length peerParquet))

def allChunks : List QueryChunk :=
  bufferedAndLocal cfg s reader table filter ++
    filesFrom s.contents (bufferedAndLocal cfg s reader table filter).length (reader.peerParquet table filter)

theorem getTableChunks_eq_ok {cfg : Config} {s : State} {reader : Reader} {table : TableKey} {filter : ChunkFilter}
    {chunks : List QueryChunk} (h : getTableChunks cfg s reader table filter = .ok chunks) :
    chunks = numberChunks (allChunks cfg s reader table filter) := by
  simp only [getTableChunks, bind, Except.bind] at h
  split at h
  · cases h
  · split at h
    · rename_i hnone
      rw [allChunks, isEmpty_iff.mp hnone, filesFrom, mapIdx_nil, append_nil]
      exact (Except.ok.inj h).symm
    · split at h
      · cases h
      · exact (Except.ok.inj h).symm

end ClusterWriteBuffer

namespace Node
variable {cfg : Config} {x : Node} {table : TableKey} {filter : ChunkFilter} {p : Point} {batches : List Batch}
  {c : QueryChunk}

theorem mem_frozenRows : p ∈ x.frozenRows table filter ↔ ∃ c ∈ x.snapshotting, c.table = table ∧
    filter.testTimeStampMinMax c.timestampMinMax.1 c.timestampMinMax.2 = true ∧ p ∈ c.rows := by
  simp [frozenRows, snapshottingBatches, and_assoc]

theorem exists_live_of_mem_liveRows (hp : p ∈ x.liveRows cfg table filter) :
    ∃ b ∈ x.live, b.table = table ∧ b.superseded = false ∧ b.point = p := by
  obtain ⟨batch, hbatch, hp⟩ := mem_flatMap.mp hp
  obtain ⟨k, hk, rfl⟩ := mem_map.mp (mem_of_mem_filter hbatch)
  obtain ⟨b, hchunk, hkept, rfl⟩ := mem_batchRows.mp hp
  obtain ⟨hb, rfl⟩ := mem_chunkRows.mp hchunk
  exact ⟨b, hb, of_decide_eq_true (mem_filter.mp hk).2, hkept, rfl⟩

private theorem foldl_unionRange_covers (bs : List Batch) (r : Int × Int) :
    let r' := bs.foldl (fun range b => unionRange range b.timestampMinMax) r
    (r'.1 ≤ r.1 ∧ r.2 ≤ r'.2) ∧ ∀ b ∈ bs, r'.1 ≤ b.timestampMinMax.1 ∧ b.timestampMinMax.2 ≤ r'.2 := by
  induction bs generalizing r with
  | nil => simp
  | cons b bs ih =>
    obtain ⟨⟨hmin, hmax⟩, hbs⟩ := ih (unionRange r b.timestampMinMax)
    refine ⟨⟨hmin.trans (min_le_left _ _), (le_max_left _ _).trans hmax⟩, fun b' hb' => ?_⟩
    rcases mem_cons.mp hb' with rfl | hb'
    · exact ⟨hmin.trans (min_le_right _ _), (le_max_right _ _).trans hmax⟩
    · exact hbs b' hb'

structure IsBufferChunk (table : TableKey) (batches : List Batch) (chunkOrder : Int) (c : QueryChunk) : Prop where
  order : c.chunkOrder = chunkOrder
  duplicates : c.mayContainPkDuplicates = true
  window : ∃ t range, c.partitionId = ⟨table.2, .window t⟩ ∧ c.timestampMinMax = some range ∧
    (∃ b ∈ batches, b.chunkTime = t) ∧
    (∀ b ∈ batches, b.chunkTime = t → range.1 ≤ b.timestampMinMax.1 ∧ b.timestampMinMax.2 ≤ range.2) ∧
    ∀ p, p ∈ c.rows ↔ ∃ b ∈ batches, b.chunkTime = t ∧ p ∈ b.rows

theorem isBufferChunk_of_mem {t : Int}
    (hc : bufferChunk table t chunkOrder (batches.filter fun b => b.chunkTime = t) = some c) :
    IsBufferChunk table batches chunkOrder c := by
  cases hbatches : batches.filter fun b => b.chunkTime = t with
  | nil => simp [hbatches, bufferChunk] at hc
  | cons b bs =>
    have hmem (b' : Batch) : b' ∈ b :: bs ↔ b' ∈ batches ∧ b'.chunkTime = t := by rw [← hbatches]; simp
    rw [hbatches, bufferChunk] at hc
    cases hc
    obtain ⟨⟨hmin, hmax⟩, hbs⟩ := foldl_unionRange_covers bs b.timestampMinMax
    refine ⟨rfl, rfl, t, _, rfl, rfl, ⟨b, (hmem b).mp mem_cons_self⟩, fun b' hb' ht => ?_, fun p => ?_⟩
    · rcases mem_cons.mp ((hmem b').mpr ⟨hb', ht⟩) with rfl | hb'
      · exact ⟨hmin, hmax⟩
      · exact hbs b' hb'
    · simp only [mem_flatMap, hmem, and_assoc]

private theorem exists_bufferChunk (table : TableKey) (chunkOrder : Int) {b : Batch} (hb : b ∈ batches) :
    ∃ c, bufferChunk table b.chunkTime chunkOrder (batches.filter fun b' => b'.chunkTime = b.chunkTime) = some c ∧
      b.rows ⊆ c.rows := by
  have hmem : b ∈ batches.filter fun b' => b'.chunkTime = b.chunkTime := by simp [hb]
  cases hbatches : batches.filter fun b' => b'.chunkTime = b.chunkTime with
  | nil => simp [hbatches] at hmem
  | cons b' bs => exact ⟨_, rfl, fun p hp => mem_flatMap.mpr ⟨b, hbatches ▸ hmem, hp⟩⟩

theorem isBufferChunk_of_mem_tableChunksLocked (hc : c ∈ x.tableChunksLocked cfg table filter) :
    IsBufferChunk table (x.snapshottingBatches table filter) (Wal.i64Max - 1) c ∨
      IsBufferChunk table (x.liveBatches cfg table filter) Wal.i64Max c := by
  obtain ⟨t, -, hc⟩ := mem_flatMap.mp hc
  simp only [mem_append, Option.mem_toList] at hc
  exact hc.imp isBufferChunk_of_mem isBufferChunk_of_mem

private theorem exists_chunk_of_mem_frozenRows (hp : p ∈ x.frozenRows table filter) :
    ∃ c ∈ x.tableChunksLocked cfg table filter,
      IsBufferChunk table (x.snapshottingBatches table filter) (Wal.i64Max - 1) c ∧ p ∈ c.rows := by
  obtain ⟨b, hb, hp⟩ := mem_flatMap.mp hp
  obtain ⟨c, hc, hrows⟩ := exists_bufferChunk table (Wal.i64Max - 1) hb
  refine ⟨c, mem_flatMap.mpr ⟨b.chunkTime, ?_, ?_⟩, isBufferChunk_of_mem hc, hrows hp⟩
  · exact mem_dedup.mpr (mem_map_of_mem (mem_append_left _ hb))
  · exact mem_append_left _ (Option.mem_toList.mpr hc)

private theorem exists_chunk_of_mem_liveRows (hp : p ∈ x.liveRows cfg table filter) :
    ∃ c ∈ x.tableChunksLocked cfg table filter,
      IsBufferChunk table (x.liveBatches cfg table filter) Wal.i64Max c ∧ p ∈ c.rows := by
  obtain ⟨b, hb, hp⟩ := mem_flatMap.mp hp
  obtain ⟨c, hc, hrows⟩ := exists_bufferChunk table Wal.i64Max hb
  refine ⟨c, mem_flatMap.mpr ⟨b.chunkTime, ?_, ?_⟩, isBufferChunk_of_mem hc, hrows hp⟩
  · exact mem_dedup.mpr (mem_map_of_mem (mem_append_right _ hb))
  · exact mem_append_right _ (Option.mem_toList.mpr hc)

theorem IsBufferChunk.subset (h : IsBufferChunk table batches chunkOrder c) : c.rows ⊆ batches.flatMap Batch.rows := by
  intro p hp
  obtain ⟨t, range, -, -, -, -, hrows⟩ := h.window
  obtain ⟨b, hb, -, hp⟩ := (hrows p).mp hp
  exact mem_flatMap.mpr ⟨b, hb, hp⟩

/-- What a peer serves from its buffer. -/
theorem mem_batches {sinceFileId : Option Nat} : p ∈ (x.bufferBatches cfg table filter sinceFileId).batches ↔
      p ∈ x.frozenRows table filter ∨ p ∈ x.liveRows cfg table filter := by
  constructor
  · intro hp
    obtain ⟨c, hc, hp⟩ := mem_flatMap.mp hp
    exact (isBufferChunk_of_mem_tableChunksLocked hc).imp (fun h => h.subset hp) fun h => h.subset hp
  · intro hp
    obtain ⟨c, hc, -, hp⟩ | ⟨c, hc, -, hp⟩ := hp.imp exists_chunk_of_mem_frozenRows exists_chunk_of_mem_liveRows <;>
      exact mem_flatMap.mpr ⟨c, hc, hp⟩

end Node
end VarveDB.Cluster
