import VarveDB.Cluster.Chunks
import VarveDB.Cluster.Records
import VarveDB.Library.Results

/-! What the chunks of a query hold in a state that runs reach. -/
namespace VarveDB.Cluster
open Library FileIndex Query List

variable {c : QueryChunk} {nodeId : String}

namespace Node
variable {cfg : Config} {x : Node} {k : TableKey} {filter : ChunkFilter}

structure ValidBatch (cfg : Config) (b : Batch) : Prop where
  range : b.timestampMinMax.1 ≤ b.timestampMinMax.2
  rows : ∀ p ∈ b.rows, cfg.roundDown p.row.time = b.chunkTime ∧ b.timestampMinMax.1 ≤ p.row.time ∧
    p.row.time ≤ b.timestampMinMax.2

private theorem validBatch_snapshotting (h : Frozen cfg nodeId x.snapshotting) :
    ∀ b ∈ x.snapshottingBatches k filter, ValidBatch cfg b := by
  intro b hb
  obtain ⟨c, hc, rfl⟩ := mem_map.mp hb
  have hvalid := h.valid c (mem_of_mem_filter hc)
  exact ⟨hvalid.range, fun p hp => (hvalid.rows p hp).2⟩

private theorem validBatch_live : ∀ b ∈ x.liveBatches cfg k filter, ValidBatch cfg b := by
  intro b hb
  obtain ⟨ck, hck, rfl⟩ := mem_map.mp (mem_of_mem_filter hb)
  have hcovers {b : BufferedRow} (hb : b ∈ chunkRows cfg x.live ck) :=
    timestampMinMax_covers (mem_map_of_mem (f := BufferedRow.point) hb)
  constructor
  · obtain ⟨b, hb, hchunk⟩ := mem_map.mp (mem_dedup.mp (mem_of_mem_filter hck))
    have := hcovers (mem_chunkRows.mpr ⟨hb, hchunk⟩)
    exact this.1.trans this.2
  · intro p hp
    obtain ⟨b, hchunk, -, rfl⟩ := mem_batchRows.mp hp
    exact ⟨congrArg (fun ck : ChunkKey => ck.2.1) (mem_chunkRows.mp hchunk).2, hcovers hchunk⟩

/-- A query reads the live rows whose times the filter admits. -/
theorem mem_liveRows {b : BufferedRow} (hb : b ∈ x.live) (hk : b.table = k) (hkept : b.superseded = false)
    (htime : filter.testTimeStampMinMax b.point.row.time b.point.row.time = true) :
    b.point ∈ x.liveRows cfg k filter := by
  have hchunk : b ∈ chunkRows cfg x.live (b.chunk cfg) := mem_chunkRows.mpr ⟨hb, rfl⟩
  obtain ⟨hmin, hmax⟩ := timestampMinMax_covers (mem_map_of_mem (f := BufferedRow.point) hchunk)
  refine mem_flatMap.mpr ⟨_, mem_filter.mpr ⟨mem_map.mpr ⟨b.chunk cfg, ?_, rfl⟩,
    ChunkFilter.test_of_covers htime hmin hmax⟩, mem_batchRows.mpr ⟨b, hchunk, hkept, rfl⟩⟩
  exact mem_filter.mpr ⟨mem_dedup.mpr (mem_map_of_mem hb), by simp [BufferedRow.chunk, hk]⟩

/-- A chunk of valid batches is planned in the window of its rows, which its time range covers. -/
theorem IsBufferChunk.valid {batches : List Batch} {order : Int} (h : IsBufferChunk k batches order c)
    (hbatches : ∀ b ∈ batches, ValidBatch cfg b) :
    c.Covered ∧ ∀ p ∈ c.rows, c.partitionId = ⟨k.2, .window (cfg.roundDown p.row.time)⟩ := by
  obtain ⟨t, range, hid, hrange, ⟨b₀, hb₀, ht₀⟩, hcovers, hrows⟩ := h.window
  refine ⟨fun r hr => ?_, fun p hp => ?_⟩
  · obtain rfl := Option.some.inj (hrange.symm.trans hr)
    have hfirst := hcovers b₀ hb₀ ht₀
    refine ⟨hfirst.1.trans ((hbatches b₀ hb₀).range.trans hfirst.2), fun p hp => ?_⟩
    obtain ⟨b, hb, ht, hp⟩ := (hrows p).mp hp
    obtain ⟨-, hmin, hmax⟩ := (hbatches b hb).rows p hp
    exact ⟨(hcovers b hb ht).1.trans hmin, hmax.trans (hcovers b hb ht).2⟩
  · obtain ⟨b, hb, ht, hp⟩ := (hrows p).mp hp
    rw [hid, ((hbatches b hb).rows p hp).1, ht]

theorem WellFormed.valid_tableChunksLocked {contents : Contents}
    (h : x.WellFormed cfg nodeId contents) (hc : c ∈ x.tableChunksLocked cfg k filter) :
    c.Covered ∧ ∀ p ∈ c.rows, c.partitionId = ⟨k.2, .window (cfg.roundDown p.row.time)⟩ := by
  rcases isBufferChunk_of_mem_tableChunksLocked hc with hb | hb
  · exact hb.valid (validBatch_snapshotting h.frozen)
  · exact hb.valid validBatch_live

end Node

namespace State.Recorded
variable {cfg : Config} {r : String} {k : TableKey} {s : State} {filter : ChunkFilter} {p : Point}

theorem node_of_buffer (h : s.Recorded cfg)
    (hp : p ∈ (s.nodes r).frozenRows k filter ∨ p ∈ (s.nodes r).liveRows cfg k filter) : p.node = r := by
  rcases hp with hp | hp
  · obtain ⟨c, hc, -, -, hp⟩ := Node.mem_frozenRows.mp hp
    exact (((h.nodes r).frozen.valid c hc).rows p hp).1
  · obtain ⟨b, hb, -, -, rfl⟩ := Node.exists_live_of_mem_liveRows hp
    exact ((h.nodes r).buffered.written b hb).1

theorem stored_parquetFiles (h : s.Recorded cfg) : ∀ f ∈ (s.nodes r).parquetFiles k filter, Stored s.contents r f :=
  fun f hf => h.stored r k f (.inl (.listed (Node.mem_parquetFiles.mp hf).1))

variable {since : Option Nat}

theorem unseen_subset {x : Node} : (x.bufferBatches cfg k filter since).unseen.Sublist (x.parquetFiles k filter) := by
  cases since with
  | none => exact .refl _
  | some since => exact filter_sublist

variable (h : s.Recorded cfg)
include h

/-- What a peer answers with: its buffered rows, and rows of the files it calls unseen. -/
theorem mem_doGet (hp : p ∈ (s.nodes r).doGet cfg s.contents k filter since) :
    (p ∈ (s.nodes r).frozenRows k filter ∨ p ∈ (s.nodes r).liveRows cfg k filter) ∨
      p ∈ compactPlan s.contents ((s.nodes r).bufferBatches cfg k filter since).unseen ∧
        ∃ f ∈ ((s.nodes r).bufferBatches cfg k filter since).unseen, p ∈ rowsAt s.contents f := by
  rcases mem_append.mp hp with hp | hp
  · exact .inl (Node.mem_batches.mp hp)
  · exact .inr ⟨hp, exists_file_of_mem_compactPlan (fun f hf => h.stored_parquetFiles f (unseen_subset.subset hf)) hp⟩

/-- The keys a peer answers with are those it serves. -/
theorem exists_mem_doGet_iff {row : Wal.Row} : (∃ p ∈ (s.nodes r).doGet cfg s.contents k filter since, p.row = row) ↔
      ∃ p ∈ (s.nodes r).served cfg s.contents k filter since, p.row = row := by
  constructor
  · rintro ⟨p, hp, hrow⟩
    refine ⟨p, Node.mem_served.mpr ?_, hrow⟩
    refine (h.mem_doGet hp).imp id fun ⟨_, f, hf, hp⟩ => ?_
    exact ⟨f, (Node.mem_unseen.mp hf).1, (Node.mem_unseen.mp hf).2, hp⟩
  · rintro ⟨p, hp, rfl⟩
    rcases Node.mem_served.mp hp with hp | ⟨f, hf, hunseen, hp⟩
    · exact ⟨p, mem_append_left _ (Node.mem_batches.mpr hp), rfl⟩
    · obtain ⟨q, hq, hrow⟩ := exists_mem_compactPlan
        (fun f hf => h.stored_parquetFiles f (unseen_subset.subset hf)) (Node.mem_unseen.mpr ⟨hf, hunseen⟩) hp
      exact ⟨q, mem_append_right _ hq, hrow⟩

theorem node_of_doGet (hp : p ∈ (s.nodes r).doGet cfg s.contents k filter since) : p.node = r := by
  rcases h.mem_doGet hp with hp | ⟨-, f, hf, hp⟩
  · exact h.node_of_buffer hp
  · exact ((h.stored_parquetFiles f (unseen_subset.subset hf)).rows p hp).1

theorem node_of_localChunks
    (hc : c ∈ WriteBufferImpl.localChunks cfg s.contents (s.nodes r) k filter) (hp : p ∈ c.rows) : p.node = r := by
  rcases mem_append.mp hc with hc | hc
  · rcases Node.isBufferChunk_of_mem_tableChunksLocked hc with hb | hb
    · exact h.node_of_buffer (.inl (hb.subset hp))
    · exact h.node_of_buffer (.inr (hb.subset hp))
  · obtain ⟨i, f, hf, rfl⟩ := mem_filesFrom.mp hc
    exact ((h.stored_parquetFiles f (mem_of_getElem? hf)).rows p hp).1

end State.Recorded

section Sample

def sampleConfig : Config := ⟨⟨600, 10, 300, by decide⟩, fun _ => "2026-01-01/00-00"⟩

def sampleWrite (node : String) (table : TableKey) (times : List Int) (force : Bool) : String × NodeAction :=
  (node, .write (times.map fun t => (table, 0, ⟨7, t⟩)) force 0)

def samplePersist (table : TableKey) (first : Nat) (times : List Int) (range : Int × Int) :
    List (String × NodeAction) :=
  let chunk : SnapshotChunk := ⟨table, 0, 0, range, times.mapIdx fun i t => ⟨⟨7, t⟩, "a", first + i⟩⟩
  [sampleWrite "a" table times true, ("a", .persistChunk chunk 100), ("a", .handOver chunk), ("a", .persistSnapshot),
    ("a", .publish)]

def sampleReader (s : State) (position : Nat) : ClusterWriteBuffer.Reader :=
  ⟨"b", [⟨"a", [.ingest], some "a:8181"⟩, ⟨"b", [.all], some "b:8181"⟩], 100, replay (s.log.take position)⟩

end Sample

end VarveDB.Cluster
