import VarveDB.Compaction.Apply
import VarveDB.Compaction.Merge
import VarveDB.FileIndex.Publisher
import VarveDB.Query.SplitDedup
import VarveDB.Write.ParquetFilePath

/-! Nodes that share a log: buffered rows, snapshots, persist jobs, compactions and publication. -/
namespace VarveDB.Cluster
open Library Runs FileIndex Compaction Compactor Query

structure Config extends Wal.Config where
  dateString : Int → String

structure BufferedRow where
  table : TableKey
  chunkOrdinal : Nat
  point : Point
  superseded : Bool
  deriving DecidableEq

abbrev ChunkKey := TableKey × Int × Nat

variable (cfg : Config) (live : List BufferedRow)

def BufferedRow.chunk (b : BufferedRow) : ChunkKey :=
  (b.table, cfg.roundDown b.point.row.time, b.chunkOrdinal)

structure SnapshotChunk where
  table : TableKey
  chunkTime : Int
  chunkOrdinal : Nat
  timestampMinMax : Int × Int
  rows : List Point
  deriving DecidableEq

def timestampMinMax (rows : List Point) : Int × Int :=
  ((rows.map fun p => p.row.time).min?.getD 0, (rows.map fun p => p.row.time).max?.getD 0)

abbrev WrittenRow := TableKey × Nat × Wal.Row

def BufferedRow.maskedBy (w : WrittenRow) (b : BufferedRow) : BufferedRow :=
  { b with superseded := b.superseded || decide (b.table = w.1 ∧ b.point.row = w.2.2) }

def bufferRow (nodeId : String) (buffer : List BufferedRow × Nat) (w : WrittenRow) : List BufferedRow × Nat :=
  (buffer.1.map (BufferedRow.maskedBy w) ++ [⟨w.1, w.2.1, ⟨w.2.2, nodeId, buffer.2⟩, false⟩], buffer.2 + 1)

def chunkRows (k : ChunkKey) : List BufferedRow :=
  live.filter fun b => b.chunk cfg = k

def batchRows (rows : List BufferedRow) : List Point := (rows.filter fun b => !b.superseded).map BufferedRow.point

def chunkKeys : List ChunkKey := (live.map (BufferedRow.chunk cfg)).dedup

def snapshotChunks (olderThanChunkTime : Int) (live : List BufferedRow) : List SnapshotChunk :=
  ((chunkKeys cfg live).filter fun k => k.2.1 < olderThanChunkTime).filterMap fun k =>
    let rows := chunkRows cfg live k
    if batchRows rows = [] then none
    else some ⟨k.1, k.2.1, k.2.2, timestampMinMax (rows.map BufferedRow.point), batchRows rows⟩

structure Applying where
  table : TableKey
  merged : ParquetFile
  removed : List ParquetFile
  manifest : Option PersistedSnapshot

/-- `snapshot` is the manifest of the snapshot under way, and `persisted` holds the jobs that have not handed their
chunk over yet. -/
structure Node where
  walFileNumber : Nat
  tracker : Wal.SnapshotTracker
  live : List BufferedRow
  writes : Nat
  snapshotting : List SnapshotChunk
  snapshot : Option PersistedSnapshot
  persisted : List (SnapshotChunk × ParquetFile)
  persistedFiles : PersistedFiles
  nextFileId : Nat
  applying : List Applying
  durable : List PersistedSnapshot

abbrev Contents := String → Option (List Point)

variable (contents : Contents) (files : List ParquetFile)

def rowsAt (f : ParquetFile) : List Point := (contents f.path).getD []

def parquetChunkFromFile (id : Nat) (chunkOrder : Int) (f : ParquetFile) : QueryChunk :=
  ⟨id, ⟨0, .window f.chunkTime⟩, some (f.minTime, f.maxTime), false, chunkOrder, rowsAt contents f⟩

def fileChunks : List QueryChunk :=
  files.mapIdx fun i f => parquetChunkFromFile contents i i f

/-- `ReorgPlanner::compact_plan` over files: the rows left by the deduplication of the plan. -/
def compactPlan : List Point :=
  (fuseGroups (flaggedGroups (fileChunks contents files))).flatMap GroupWithDedupFlag.output

inductive NodeAction where
  | write (rows : List WrittenRow) (force : Bool) (now : Int)
  | persistChunk (chunk : SnapshotChunk) (sizeBytes : Nat)
  | handOver (chunk : SnapshotChunk)
  | persistSnapshot
  | compact (position : Nat) (coldBefore : Int) (config : CompactionConfig) (group : MergeGroup) (path : String)
      (sizeBytes : Nat)
  | reserve (id : Nat)
  | persistCompaction (id : Nat) (stored : Bool)
  | publish

structure Effect where
  node : Node
  object : Option (String × List Point)
  entry : Option FileIndexLogEntry

namespace Node

variable (cfg : Config) (nodeId : String) (x : Node) (chunk : SnapshotChunk) (group : MergeGroup)

/-- A WAL flush: the rows become queryable and, if a snapshot is due, the chunks before its marker
are frozen. A snapshot waits for the one before it. -/
def write (rows : List WrittenRow) (force : Bool) (now : Int) : Option Node :=
  if rows = [] ∧ force = false then none
  else
    let contents := Wal.intoWalContents x.walFileNumber (rows.map fun w => w.2.2) now
    let tracker := x.tracker.addWalPeriod contents.period
    let buffer := rows.foldl (bufferRow nodeId) (x.live, x.writes)
    match tracker.snapshot cfg.toConfig force with
    | none => some { x with walFileNumber := x.walFileNumber + 1, tracker, live := buffer.1, writes := buffer.2 }
    | some (details, tracker) =>
      if x.snapshot = none then some { x with
        walFileNumber := x.walFileNumber + 1
        tracker
        live := buffer.1.filter fun b => ¬cfg.roundDown b.point.row.time < details.endTimeMarker
        writes := buffer.2
        snapshotting := snapshotChunks cfg details.endTimeMarker buffer.1
        snapshot := some (.new nodeId details.snapshotSequenceNumber details.lastWalSequenceNumber 0 x.nextFileId) }
      else none

def pathOf (m : PersistedSnapshot) (chunk : SnapshotChunk) : String :=
  parquetFilePath cfg.dateString nodeId chunk.table chunk.chunkTime m.walFileSequenceNumber chunk.chunkOrdinal

def fileOf (path : String) (sizeBytes : Nat) : ParquetFile :=
  ⟨x.nextFileId, path, sizeBytes, (lastOfKey chunk.rows).length, chunk.chunkTime, chunk.timestampMinMax.1,
    chunk.timestampMinMax.2⟩

def handOver (file : ParquetFile) : Node :=
  { x with
    snapshotting := x.snapshotting.erase chunk
    persisted := x.persisted.erase (chunk, file)
    persistedFiles := x.persistedFiles.addPersistedFile chunk.table file
    snapshot := x.snapshot.map fun m => m.addParquetFile x.nextFileId chunk.table file }

def applyMerge (table : TableKey) (merged : ParquetFile) (removedPaths : List String) : Node :=
  let (added, removed, files) := x.persistedFiles.applyCompaction table [merged] removedPaths
  { x with
    persistedFiles := files
    nextFileId := x.nextFileId + 1
    applying := if added = 0 ∧ removed = [] then x.applying else x.applying ++ [⟨table, merged, removed, none⟩] }

def mergedRows : List Point := compactPlan contents group.inputs

def table : TableKey := (group.dbId, group.tableId)

/-- A persist job writes to a path of its own; a merge may write again to the path it wrote before. The compactor
selects from what some position of the log lists. -/
def step (log : List FileIndexLogEntry) (contents : Contents) (x : Node) : NodeAction → Option Effect
  | .write rows force now => (x.write cfg nodeId rows force now).map fun x' => ⟨x', none, none⟩
  | .persistChunk chunk sizeBytes => do
    let m ← x.snapshot
    let path := pathOf cfg nodeId m chunk
    if chunk ∈ x.snapshotting ∧ (∀ job ∈ x.persisted, job.1 ≠ chunk) ∧ contents path = none then
      some ⟨{ x with
        nextFileId := x.nextFileId + 1
        persisted := x.persisted ++ [(chunk, x.fileOf chunk path sizeBytes)] }, some (path, lastOfKey chunk.rows), none⟩
    else none
  | .handOver chunk => do
    let job ← x.persisted.find? fun job => job.1 = chunk
    some ⟨x.handOver job.1 job.2, none, none⟩
  | .persistSnapshot => do
    let m ← x.snapshot
    if x.snapshotting = [] then
      some ⟨{ x with snapshot := none, durable := putSnapshot x.durable m }, none, none⟩
    else none
  | .compact position coldBefore config group path sizeBytes =>
    let files := (replay (log.take position)).filesForTable nodeId group.dbId group.tableId
    let rows := mergedRows contents group
    if group ∈ selectMerges group.dbId group.tableId files coldBefore config ∧ rows ≠ [] ∧
        (contents path = none ∨ contents path = some rows) then
      some ⟨x.applyMerge (table group) (group.merged x.nextFileId path sizeBytes rows.length) group.paths,
        some (path, rows), none⟩
    else none
  | .reserve id => do
    let d ← x.applying.find? fun d => d.merged.id = id ∧ d.manifest = none
    let (number, tracker) := x.tracker.reserveSnapshotSequenceNumber
    let m := compactionSnapshot nodeId number 0 0 x.nextFileId d.table d.merged d.removed
    some ⟨{ x with
      tracker
      applying := x.applying.map fun d' => if d'.merged.id = id then { d' with manifest := some m } else d' },
        none, none⟩
  | .persistCompaction id stored => do
    let d ← x.applying.find? fun d => d.merged.id = id
    let m ← d.manifest
    some ⟨{ x with
      applying := x.applying.filter fun d' => d'.merged.id ≠ id
      durable := if stored then putSnapshot x.durable m else x.durable }, none, none⟩
  | .publish =>
    let deltas := Publisher.pendingDeltas ((replay log).watermarks.lookup nodeId) x.durable
    if deltas = [] then none else some ⟨x, none, some ⟨log.length + 1, deltas⟩⟩

def empty : Node := ⟨1, ⟨0, []⟩, [], 0, [], none, [], .empty, 0, [], []⟩

end Node

def Node.walPeriod (x : Node) (rows : List WrittenRow) (now : Int) : Wal.WalPeriod :=
  (Wal.intoWalContents x.walFileNumber (rows.map fun w => w.2.2) now).period

inductive Node.Stepped (cfg : Config) (nodeId : String) (log : List FileIndexLogEntry) (contents : Contents)
    (x : Node) : NodeAction → Effect → Prop where
  | write {rows : List WrittenRow} {force : Bool} {now : Int}
      (hquiet : (x.tracker.addWalPeriod (walPeriod x rows now)).snapshot cfg.toConfig force = none) :
      Stepped cfg nodeId log contents x (.write rows force now) ⟨{ x with
          walFileNumber := x.walFileNumber + 1
          tracker := x.tracker.addWalPeriod (walPeriod x rows now)
          live := (rows.foldl (bufferRow nodeId) (x.live, x.writes)).1
          writes := (rows.foldl (bufferRow nodeId) (x.live, x.writes)).2 }, none, none⟩
  | freeze {rows : List WrittenRow} {force : Bool} {now : Int} {details : Wal.SnapshotDetails}
      {tracker : Wal.SnapshotTracker} (hfree : x.snapshot = none)
      (hdue : (x.tracker.addWalPeriod (walPeriod x rows now)).snapshot cfg.toConfig force = some (details, tracker)) :
      Stepped cfg nodeId log contents x (.write rows force now) ⟨{ x with
          walFileNumber := x.walFileNumber + 1
          tracker
          live := (rows.foldl (bufferRow nodeId) (x.live, x.writes)).1.filter fun b =>
            ¬cfg.roundDown b.point.row.time < details.endTimeMarker
          writes := (rows.foldl (bufferRow nodeId) (x.live, x.writes)).2
          snapshotting := snapshotChunks cfg details.endTimeMarker (rows.foldl (bufferRow nodeId) (x.live, x.writes)).1
          snapshot := some (.new nodeId details.snapshotSequenceNumber details.lastWalSequenceNumber 0 x.nextFileId) },
          none, none⟩
  | persistChunk {m : PersistedSnapshot} {chunk : SnapshotChunk} {sizeBytes : Nat} (hm : x.snapshot = some m)
      (hchunk : chunk ∈ x.snapshotting) (hnew : ∀ job ∈ x.persisted, job.1 ≠ chunk)
      (hpath : contents (pathOf cfg nodeId m chunk) = none) :
      Stepped cfg nodeId log contents x (.persistChunk chunk sizeBytes) ⟨{ x with
          nextFileId := x.nextFileId + 1
          persisted := x.persisted ++ [(chunk, x.fileOf chunk (pathOf cfg nodeId m chunk) sizeBytes)] },
          some (pathOf cfg nodeId m chunk, lastOfKey chunk.rows), none⟩
  | handOver {chunk : SnapshotChunk} {file : ParquetFile} (hjob : (chunk, file) ∈ x.persisted) :
      Stepped cfg nodeId log contents x (.handOver chunk) ⟨x.handOver chunk file, none, none⟩
  | persistSnapshot {m : PersistedSnapshot} (hm : x.snapshot = some m) (hdone : x.snapshotting = []) :
      Stepped cfg nodeId log contents x .persistSnapshot
        ⟨{ x with snapshot := none, durable := putSnapshot x.durable m }, none, none⟩
  | compact {position : Nat} {coldBefore : Int} {config : CompactionConfig} {group : MergeGroup} {path : String}
      {sizeBytes : Nat}
      (hinputs : ∀ f ∈ group.inputs, f ∈ (replay (log.take position)).filesForTable nodeId group.dbId group.tableId)
      (hne : group.inputs ≠ [])
      (hpath : contents path = none ∨ contents path = some (mergedRows contents group)) :
      Stepped cfg nodeId log contents x (.compact position coldBefore config group path sizeBytes)
        ⟨x.applyMerge (table group) (group.merged x.nextFileId path sizeBytes (mergedRows contents group).length)
          group.paths, some (path, mergedRows contents group), none⟩
  | reserve {d : Applying} (hd : d ∈ x.applying) :
      Stepped cfg nodeId log contents x (.reserve d.merged.id) ⟨{ x with
          tracker := x.tracker.reserveSnapshotSequenceNumber.2
          applying := x.applying.map fun d' => if d'.merged.id = d.merged.id then
            { d' with manifest := some (compactionSnapshot nodeId x.tracker.reserveSnapshotSequenceNumber.1 0 0
              x.nextFileId d.table d.merged d.removed) } else d' }, none, none⟩
  | persistCompaction {d : Applying} {m : PersistedSnapshot} {stored : Bool} (hd : d ∈ x.applying)
      (hm : d.manifest = some m) :
      Stepped cfg nodeId log contents x (.persistCompaction d.merged.id stored) ⟨{ x with
          applying := x.applying.filter fun d' => d'.merged.id ≠ d.merged.id
          durable := if stored then putSnapshot x.durable m else x.durable }, none, none⟩
  | publish : Stepped cfg nodeId log contents x .publish ⟨x, none,
      some ⟨log.length + 1, Publisher.pendingDeltas ((replay log).watermarks.lookup nodeId) x.durable⟩⟩

theorem Node.stepped_of_step {cfg : Config} {nodeId : String} {log : List FileIndexLogEntry} {contents : Contents}
    {x : Node} {a : NodeAction} {e : Effect} (h : x.step cfg nodeId log contents a = some e) :
    Stepped cfg nodeId log contents x a e := by
  cases a with
  | write rows force now =>
    obtain ⟨x', hwrite, rfl⟩ := map_eq_some_iff.mp h
    unfold Node.write at hwrite
    split at hwrite
    · cases hwrite
    · simp only at hwrite
      split at hwrite
      · rename_i hquiet
        exact some.inj hwrite ▸ .write hquiet
      · rename_i hdue
        split at hwrite <;> cases hwrite
        rename_i hfree
        exact .freeze hfree hdue
  | persistChunk chunk sizeBytes =>
    obtain ⟨m, hm, heffect⟩ := bind_eq_some_iff.mp h
    simp only at heffect
    split at heffect <;> cases heffect
    rename_i hcond
    exact .persistChunk hm hcond.1 hcond.2.1 hcond.2.2
  | handOver chunk =>
    obtain ⟨⟨c, file⟩, hjob, heffect⟩ := bind_eq_some_iff.mp h
    have hc : c = chunk := by simpa using List.find?_some hjob
    subst hc
    exact some.inj heffect ▸ .handOver (List.mem_of_find?_eq_some hjob)
  | persistSnapshot =>
    obtain ⟨m, hm, h⟩ := bind_eq_some_iff.mp h
    split at h <;> cases h
    rename_i hdone
    exact .persistSnapshot hm hdone
  | compact position coldBefore config group path sizeBytes =>
    simp only [Node.step] at h
    split at h <;> cases h
    rename_i hcond
    have hlen := two_le_length_of_mem_selectMerges hcond.1
    exact .compact (mem_files_of_mem_selectMerges hcond.1).2.2
      (List.ne_nil_of_length_pos (by omega)) hcond.2.2
  | reserve id =>
    obtain ⟨d, hd, heffect⟩ := bind_eq_some_iff.mp h
    have hid : d.merged.id = id ∧ d.manifest = none := by simpa using List.find?_some hd
    obtain ⟨rfl, -⟩ := hid
    exact some.inj heffect ▸ .reserve (List.mem_of_find?_eq_some hd)
  | persistCompaction id stored =>
    obtain ⟨d, hd, hrest⟩ := bind_eq_some_iff.mp h
    obtain ⟨m, hm, heffect⟩ := bind_eq_some_iff.mp hrest
    have hid : d.merged.id = id := by simpa using List.find?_some hd
    subst hid
    exact some.inj heffect ▸ .persistCompaction (List.mem_of_find?_eq_some hd) hm
  | publish =>
    simp only [Node.step] at h
    split at h
    · cases h
    · exact some.inj h ▸ .publish

structure State where
  nodes : String → Node
  log : List FileIndexLogEntry
  contents : Contents

namespace State

def empty : State := ⟨fun _ => .empty, [], fun _ => none⟩

def after (s : State) (nodeId : String) (e : Effect) : State where
  nodes := Function.update s.nodes nodeId e.node
  log := s.log ++ e.entry.toList
  contents := match e.object with
    | none => s.contents
    | some (path, rows) => Function.update s.contents path (some rows)

def step (s : State) (a : String × NodeAction) : Option State :=
  ((s.nodes a.1).step cfg a.1 s.log s.contents a.2).map (s.after a.1)

end State
end VarveDB.Cluster
