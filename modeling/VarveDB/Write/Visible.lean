import VarveDB.Cluster.Chunks
import VarveDB.Write.TableBuffer

/-! What the queries of a node read while a snapshot is persisted. -/
namespace VarveDB.Visible
open Library Runs TableBuffer List

/-- The rows that a table holds: those of windows still open to overwriting, with their window, and
those that a snapshot has sealed. -/
structure Survivors where
  opened : List (Int × StoredRow)
  sealed : List StoredRow

variable {others : List (Int × StoredRow)} {chunks : List BufferChunk} {ctb : ChunkTimeBuffer} {columns : List String}
  (marker : Int) (deleted : List TableKey) {filter : ChunkFilter} {chunkTime : Int}

namespace Survivors

def none : Survivors := ⟨[], []⟩

def rows (s : Survivors) : List StoredRow := s.opened.map Prod.snd ++ s.sealed

/-- A written row replaces the open one of its window and key, and keeps the values it does not provide. -/
def write (chunkTime : Int) (s : Survivors) (row : Row × Nat) : Survivors :=
  let same := fun e : Int × StoredRow => decide (e.1 = chunkTime ∧ e.2.key = rowKeyFor row.1)
  { s with opened := (chunkTime, storedRow row.2 row.1 ((s.opened.find? same).map Prod.snd)) ::
      s.opened.filter fun e => !same e }

def sealBefore (s : Survivors) : Survivors where
  opened := s.opened.filter fun e => ¬ e.1 < marker
  sealed := s.sealed ++ (s.opened.filter fun e => e.1 < marker).map Prod.snd

def Numbered (s : Survivors) (next : Nat) : Prop :=
  (s.rows.map StoredRow.number).Nodup ∧ ∀ r ∈ s.rows, r.number < next

private theorem rows_sealBefore_perm (s : Survivors) : (s.sealBefore marker).rows.Perm s.rows := by
  have hsplit := ((filter_append_perm (fun e : Int × StoredRow => decide (e.1 < marker)) s.opened).map Prod.snd)
  rw [map_append] at hsplit
  have hnot : (s.opened.filter fun e => ¬ e.1 < marker) = s.opened.filter fun e => !decide (e.1 < marker) :=
    filter_congr fun e _ => decide_not
  rw [rows, sealBefore, hnot, rows]
  refine .trans ?_ (hsplit.append_right _)
  rw [append_assoc]
  exact (perm_append_comm.append_left _).trans (perm_append_comm_assoc ..)

variable {s : Survivors}

theorem Numbered.write {next : Nat} (h : s.Numbered next) (chunkTime : Int) (row : Row) :
    (s.write chunkTime (row, next)).Numbered (next + 1) := by
  obtain ⟨hnodup, hlt⟩ := h
  have hsub : ((s.opened.filter fun e => !decide (e.1 = chunkTime ∧ e.2.key = rowKeyFor row)).map Prod.snd ++
      s.sealed).Sublist s.rows := (filter_sublist.map _).append_right _
  refine ⟨nodup_cons.mpr ⟨fun hmem => ?_, hnodup.sublist (hsub.map _)⟩, forall_mem_cons.mpr
    ⟨Nat.lt_succ_self _, fun r hr => (hlt r (hsub.subset hr)).trans (Nat.lt_succ_self _)⟩⟩
  obtain ⟨r, hr, hnumber⟩ := mem_map.mp hmem
  exact (hlt r (hsub.subset hr)).ne hnumber

private theorem find?_perm {α : Type} {p : α → Bool} {l l' : List α} (h : l.Perm l')
    (hunique : ∀ a ∈ l', ∀ b ∈ l', p a → p b → a = b) : l.find? p = l'.find? p := by
  refine Option.ext fun a => ?_
  have hiff (m : List α) (hm : m.Perm l') : m.find? p = some a ↔ a ∈ m ∧ p a := by
    constructor
    · exact fun hf => ⟨mem_of_find?_eq_some hf, List.find?_some hf⟩
    · rintro ⟨ha, hp⟩
      cases hf : m.find? p with
      | none => exact absurd hp (List.find?_eq_none.mp hf a ha)
      | some b =>
        rw [hunique a (hm.subset ha) b (hm.subset (mem_of_find?_eq_some hf)) hp (List.find?_some hf)]
  rw [hiff l h, hiff l' (.refl _), h.mem_iff]

/-- Writing a row to a window's chunks does to the live rows what writing does to the survivors. -/
theorem opened_write (h : ctb.Sound) (hne : ctb.chunks ≠ []) (hothers : ∀ e ∈ others, e.1 ≠ chunkTime)
    (hperm : s.opened.Perm (ctb.liveRows.map (chunkTime, ·) ++ others)) (row : Row) (number : Nat) :
    (s.write chunkTime (row, number)).opened.Perm ((ctb.addRow number row).liveRows.map (chunkTime, ·) ++ others) := by
  have hfind : (s.opened.find? fun e => decide (e.1 = chunkTime ∧ e.2.key = rowKeyFor row)).map Prod.snd =
      ctb.replaced row := by
    rw [find?_perm hperm, List.find?_append, List.find?_eq_none.mpr (show ∀ e ∈ others, _ from fun e he => by
      simp [hothers e he]), Option.or_none, List.find?_map, Option.map_map, h.replaced_eq]
    · simp [Function.comp_def]
    · intro a ha b hb hpa hpb
      simp only [decide_eq_true_eq] at hpa hpb
      rcases mem_append.mp ha with ha | ha
      · rcases mem_append.mp hb with hb | hb
        · obtain ⟨r, hr, rfl⟩ := mem_map.mp ha
          obtain ⟨r', hr', rfl⟩ := mem_map.mp hb
          rw [inj_on_of_nodup_map h.keys hr hr' (hpa.2.trans hpb.2.symm)]
        · exact absurd hpb.1 (hothers b hb)
      · exact absurd hpa.1 (hothers a ha)
  have hkept : ((ctb.liveRows.map (chunkTime, ·) ++ others).filter fun e =>
      !decide (e.1 = chunkTime ∧ e.2.key = rowKeyFor row)) =
      (ctb.liveRows.filter fun r => r.key ≠ rowKeyFor row).map (chunkTime, ·) ++ others := by
    rw [filter_append, filter_map, filter_eq_self.mpr (show ∀ e ∈ others, _ from fun e he => by
      simp [hothers e he])]
    simp [Function.comp_def]
  refine .trans ?_ (((h.liveRows_addRow hne number row).map _).append_right _).symm
  simp only [write, hfind]
  rw [map_cons, cons_append, ← hkept]
  exact (hperm.filter _).cons _

/-- The same for the rows of one write. -/
theorem opened_foldl_write (hothers : ∀ e ∈ others, e.1 ≠ chunkTime) (rows : List Row) {first : Nat}
    (h : ctb.Sound) (hne : ctb.chunks ≠ []) (hperm : s.opened.Perm (ctb.liveRows.map (chunkTime, ·) ++ others))
    (hnumbered : s.Numbered first) : ((rows.zipIdx first).foldl (write chunkTime) s).opened.Perm
      (((rows.zipIdx first).foldl (fun ctb row => ctb.addRow row.2 row.1) ctb).liveRows.map (chunkTime, ·) ++ others) ∧
    ((rows.zipIdx first).foldl (write chunkTime) s).sealed = s.sealed ∧
    ((rows.zipIdx first).foldl (write chunkTime) s).Numbered (first + rows.length) := by
  induction rows generalizing first ctb s with
  | nil => exact ⟨hperm, rfl, hnumbered⟩
  | cons row rows ih =>
    obtain ⟨hopened, hsealed, hnext⟩ := ih (h.addRow hne first row) (ChunkTimeBuffer.addRow_ne_nil hne)
      (opened_write h hne hothers hperm row first) (hnumbered.write chunkTime row)
    refine ⟨hopened, hsealed, ?_⟩
    rwa [length_cons, Nat.add_comm rows.length, ← Nat.add_assoc]

end Survivors

structure Config where
  varColMaxBytes : Nat
  nodeIdentifierPrefix : String
  dateString : Int → String

structure PersistJob where
  table : TableKey
  chunk : SnapshotChunk
  path : String
  deriving DecidableEq

/-- `contents` are the rows of a file by its id, and `survivors` what the tables hold. -/
structure State where
  columns : TableKey → List String
  buffers : IndexMap TableKey TableBuffer
  jobs : List PersistJob
  persistedFiles : PersistedFiles
  nextFileId : Nat
  nextRow : Nat
  contents : Nat → List StoredRow
  survivors : TableKey → Survivors

inductive Action where
  | addColumns (table : TableKey) (names : List String)
  | bufferChunk (table : TableKey) (chunkTime : Int) (rows : List Row)
  | snapshot (deleted : List TableKey) (endTimeMarker : Int) (lastWalSequenceNumber : Nat)
  | complete (job : PersistJob) (sizeBytes : Nat)

namespace State

def new : State where
  columns := fun _ => []
  buffers := .empty _
  jobs := []
  persistedFiles := .empty
  nextFileId := 0
  nextRow := 0
  contents := fun _ => []
  survivors := fun _ => .none

def buffer (s : State) (k : TableKey) : TableBuffer := (s.buffers.lookup k).getD .new

def files (s : State) (k : TableKey) : List ParquetFile := s.persistedFiles.files k

def fileRows (s : State) (files : List ParquetFile) : List StoredRow := files.flatMap fun f => s.contents f.id

def buffered (cfg : Config) (s : State) (table : TableKey) (chunkTime : Int) (rows : List Row) : State :=
  { s with
    buffers := s.buffers.put table ((s.buffer table).bufferChunk cfg.varColMaxBytes chunkTime s.nextRow rows)
    nextRow := s.nextRow + rows.length
    survivors := Function.update s.survivors table
      ((rows.zipIdx s.nextRow).foldl (Survivors.write chunkTime) (s.survivors table)) }

def persistJobs (cfg : Config) (deleted : List TableKey) (lastWalSequenceNumber : Nat) (e : TableKey × TableBuffer) :
    List PersistJob :=
  if e.1 ∈ deleted then [] else e.2.snapshottingChunks.map fun c => ⟨e.1, c, parquetFilePath cfg.dateString
    cfg.nodeIdentifierPrefix e.1 c.chunkTime lastWalSequenceNumber c.chunkOrdinal⟩

def snapshotted (cfg : Config) (s : State) (deleted : List TableKey) (endTimeMarker : Int)
    (lastWalSequenceNumber : Nat) : State :=
  let buffers := s.buffers.mapValues fun k tb =>
    if k ∈ deleted then tb else tb.snapshot (s.columns k) endTimeMarker
  { s with
    buffers := buffers
    jobs := buffers.entries.flatMap (persistJobs cfg deleted lastWalSequenceNumber)
    survivors := fun k => if k ∈ deleted then s.survivors k else (s.survivors k).sealBefore endTimeMarker }

def sortDedupePersist (rows : List StoredRow) : List StoredRow := rows.pwFilter fun a b => a.key ≠ b.key

def parquetFile (s : State) (job : PersistJob) (sizeBytes : Nat) : ParquetFile where
  id := s.nextFileId
  path := job.path
  sizeBytes := sizeBytes
  rowCount := (sortDedupePersist job.chunk.rows).length
  chunkTime := job.chunk.chunkTime
  minTime := job.chunk.timestampMinMax.1
  maxTime := job.chunk.timestampMinMax.2

def completed (s : State) (job : PersistJob) (sizeBytes : Nat) : State :=
  { s with
    buffers := (s.buffers.lookup job.table).elim s.buffers fun tb =>
      s.buffers.put job.table (tb.removeSnapshottingChunk job.chunk.chunkTime job.chunk.chunkOrdinal)
    jobs := s.jobs.erase job
    persistedFiles := s.persistedFiles.addPersistedFile job.table (s.parquetFile job sizeBytes)
    nextFileId := s.nextFileId + 1
    contents := Function.update s.contents s.nextFileId (sortDedupePersist job.chunk.rows) }

/-- A snapshot is taken only after the jobs of the one before have ended: it holds the permit of
the WAL until then. -/
def step (cfg : Config) (s : State) : Action → Option State
  | .addColumns table names => some { s with columns := Function.update s.columns table (s.columns table ++ names) }
  | .bufferChunk table chunkTime rows => some (s.buffered cfg table chunkTime rows)
  | .snapshot deleted marker wal => if s.jobs = [] then some (s.snapshotted cfg deleted marker wal) else none
  | .complete job sizeBytes => if job ∈ s.jobs then some (s.completed job sizeBytes) else none

def tableChunksLocked (s : State) (k : TableKey) (columns : List String) (filter : ChunkFilter) :
    Except String (List BufferChunk) :=
  match s.buffers.lookup k with
  | none => .ok []
  | some tb => tb.tableChunksLocked columns filter

def getTableChunksAndParquetFiles (s : State) (k : TableKey) (columns : List String) (filter : ChunkFilter) :
    Except String (List BufferChunk × List ParquetFile) := do
  let chunks ← s.tableChunksLocked k columns filter
  .ok (chunks, Cluster.Node.sortByMinTimeDesc
    ((s.files k).filter fun f => filter.testTimeStampMinMax f.minTime f.maxTime))

/-- What holds of a table in every state: its buffer is sound, the survivors are the rows of the
live chunks, the frozen ones and the files, and each frozen chunk has a job. -/
structure Held (s : State) (k : TableKey) : Prop where
  sound : (s.buffer k).Sound
  opened : (s.survivors k).opened.Perm (s.buffer k).liveRows
  sealed : (s.survivors k).sealed.Perm ((s.buffer k).frozenRows ++ s.fileRows (s.files k))
  jobs : ((s.jobs.filter fun job => job.table = k).map PersistJob.chunk).Perm (s.buffer k).snapshottingChunks
  fresh : ∀ f ∈ s.files k, f.id < s.nextFileId
  covered : ∀ f ∈ s.files k, ∀ r ∈ s.contents f.id, f.minTime ≤ r.time ∧ r.time ≤ f.maxTime
  numbered : (s.survivors k).Numbered s.nextRow

variable {cfg : Config} {s s' : State} {k : TableKey}

theorem Held.new (k : TableKey) : Held .new k := by
  refine ⟨.new, ?_, ?_, ?_, ?_, ?_, ?_⟩ <;>
    simp [State.new, buffer, files, fileRows, TableBuffer.new, PersistedFiles.empty, Survivors.none, Survivors.Numbered,
      Survivors.rows, TableBuffer.liveRows, frozenRows]

private theorem buffer_buffered (table : TableKey) (chunkTime : Int) (rows : List Row) (k : TableKey) :
    (s.buffered cfg table chunkTime rows).buffer k =
      if k = table then (s.buffer k).bufferChunk cfg.varColMaxBytes chunkTime s.nextRow rows else s.buffer k := by
  simp only [buffer, buffered, IndexMap.lookup_put]
  split
  · rename_i hk
    subst hk
    rfl
  · rfl

theorem Held.buffered (h : s.Held k) (table : TableKey) (chunkTime : Int) (rows : List Row) :
    (s.buffered cfg table chunkTime rows).Held k := by
  have hbuffer : (s.buffered cfg table chunkTime rows).buffer k = _ := buffer_buffered table chunkTime rows k
  by_cases hk : k = table
  · subst hk
    rw [if_pos rfl] at hbuffer
    have hsurvivors : (s.buffered cfg k chunkTime rows).survivors k =
        (rows.zipIdx s.nextRow).foldl (Survivors.write chunkTime) (s.survivors k) := Function.update_self ..
    have htarget := ((h.sound.window chunkTime).withTarget cfg.varColMaxBytes rows)
    have hperm := h.opened.trans (liveRows_perm (s.buffer k) chunkTime)
    rw [← ChunkTimeBuffer.liveRows_withTarget cfg.varColMaxBytes _ rows] at hperm
    obtain ⟨hopened, hsealed, hnumbered⟩ := Survivors.opened_foldl_write (fun _ he => window_ne_of_mem_otherRows he)
      rows htarget (ChunkTimeBuffer.withTarget_ne_nil cfg.varColMaxBytes _ rows) hperm h.numbered
    rw [← window_bufferChunk, ← otherRows_bufferChunk cfg.varColMaxBytes _ chunkTime s.nextRow rows] at hopened
    refine ⟨hbuffer ▸ h.sound.bufferChunk .., ?_, ?_, hbuffer ▸ h.jobs, h.fresh, h.covered, hsurvivors ▸ hnumbered⟩
    · rw [hsurvivors, hbuffer]
      exact hopened.trans (liveRows_perm _ chunkTime).symm
    · rw [hsurvivors, hbuffer, hsealed]
      exact h.sealed
  · rw [if_neg hk] at hbuffer
    have hsurvivors : (s.buffered cfg table chunkTime rows).survivors k = s.survivors k := Function.update_of_ne hk ..
    exact ⟨hbuffer ▸ h.sound, hsurvivors ▸ hbuffer ▸ h.opened, hsurvivors ▸ hbuffer ▸ h.sealed, hbuffer ▸ h.jobs,
      h.fresh, h.covered, hsurvivors ▸ ⟨h.numbered.1, fun r hr => (h.numbered.2 r hr).trans_le (Nat.le_add_right ..)⟩⟩

private theorem buffer_snapshotted (marker : Int) (wal : Nat) (k : TableKey) :
    (s.snapshotted cfg deleted marker wal).buffer k =
      if k ∈ deleted then s.buffer k else (s.buffer k).snapshot (s.columns k) marker := by
  simp only [buffer, snapshotted, IndexMap.lookup_mapValues]
  cases s.buffers.lookup k with
  | none => split <;> rfl
  | some tb => rfl

variable {job : PersistJob}

theorem table_of_mem_persistJobs {deleted : List TableKey} {wal : Nat} {e : TableKey × TableBuffer}
    (h : job ∈ persistJobs cfg deleted wal e) : job.table = e.1 := by
  unfold persistJobs at h
  split at h
  · cases h
  · obtain ⟨c, -, rfl⟩ := mem_map.mp h
    rfl

private theorem jobs_snapshotted (marker : Int) (wal : Nat) (k : TableKey) :
    (((s.snapshotted cfg deleted marker wal).jobs.filter fun job => job.table = k).map PersistJob.chunk).Perm
      (if k ∈ deleted then [] else ((s.snapshotted cfg deleted marker wal).buffer k).snapshottingChunks) := by
  have hjobs : (s.snapshotted cfg deleted marker wal).jobs =
      (s.snapshotted cfg deleted marker wal).buffers.entries.flatMap (persistJobs cfg deleted wal) := rfl
  rw [hjobs, buffer]
  generalize (s.snapshotted cfg deleted marker wal).buffers = m
  refine ((((IndexMap.entries_perm m k).flatMap_right _).filter _).map _).trans (.of_eq ?_)
  have hself : ∀ job ∈ ((m.lookup k).toList.map (k, ·)).flatMap (persistJobs cfg deleted wal),
      decide (job.table = k) = true := by
    intro job hjob
    obtain ⟨e, he, hjob⟩ := mem_flatMap.mp hjob
    obtain ⟨tb, -, rfl⟩ := mem_map.mp he
    exact decide_eq_true (table_of_mem_persistJobs hjob)
  have hother : ∀ job ∈ (IndexMap.remove m k).entries.flatMap (persistJobs cfg deleted wal),
      ¬ decide (job.table = k) = true := by
    intro job hjob
    obtain ⟨e, he, hjob⟩ := mem_flatMap.mp hjob
    rw [decide_eq_true_eq, table_of_mem_persistJobs hjob]
    exact of_decide_eq_true (mem_filter.mp he).2
  rw [flatMap_append, filter_append, filter_eq_self.mpr hself, filter_eq_nil_iff.mpr hother, append_nil]
  cases m.lookup k with
  | none => split <;> rfl
  | some tb => by_cases hk : k ∈ deleted <;> simp [persistJobs, hk, Function.comp_def]

theorem Held.snapshotted (h : s.Held k) (hjobs : s.jobs = []) (deleted : List TableKey) (marker : Int) (wal : Nat) :
    (s.snapshotted cfg deleted marker wal).Held k := by
  have hfrozen : (s.buffer k).snapshottingChunks = [] := by
    have hperm := h.jobs
    rw [hjobs] at hperm
    exact hperm.nil_eq.symm
  have hbuffer : (s.snapshotted cfg deleted marker wal).buffer k = _ := buffer_snapshotted deleted marker wal k
  have hnew :
      (((s.snapshotted cfg deleted marker wal).jobs.filter fun job => job.table = k).map PersistJob.chunk).Perm _ :=
    jobs_snapshotted deleted marker wal k
  by_cases hk : k ∈ deleted
  · rw [if_pos hk] at hbuffer hnew
    have hsurvivors : (s.snapshotted cfg deleted marker wal).survivors k = s.survivors k := if_pos hk
    exact ⟨hbuffer ▸ h.sound, hsurvivors ▸ hbuffer ▸ h.opened, hsurvivors ▸ hbuffer ▸ h.sealed,
      by rw [hbuffer, hfrozen]; exact hnew, h.fresh, h.covered, hsurvivors ▸ h.numbered⟩
  · rw [if_neg hk] at hbuffer hnew
    have hsurvivors :
        (s.snapshotted cfg deleted marker wal).survivors k = (s.survivors k).sealBefore marker := if_neg hk
    obtain ⟨hlive, hrows⟩ := liveRows_snapshot_perm (s.buffer k) (s.columns k) marker
    have hperm := Survivors.rows_sealBefore_perm marker (s.survivors k)
    refine ⟨hbuffer ▸ h.sound.snapshot _ _, ?_, ?_, hnew, h.fresh, h.covered, ?_⟩
    · rw [hsurvivors, hbuffer, hlive]
      exact h.opened.filter _
    · rw [hsurvivors, hbuffer, hrows]
      have hsealed := h.sealed
      rw [frozenRows, hfrozen, flatMap_nil, nil_append] at hsealed
      exact (hsealed.append ((h.opened.filter _).map _)).trans perm_append_comm
    · rw [hsurvivors]
      exact ⟨(hperm.map _).nodup_iff.mpr h.numbered.1, fun r hr => h.numbered.2 r (hperm.subset hr)⟩

theorem buffer_completed (job : PersistJob) (sizeBytes : Nat) (k : TableKey) : (s.completed job sizeBytes).buffer k =
      if k = job.table then (s.buffer k).removeSnapshottingChunk job.chunk.chunkTime job.chunk.chunkOrdinal
      else s.buffer k := by
  simp only [buffer, completed]
  cases hlookup : s.buffers.lookup job.table with
  | none =>
    by_cases hk : k = job.table
    · subst hk
      rw [if_pos rfl, elim_none, hlookup]
      rfl
    · rw [if_neg hk, elim_none]
  | some tb =>
    by_cases hk : k = job.table
    · subst hk
      simp [hlookup]
    · simp [hk]

theorem files_completed (h : s.Held k) (job : PersistJob) (sizeBytes : Nat) : (s.completed job sizeBytes).files k =
      if k = job.table then s.files k ++ [s.parquetFile job sizeBytes] else s.files k := by
  simp only [files, completed, PersistedFiles.addPersistedFile]
  by_cases hk : k = job.table
  · subst hk
    have hnew : s.parquetFile job sizeBytes ∉ s.persistedFiles.files job.table :=
      fun hmem => (h.fresh _ hmem).ne rfl
    simp [hnew]
  · split <;> simp [hk]

private theorem fileRows_completed (h : s.Held k) (job : PersistJob) (sizeBytes : Nat) :
    (s.completed job sizeBytes).fileRows (s.files k) = s.fileRows (s.files k) :=
  flatMap_congr fun f hf => Function.update_of_ne (h.fresh f hf).ne ..

/-- A pending job is for a frozen chunk, and its completion removes that chunk. -/
theorem Held.snapshottingChunks_completed (h : s.Held job.table) (hjob : job ∈ s.jobs) (sizeBytes : Nat) :
    job.chunk ∈ (s.buffer job.table).snapshottingChunks ∧ (s.buffer job.table).snapshottingChunks.Perm
      (job.chunk :: ((s.completed job sizeBytes).buffer job.table).snapshottingChunks) := by
  have hchunk : job.chunk ∈ (s.buffer job.table).snapshottingChunks :=
    h.jobs.subset (mem_map_of_mem (mem_filter.mpr ⟨hjob, decide_eq_true rfl⟩))
  rw [buffer_completed, if_pos rfl]
  exact ⟨hchunk, h.sound.removeSnapshottingChunk_perm hchunk⟩

theorem Held.contents_completed (h : s.Held job.table) (hjob : job ∈ s.jobs) (sizeBytes : Nat) :
    (s.completed job sizeBytes).contents s.nextFileId = job.chunk.rows :=
  (Function.update_self ..).trans (pwFilter_eq_self.mpr <| pairwise_map.mp
    (h.sound.keys _ (h.snapshottingChunks_completed hjob sizeBytes).1))

private theorem jobs_completed (job : PersistJob) (sizeBytes : Nat) (hjob : job ∈ s.jobs) (k : TableKey) :
    ((s.jobs.filter fun j => j.table = k).map PersistJob.chunk).Perm ((if k = job.table then [job.chunk] else []) ++
        ((s.completed job sizeBytes).jobs.filter fun j => j.table = k).map PersistJob.chunk) := by
  refine (((perm_cons_erase hjob).filter _).map _).trans (.of_eq ?_)
  by_cases hk : k = job.table
  · rw [if_pos hk, filter_cons_of_pos (by simp [hk]), map_cons]
    rfl
  · rw [if_neg hk, filter_cons_of_neg (by simp [Ne.symm hk])]
    rfl

theorem Held.completed (h : s.Held k) (hjob : job ∈ s.jobs) (sizeBytes : Nat) : (s.completed job sizeBytes).Held k := by
  have hbuffer := buffer_completed (s := s) job sizeBytes k
  have hfiles := files_completed h job sizeBytes
  have hrows := fileRows_completed h job sizeBytes
  have hjobs := (jobs_completed job sizeBytes hjob k).symm.trans h.jobs
  have hold {f : ParquetFile} (hf : f ∈ s.files k) :
      (s.completed job sizeBytes).contents f.id = s.contents f.id := Function.update_of_ne (h.fresh f hf).ne ..
  by_cases hk : k = job.table
  · subst hk
    obtain ⟨hchunk, hperm⟩ := h.snapshottingChunks_completed hjob sizeBytes
    have hcontents := h.contents_completed hjob sizeBytes
    rw [if_pos rfl] at hbuffer hfiles hjobs
    refine ⟨hbuffer ▸ h.sound.removeSnapshottingChunk .., hbuffer ▸ h.opened, ?_, ?_, ?_, ?_, h.numbered⟩
    · have hfrozen := hperm.flatMap_right SnapshotChunk.rows
      have hfileRows : (s.completed job sizeBytes).fileRows ((s.completed job sizeBytes).files job.table) =
          s.fileRows (s.files job.table) ++ job.chunk.rows := by
        rw [hfiles, fileRows, flatMap_append, ← fileRows, hrows, flatMap_singleton]
        exact congrArg _ hcontents
      rw [hfileRows]
      refine h.sealed.trans ((hfrozen.append_right _).trans ?_)
      rw [flatMap_cons, append_assoc]
      exact perm_append_comm.trans (.of_eq (append_assoc ..))
    · exact (List.Perm.cons_inv (hjobs.trans hperm))
    · intro f hf
      rw [hfiles] at hf
      rcases mem_snoc.mp hf with hf | rfl
      · exact Nat.lt_succ_of_lt (h.fresh f hf)
      · exact Nat.lt_succ_self _
    · intro f hf
      rw [hfiles] at hf
      rcases mem_snoc.mp hf with hf | rfl
      · rw [hold hf]
        exact h.covered f hf
      · exact fun r hr => h.sound.ranged _ hchunk r (hcontents ▸ hr)
  · rw [if_neg hk] at hbuffer hfiles hjobs
    refine ⟨hbuffer ▸ h.sound, hbuffer ▸ h.opened, ?_, hbuffer ▸ hjobs, ?_, ?_, h.numbered⟩
    · rw [hbuffer, hfiles, hrows]
      exact h.sealed
    · exact fun f hf => Nat.lt_succ_of_lt (h.fresh f (hfiles ▸ hf))
    · intro f hf
      rw [hfiles] at hf
      rw [hold hf]
      exact h.covered f hf

theorem Held.step (h : ∀ k, s.Held k) {a : Action} (hstep : s.step cfg a = some s') (k : TableKey) : s'.Held k := by
  cases a with
  | addColumns table names =>
    obtain ⟨⟩ := hstep
    exact { h k with }
  | bufferChunk table chunkTime rows =>
    obtain ⟨⟩ := hstep
    exact (h k).buffered table chunkTime rows
  | snapshot deleted marker wal =>
    obtain ⟨hjobs, ⟨⟩⟩ := ite_none_right_eq_some.mp hstep
    exact (h k).snapshotted hjobs deleted marker wal
  | complete job sizeBytes =>
    obtain ⟨hjob, ⟨⟩⟩ := ite_none_right_eq_some.mp hstep
    exact (h k).completed hjob sizeBytes

/-- The call returns every surviving row whose time the filter admits exactly once, and no other rows. -/
def ShownOnce (s : State) (k : TableKey) (columns : List String) (filter : ChunkFilter) : Prop :=
  ∃ chunks files, s.getTableChunksAndParquetFiles k columns filter = .ok (chunks, files) ∧
    (∀ r ∈ (s.survivors k).rows, filter.testTimeStampMinMax r.time r.time →
      (chunks.flatMap BufferChunk.rows ++ s.fileRows files).count r = 1) ∧
    ∀ r ∈ chunks.flatMap BufferChunk.rows ++ s.fileRows files, r ∈ (s.survivors k).rows

def places (s : State) (k : TableKey) : List StoredRow :=
  (s.buffer k).liveRows.map Prod.snd ++ ((s.buffer k).frozenRows ++ s.fileRows (s.files k))

private theorem Held.rows_perm (h : s.Held k) : (s.survivors k).rows.Perm (s.places k) :=
  (h.opened.map _).append h.sealed

theorem Held.rows_nodup (h : s.Held k) : (s.survivors k).rows.Nodup := List.Nodup.of_map _ h.numbered.1

theorem getTableChunksAndParquetFiles_eq_ok {files : List ParquetFile} :
    s.getTableChunksAndParquetFiles k columns filter = .ok (chunks, files) ↔
      (s.buffer k).tableChunksLocked columns filter = .ok chunks ∧ files = Cluster.Node.sortByMinTimeDesc
        ((s.files k).filter fun f => filter.testTimeStampMinMax f.minTime f.maxTime) := by
  have hbuffer : s.tableChunksLocked k columns filter = (s.buffer k).tableChunksLocked columns filter := by
    rw [tableChunksLocked, buffer]
    cases s.buffers.lookup k <;> rfl
  rw [getTableChunksAndParquetFiles, hbuffer, bind_eq_ok]
  simp only [Except.ok.injEq, Prod.mk.injEq]
  constructor
  · rintro ⟨_, hchunks, rfl, rfl⟩
    exact ⟨hchunks, rfl⟩
  · rintro ⟨hchunks, rfl⟩
    exact ⟨_, hchunks, rfl, rfl⟩

private theorem Held.shown (h : s.Held k)
    (hchunks : (s.buffer k).tableChunksLocked columns filter = .ok chunks) : s.ShownOnce k columns filter := by
  refine ⟨chunks, _, getTableChunksAndParquetFiles_eq_ok.mpr ⟨hchunks, rfl⟩, ?_⟩
  generalize hadmitted : (s.files k).filter (fun f => filter.testTimeStampMinMax f.minTime f.maxTime) = admitted
  have hshown : (chunks.flatMap BufferChunk.rows ++ s.fileRows (Cluster.Node.sortByMinTimeDesc admitted)).Perm
      ((s.buffer k).admittedLive filter ++ ((s.buffer k).admittedFrozen filter ++ s.fileRows admitted)) := by
    refine ((tableChunksLocked_eq_ok hchunks).append ((perm_insertionSort _ _).flatMap_right _)).trans ?_
    rw [append_assoc]
    exact perm_append_comm_assoc ..
  have hsub : ((s.buffer k).admittedLive filter ++
      ((s.buffer k).admittedFrozen filter ++ s.fileRows admitted)).Sublist (s.places k) :=
    (admittedLive_sublist ..).append ((filter_sublist.flatMap _).append ((hadmitted ▸ filter_sublist).flatMap _))
  refine ⟨fun r hr htime => ?_, fun r hr => h.rows_perm.symm.subset (hsub.subset (hshown.subset hr))⟩
  refine count_eq_one_of_mem (hshown.nodup_iff.mpr ((h.rows_perm.nodup_iff.mp h.rows_nodup).sublist hsub))
    (hshown.symm.subset ?_)
  rcases mem_append.mp (h.rows_perm.subset hr) with hr | hr
  · obtain ⟨e, he, rfl⟩ := mem_map.mp hr
    exact mem_append_left _ (h.sound.mem_admittedLive he htime)
  · refine mem_append_right _ ?_
    rcases mem_append.mp hr with hr | hr
    · exact mem_append_left _ (h.sound.mem_admittedFrozen hr htime)
    · refine mem_append_right _ ?_
      obtain ⟨f, hf, hr⟩ := mem_flatMap.mp hr
      obtain ⟨hmin, hmax⟩ := h.covered f hf r hr
      rw [← hadmitted]
      exact mem_flatMap.mpr ⟨f, mem_filter.mpr ⟨hf, ChunkFilter.test_of_covers htime hmin hmax⟩, hr⟩

/-- In every interleaving each surviving row is in one place, and a call shows it once if and only if the frozen
chunks that the filter admits have all columns of the query. -/
theorem surviving_rows_shown_once_iff {as : List Action} (hrun : run (step cfg) .new as = some s) :
    (∀ k, ∀ r ∈ (s.survivors k).rows, (s.places k).count r = 1) ∧
    (∀ k columns filter, s.ShownOnce k columns filter ↔
      ∀ c ∈ (s.buffer k).snapshottingChunks, c.Admitted filter → columns ⊆ c.columns) ∧
    ∀ job sizeBytes s', s.step cfg (.complete job sizeBytes) = some s' →
      (∃ f, s'.files job.table = s.files job.table ++ [f] ∧ s'.contents f.id = job.chunk.rows) ∧
      (s.buffer job.table).snapshottingChunks.Perm (job.chunk :: (s'.buffer job.table).snapshottingChunks) ∧
      ∀ k, k ≠ job.table → (s'.buffer k).snapshottingChunks = (s.buffer k).snapshottingChunks := by
  have hheld : ∀ k, s.Held k := invariant_of_step (Held.step ·) Held.new hrun
  refine ⟨fun k r hr => ?_, fun k columns filter => ⟨?_, fun hall => ?_⟩, fun job sizeBytes s' hstep => ?_⟩
  · exact count_eq_one_of_mem ((hheld k).rows_perm.nodup_iff.mp (hheld k).rows_nodup) ((hheld k).rows_perm.subset hr)
  · rintro ⟨chunks, files, hcall, -⟩
    exact exists_tableChunksLocked_iff.mp ⟨chunks, (getTableChunksAndParquetFiles_eq_ok.mp hcall).1⟩
  · obtain ⟨chunks, hchunks⟩ := exists_tableChunksLocked_iff.mpr hall
    exact (hheld k).shown hchunks
  · obtain ⟨hjob, ⟨⟩⟩ := ite_none_right_eq_some.mp hstep
    have hjobHeld := hheld job.table
    refine ⟨⟨s.parquetFile job sizeBytes, ?_, hjobHeld.contents_completed hjob sizeBytes⟩,
      (hjobHeld.snapshottingChunks_completed hjob sizeBytes).2, fun k hk => ?_⟩
    · rw [files_completed hjobHeld, if_pos rfl]
    · rw [buffer_completed, if_neg hk]

private def rowAt (time : Int) (host : String) : Row where
  time := time
  fields := IndexMap.put (IndexMap.put (.empty _) 0 (.tag host)) 1 (.timestamp time)
  timed := ⟨1, rfl⟩

private def smallChunks : Config := ⟨1, "n", fun _ => ""⟩

private def splitWindow : List Action :=
  [.addColumns (0, 1) ["host", "time"], .bufferChunk (0, 1) 0 [rowAt 3 "a"], .bufferChunk (0, 1) 0 [rowAt 4 "b"],
    .snapshot [] 10 7, .bufferChunk (0, 1) 0 [rowAt 3 "a"]]

theorem split_window_shown_once : ∃ s, run (step smallChunks) .new splitWindow = some s ∧ s.jobs.length = 2 ∧
    s.ShownOnce (0, 1) ["host", "time"] ⟨none, none⟩ := by
  refine exists_of_decide (fun s => s.jobs.length = 2 ∧
    ∀ c ∈ (s.buffer (0, 1)).snapshottingChunks, ["host", "time"] ⊆ c.columns) (by decide) fun s hrun ⟨hjobs, hall⟩ => ?_
  exact ⟨hjobs, ((surviving_rows_shown_once_iff hrun).2.1 (0, 1) ["host", "time"] ⟨none, none⟩).mpr
    fun c hc _ => hall c hc⟩

/-- A column added while one of two chunks is still frozen: a query of the new definition fails, so
that the row of the other one, which is only in its file, is not shown either. -/
theorem added_column_hides_persisted_row :
    ∃ s, run (step smallChunks) .new [.addColumns (0, 1) ["host", "time"], .bufferChunk (0, 1) 0 [rowAt 3 "a"],
      .bufferChunk (0, 1) 0 [rowAt 4 "b"], .snapshot [] 10 7,
      .complete ⟨(0, 1), ⟨0, 1, (4, 4), ["host", "time"], [storedRow 1 (rowAt 4 "b") none]⟩,
        "n/dbs/0/1//0000000007-1.parquet"⟩ 100,
      .addColumns (0, 1) ["load"]] = some s ∧
      storedRow 1 (rowAt 4 "b") none ∈ (s.survivors (0, 1)).rows ∧
      storedRow 1 (rowAt 4 "b") none ∉ (s.buffer (0, 1)).liveRows.map Prod.snd ++ (s.buffer (0, 1)).frozenRows ∧
      s.getTableChunksAndParquetFiles (0, 1) (s.columns (0, 1)) ⟨none, none⟩ =
        .error "error getting batches Field not found in table buffer: load" ∧
      ¬ s.ShownOnce (0, 1) (s.columns (0, 1)) ⟨none, none⟩ := by
  refine ⟨_, rfl, by decide, by decide, by rfl, ?_⟩
  rintro ⟨chunks, files, hcall, -⟩
  cases hcall

end State
end VarveDB.Visible
