import VarveDB.Write.Materialize

/-! Queries of a table's buffer while columns are added to the table. -/
namespace VarveDB.AddedColumns
open Library Runs FileIndex TableBuffer ColumnBuffer List

structure Column where
  name : String
  id : Nat
  deriving DecidableEq

/-- A table; its frozen chunks are those of the last snapshot, built under the definition of that time. -/
structure State where
  definition : List Column
  buffer : TableBuffer
  frozenUnder : List Column
  nextRow : Nat

inductive Action where
  | write (added : List Column) (chunkTime : Int) (rows : List Row)
  | snapshot (olderThanChunkTime : Int)
  | complete (chunkTime : Int) (chunkOrdinal : Nat)

inductive Error where
  | fieldNotFound (name : String)
  | materialize (error : MaterializeError)

namespace State

def new (timeId : Nat) : State := ⟨[⟨"time", timeId⟩], .new, [], 0⟩

def step (limit : Nat) (s : State) : Action → Option State
  | .write added chunkTime rows =>
    if ((s.definition ++ added).map Column.name).Nodup then
      some { s with
        definition := s.definition ++ added
        buffer := s.buffer.bufferChunk limit chunkTime s.nextRow rows
        nextRow := s.nextRow + rows.length }
    else none
  | .snapshot olderThan => some { s with
      buffer := s.buffer.snapshot (s.definition.map Column.name) olderThan
      frozenUnder := s.definition }
  | .complete chunkTime chunkOrdinal =>
    some { s with buffer := s.buffer.removeSnapshottingChunk chunkTime chunkOrdinal }

variable (s : State) (tableDef : List Column)

def columnByName (c : SnapshotChunk) (col : Column) : Except Error (List (Option FieldData)) :=
  match s.frozenUnder.find? fun f => f.name = col.name with
  | some f => .ok (c.rows.map fun r => r.values.lookup f.id)
  | none => .error (.fieldNotFound col.name)

def snapshottingBatch (c : SnapshotChunk) : Except Error RecordBatch := do
  let cols ← tableDef.mapM (s.columnByName c)
  (RecordBatch.tryNew cols).mapError .materialize

def liveBatch (rows : List StoredRow) : Except Error RecordBatch :=
  (RecordBatch.tryNew (tableDef.map fun col => rows.map fun r => r.values.lookup col.id)).mapError .materialize

def partitionedRecordBatches (filter : ChunkFilter) : Except Error (List RecordBatch) := do
  let frozen ← (s.buffer.snapshottingChunks.filter (·.Admitted filter)).mapM (s.snapshottingBatch tableDef)
  let live ← (s.buffer.liveBatches filter).mapM fun b => liveBatch tableDef b.rows
  .ok (frozen ++ live)

/-- Every row of the admitted chunks is returned once, with its value for each column of the query, or null. -/
def Returned (filter : ChunkFilter) : Prop :=
  ∃ batches, s.partitionedRecordBatches tableDef filter = .ok batches ∧
    batches.flatMap RecordBatch.rows = (s.buffer.admittedFrozen filter ++ s.buffer.admittedLive filter).map fun r =>
      tableDef.map fun col => r.values.lookup col.id

variable {s tableDef} {filter : ChunkFilter} {limit : Nat} {c : SnapshotChunk}

/-- The definition only grows, and frozen chunks were built under a part of it. -/
structure Grown (tableDef : List Column) (s : State) : Prop where
  nonempty : tableDef ≠ []
  planned : tableDef ⊆ s.definition
  names : (s.definition.map Column.name).Nodup
  frozen : s.frozenUnder ⊆ s.definition

theorem Grown.step {s' : State} {a : Action} (h : Grown tableDef s) (hstep : s.step limit a = some s') :
    Grown tableDef s' := by
  cases a with
  | write added chunkTime rows =>
    obtain ⟨hnames, ⟨⟩⟩ := ite_none_right_eq_some.mp hstep
    exact ⟨h.nonempty, subset_append_of_subset_left _ h.planned, hnames, subset_append_of_subset_left _ h.frozen⟩
  | snapshot olderThan =>
    cases hstep
    exact { h with frozen := fun _ => id }
  | complete chunkTime chunkOrdinal =>
    cases hstep
    exact { h with }

private theorem liveBatch_ok (hne : tableDef ≠ []) (rows : List StoredRow) :
    ∃ batch, liveBatch tableDef rows = .ok batch ∧
      batch.rows = rows.map fun r => tableDef.map fun col => r.values.lookup col.id := by
  obtain ⟨batch, hbatch, hrows⟩ := RecordBatch.exists_ofRows rows (map_eq_nil_iff (f := Column.id).not.mpr hne)
  rw [map_map] at hbatch
  refine ⟨batch, ?_, by simpa only [map_map, Function.comp_def] using hrows⟩
  exact congrArg (Except.mapError Error.materialize) hbatch

section
variable (h : Grown tableDef s)
include h

/-- A name of the query that a frozen batch has is that of the same column. -/
private theorem Grown.columnByName_ok {col : Column} (hcol : col ∈ tableDef)
    {values : List (Option FieldData)} : s.columnByName c col = .ok values ↔
      col ∈ s.frozenUnder ∧ values = c.rows.map fun r => r.values.lookup col.id := by
  have hsame {f : Column} (hf : f ∈ s.frozenUnder) (hname : f.name = col.name) : f = col :=
    inj_on_of_nodup_map h.names (h.frozen hf) (h.planned hcol) hname
  unfold columnByName
  split
  · rename_i f hfind
    have hf := mem_of_find?_eq_some hfind
    obtain rfl := hsame hf (by simpa using List.find?_some hfind)
    simp [hf, eq_comm]
  · rename_i hfind
    have hnot : col ∉ s.frozenUnder := fun hmem => by simpa using List.find?_eq_none.mp hfind col hmem
    simp [hnot]

private theorem Grown.snapshottingBatch_ok {batch : RecordBatch} :
    s.snapshottingBatch tableDef c = .ok batch ↔ tableDef ⊆ s.frozenUnder ∧ liveBatch tableDef c.rows = .ok batch := by
  rw [snapshottingBatch, bind_eq_ok]
  simp only [mapM_eq_ok_map fun col hcol values => h.columnByName_ok (c := c) hcol]
  constructor
  · rintro ⟨_, ⟨hfrozen, rfl⟩, hbatch⟩
    exact ⟨hfrozen, hbatch⟩
  · rintro ⟨hfrozen, hbatch⟩
    exact ⟨_, ⟨hfrozen, rfl⟩, hbatch⟩

private theorem Grown.returned_iff : s.Returned tableDef filter ↔
    ((∃ c ∈ s.buffer.snapshottingChunks, c.Admitted filter) → tableDef ⊆ s.frozenUnder) := by
  choose batch hbatch hrows using liveBatch_ok h.nonempty
  have hfrozen {frozen : List RecordBatch} :
      (s.buffer.snapshottingChunks.filter (·.Admitted filter)).mapM (s.snapshottingBatch tableDef) = .ok frozen ↔
        (∀ c ∈ s.buffer.snapshottingChunks.filter (·.Admitted filter), tableDef ⊆ s.frozenUnder) ∧
        frozen = (s.buffer.snapshottingChunks.filter (·.Admitted filter)).map fun c => batch c.rows :=
    mapM_eq_ok_map fun c _ b => by rw [h.snapshottingBatch_ok, hbatch, Except.ok.injEq, eq_comm (a := b)]
  have hlive : (s.buffer.liveBatches filter).mapM (fun b => liveBatch tableDef b.rows) =
      .ok ((s.buffer.liveBatches filter).map fun b => batch b.rows) :=
    (mapM_eq_ok_map (P := fun _ => True) fun b _ _ => by simp [hbatch, eq_comm]).mpr ⟨fun _ _ => trivial, rfl⟩
  constructor
  · rintro ⟨batches, hbatches, -⟩ ⟨c, hc, hadmitted⟩
    obtain ⟨frozen, hok, -⟩ := bind_eq_ok.mp hbatches
    exact (hfrozen.mp hok).1 c (mem_filter.mpr ⟨hc, decide_eq_true hadmitted⟩)
  · intro hcolumns
    refine ⟨_, bind_eq_ok.mpr ⟨_, hfrozen.mpr ⟨fun c hc => ?_, rfl⟩, bind_eq_ok.mpr ⟨_, hlive, rfl⟩⟩, ?_⟩
    · obtain ⟨hc, hadmitted⟩ := mem_filter.mp hc
      exact hcolumns ⟨c, hc, of_decide_eq_true hadmitted⟩
    · simp only [flatMap_append, flatMap_map, hrows, admittedFrozen, admittedLive, map_append, map_flatMap]

end

/-- A query with the definition of an earlier state returns the rows of the admitted chunks exactly if the last snapshot
was taken under a definition with its columns, or no chunk of it is admitted. -/
theorem buffered_rows_returned_iff {timeId : Nat} {as bs : List Action} {planning s : State}
    (hplanning : run (step limit) (.new timeId) as = some planning) (hrun : run (step limit) planning bs = some s) :
    s.Returned planning.definition filter ↔
      ((∃ c ∈ s.buffer.snapshottingChunks, c.Admitted filter) → planning.definition ⊆ s.frozenUnder) := by
  have hnew : Grown (new timeId).definition (.new timeId) :=
    ⟨by simp [new], fun _ => id, by simp [new], by simp [new]⟩
  have hgrown := invariant_of_step Grown.step hnew hplanning
  have hnonempty : planning.definition ≠ [] := ne_nil_of_mem (hgrown.planned mem_cons_self)
  exact Grown.returned_iff (invariant_of_step Grown.step
    ⟨hnonempty, fun _ => id, hgrown.names, hgrown.frozen⟩ hrun)

private def rowAt (time : Int) (host : String) : Row where
  time := time
  fields := IndexMap.put (IndexMap.put (.empty _) 1 (.tag host)) 0 (.timestamp time)
  timed := ⟨0, rfl⟩

/-- A column is added after two writes to one window, one of them before a snapshot under the new definition. -/
theorem column_added_before_snapshot_returned :
    ∃ s, run (step 100) (.new 0) [.write [⟨"host", 1⟩] 0 [rowAt 3 "a"], .write [⟨"load", 2⟩] 10 [rowAt 12 "b"],
      .snapshot 10] = some s ∧ s.buffer.snapshottingChunks.length = 1 ∧ s.Returned s.definition ⟨none, none⟩ := by
  refine exists_of_decide (fun s => s.buffer.snapshottingChunks.length = 1 ∧ s.definition ⊆ s.frozenUnder) (by decide)
    fun s hrun ⟨hfrozen, hall⟩ => ?_
  exact ⟨hfrozen, (buffered_rows_returned_iff hrun (run_nil s)).mpr fun _ => hall⟩

/-- A column added while a chunk is frozen: the query fails, although the live chunk is only filled with nulls. -/
theorem column_added_after_snapshot_not_returned :
    ∃ s, run (step 100) (.new 0) [.write [⟨"host", 1⟩] 0 [rowAt 3 "a"], .snapshot 10,
      .write [⟨"load", 2⟩] 10 [rowAt 12 "b"]] = some s ∧
      s.partitionedRecordBatches s.definition ⟨none, none⟩ = .error (.fieldNotFound "load") ∧
      ¬ s.Returned s.definition ⟨none, none⟩ := by
  refine ⟨_, rfl, by rfl, ?_⟩
  rintro ⟨batches, hbatches, -⟩
  cases hbatches

end State
end VarveDB.AddedColumns
