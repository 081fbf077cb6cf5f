import VarveDB.Write.ColumnCapacity

/-! The batches that the chunks of a window are materialized to: one row for each point that was written. -/
namespace VarveDB.ColumnBuffer
open Library Runs TableBuffer List

def setSlices : Nat → Option Nat → List Bool → List (Nat × Nat)
  | i, start, [] => start.toList.map (·, i)
  | i, none, bit :: bits => setSlices (i + 1) (if bit then some i else none) bits
  | i, some start, true :: bits => setSlices (i + 1) (some start) bits
  | i, some start, false :: bits => (start, i) :: setSlices (i + 1) none bits

def slice {α : Type} (values : List α) (range : Nat × Nat) : List α := (values.take range.2).drop range.1

def masked {α : Type} (values : List α) (bits : List Bool) : List α := ((values.zip bits).filter Prod.snd).map Prod.fst

structure LiveRows where
  rows : Nat × Nat
  kept : Nat
  runs : Option (List Bool × List (Nat × Nat))

def LiveRows.masked (live : List Bool) (rows : Nat × Nat) : LiveRows :=
  let bits := slice live rows
  ⟨rows, bits.count true, some (bits, (setSlices 0 none bits).map fun run => (rows.1 + run.1, rows.1 + run.2))⟩

structure RecordBatch where
  numRows : Nat
  columns : List (List (Option FieldData))
  rectangular : ∀ column ∈ columns, column.length = numRows

inductive MaterializeError where
  | rowRangeOutOfBounds (start stop rowCount : Nat)
  | arrow

def RecordBatch.tryNew : List (List (Option FieldData)) → Except MaterializeError RecordBatch
  | [] => .error .arrow
  | first :: columns =>
    if h : ∀ column ∈ first :: columns, column.length = first.length then .ok ⟨first.length, first :: columns, h⟩
    else .error .arrow

def RecordBatch.rows (b : RecordBatch) : List (List (Option FieldData)) :=
  (List.range b.numRows).map fun i => b.columns.map fun column => column[i]?.join

namespace MutableTableChunk

variable (c : MutableTableChunk) (columns : List Nat)

def liveRows (rows : Nat × Nat) : LiveRows :=
  if c.supersededCount = 0 then ⟨rows, rows.2 - rows.1, none⟩ else .masked c.live rows

def columnFor (b : Builder) (live : LiveRows) : List (Option FieldData) :=
  match live.runs with
  | none => if live.rows.2 - live.rows.1 = c.rowCount then b.values else slice b.values live.rows
  | some (bits, runs) => if b.kind = .tag then masked (slice b.values live.rows) bits else runs.flatMap (slice b.values)

def materialize (start stop : Nat) : Except MaterializeError RecordBatch :=
  if start > stop ∨ stop > c.rowCount then .error (.rowRangeOutOfBounds start stop c.rowCount)
  else
    let live := c.liveRows (start, stop)
    RecordBatch.tryNew (columns.map fun id =>
      (c.data.lookup id).elim (List.replicate live.kept none) fun b => c.columnFor b live)

def recordBatch : Except MaterializeError RecordBatch :=
  c.materialize columns 0 c.rowCount

end MutableTableChunk

section Runs
variable {α : Type} (values : List α) (bits : List Bool)

private theorem masked_cons (a : α) (bit : Bool) :
    masked (a :: values) (bit :: bits) = (if bit then [a] else []) ++ masked values bits := by
  cases bit <;> simp [masked]

theorem slice_concat {values : List α} {s i : Nat} {a : α} (hi : values[i]? = some a) (hs : s ≤ i) :
    slice values (s, i + 1) = slice values (s, i) ++ [a] := by
  obtain ⟨hlt, rfl⟩ := List.getElem?_eq_some_iff.mp hi
  rw [slice, slice, take_succ_eq_append_getElem hlt, drop_append_of_le_length]
  rw [length_take]
  omega

private theorem flatMap_slice_setSlices {i : Nat} (hlen : i + bits.length = values.length) :
    (setSlices i none bits).flatMap (slice values) = masked (values.drop i) bits ∧
    ∀ s ≤ i, (setSlices i (some s) bits).flatMap (slice values) = slice values (s, i) ++
      masked (values.drop i) bits := by
  induction bits generalizing i with
  | nil => simp [setSlices, masked]
  | cons bit bits ih =>
    rw [length_cons] at hlen
    have hlt : i < values.length := by omega
    have hget := List.getElem?_eq_getElem hlt
    obtain ⟨hclosed, hopen⟩ := ih (i := i + 1) (by omega)
    have hmasked : masked (values.drop i) (bit :: bits) =
        (if bit then [values[i]] else []) ++ masked (values.drop (i + 1)) bits := by
      rw [drop_eq_getElem_cons hlt, masked_cons]
    have hsingle : slice values (i, i) = [] := by simp [slice]
    cases bit with
    | false =>
      refine ⟨?_, fun s hs => ?_⟩
      · simp [setSlices, hclosed, hmasked]
      · simp [setSlices, hclosed, hmasked]
    | true =>
      refine ⟨?_, fun s hs => ?_⟩
      · rw [setSlices, if_pos rfl, hopen i (Nat.le_succ i), slice_concat hget le_rfl, hsingle, hmasked]
        rfl
      · rw [setSlices, hopen s (hs.trans (Nat.le_succ i)), slice_concat hget hs, hmasked, append_assoc]
        rfl

private theorem masked_map (slots : List Slot) (f : Slot → α) :
    masked (slots.map f) (slots.map Slot.live) = (slots.filter Slot.live).map f := by
  induction slots with
  | nil => rfl
  | cons slot slots ih =>
    rw [masked] at ih
    cases hlive : slot.live <;> simp [masked, hlive, ih]

end Runs

theorem RecordBatch.exists_tryNew {columns : List (List (Option FieldData))} {n : Nat} (hne : columns ≠ [])
    (h : ∀ column ∈ columns, column.length = n) :
    ∃ batch, tryNew columns = .ok batch ∧ batch.numRows = n ∧ batch.columns = columns := by
  obtain ⟨first, rest, rfl⟩ := exists_cons_of_ne_nil hne
  have hfirst := h first mem_cons_self
  rw [tryNew, dif_pos fun column hcolumn => (h column hcolumn).trans hfirst.symm]
  exact ⟨_, rfl, hfirst, rfl⟩

/-- The values of rows, column by column, are a batch of these rows. -/
theorem RecordBatch.exists_ofRows (rows : List StoredRow) {ids : List Nat} (hne : ids ≠ []) :
    ∃ batch, tryNew (ids.map fun id => rows.map fun r => r.values.lookup id) = .ok batch ∧
      batch.rows = rows.map fun r => ids.map r.values.lookup := by
  have hlengths : ∀ column ∈ ids.map fun id => rows.map fun r => r.values.lookup id, column.length = rows.length := by
    intro column hcolumn
    obtain ⟨id, -, rfl⟩ := mem_map.mp hcolumn
    exact length_map _
  obtain ⟨batch, hbatch, hrows, hcolumns⟩ := exists_tryNew (map_eq_nil_iff.not.mpr hne) hlengths
  refine ⟨batch, hbatch, ext_getElem (by simp [RecordBatch.rows, hrows]) fun i hi hi' => ?_⟩
  have hlt : i < rows.length := by simpa using hi'
  simp [RecordBatch.rows, hcolumns, List.getElem?_eq_getElem hlt]

namespace Stores
variable {types : Nat → Kind} {c : MutableTableChunk} {m : TableBuffer.MutableTableChunk}

theorem slice_whole {α : Type} {l : List α} (hl : l.length = c.rowCount) : slice l (0, c.rowCount) = l := by
  rw [slice, ← hl, take_length, drop_zero]

variable (h : Stores types c m)
include h

theorem filter_live (hzero : c.supersededCount = 0) : m.slots.filter Slot.live = m.slots := by
  rw [h.superseded, TableBuffer.MutableTableChunk.supersededCount, length_eq_zero_iff, filter_eq_nil_iff] at hzero
  exact filter_eq_self.mpr fun slot hslot => by simpa using hzero slot hslot

theorem liveRows_whole : c.liveRows (0, c.rowCount) = ⟨(0, c.rowCount), (m.slots.filter Slot.live).length,
      if c.supersededCount = 0 then none else some (c.live, setSlices 0 none c.live)⟩ := by
  have hlive : c.live.length = c.rowCount := by rw [h.live, length_map, h.rowCount]
  rw [MutableTableChunk.liveRows]
  by_cases hzero : c.supersededCount = 0
  · rw [if_pos hzero, if_pos hzero, h.filter_live hzero, ← h.rowCount]
    rfl
  · have hcount : c.live.count true = (m.slots.filter Slot.live).length := by
      rw [h.live, List.count, countP_map, countP_eq_length_filter]
      simp [Function.comp_def]
    rw [if_neg hzero, if_neg hzero, LiveRows.masked, slice_whole hlive, hcount]
    simp

/-- A materialized column is that of the live rows. -/
theorem columnFor_eq {id : Nat} {b : Builder} (hb : c.data.lookup id = some b) :
    c.columnFor b (c.liveRows (0, c.rowCount)) = (m.slots.filter Slot.live).map fun slot =>
      slot.row.values.lookup id := by
  have hvalues : b.values = m.slots.map fun slot => slot.row.values.lookup id := by
    rw [show (m.slots.map fun slot => slot.row.values.lookup id) = columnOf m id from rfl, ← h.column,
      MutableTableChunk.column, hb, elim_some]
  have hlength : b.values.length = c.rowCount := h.regular.lengths id b hb
  rw [MutableTableChunk.columnFor, h.liveRows_whole]
  by_cases hzero : c.supersededCount = 0
  · rw [h.filter_live hzero, ← hvalues]
    simp [hzero]
  · have hlive : c.live.length = c.rowCount := by rw [h.live, length_map, h.rowCount]
    have hmasked : masked b.values c.live = (m.slots.filter Slot.live).map fun slot => slot.row.values.lookup id := by
      rw [hvalues, h.live, masked_map]
    simp only [if_neg hzero, slice_whole hlength]
    split
    · exact hmasked
    · rw [(flatMap_slice_setSlices b.values c.live (by omega)).1, drop_zero, hmasked]

/-- The batch of a chunk holds the live rows of the row-wise one. -/
theorem exists_recordBatch {columns : List Nat} (hne : columns ≠ []) :
    ∃ batch, c.recordBatch columns = .ok batch ∧ batch.rows = m.liveRows.map fun r => columns.map r.values.lookup := by
  have hcolumns : (columns.map fun id => (c.data.lookup id).elim (List.replicate (c.liveRows (0, c.rowCount)).kept none)
      fun b => c.columnFor b (c.liveRows (0, c.rowCount))) =
      columns.map fun id => (m.slots.filter Slot.live).map fun slot => slot.row.values.lookup id := by
    refine map_congr_left fun id _ => ?_
    cases hb : c.data.lookup id with
    | some b => exact h.columnFor_eq hb
    | none =>
      rw [elim_none, h.liveRows_whole, eq_comm, eq_replicate_iff]
      refine ⟨length_map _, fun v hv => ?_⟩
      obtain ⟨slot, hslot, rfl⟩ := mem_map.mp hv
      have hcolumn := h.column id
      rw [MutableTableChunk.column, hb, elim_none, eq_comm, eq_replicate_iff] at hcolumn
      exact hcolumn.2 _ (mem_map_of_mem (mem_filter.mp hslot).1)
  rw [MutableTableChunk.recordBatch, MutableTableChunk.materialize, if_neg (by simp)]
  simp only [hcolumns]
  have h := RecordBatch.exists_ofRows m.liveRows hne
  simpa only [TableBuffer.MutableTableChunk.liveRows, map_map, Function.comp_def] using h

end Stores

def materialized (hash : RowKey → Nat) (capacity limit : Nat) (chunkTime : Int) (columns : List Nat)
    (writes : List (List Row)) : Option (List (List (Option FieldData))) := do
  let cb ← run (bufferChunk hash capacity limit chunkTime) (.empty _) writes
  let batches ← ((cb.lookup chunkTime).getD .empty).chunks.mapM fun c => (c.recordBatch columns).toOption
  some (batches.flatMap RecordBatch.rows)

def addWrite (limit : Nat) (m : TableBuffer.ChunkTimeBuffer) (rows : List Row) : TableBuffer.ChunkTimeBuffer :=
  rows.foldl (fun m row => m.addRow 0 row) (m.withTarget limit rows)

def window (limit : Nat) (writes : List (List Row)) : TableBuffer.ChunkTimeBuffer :=
  writes.foldl (addWrite limit) .empty

section Bounds
variable {types : Nat → Kind} {capacity : Nat} {m : TableBuffer.ChunkTimeBuffer}

private theorem Bounded.of_addWrite {limit : Nat} {rows : List Row}
    (h : Bounded types capacity (addWrite limit m rows)) : Bounded types capacity m := by
  have h := h.of_addRows
  rw [TableBuffer.ChunkTimeBuffer.withTarget] at h
  split at h
  · exact fun chunk hchunk => h chunk (mem_append_left _ hchunk)
  · exact h

private theorem Bounded.of_addWrites {limit : Nat} {writes : List (List Row)}
    (h : Bounded types capacity (writes.foldl (addWrite limit) m)) : Bounded types capacity m := by
  induction writes generalizing m with
  | nil => exact h
  | cons rows writes ih => exact (ih h).of_addWrite

private theorem storedBytes_le_sum (kind : Kind) (values : List (Option FieldData)) :
    storedBytes kind values ≤ (values.map bytesOf).sum := by
  rw [storedBytes]
  split
  · induction values with
    | nil => rfl
    | cons v values ih =>
      rw [toFinset_cons, map_cons, sum_cons]
      by_cases hv : v ∈ values.toFinset
      · rw [Finset.insert_eq_of_mem hv]
        exact ih.trans (Nat.le_add_left _ _)
      · rw [Finset.sum_insert hv]
        exact Nat.add_le_add_left ih _
  · exact le_rfl

private def keptBytes (chunk : TableBuffer.MutableTableChunk) : Nat :=
  (chunk.slots.map fun slot => (slot.row.values.values.map fun v => bytesOf (some v)).sum).sum

private theorem storedBytes_columnOf_le (kind : Kind) (chunk : TableBuffer.MutableTableChunk) (id : Nat) :
    storedBytes kind (columnOf chunk id) ≤ keptBytes chunk := by
  refine (storedBytes_le_sum _ _).trans ?_
  rw [columnOf, map_map]
  refine List.sum_le_sum fun slot _ => ?_
  cases hv : slot.row.values.lookup id with
  | none => simp [bytesOf, hv]
  | some v =>
    rw [Function.comp_apply, hv]
    exact List.le_sum_of_mem (mem_map_of_mem (IndexMap.mem_values_of_lookup hv))

/-- A window is within some capacity, although it has a column for every id. -/
private theorem exists_bounded (types : Nat → Kind) (m : TableBuffer.ChunkTimeBuffer) :
    ∃ capacity, Bounded types capacity m :=
  ⟨(m.chunks.map keptBytes).sum, fun chunk hchunk id =>
    (storedBytes_columnOf_le (types id) chunk id).trans (List.le_sum_of_mem (mem_map_of_mem hchunk))⟩

/-- Chunks within the capacity hold columns within it. -/
private theorem bounded_of_stores {cs : List MutableTableChunk} (h : List.Forall₂ (Stores types) cs m.chunks)
    (hwithin : ∀ c ∈ cs, c.Within capacity) : Bounded types capacity m := by
  intro chunk hchunk id
  obtain ⟨i, hi⟩ := mem_iff_getElem?.mp hchunk
  obtain ⟨c, hc, hstores⟩ := forall₂_getElem? h hi
  rw [← hstores.column, MutableTableChunk.column]
  cases hb : c.data.lookup id with
  | none => exact (storedBytes_replicate_none _ _).trans_le (Nat.zero_le _)
  | some b => exact hstores.kinds id b hb ▸ hwithin c (mem_of_getElem? hc) id b hb

end Bounds

section Window
variable {hash : RowKey → Nat} {types : Nat → Kind} {keys : Set RowKey} {chunkTime : Int} {capacity : Nat}

/-- The window holds the rows of the row-wise one, which are what the rows written so far come to. -/
private structure Holds (hash : RowKey → Nat) (types : Nat → Kind) (keys : Set RowKey) (ctb : ChunkTimeBuffer)
    (m : TableBuffer.ChunkTimeBuffer) (written : List Row) : Prop where
  refines : Refines hash types keys ctb m
  sound : m.Sound
  collapsed : m.Collapsed written

private theorem Holds.bufferChunk (limit : Nat) {cb : ColumnBuffer} {m : TableBuffer.ChunkTimeBuffer}
    {written : List Row} (h : Holds hash types keys ((cb.lookup chunkTime).getD .empty) m written)
    (hinj : Set.InjOn hash keys) {rows : List Row} (hkeys : ∀ row ∈ rows, rowKeyFor row ∈ keys)
    (htyped : ∀ row ∈ rows, ∀ f ∈ row.fields.entries, f.2.kind = types f.1)
    (hbounded : Bounded types capacity (addWrite limit m rows)) :
    ∃ cb', bufferChunk hash capacity limit chunkTime cb rows = some cb' ∧
      Holds hash types keys ((cb'.lookup chunkTime).getD .empty) (addWrite limit m rows) (written ++ rows) := by
  obtain ⟨hsound, hcollapsed, ctb', hrun, hrefines⟩ := (h.refines.withTarget limit rows).addRows rows hinj hkeys htyped
    (h.sound.withTarget limit rows) (TableBuffer.ChunkTimeBuffer.withTarget_ne_nil limit m rows)
    (h.collapsed.withTarget limit rows) hbounded
  rw [ColumnBuffer.bufferChunk, hrun]
  refine ⟨_, rfl, ?_, hsound, hcollapsed⟩
  rw [IndexMap.lookup_put, if_pos rfl]
  exact hrefines

private theorem Holds.run (limit : Nat) {cb : ColumnBuffer} {m : TableBuffer.ChunkTimeBuffer} {written : List Row}
    (h : Holds hash types keys ((cb.lookup chunkTime).getD .empty) m written)
    (hinj : Set.InjOn hash keys) (writes : List (List Row)) (hkeys : ∀ row ∈ writes.flatten, rowKeyFor row ∈ keys)
    (htyped : ∀ row ∈ writes.flatten, ∀ f ∈ row.fields.entries, f.2.kind = types f.1)
    (hbounded : Bounded types capacity (writes.foldl (addWrite limit) m)) :
    ∃ cb', run (ColumnBuffer.bufferChunk hash capacity limit chunkTime) cb writes = some cb' ∧
      Holds hash types keys ((cb'.lookup chunkTime).getD .empty) (writes.foldl (addWrite limit) m)
        (written ++ writes.flatten) := by
  induction writes generalizing cb m written with
  | nil => exact ⟨cb, rfl, by simpa using h⟩
  | cons rows writes ih =>
    rw [foldl_cons] at hbounded ⊢
    obtain ⟨mid, hmid, hholds⟩ := h.bufferChunk limit hinj (fun row hrow => hkeys row (mem_append_left _ hrow))
      (fun row hrow => htyped row (mem_append_left _ hrow)) hbounded.of_addWrites
    obtain ⟨cb', hrun, hholds'⟩ := ih hholds (fun row hrow => hkeys row (mem_append_right _ hrow))
      (fun row hrow => htyped row (mem_append_right _ hrow)) hbounded
    rw [append_assoc] at hholds'
    exact ⟨cb', run_cons_eq_some.mpr ⟨mid, hmid, hrun⟩, hholds'⟩

private theorem exists_recordBatches {cs : List MutableTableChunk} {ms : List TableBuffer.MutableTableChunk}
    (h : List.Forall₂ (Stores types) cs ms) {columns : List Nat} (hne : columns ≠ []) :
    ∃ batches, cs.mapM (fun c => (c.recordBatch columns).toOption) = some batches ∧ batches.flatMap RecordBatch.rows =
        (ms.flatMap TableBuffer.MutableTableChunk.liveRows).map fun r => columns.map r.values.lookup := by
  induction h with
  | nil => exact ⟨[], rfl, rfl⟩
  | cons hc _ ih =>
    obtain ⟨batch, hbatch, hrows⟩ := hc.exists_recordBatch hne
    obtain ⟨batches, hbatches, hrest⟩ := ih
    refine ⟨batch :: batches, ?_, ?_⟩
    · rw [mapM_cons, hbatch, hbatches]
      rfl
    · rw [flatMap_cons, hrows, hrest, flatMap_cons, map_append]

variable (capacity limit : Nat) (chunkTime : Int) {columns : List Nat} {writes : List (List Row)}
  (htyped : ∀ row ∈ writes.flatten, ∀ f ∈ row.fields.entries, f.2.kind = types f.1)
  (hinj : Set.InjOn hash {key | key ∈ writes.flatten.map rowKeyFor})
include htyped hinj

private theorem exists_run_of_bounded (hbounded : Bounded types capacity (window limit writes)) :
    ∃ cb, run (bufferChunk hash capacity limit chunkTime) (.empty _) writes = some cb ∧
      Holds hash types {key | key ∈ writes.flatten.map rowKeyFor} ((cb.lookup chunkTime).getD .empty)
        (window limit writes) writes.flatten := by
  have hempty : Holds hash types {key | key ∈ writes.flatten.map rowKeyFor}
      (((KeyedList.empty _ : ColumnBuffer).lookup chunkTime).getD .empty) .empty [] :=
    ⟨⟨.nil, fun _ _ => rfl⟩, .empty, .empty⟩
  exact hempty.run limit hinj writes (fun row hrow => mem_map_of_mem hrow) htyped hbounded

private theorem materialized_of_bounded (hne : columns ≠ []) (hbounded : Bounded types capacity (window limit writes)) :
    ∃ rows, materialized hash capacity limit chunkTime columns writes = some rows ∧
      rows.Perm ((points writes.flatten).map fun p => columns.map (lastValue writes.flatten p)) := by
  obtain ⟨cb, hrun, hholds⟩ := exists_run_of_bounded capacity limit chunkTime htyped hinj hbounded
  obtain ⟨batches, hbatches, hflat⟩ := exists_recordBatches hholds.refines.chunks hne
  refine ⟨_, ?_, (List.Perm.of_eq hflat).trans (hholds.collapsed.rows_perm hholds.sound columns)⟩
  rw [materialized, hrun, bind_eq_bind, bind_some, hbatches]
  rfl

/-- The run under the capacity is also one under a capacity that bounds the row-wise window. -/
private theorem bounded_of_materialized {rows : List (List (Option FieldData))}
    (h : materialized hash capacity limit chunkTime columns writes = some rows) :
    Bounded types capacity (window limit writes) := by
  obtain ⟨cb, hrun, -⟩ := bind_eq_some_iff.mp h
  obtain ⟨larger, hlarger⟩ := exists_bounded types (window limit writes)
  obtain ⟨hrun', hwithin⟩ := run_bufferChunk_transport (Nat.le_max_left capacity larger)
    (fun _ hc => absurd hc not_mem_nil) hrun
  obtain ⟨cb', hcb', hholds⟩ := exists_run_of_bounded (max capacity larger) limit chunkTime htyped hinj
    fun chunk hchunk id => (hlarger chunk hchunk id).trans (Nat.le_max_right _ _)
  cases hrun'.symm.trans hcb'
  exact bounded_of_stores hholds.refines.chunks hwithin

end Window

/-- The live rows are one for each point, with the last value written for each column, iff no column of a chunk
outgrows the offsets of its builder, whichever batches and chunks the writes are cut into. -/
theorem materialized_one_row_per_point_iff (hash : RowKey → Nat) (types : Nat → Kind) (capacity limit : Nat)
    (chunkTime : Int) {columns : List Nat} (hne : columns ≠ []) (writes : List (List Row))
    (htyped : ∀ row ∈ writes.flatten, ∀ f ∈ row.fields.entries, f.2.kind = types f.1)
    (hinj : Set.InjOn hash {key | key ∈ writes.flatten.map rowKeyFor}) :
    (points writes.flatten).Pairwise (fun a b => ¬ SamePoint a b) ∧
    (∀ row ∈ writes.flatten, ∃ p ∈ points writes.flatten, SamePoint row p) ∧
    ((∃ rows, materialized hash capacity limit chunkTime columns writes = some rows ∧
        rows.Perm ((points writes.flatten).map fun p => columns.map (lastValue writes.flatten p))) ↔
      Bounded types capacity (window limit writes)) ∧
    ∀ rows, materialized hash capacity limit chunkTime columns writes = some rows → ∀ limit' writes',
      writes'.flatten = writes.flatten → Bounded types capacity (window limit' writes') →
      ∃ rows', materialized hash capacity limit' chunkTime columns writes' = some rows' ∧ rows'.Perm rows := by
  obtain ⟨hdistinct, hevery⟩ := points_spec writes.flatten
  refine ⟨hdistinct, hevery, ⟨?_, materialized_of_bounded capacity limit chunkTime htyped hinj hne⟩, ?_⟩
  · rintro ⟨rows, hrows, -⟩
    exact bounded_of_materialized capacity limit chunkTime htyped hinj hrows
  · intro rows hrows limit' writes' heq hbounded
    obtain ⟨rows', hrows', hperm'⟩ := materialized_of_bounded capacity limit' chunkTime
      (fun row hrow => htyped row (heq ▸ hrow)) (heq ▸ hinj) hne hbounded
    obtain ⟨rows'', hrows'', hperm⟩ := materialized_of_bounded capacity limit chunkTime htyped hinj hne
      (bounded_of_materialized capacity limit chunkTime htyped hinj hrows)
    cases hrows.symm.trans hrows''
    exact ⟨rows', hrows', hperm'.trans (heq ▸ hperm.symm)⟩

private def sampleRow (time : Int) (column : Nat) (value : FieldData) (hne : column ≠ 0) : Row where
  time := time
  fields := IndexMap.put (IndexMap.put (IndexMap.put (.empty _) 0 (.timestamp time)) 1 (.tag "a")) column value
  timed := ⟨0, by simp [hne.symm]⟩

private def sampleTypes : Nat → Kind
  | 0 => .time
  | 1 => .tag
  | 2 => .string
  | _ => .i64

private def sampleHash (key : RowKey) : Nat := key.2.toNat

/-- The second version of a point is in a chunk of its own, to which the field of the first is carried. -/
theorem materialized_second_version : ∃ rows, materialized sampleHash (2 ^ 31 - 1) 2 0 [0, 1, 2, 3]
        [[sampleRow 1 2 (.string "xyz") (by decide), sampleRow 2 3 (.integer 7) (by decide)],
          [sampleRow 1 3 (.integer 5) (by decide)]] = some rows ∧
      rows.Perm [[some (.timestamp 2), some (.tag "a"), none, some (.integer 7)],
        [some (.timestamp 1), some (.tag "a"), some (.string "xyz"), some (.integer 5)]] ∧
      Bounded sampleTypes (2 ^ 31 - 1) (window 2
        [[sampleRow 1 2 (.string "xyz") (by decide), sampleRow 2 3 (.integer 7) (by decide)],
          [sampleRow 1 3 (.integer 5) (by decide)]]) := by
  obtain ⟨-, -, hiff, -⟩ := materialized_one_row_per_point_iff sampleHash sampleTypes (2 ^ 31 - 1) 2 0
    (show [0, 1, 2, 3] ≠ [] by decide)
    [[sampleRow 1 2 (.string "xyz") (by decide), sampleRow 2 3 (.integer 7) (by decide)],
      [sampleRow 1 3 (.integer 5) (by decide)]] (by decide) (by
      intro a ha b hb hab
      simp only [flatten_cons, flatten_nil, append_nil, cons_append, nil_append, map_cons,
        map_nil, Set.mem_ofPred_eq, mem_cons, not_mem_nil, or_false] at ha hb
      rcases ha with rfl | rfl | rfl <;> rcases hb with rfl | rfl | rfl <;> first | rfl | cases hab)
  refine exists_of_decide (fun rows => rows.Perm [[some (.timestamp 2), some (.tag "a"), none, some (.integer 7)],
    [some (.timestamp 1), some (.tag "a"), some (.string "xyz"), some (.integer 5)]]) (by decide +kernel)
    fun rows hrows hperm => ⟨hperm, hiff.mp ⟨rows, hrows, hperm.trans (by decide +kernel)⟩⟩

section Overflow
variable {text : String} {m : TableBuffer.ChunkTimeBuffer} {n : Nat} {row : Row}

private structure Piled (text : String) (n : Nat) (m : TableBuffer.ChunkTimeBuffer) : Prop where
  sound : m.Sound
  chunk : ∃ chunk, m.chunks = [chunk] ∧ columnOf chunk 2 = List.replicate n (some (.string text))

private theorem Piled.addRow (h : Piled text n m)
    (hvalue : (storedRow 0 row (m.replaced row)).values.lookup 2 = some (.string text)) :
    Piled text (n + 1) (m.addRow 0 row) := by
  obtain ⟨chunk, hchunks, hcolumn⟩ := h.chunk
  refine ⟨h.sound.addRow (by simp [hchunks]) 0 row, ?_⟩
  have hfirst := columnOf_addRow m 0 row 0 2
  have hsecond := columnOf_addRow m 0 row 1 2
  simp only [hchunks, length_singleton, Nat.sub_self, if_true, List.getElem?_cons_zero, Option.map_some, hcolumn,
    hvalue, ← replicate_succ'] at hfirst
  simp only [hchunks, List.getElem?_cons_succ, List.getElem?_nil, Option.map_none, Option.map_eq_none_iff] at hsecond
  obtain ⟨chunk', hchunk', hcolumn'⟩ := Option.map_eq_some_iff.mp hfirst
  refine ⟨chunk', ext_getElem? fun i => ?_, hcolumn'⟩
  match i with
  | 0 => exact hchunk'
  | i + 1 => exact
      (List.getElem?_eq_none ((List.getElem?_eq_none_iff.mp hsecond).trans (Nat.le_add_left 1 i))).trans rfl

/-- An overwrite of a row with the text has it as well. -/
private theorem Piled.lookup_overwrite (h : Piled text n m) (hrow : row.fields.lookup 2 = none)
    (hindexed : (m.rowKeyToIndex.lookup (rowKeyFor row)).isSome) :
    (storedRow 0 row (m.replaced row)).values.lookup 2 = some (.string text) := by
  obtain ⟨chunk, hchunks, hcolumn⟩ := h.chunk
  obtain ⟨place, hplace⟩ := Option.isSome_iff_exists.mp hindexed
  obtain ⟨r, hslot, -⟩ := (h.sound.indexed _ _).mp hplace
  have hr : r.values.lookup 2 = some (.string text) := by
    obtain ⟨chunk', hchunk', hslot⟩ := bind_eq_some_iff.mp hslot
    obtain rfl : chunk' = chunk := by simpa [hchunks] using mem_of_getElem? hchunk'
    have hmem : r.values.lookup 2 ∈ columnOf chunk' 2 := mem_map_of_mem (mem_of_getElem? hslot)
    rw [hcolumn] at hmem
    exact eq_of_mem_replicate hmem
  rw [lookup_storedRow, hrow, TableBuffer.ChunkTimeBuffer.replaced, hplace, bind_some, hslot]
  simp [hr, FieldData.tag?, Option.filter]

private theorem Piled.addRows (h : Piled text n m) (hrow : row.fields.lookup 2 = none)
    (hindexed : (m.rowKeyToIndex.lookup (rowKeyFor row)).isSome) (k : Nat) :
    Piled text (n + k) ((List.replicate k row).foldl (fun m row => m.addRow 0 row) m) := by
  induction k generalizing n m with
  | zero => exact h
  | succ k ih =>
    rw [replicate_succ, foldl_cons, Nat.add_comm k, ← Nat.add_assoc]
    exact ih (h.addRow (h.lookup_overwrite hrow hindexed)) (by simp [TableBuffer.ChunkTimeBuffer.addRow])

private theorem piled_overwrites (text : String) (limit k : Nat) :
    Piled text (k + 1) (window limit [sampleRow 1 2 (.string text) (by decide) ::
      List.replicate k (sampleRow 1 3 (.integer 5) (by decide))]) := by
  have hnew (rows : List Row) : Piled text 0 (TableBuffer.ChunkTimeBuffer.empty.withTarget limit rows) :=
    ⟨TableBuffer.ChunkTimeBuffer.Sound.empty.withTarget limit rows, .new, rfl, rfl⟩
  have hfirst (rows : List Row) : Piled text (0 + 1) ((TableBuffer.ChunkTimeBuffer.empty.withTarget limit rows).addRow 0
      (sampleRow 1 2 (.string text) (by decide))) := (hnew rows).addRow rfl
  rw [Nat.add_comm]
  exact (hfirst _).addRows rfl rfl k

private theorem exists_utf8ByteSize (n : Nat) : ∃ text : String, text.utf8ByteSize = n := by
  have hlen : String.utf8Len (List.replicate n 'a') = n := by
    induction n with
    | zero => rfl
    | succ n ih =>
      rw [replicate_succ, String.utf8Len_cons, ih]
      rfl
  exact ⟨.ofList (List.replicate n 'a'), by rw [String.utf8ByteSize_ofList, hlen]⟩

/-- A row with a field of 64 KiB, overwritten 32767 times without the field: every version carries the field, and the
last one takes the builder past `i32::MAX` bytes. -/
theorem carried_bytes_overflow : ∃ text : String, text.utf8ByteSize = 65536 ∧ ∀ limit,
    materialized sampleHash (2 ^ 31 - 1) limit 0 [0, 1, 2, 3] [sampleRow 1 2 (.string text) (by decide) ::
      List.replicate 32767 (sampleRow 1 3 (.integer 5) (by decide))] = none := by
  obtain ⟨text, htext⟩ := exists_utf8ByteSize 65536
  refine ⟨text, htext, fun limit => Option.eq_none_iff_forall_ne_some.mpr fun rows hrows => ?_⟩
  have hrow (row : Row) (h : row ∈ [sampleRow 1 2 (.string text) (by decide) ::
      List.replicate 32767 (sampleRow 1 3 (.integer 5) (by decide))].flatten) :
      (∀ f ∈ row.fields.entries, f.2.kind = sampleTypes f.1) ∧ rowKeyFor row = ([(1, "a")], 1) := by
    rw [flatten_singleton, mem_cons] at h
    rcases h with rfl | h
    · exact ⟨forall_iff_forall_mem.mp ⟨rfl, rfl, rfl⟩, rfl⟩
    · rw [eq_of_mem_replicate h]
      exact ⟨by decide, rfl⟩
  have hkey {key : RowKey} (h : key ∈ [sampleRow 1 2 (.string text) (by decide) ::
      List.replicate 32767
        (sampleRow 1 3 (.integer 5) (by decide))].flatten.map rowKeyFor) : key = ([(1, "a")], 1) := by
    obtain ⟨row, hmem, rfl⟩ := mem_map.mp h
    exact (hrow row hmem).2
  have hbounded : Bounded sampleTypes (2 ^ 31 - 1) _ := bounded_of_materialized _ limit 0 (fun row h => (hrow row h).1)
    (fun a ha b hb _ => (hkey ha).trans (hkey hb).symm) hrows
  obtain ⟨chunk, hchunks, hcolumn⟩ := (piled_overwrites text limit 32767).chunk
  have hbytes := hbounded chunk (by rw [hchunks]; exact mem_singleton_self _) 2
  rw [hcolumn, storedBytes, if_neg (by decide), map_replicate, sum_replicate,
    show bytesOf (some (.string text)) = 65536 from htext] at hbytes
  exact absurd hbytes (by decide)

end Overflow

end VarveDB.ColumnBuffer
