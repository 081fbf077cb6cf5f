import VarveDB.FileIndex.Query
import VarveDB.Library.Increasing
import VarveDB.Library.Ledger
import VarveDB.Library.Results

/-! The in-memory buffer of a table: rows by gen1 window in chunks, and the chunks that a snapshot has frozen.
-/
namespace VarveDB.TableBuffer
open Library FileIndex List

inductive FieldData where
  | timestamp (v : Int)
  | tag (v : String)
  | string (v : String)
  | integer (v : Int)
  | uInteger (v : Nat)
  | float (bits : UInt64)
  | boolean (v : Bool)
  deriving DecidableEq

structure Row where
  time : Int
  fields : IndexMap Nat FieldData
  timed : ∃ id, fields.lookup id = some (.timestamp time)

def Row.ofTime (time : Int) : Row := ⟨time, IndexMap.put (.empty _) 0 (.timestamp time), 0, by simp⟩

/-- The overwrite identity of a row: its tags by column id, and its time. -/
abbrev RowKey := List (Nat × String) × Int

def FieldData.tag? : FieldData → Option String
  | tag v => some v
  | _ => none

def FieldData.varBytes : FieldData → Option Nat
  | tag v | string v => some v.utf8ByteSize
  | _ => none

def FieldData.timestamp? : FieldData → Option Int
  | timestamp v => some v
  | _ => none

def rowKeyFor (row : Row) : RowKey :=
  ((row.fields.entries.filterMap fun f => f.2.tag?.map (f.1, ·)).insertionSort (·.1 ≤ ·.1), row.time)

structure StoredRow where
  number : Nat
  key : RowKey
  values : IndexMap Nat FieldData
  deriving DecidableEq

def StoredRow.time (row : StoredRow) : Int := row.key.2

structure Slot where
  row : StoredRow
  live : Bool
  deriving DecidableEq

structure MutableTableChunk where
  timestampMin : Int
  timestampMax : Int
  slots : List Slot
  varBytesPerColumn : IndexMap Nat Nat
  deriving DecidableEq

def addBytes (m : IndexMap Nat Nat) (f : Nat × FieldData) : IndexMap Nat Nat :=
  f.2.varBytes.elim m fun n => m.put f.1 ((m.lookup f.1).getD 0 + n)

/-- What a row takes over from the one it replaces: the values it does not provide, tags apart. -/
def carried (row : Row) (replaced : Option StoredRow) : List (Nat × FieldData) :=
  replaced.elim [] fun old => old.values.entries.filter fun f => f.2.tag? = none ∧ row.fields.lookup f.1 = none

def storedRow (number : Nat) (row : Row) (replaced : Option StoredRow) : StoredRow where
  number := number
  key := rowKeyFor row
  values := (carried row replaced).foldl (fun m f => m.put f.1 f.2) row.fields

namespace MutableTableChunk

def new : MutableTableChunk := ⟨2 ^ 63 - 1, -2 ^ 63, [], .empty _⟩

def wouldExceedLimitWith (limit : Nat) (chunk : MutableTableChunk) (incoming : IndexMap Nat Nat) : Bool :=
  incoming.entries.any fun c => (chunk.varBytesPerColumn.lookup c.1).getD 0 + c.2 > limit

variable (chunk : MutableTableChunk)

def appendRow (number : Nat) (row : Row) (replaced : Option StoredRow) : MutableTableChunk where
  timestampMin := (row.fields.values.filterMap FieldData.timestamp?).foldl min chunk.timestampMin
  timestampMax := (row.fields.values.filterMap FieldData.timestamp?).foldl max chunk.timestampMax
  slots := chunk.slots ++ [⟨storedRow number row replaced, true⟩]
  varBytesPerColumn := (row.fields.entries ++ carried row replaced).foldl addBytes chunk.varBytesPerColumn

def markSuperseded (i : Nat) : MutableTableChunk :=
  { chunk with slots := chunk.slots.modify i fun slot => { slot with live := false } }

def supersededCount : Nat := (chunk.slots.filter fun slot => !slot.live).length

def liveRows : List StoredRow := (chunk.slots.filter Slot.live).map Slot.row

end MutableTableChunk

structure ChunkTimeBuffer where
  chunks : List MutableTableChunk
  rowKeyToIndex : IndexMap RowKey (Nat × Nat)
  deriving DecidableEq

variable (chunks : List MutableTableChunk) (i : Nat × Nat)

def slotAt : Option Slot :=
  chunks[i.1]?.bind fun chunk => chunk.slots[i.2]?

def markSuperseded : List MutableTableChunk :=
  chunks.modify i.1 fun chunk => chunk.markSuperseded i.2

variable (ctb : ChunkTimeBuffer)

namespace ChunkTimeBuffer

def empty : ChunkTimeBuffer := ⟨[], .empty _⟩

def liveRows : List StoredRow := ctb.chunks.flatMap MutableTableChunk.liveRows

def replaced (row : Row) : Option StoredRow :=
  (ctb.rowKeyToIndex.lookup (rowKeyFor row)).bind fun i => (slotAt ctb.chunks i).map Slot.row

def addRow (number : Nat) (row : Row) : ChunkTimeBuffer :=
  let last := ctb.chunks.length - 1
  let thisRow := ctb.chunks[last]?.elim 0 fun chunk => chunk.slots.length
  let chunks := ctb.chunks.modify last fun chunk => chunk.appendRow number row (ctb.replaced row)
  { chunks := (ctb.rowKeyToIndex.lookup (rowKeyFor row)).elim chunks (markSuperseded chunks)
    rowKeyToIndex := ctb.rowKeyToIndex.put (rowKeyFor row) (last, thisRow) }

def withTarget (limit : Nat) (ctb : ChunkTimeBuffer) (rows : List Row) : ChunkTimeBuffer :=
  let incoming := (rows.flatMap fun row => row.fields.entries).foldl addBytes (.empty _)
  let needsNewChunk := ctb.chunks.getLast?.elim true fun chunk => chunk.wouldExceedLimitWith limit incoming
  if needsNewChunk then { ctb with chunks := ctb.chunks ++ [.new] } else ctb

end ChunkTimeBuffer

structure SnapshotChunk where
  chunkTime : Int
  chunkOrdinal : Nat
  timestampMinMax : Int × Int
  columns : List String
  rows : List StoredRow
  deriving DecidableEq

end TableBuffer

structure TableBuffer where
  chunkTimeToChunks : Library.IndexMap Int TableBuffer.ChunkTimeBuffer
  snapshottingChunks : List TableBuffer.SnapshotChunk
  deriving DecidableEq

namespace TableBuffer
open Library FileIndex List

def new : TableBuffer := ⟨.empty _, []⟩

def bufferChunk (limit : Nat) (tb : TableBuffer) (chunkTime : Int) (first : Nat) (rows : List Row) : TableBuffer :=
  let ctb := ((tb.chunkTimeToChunks.lookup chunkTime).getD .empty).withTarget limit rows
  let ctb := (rows.zipIdx first).foldl (fun ctb row => ctb.addRow row.2 row.1) ctb
  { tb with chunkTimeToChunks := tb.chunkTimeToChunks.put chunkTime ctb }

variable (tb : TableBuffer) (columns : List String) (filter : ChunkFilter)

def frozenChunks (chunkTime : Int) (ctb : ChunkTimeBuffer) : List SnapshotChunk :=
  ctb.chunks.zipIdx.filterMap fun (chunk, ordinal) =>
    if chunk.supersededCount = chunk.slots.length then none
    else some ⟨chunkTime, ordinal, (chunk.timestampMin, chunk.timestampMax), columns, chunk.liveRows⟩

/-- Freezes the windows before the marker; the chunks of an earlier snapshot are forgotten. -/
def snapshot (olderThanChunkTime : Int) : TableBuffer where
  chunkTimeToChunks := tb.chunkTimeToChunks.retain fun w => ¬ w.1 < olderThanChunkTime
  snapshottingChunks := (tb.chunkTimeToChunks.entries.filter fun w => w.1 < olderThanChunkTime).flatMap fun w =>
    frozenChunks columns w.1 w.2

def removeSnapshottingChunk (chunkTime : Int) (chunkOrdinal : Nat) : TableBuffer :=
  { tb with snapshottingChunks :=
      Ledger.removeKey (fun c => (c.chunkTime, c.chunkOrdinal)) tb.snapshottingChunks (chunkTime, chunkOrdinal) }

structure Batch where
  chunkTime : Int
  timestampMinMax : Int × Int
  rows : List StoredRow
  deriving DecidableEq

def snapshottingBatch (c : SnapshotChunk) : Except String Batch :=
  match columns.find? fun name => name ∉ c.columns with
  | some name => .error s!"Field not found in table buffer: {name}"
  | none => .ok ⟨c.chunkTime, c.timestampMinMax, c.rows⟩

def liveBatches : List Batch :=
  tb.chunkTimeToChunks.entries.flatMap fun w =>
    (w.2.chunks.filter fun chunk => filter.testTimeStampMinMax chunk.timestampMin chunk.timestampMax).map fun chunk =>
      ⟨w.1, (chunk.timestampMin, chunk.timestampMax), chunk.liveRows⟩

def partitionedRecordBatches : Except String (List Batch × List Batch) := do
  let frozen ← (tb.snapshottingChunks.filter fun c =>
    filter.testTimeStampMinMax c.timestampMinMax.1 c.timestampMinMax.2).mapM (snapshottingBatch columns)
  .ok (frozen, tb.liveBatches filter)

structure BufferChunk where
  chunkTime : Int
  chunkOrder : Int
  batches : List Batch
  deriving DecidableEq

def BufferChunk.rows (c : BufferChunk) : List StoredRow := c.batches.flatMap Batch.rows

def tableChunksLocked : Except String (List BufferChunk) :=
  match tb.partitionedRecordBatches columns filter with
  | .error e => .error s!"error getting batches {e}"
  | .ok (frozen, live) => .ok <| ((frozen ++ live).map Batch.chunkTime).dedup.flatMap fun t =>
      ([⟨t, 2 ^ 63 - 2, frozen.filter fun b => b.chunkTime = t⟩,
        ⟨t, 2 ^ 63 - 1, live.filter fun b => b.chunkTime = t⟩] : List BufferChunk).filter fun c => c.batches ≠ []

variable {r : StoredRow} {i : Nat × Nat}

section Places
variable {chunks : List MutableTableChunk} {number : Nat} {row : Row} {replaced : Option StoredRow}

private def appended (chunks : List MutableTableChunk) (number : Nat) (row : Row) (replaced : Option StoredRow) :
    List MutableTableChunk := chunks.modify (chunks.length - 1) fun chunk => chunk.appendRow number row replaced

private def nextPlace (chunks : List MutableTableChunk) : Nat × Nat :=
  (chunks.length - 1, chunks[chunks.length - 1]?.elim 0 fun chunk => chunk.slots.length)

theorem slotAt_appended (hne : chunks ≠ []) (i : Nat × Nat) : slotAt (appended chunks number row replaced) i =
      if i = nextPlace chunks then some ⟨storedRow number row replaced, true⟩ else slotAt chunks i := by
  obtain ⟨ci, ri⟩ := i
  have hlast : chunks.length - 1 < chunks.length := Nat.sub_lt (length_pos_of_ne_nil hne) Nat.one_pos
  simp only [slotAt, appended, nextPlace, List.getElem?_modify, Prod.mk.injEq]
  by_cases hci : ci = chunks.length - 1
  · subst hci
    rw [List.getElem?_eq_getElem hlast]
    simp only [if_true, Option.map_eq_map, Option.map_some, Option.bind_some, Option.elim_some,
      MutableTableChunk.appendRow, true_and]
    by_cases hri : ri = chunks[chunks.length - 1].slots.length
    · subst hri
      simp
    · rw [if_neg hri, List.getElem?_append]
      split
      · rfl
      · rw [List.getElem?_eq_none (by simp; omega), List.getElem?_eq_none (by omega)]
  · simp [hci, Ne.symm hci]

theorem slotAt_nextPlace (hne : chunks ≠ []) : slotAt chunks (nextPlace chunks) = none := by
  have hlast : chunks.length - 1 < chunks.length := Nat.sub_lt (length_pos_of_ne_nil hne) Nat.one_pos
  simp [slotAt, nextPlace, List.getElem?_eq_getElem hlast]

private theorem slotAt_markSuperseded (i j : Nat × Nat) : slotAt (markSuperseded chunks j) i =
      if i = j then (slotAt chunks i).map fun slot => { slot with live := false } else slotAt chunks i := by
  obtain ⟨ci, ri⟩ := i
  obtain ⟨cj, rj⟩ := j
  simp only [slotAt, markSuperseded, List.getElem?_modify, Prod.mk.injEq]
  cases hchunk : chunks[ci]? with
  | none => simp
  | some chunk =>
    by_cases hci : ci = cj
    · subst hci
      by_cases hri : ri = rj
      · simp [MutableTableChunk.markSuperseded, hri]
      · simp [MutableTableChunk.markSuperseded, hri, Ne.symm hri]
    · simp [hci, Ne.symm hci]

theorem mem_flatMap_liveRows :
    r ∈ chunks.flatMap MutableTableChunk.liveRows ↔ ∃ i, slotAt chunks i = some ⟨r, true⟩ := by
  simp only [mem_flatMap, MutableTableChunk.liveRows, mem_map, mem_filter]
  constructor
  · rintro ⟨chunk, hchunk, slot, ⟨hslot, hlive⟩, rfl⟩
    obtain ⟨ci, hci⟩ := mem_iff_getElem?.mp hchunk
    obtain ⟨ri, hri⟩ := mem_iff_getElem?.mp hslot
    refine ⟨(ci, ri), ?_⟩
    rw [slotAt, hci, Option.bind_some, hri, ← hlive]
  · rintro ⟨i, hi⟩
    obtain ⟨chunk, hci, hri⟩ := Option.bind_eq_some_iff.mp hi
    exact ⟨chunk, mem_of_getElem? hci, ⟨r, true⟩, ⟨mem_of_getElem? hri, rfl⟩, rfl⟩

theorem liveRows_appended (hne : chunks ≠ []) :
    (appended chunks number row replaced).flatMap MutableTableChunk.liveRows =
      chunks.flatMap MutableTableChunk.liveRows ++ [storedRow number row replaced] := by
  obtain ⟨init, c, rfl⟩ := (eq_nil_or_concat chunks).resolve_left hne
  rw [appended, concat_eq_append, modify_eq_take_cons_drop (by simp)]
  simp [MutableTableChunk.liveRows, MutableTableChunk.appendRow]

private theorem liveRows_markSuperseded (hi : slotAt chunks i = some ⟨r, true⟩) :
    (r :: (markSuperseded chunks i).flatMap MutableTableChunk.liveRows).Perm
    (chunks.flatMap MutableTableChunk.liveRows) := by
  obtain ⟨chunk, hci, hri⟩ := Option.bind_eq_some_iff.mp hi
  obtain ⟨hc, rfl⟩ := List.getElem?_eq_some_iff.mp hci
  obtain ⟨hr, hslot⟩ := List.getElem?_eq_some_iff.mp hri
  have hchunk : (r :: (chunks[i.1].markSuperseded i.2).liveRows).Perm chunks[i.1].liveRows := by
    conv_rhs => rw [MutableTableChunk.liveRows, ← take_append_drop i.2 chunks[i.1].slots,
      drop_eq_getElem_cons hr, hslot]
    simp only [MutableTableChunk.markSuperseded, MutableTableChunk.liveRows, modify_eq_take_cons_drop hr,
      filter_append, map_append, filter_cons, Bool.false_eq_true, if_false, if_true, map_cons]
    exact perm_middle.symm
  conv_rhs => rw [← take_append_drop i.1 chunks, drop_eq_getElem_cons hc]
  rw [markSuperseded, modify_eq_take_cons_drop hc]
  simp only [flatMap_append, flatMap_cons]
  exact perm_middle.symm.trans (.append_left _ ((List.Perm.of_eq (cons_append ..).symm).trans (hchunk.append_right _)))

end Places

variable {chunk : MutableTableChunk} {first : Nat}

namespace ChunkTimeBuffer

/-- The index gives the place of the live row of every key, so live rows have distinct keys, and
the time range of a chunk covers its rows. -/
structure Sound (ctb : ChunkTimeBuffer) : Prop where
  indexed : ∀ key i, ctb.rowKeyToIndex.lookup key = some i ↔
    ∃ row, slotAt ctb.chunks i = some ⟨row, true⟩ ∧ row.key = key
  keys : (ctb.liveRows.map StoredRow.key).Nodup
  ranged : ∀ chunk ∈ ctb.chunks, ∀ slot ∈ chunk.slots,
    chunk.timestampMin ≤ slot.row.time ∧ slot.row.time ≤ chunk.timestampMax

variable {ctb : ChunkTimeBuffer} {number : Nat} {row : Row} (limit : Nat)

theorem Sound.empty : Sound .empty :=
  ⟨by simp [ChunkTimeBuffer.empty, slotAt], by simp [liveRows, ChunkTimeBuffer.empty],
    by simp [ChunkTimeBuffer.empty]⟩

theorem withTarget_eq (ctb : ChunkTimeBuffer) (rows : List Row) :
    ctb.withTarget limit rows = { ctb with chunks := ctb.chunks ++ [.new] } ∨
      ctb.withTarget limit rows = ctb ∧ ctb.chunks ≠ [] := by
  simp only [withTarget]
  split
  · exact .inl rfl
  · next h => exact .inr ⟨rfl, fun hnil => by simp [hnil] at h⟩

theorem liveRows_withTarget (ctb : ChunkTimeBuffer) (rows : List Row) :
    (ctb.withTarget limit rows).liveRows = ctb.liveRows := by
  rcases withTarget_eq limit ctb rows with heq | ⟨heq, -⟩ <;> rw [heq]
  simp [liveRows, MutableTableChunk.new, MutableTableChunk.liveRows]

theorem withTarget_ne_nil (ctb : ChunkTimeBuffer) (rows : List Row) : (ctb.withTarget limit rows).chunks ≠ [] := by
  rcases withTarget_eq limit ctb rows with heq | ⟨heq, hne⟩ <;> rw [heq]
  · simp
  · exact hne

theorem Sound.withTarget (h : ctb.Sound) (limit : Nat) (rows : List Row) : (ctb.withTarget limit rows).Sound := by
  have hkeys := liveRows_withTarget limit ctb rows ▸ h.keys
  rcases withTarget_eq limit ctb rows with heq | ⟨heq, -⟩ <;> rw [heq] at hkeys ⊢
  · refine ⟨fun key i => ?_, hkeys, forall_mem_append.mpr ⟨h.ranged, by simp [MutableTableChunk.new]⟩⟩
    have hslot : slotAt (ctb.chunks ++ [.new]) i = slotAt ctb.chunks i := by
      rw [slotAt, slotAt, List.getElem?_append]
      split
      · rfl
      · rename_i hi
        rw [List.getElem?_eq_none (by omega : ctb.chunks.length ≤ i.1)]
        cases i.1 - ctb.chunks.length <;> simp [MutableTableChunk.new]
    exact hslot ▸ h.indexed key i
  · exact h

/-- The row that the index gives is the live row with the key. -/
theorem Sound.replaced_eq (h : ctb.Sound) (row : Row) :
    ctb.replaced row = ctb.liveRows.find? fun r => r.key = rowKeyFor row := by
  refine Option.ext fun r => ?_
  have hfind : ctb.liveRows.find? (fun r => r.key = rowKeyFor row) = some r ↔
      r ∈ ctb.liveRows ∧ r.key = rowKeyFor row := find?_key_eq_some_iff h.keys
  rw [hfind, liveRows, mem_flatMap_liveRows, replaced]
  constructor
  · intro hr
    obtain ⟨i, hi, hr⟩ := Option.bind_eq_some_iff.mp hr
    obtain ⟨r', hslot, hkey⟩ := (h.indexed _ i).mp hi
    rw [hslot] at hr
    cases hr
    exact ⟨⟨i, hslot⟩, hkey⟩
  · rintro ⟨⟨i, hslot⟩, hkey⟩
    rw [(h.indexed _ i).mpr ⟨r, hslot, hkey⟩, Option.bind_some, hslot]
    rfl

theorem chunks_addRow (ctb : ChunkTimeBuffer) (number : Nat) (row : Row) :
    (ctb.addRow number row).chunks = (ctb.rowKeyToIndex.lookup (rowKeyFor row)).elim
      (appended ctb.chunks number row (ctb.replaced row))
      (markSuperseded (appended ctb.chunks number row (ctb.replaced row))) := rfl

private theorem Sound.slotAt_addRow (h : ctb.Sound) (hne : ctb.chunks ≠ []) :
    slotAt (ctb.addRow number row).chunks i = some ⟨r, true⟩ ↔
      i = nextPlace ctb.chunks ∧ r = storedRow number row (ctb.replaced row) ∨
      ctb.rowKeyToIndex.lookup (rowKeyFor row) ≠ some i ∧ slotAt ctb.chunks i = some ⟨r, true⟩ := by
  have hfree : ctb.rowKeyToIndex.lookup (rowKeyFor row) ≠ some (nextPlace ctb.chunks) := by
    intro hlookup
    obtain ⟨r', hslot, -⟩ := (h.indexed _ _).mp hlookup
    rw [slotAt_nextPlace hne] at hslot
    cases hslot
  rw [chunks_addRow]
  cases hlookup : ctb.rowKeyToIndex.lookup (rowKeyFor row) with
  | none =>
    rw [Option.elim_none, slotAt_appended hne]
    by_cases hi : i = nextPlace ctb.chunks
    · simp [hi, slotAt_nextPlace hne, eq_comm]
    · simp [hi]
  | some j =>
    rw [Option.elim_some, slotAt_markSuperseded, slotAt_appended hne]
    by_cases hi : i = nextPlace ctb.chunks
    · subst hi
      have hj : nextPlace ctb.chunks ≠ j := fun heq => hfree (heq ▸ hlookup)
      simp [hj, slotAt_nextPlace hne, eq_comm]
    · by_cases hij : i = j
      · subst hij
        simp only [if_true, hi, false_and, false_or, ne_eq, not_true_eq_false]
        cases slotAt ctb.chunks i <;> simp
      · simp [hi, hij, Ne.symm hij]

private theorem erase_found_perm (h : ctb.Sound) (key : RowKey) :
    ((ctb.liveRows.find? fun r => r.key = key).elim ctb.liveRows ctb.liveRows.erase).Perm
      (ctb.liveRows.filter fun r => r.key ≠ key) := by
  cases hfind : ctb.liveRows.find? fun r => r.key = key with
  | none =>
    rw [List.find?_eq_none] at hfind
    exact .of_eq (filter_eq_self.mpr fun r hr => by simpa using hfind r hr).symm
  | some old =>
    obtain rfl : old.key = key := by simpa using List.find?_some hfind
    have hmem := mem_of_find?_eq_some hfind
    exact ((perm_cons_erase hmem).symm.trans (Ledger.perm_cons_filter h.keys hmem)).cons_inv

/-- A written row takes the place of the live row of its key. -/
theorem Sound.liveRows_addRow (h : ctb.Sound) (hne : ctb.chunks ≠ []) (number : Nat) (row : Row) :
    (ctb.addRow number row).liveRows.Perm (storedRow number row (ctb.replaced row) ::
      ctb.liveRows.filter fun r => r.key ≠ rowKeyFor row) := by
  refine .trans ?_ ((erase_found_perm h _).cons _)
  rw [← h.replaced_eq, liveRows, chunks_addRow]
  cases hlookup : ctb.rowKeyToIndex.lookup (rowKeyFor row) with
  | none =>
    have hnone : ctb.replaced row = none := by rw [replaced, hlookup]; rfl
    rw [Option.elim_none, liveRows_appended hne, hnone]
    exact perm_append_singleton _ _
  | some i =>
    obtain ⟨r, hslot, hkey⟩ := (h.indexed _ _).mp hlookup
    have hsome : ctb.replaced row = some r := by rw [replaced, hlookup, Option.bind_some, hslot]; rfl
    have hplace : i ≠ nextPlace ctb.chunks := by
      rintro rfl
      rw [slotAt_nextPlace hne] at hslot
      cases hslot
    have hmark := liveRows_markSuperseded
      (show slotAt (appended ctb.chunks number row (ctb.replaced row)) i = some ⟨r, true⟩ by
        rw [slotAt_appended hne, if_neg hplace, hslot])
    rw [liveRows_appended hne] at hmark
    rw [Option.elim_some, hsome, Option.elim_some]
    rw [hsome] at hmark
    have hmem : r ∈ ctb.liveRows := mem_flatMap_liveRows.mpr ⟨i, hslot⟩
    refine List.Perm.cons_inv (a := r) (hmark.trans ((perm_append_singleton _ _).trans ?_))
    exact (List.Perm.cons _ (perm_cons_erase hmem)).trans (List.Perm.swap ..)

theorem addRow_ne_nil (hne : ctb.chunks ≠ []) : (ctb.addRow number row).chunks ≠ [] := by
  have hlen : (ctb.addRow number row).chunks.length = ctb.chunks.length := by
    rw [chunks_addRow]
    cases ctb.rowKeyToIndex.lookup (rowKeyFor row) <;> simp [appended, markSuperseded]
  exact ne_nil_of_length_pos (hlen ▸ length_pos_of_ne_nil hne)

theorem mem_modify {α : Type} {l : List α} {i : Nat} {f : α → α} {a : α} (h : a ∈ l.modify i f) :
    a ∈ l ∨ ∃ b ∈ l, a = f b := by
  obtain ⟨j, hj⟩ := mem_iff_getElem?.mp h
  rw [List.getElem?_modify] at hj
  obtain ⟨b, hb, rfl⟩ := Option.map_eq_some_iff.mp hj
  have hmem := mem_of_getElem? hb
  split
  · exact .inr ⟨b, hmem, rfl⟩
  · exact .inl hmem

private def Ranged (chunk : MutableTableChunk) : Prop :=
  ∀ slot ∈ chunk.slots, chunk.timestampMin ≤ slot.row.time ∧ slot.row.time ≤ chunk.timestampMax

private theorem ranged_appendRow (h : Ranged chunk) (number : Nat) (row : Row)
    (replaced : Option StoredRow) : Ranged (chunk.appendRow number row replaced) := by
  obtain ⟨hmin, hmins⟩ := (le_foldl_min (f := id) (row.fields.values.filterMap FieldData.timestamp?)
    (t := chunk.timestampMin)).mp le_rfl
  obtain ⟨hmax, hmaxs⟩ := (foldl_max_le (f := id) (row.fields.values.filterMap FieldData.timestamp?)
    (t := chunk.timestampMax)).mp le_rfl
  intro slot hslot
  rcases mem_append.mp hslot with hslot | hslot
  · exact ⟨hmin.trans (h slot hslot).1, (h slot hslot).2.trans hmax⟩
  · rw [mem_singleton.mp hslot]
    obtain ⟨id, hid⟩ := row.timed
    have htime : row.time ∈ row.fields.values.filterMap FieldData.timestamp? :=
      mem_filterMap.mpr ⟨_, IndexMap.mem_values_of_lookup hid, rfl⟩
    exact ⟨hmins _ htime, hmaxs _ htime⟩

private theorem ranged_markSuperseded (h : Ranged chunk) (i : Nat) : Ranged (chunk.markSuperseded i) := by
  intro slot hslot
  rcases mem_modify hslot with hslot | ⟨slot, hmem, rfl⟩
  · exact h slot hslot
  · exact h slot hmem

private theorem Sound.ranged_addRow (h : ctb.Sound) : ∀ chunk ∈ (ctb.addRow number row).chunks, Ranged chunk := by
  have happended : ∀ chunk ∈ appended ctb.chunks number row (ctb.replaced row), Ranged chunk := by
    intro chunk hchunk
    rcases mem_modify hchunk with hchunk | ⟨chunk, hmem, rfl⟩
    · exact h.ranged chunk hchunk
    · exact ranged_appendRow (h.ranged chunk hmem) number row _
  rw [chunks_addRow]
  cases ctb.rowKeyToIndex.lookup (rowKeyFor row) with
  | none => exact happended
  | some i =>
    intro chunk hchunk
    rcases mem_modify hchunk with hchunk | ⟨chunk, hmem, rfl⟩
    · exact happended chunk hchunk
    · exact ranged_markSuperseded (happended chunk hmem) _

theorem Sound.addRow (h : ctb.Sound) (hne : ctb.chunks ≠ []) (number : Nat) (row : Row) :
    (ctb.addRow number row).Sound := by
  refine ⟨fun key i => ?_, ?_, h.ranged_addRow⟩
  · have hlookup : (ctb.addRow number row).rowKeyToIndex.lookup key =
        if key = rowKeyFor row then some (nextPlace ctb.chunks) else ctb.rowKeyToIndex.lookup key :=
      IndexMap.lookup_put ..
    simp only [h.slotAt_addRow hne, hlookup]
    by_cases hkey : key = rowKeyFor row
    · subst hkey
      rw [if_pos rfl]
      constructor
      · rintro ⟨⟩
        exact ⟨_, .inl ⟨rfl, rfl⟩, rfl⟩
      · rintro ⟨r, ⟨rfl, -⟩ | ⟨hnot, hslot⟩, hr⟩
        · rfl
        · exact absurd ((h.indexed _ i).mpr ⟨r, hslot, hr⟩) hnot
    · rw [if_neg hkey, h.indexed]
      constructor
      · rintro ⟨r, hslot, rfl⟩
        refine ⟨r, .inr ⟨fun hi => hkey ?_, hslot⟩, rfl⟩
        obtain ⟨r', hslot', hr'⟩ := (h.indexed _ i).mp hi
        cases hslot.symm.trans hslot'
        exact hr'
      · rintro ⟨r, ⟨-, rfl⟩ | ⟨-, hslot⟩, hr⟩
        · exact absurd hr.symm hkey
        · exact ⟨r, hslot, hr⟩
  · rw [((h.liveRows_addRow hne number row).map StoredRow.key).nodup_iff, map_cons, nodup_cons]
    refine ⟨fun hmem => ?_, h.keys.sublist (filter_sublist.map _)⟩
    obtain ⟨r, hr, hkey⟩ := mem_map.mp hmem
    exact of_decide_eq_true (mem_filter.mp hr).2 hkey

end ChunkTimeBuffer

def SnapshotChunk.place (c : SnapshotChunk) : Int × Nat := (c.chunkTime, c.chunkOrdinal)

def SnapshotChunk.Admitted (c : SnapshotChunk) : Prop :=
  filter.testTimeStampMinMax c.timestampMinMax.1 c.timestampMinMax.2

instance (filter : ChunkFilter) : DecidablePred (SnapshotChunk.Admitted filter) := fun _ =>
  inferInstanceAs (Decidable (_ = true))

def liveRows : List (Int × StoredRow) :=
  tb.chunkTimeToChunks.entries.flatMap fun w => w.2.liveRows.map (w.1, ·)

def frozenRows : List StoredRow := tb.snapshottingChunks.flatMap SnapshotChunk.rows

/-- Windows are sound, frozen chunks have places of their own, and each has one row per key and a
time range that covers its rows. -/
structure Sound (tb : TableBuffer) : Prop where
  windows : ∀ w ∈ tb.chunkTimeToChunks.entries, w.2.Sound
  places : (tb.snapshottingChunks.map SnapshotChunk.place).Nodup
  keys : ∀ c ∈ tb.snapshottingChunks, (c.rows.map StoredRow.key).Nodup
  ranged : ∀ c ∈ tb.snapshottingChunks, ∀ r ∈ c.rows, c.timestampMinMax.1 ≤ r.time ∧ r.time ≤ c.timestampMinMax.2

section
variable {tb : TableBuffer}

theorem Sound.new : Sound .new :=
  ⟨by simp [TableBuffer.new], by simp [TableBuffer.new], by simp [TableBuffer.new], by simp [TableBuffer.new]⟩

def window (tb : TableBuffer) (chunkTime : Int) : ChunkTimeBuffer :=
  (tb.chunkTimeToChunks.lookup chunkTime).getD .empty

theorem Sound.window (h : tb.Sound) (chunkTime : Int) : (tb.window chunkTime).Sound := by
  unfold TableBuffer.window
  cases hw : tb.chunkTimeToChunks.lookup chunkTime with
  | none => exact .empty
  | some ctb => exact h.windows _ (KeyedList.lookup_eq_some.mp hw)

def otherRows (tb : TableBuffer) (chunkTime : Int) : List (Int × StoredRow) :=
  (tb.chunkTimeToChunks.remove chunkTime).entries.flatMap fun w => w.2.liveRows.map (w.1, ·)

variable {e : Int × StoredRow}

theorem window_ne_of_mem_otherRows {chunkTime : Int} (he : e ∈ tb.otherRows chunkTime) : e.1 ≠ chunkTime := by
  obtain ⟨w, hw, he⟩ := mem_flatMap.mp he
  obtain ⟨r, -, rfl⟩ := mem_map.mp he
  exact of_decide_eq_true (mem_filter.mp hw).2

theorem liveRows_perm (tb : TableBuffer) (chunkTime : Int) :
    tb.liveRows.Perm ((tb.window chunkTime).liveRows.map (chunkTime, ·) ++ tb.otherRows chunkTime) := by
  refine ((IndexMap.entries_perm tb.chunkTimeToChunks chunkTime).flatMap_right _).trans (.of_eq ?_)
  rw [flatMap_append, otherRows, window]
  cases tb.chunkTimeToChunks.lookup chunkTime <;> simp [ChunkTimeBuffer.liveRows, ChunkTimeBuffer.empty]

theorem window_bufferChunk (limit : Nat) (tb : TableBuffer) (chunkTime : Int) (first : Nat) (rows : List Row) :
    (tb.bufferChunk limit chunkTime first rows).window chunkTime =
      (rows.zipIdx first).foldl (fun ctb row => ctb.addRow row.2 row.1)
        ((tb.window chunkTime).withTarget limit rows) := by
  simp [window, bufferChunk]

theorem otherRows_bufferChunk (limit : Nat) (tb : TableBuffer) (chunkTime : Int) (first : Nat) (rows : List Row) :
    (tb.bufferChunk limit chunkTime first rows).otherRows chunkTime = tb.otherRows chunkTime := by
  rw [otherRows, bufferChunk, IndexMap.remove_put, otherRows]

theorem Sound.bufferChunk (h : tb.Sound) (limit : Nat) (chunkTime : Int) (first : Nat) (rows : List Row) :
    (tb.bufferChunk limit chunkTime first rows).Sound := by
  refine { h with windows := fun w hw => ?_ }
  have hlookup := IndexMap.lookup_isSome_of_mem hw
  rw [TableBuffer.bufferChunk, IndexMap.lookup_put] at hlookup
  split at hlookup
  · rw [← Option.some.inj hlookup]
    have hfold (rows : List (Row × Nat)) (ctb : ChunkTimeBuffer) (hctb : ctb.Sound) (hne : ctb.chunks ≠ []) :
        (rows.foldl (fun ctb row => ctb.addRow row.2 row.1) ctb).Sound := by
      induction rows generalizing ctb with
      | nil => exact hctb
      | cons row rows ih => exact ih _ (hctb.addRow hne _ _) (ChunkTimeBuffer.addRow_ne_nil hne)
    exact hfold _ _ ((h.window chunkTime).withTarget limit rows) (ChunkTimeBuffer.withTarget_ne_nil limit _ rows)
  · exact h.windows w (KeyedList.lookup_eq_some.mp hlookup)

private theorem mem_liveRows_addRows (rows : List Row) {ctb : ChunkTimeBuffer} (h : ctb.Sound) (hne : ctb.chunks ≠ [])
    (hr : r ∈ ((rows.zipIdx first).foldl (fun ctb row => ctb.addRow row.2 row.1) ctb).liveRows) :
    r ∈ ctb.liveRows ∨ ∃ row ∈ rows, r.time = row.time ∧ first ≤ r.number ∧ r.number < first + rows.length := by
  induction rows generalizing first ctb with
  | nil => exact .inl hr
  | cons row rows ih =>
    rcases ih (h.addRow hne first row) (ChunkTimeBuffer.addRow_ne_nil hne) hr with hold | ⟨row', hrow', htime, hle, hlt⟩
    · rcases mem_cons.mp ((h.liveRows_addRow hne first row).subset hold) with rfl | hold
      · exact .inr ⟨row, mem_cons_self, rfl, le_rfl, Nat.lt_add_of_pos_right (Nat.succ_pos _)⟩
      · exact .inl (mem_filter.mp hold).1
    · refine .inr ⟨row', mem_cons_of_mem _ hrow', htime, (Nat.le_succ _).trans hle, ?_⟩
      rw [length_cons]
      omega

theorem Sound.mem_liveRows_bufferChunk (h : tb.Sound) {limit : Nat} {chunkTime : Int} {rows : List Row}
    (he : e ∈ (tb.bufferChunk limit chunkTime first rows).liveRows) : e ∈ tb.liveRows ∨ e.1 = chunkTime ∧
      ∃ row ∈ rows, e.2.time = row.time ∧ first ≤ e.2.number ∧ e.2.number < first + rows.length := by
  rw [(liveRows_perm _ chunkTime).mem_iff, window_bufferChunk, otherRows_bufferChunk] at he
  rw [(liveRows_perm tb chunkTime).mem_iff]
  rcases mem_append.mp he with he | he
  · obtain ⟨r, hr, rfl⟩ := mem_map.mp he
    rcases mem_liveRows_addRows rows ((h.window chunkTime).withTarget limit rows)
      (ChunkTimeBuffer.withTarget_ne_nil limit _ rows) hr with hold | hnew
    · rw [ChunkTimeBuffer.liveRows_withTarget] at hold
      exact .inl (mem_append_left _ (mem_map_of_mem hold))
    · exact .inr ⟨rfl, hnew⟩
  · exact .inl (mem_append_right _ he)

variable {c : SnapshotChunk}

section Snapshot
variable {columns : List String} {chunkTime olderThan : Int} {ctb : ChunkTimeBuffer}

theorem mem_frozenChunks : c ∈ frozenChunks columns chunkTime ctb ↔
    ∃ chunk ordinal, ctb.chunks[ordinal]? = some chunk ∧ chunk.supersededCount ≠ chunk.slots.length ∧
      c = ⟨chunkTime, ordinal, (chunk.timestampMin, chunk.timestampMax), columns, chunk.liveRows⟩ := by
  simp only [frozenChunks, mem_filterMap, Option.ite_none_left_eq_some, Option.some.injEq, Prod.exists,
    mem_zipIdx_iff_getElem?]
  exact exists_congr fun chunk => exists_congr fun ordinal => and_congr_right fun _ => and_congr_right fun _ => eq_comm

private theorem liveRows_eq_nil (h : chunk.supersededCount = chunk.slots.length) : chunk.liveRows = [] := by
  have hall := length_filter_eq_length_iff.mp h
  rw [MutableTableChunk.liveRows, filter_eq_nil_iff.mpr fun slot hslot => by simpa using hall slot hslot, map_nil]

private theorem rows_frozenChunks (columns : List String) (chunkTime : Int) (ctb : ChunkTimeBuffer) :
    (frozenChunks columns chunkTime ctb).flatMap SnapshotChunk.rows = ctb.liveRows := by
  have hzip (chunks : List MutableTableChunk) (n : Nat) : ((chunks.zipIdx n).filterMap fun (chunk, ordinal) =>
        if chunk.supersededCount = chunk.slots.length then none
        else some (⟨chunkTime, ordinal, (chunk.timestampMin, chunk.timestampMax), columns, chunk.liveRows⟩ :
          SnapshotChunk)).flatMap SnapshotChunk.rows = chunks.flatMap MutableTableChunk.liveRows := by
    induction chunks generalizing n with
    | nil => rfl
    | cons chunk chunks ih =>
      rw [zipIdx_cons, filterMap_cons, flatMap_cons, ← ih (n + 1)]
      by_cases hc : chunk.supersededCount = chunk.slots.length
      · simp [hc, liveRows_eq_nil hc]
      · simp [hc]
  exact hzip _ 0

private theorem places_frozenChunks (columns : List String) (chunkTime : Int) (ctb : ChunkTimeBuffer) :
    ((frozenChunks columns chunkTime ctb).map SnapshotChunk.place).Nodup := by
  have hsub : ((frozenChunks columns chunkTime ctb).map SnapshotChunk.place).Sublist
      (ctb.chunks.zipIdx.map fun x => (chunkTime, x.2)) := by
    rw [frozenChunks, map_filterMap]
    generalize ctb.chunks.zipIdx = l
    induction l with
    | nil => exact .slnil
    | cons x l ih =>
      rw [filterMap_cons, map_cons]
      by_cases hx : x.1.supersededCount = x.1.slots.length
      · simp only [if_pos hx, Option.map_none]
        exact ih.cons _
      · simp only [if_neg hx, Option.map_some]
        exact ih.cons_cons _
  refine List.Nodup.sublist hsub ?_
  have hmap : ctb.chunks.zipIdx.map (fun x => (chunkTime, x.2)) =
      (List.range ctb.chunks.length).map (chunkTime, ·) := by
    rw [range_eq_range', ← zipIdx_map_snd 0 ctb.chunks, map_map]
    rfl
  rw [hmap]
  exact nodup_range.map fun _ _ h => (Prod.mk.inj h).2

/-- A snapshot moves the rows of the windows before the marker. -/
theorem liveRows_snapshot_perm (tb : TableBuffer) (columns : List String) (olderThan : Int) :
    (tb.snapshot columns olderThan).liveRows = tb.liveRows.filter (fun e => ¬ e.1 < olderThan) ∧
    (tb.snapshot columns olderThan).frozenRows = (tb.liveRows.filter fun e => e.1 < olderThan).map Prod.snd := by
  have hfilter (p : Int → Bool) : (tb.chunkTimeToChunks.entries.filter fun w => p w.1).flatMap
      (fun w => w.2.liveRows.map (w.1, ·)) = tb.liveRows.filter fun e => p e.1 := by
    rw [liveRows]
    induction tb.chunkTimeToChunks.entries with
    | nil => rfl
    | cons w ws ih =>
      rw [flatMap_cons, filter_append, ← ih, filter_cons]
      cases hp : p w.1 <;> simp [filter_map, Function.comp_def, hp]
  constructor
  · exact hfilter fun t => ¬ t < olderThan
  · rw [← hfilter fun t => t < olderThan, frozenRows, snapshot, map_flatMap, flatMap_assoc]
    refine flatMap_congr fun w _ => ?_
    rw [rows_frozenChunks, map_map]
    exact (map_id _).symm

theorem Sound.snapshot (h : tb.Sound) (columns : List String) (olderThan : Int) :
    (tb.snapshot columns olderThan).Sound := by
  have hfrozen {c : SnapshotChunk} (hc : c ∈ (tb.snapshot columns olderThan).snapshottingChunks) :
      ∃ ctb : ChunkTimeBuffer, ctb.Sound ∧ ∃ chunk ∈ ctb.chunks, c.rows = chunk.liveRows ∧
        c.timestampMinMax = (chunk.timestampMin, chunk.timestampMax) := by
    obtain ⟨w, hw, hc⟩ := mem_flatMap.mp hc
    obtain ⟨chunk, ordinal, hchunk, -, rfl⟩ := mem_frozenChunks.mp hc
    exact ⟨w.2, h.windows w (mem_filter.mp hw).1, chunk, mem_of_getElem? hchunk, rfl, rfl⟩
  refine ⟨fun w hw => h.windows w (mem_filter.mp hw).1, ?_, fun c hc => ?_, fun c hc r hr => ?_⟩
  · rw [TableBuffer.snapshot, map_flatMap, nodup_flatMap]
    refine ⟨fun w _ => places_frozenChunks .., ?_⟩
    have hdistinct : tb.chunkTimeToChunks.entries.Pairwise fun a b => a.1 ≠ b.1 :=
      pairwise_map.mp tb.chunkTimeToChunks.distinct
    refine (hdistinct.sublist filter_sublist).imp fun hne => ?_
    intro place hplace hplace'
    obtain ⟨c, hc, rfl⟩ := mem_map.mp hplace
    obtain ⟨c', hc', heq⟩ := mem_map.mp hplace'
    obtain ⟨_, _, _, _, rfl⟩ := mem_frozenChunks.mp hc
    obtain ⟨_, _, _, _, rfl⟩ := mem_frozenChunks.mp hc'
    exact hne (Prod.mk.inj heq).1.symm
  · obtain ⟨ctb, hctb, chunk, hchunk, hrows, -⟩ := hfrozen hc
    rw [hrows]
    exact hctb.keys.sublist ((sublist_flatten_of_mem (mem_map_of_mem hchunk)).map _)
  · obtain ⟨ctb, hctb, chunk, hchunk, hrows, hrange⟩ := hfrozen hc
    rw [hrows] at hr
    obtain ⟨slot, hslot, rfl⟩ := mem_map.mp hr
    rw [hrange]
    exact hctb.ranged chunk hchunk slot (mem_filter.mp hslot).1

end Snapshot

/-- Removing a frozen chunk leaves the others. -/
theorem Sound.removeSnapshottingChunk_perm (h : tb.Sound) (hc : c ∈ tb.snapshottingChunks) :
    tb.snapshottingChunks.Perm (c :: (tb.removeSnapshottingChunk c.chunkTime c.chunkOrdinal).snapshottingChunks) := by
  have hremoved : (tb.removeSnapshottingChunk c.chunkTime c.chunkOrdinal).snapshottingChunks.Perm
      (tb.snapshottingChunks.filter fun d => d.place ≠ c.place) := Ledger.removeKey_perm h.places c.place
  exact (Ledger.perm_cons_filter h.places hc).trans (hremoved.cons c).symm

theorem Sound.removeSnapshottingChunk (h : tb.Sound) (chunkTime : Int) (chunkOrdinal : Nat) :
    (tb.removeSnapshottingChunk chunkTime chunkOrdinal).Sound := by
  have hperm : (tb.removeSnapshottingChunk chunkTime chunkOrdinal).snapshottingChunks.Perm
      (tb.snapshottingChunks.filter fun d => d.place ≠ (chunkTime, chunkOrdinal)) := Ledger.removeKey_perm h.places _
  have hmem {c : SnapshotChunk} (hc : c ∈ (tb.removeSnapshottingChunk chunkTime chunkOrdinal).snapshottingChunks) :
      c ∈ tb.snapshottingChunks := (mem_filter.mp (hperm.mem_iff.mp hc)).1
  exact ⟨h.windows, (hperm.map _).nodup_iff.mpr (h.places.sublist (filter_sublist.map _)),
    fun c hc => h.keys c (hmem hc), fun c hc => h.ranged c (hmem hc)⟩

section Batches
variable {columns : List String} {filter : ChunkFilter}

def admittedFrozen (tb : TableBuffer) (filter : ChunkFilter) : List StoredRow :=
  (tb.snapshottingChunks.filter (·.Admitted filter)).flatMap SnapshotChunk.rows

def admittedLive (tb : TableBuffer) (filter : ChunkFilter) : List StoredRow :=
  (tb.liveBatches filter).flatMap Batch.rows

theorem admittedLive_sublist (tb : TableBuffer) (filter : ChunkFilter) :
    (tb.admittedLive filter).Sublist (tb.liveRows.map Prod.snd) := by
  rw [admittedLive, liveBatches, flatMap_assoc, liveRows, map_flatMap]
  refine List.Sublist.flatMap_right _ fun w _ => ?_
  rw [flatMap_map, map_map, ChunkTimeBuffer.liveRows]
  rw [Function.comp_def, map_id']
  exact filter_sublist.flatMap _

theorem Sound.mem_admittedFrozen (h : tb.Sound) (hr : r ∈ tb.frozenRows)
    (htime : filter.testTimeStampMinMax r.time r.time) : r ∈ tb.admittedFrozen filter := by
  obtain ⟨c, hc, hr⟩ := mem_flatMap.mp hr
  obtain ⟨hmin, hmax⟩ := h.ranged c hc r hr
  exact mem_flatMap.mpr ⟨c, mem_filter.mpr ⟨hc, decide_eq_true (ChunkFilter.test_of_covers htime hmin hmax)⟩, hr⟩

theorem Sound.mem_admittedLive (h : tb.Sound) (he : e ∈ tb.liveRows)
    (htime : filter.testTimeStampMinMax e.2.time e.2.time) : e.2 ∈ tb.admittedLive filter := by
  obtain ⟨w, hw, he⟩ := mem_flatMap.mp he
  obtain ⟨r, hr, rfl⟩ := mem_map.mp he
  obtain ⟨chunk, hchunk, hr⟩ := mem_flatMap.mp hr
  obtain ⟨slot, hslot, rfl⟩ := mem_map.mp hr
  obtain ⟨hmin, hmax⟩ := (h.windows w hw).ranged chunk hchunk slot (mem_filter.mp hslot).1
  refine mem_flatMap.mpr ⟨⟨w.1, _, chunk.liveRows⟩, mem_flatMap.mpr ⟨w, hw, mem_map.mpr ⟨chunk, ?_, rfl⟩⟩, hr⟩
  exact mem_filter.mpr ⟨hchunk, ChunkFilter.test_of_covers htime hmin hmax⟩

def SnapshotChunk.batch (c : SnapshotChunk) : Batch := ⟨c.chunkTime, c.timestampMinMax, c.rows⟩

private theorem snapshottingBatch_eq_ok {b : Batch} :
    snapshottingBatch columns c = .ok b ↔ columns ⊆ c.columns ∧ b = c.batch := by
  unfold snapshottingBatch
  split
  · rename_i name hname
    refine iff_of_false nofun fun h => ?_
    have hmissing := List.find?_some hname
    exact of_decide_eq_true hmissing (h.1 (mem_of_find?_eq_some hname))
  · rename_i hnone
    rw [List.find?_eq_none] at hnone
    have hsub : columns ⊆ c.columns := fun name hname => by simpa using hnone name hname
    simp [hsub, eq_comm, SnapshotChunk.batch]

/-- The batches can be made exactly if the admitted frozen chunks have all columns of the query. -/
theorem partitionedRecordBatches_eq_ok {frozen live : List Batch} :
    tb.partitionedRecordBatches columns filter = .ok (frozen, live) ↔
      (∀ c ∈ tb.snapshottingChunks, c.Admitted filter → columns ⊆ c.columns) ∧
      frozen = (tb.snapshottingChunks.filter (·.Admitted filter)).map SnapshotChunk.batch ∧
      live = tb.liveBatches filter := by
  have hfilter : (tb.snapshottingChunks.filter fun c =>
      filter.testTimeStampMinMax c.timestampMinMax.1 c.timestampMinMax.2) =
      tb.snapshottingChunks.filter (·.Admitted filter) :=
    filter_congr fun c _ => by rw [Bool.eq_iff_iff, decide_eq_true_iff]; rfl
  simp only [partitionedRecordBatches, hfilter, bind_eq_ok, mapM_eq_ok_map fun c _ b => snapshottingBatch_eq_ok,
    Except.ok.injEq, Prod.mk.injEq, mem_filter, decide_eq_true_eq, and_imp]
  constructor
  · rintro ⟨_, ⟨hall, rfl⟩, rfl, rfl⟩
    exact ⟨hall, rfl, rfl⟩
  · rintro ⟨hall, rfl, rfl⟩
    exact ⟨_, ⟨hall, rfl⟩, rfl, rfl⟩

theorem flatMap_classes_perm {α κ : Type} [DecidableEq κ] (f : α → κ) {ks : List κ} (hks : ks.Nodup)
    (l : List α) (h : ∀ a ∈ l, f a ∈ ks) : (ks.flatMap fun k => l.filter fun a => f a = k).Perm l := by
  induction ks generalizing l with
  | nil => rw [eq_nil_iff_forall_not_mem.mpr fun a ha => not_mem_nil (h a ha), flatMap_nil]
  | cons k ks ih =>
    obtain ⟨hk, hks⟩ := nodup_cons.mp hks
    refine .trans (.append_left _ (.trans (.of_eq ?_) (ih hks (l.filter fun a => !decide (f a = k)) fun a ha => ?_)))
      (filter_append_perm (fun a => f a = k) l)
    · refine flatMap_congr fun k' hk' => ?_
      rw [filter_filter]
      refine filter_congr fun a _ => ?_
      have hne : k' ≠ k := fun heq => hk (heq ▸ hk')
      by_cases hak : f a = k' <;> simp [hak, hne]
    · obtain ⟨ha, hne⟩ := mem_filter.mp ha
      exact (mem_cons.mp (h a ha)).resolve_left (by simpa using hne)

private theorem rows_nonempty (c : BufferChunk) (cs : List BufferChunk) :
    ((c :: cs).filter fun c => c.batches ≠ []).flatMap BufferChunk.rows =
      c.rows ++ (cs.filter fun c => c.batches ≠ []).flatMap BufferChunk.rows := by
  by_cases hc : c.batches = []
  · rw [filter_cons_of_neg (by simp [hc]), BufferChunk.rows, hc, flatMap_nil, nil_append]
  · rw [filter_cons_of_pos (by simp [hc]), flatMap_cons]

/-- The chunks of a query have the rows of the admitted chunks of the buffer, each as often as it occurs there. -/
theorem tableChunksLocked_eq_ok {chunks : List BufferChunk} (h : tb.tableChunksLocked columns filter = .ok chunks) :
    (chunks.flatMap BufferChunk.rows).Perm (tb.admittedFrozen filter ++ tb.admittedLive filter) := by
  unfold tableChunksLocked at h
  split at h
  · cases h
  · rename_i frozen live hbatches
    obtain ⟨-, rfl, rfl⟩ := partitionedRecordBatches_eq_ok.mp hbatches
    cases h
    simp only [flatMap_assoc, rows_nonempty, filter_nil, flatMap_nil, append_nil, BufferChunk.rows]
    refine (flatMap_append_perm ..).symm.trans (.append ?_ ?_)
    · rw [← flatMap_assoc]
      refine ((flatMap_classes_perm Batch.chunkTime (nodup_dedup _) _ fun b hb => ?_).flatMap_right _).trans
        (.of_eq (flatMap_map ..))
      exact mem_dedup.mpr (mem_map_of_mem (mem_append_left _ hb))
    · rw [← flatMap_assoc]
      refine (flatMap_classes_perm Batch.chunkTime (nodup_dedup _) _ fun b hb => ?_).flatMap_right _
      exact mem_dedup.mpr (mem_map_of_mem (mem_append_right _ hb))

/-- The chunks are returned exactly if the admitted frozen ones have all columns of the query. -/
theorem exists_tableChunksLocked_iff : (∃ chunks, tb.tableChunksLocked columns filter = .ok chunks) ↔
    ∀ c ∈ tb.snapshottingChunks, c.Admitted filter → columns ⊆ c.columns := by
  unfold tableChunksLocked
  constructor
  · rintro ⟨chunks, h⟩
    split at h
    · cases h
    · rename_i frozen live hbatches
      exact (partitionedRecordBatches_eq_ok.mp hbatches).1
  · intro hall
    rw [partitionedRecordBatches_eq_ok.mpr ⟨hall, rfl, rfl⟩]
    exact ⟨_, rfl⟩

end Batches

end

end TableBuffer
end VarveDB
