import VarveDB.Wal.Node
import VarveDB.Write.TableBuffer

/-! The write batches that are merged, by the name of their database, into the operations of one WAL file. -/
namespace VarveDB.WriteBatches
open Library Runs List IndexMap
open TableBuffer (Row)
open Wal (i64Min i64Max)

structure TableChunks where
  minTime : Int
  maxTime : Int
  chunkTimeToChunk : IndexMap Int (List Row)

variable (chunks : TableChunks) (tables : TableMap) (b : WriteBatch)

namespace TableChunks

def empty : TableChunks := ⟨i64Max, i64Min, .empty _⟩

def pushRow (chunkTime : Int) (row : Row) : TableChunks where
  minTime := min chunks.minTime row.time
  maxTime := max chunks.maxTime row.time
  chunkTimeToChunk :=
    chunks.chunkTimeToChunk.put chunkTime ((chunks.chunkTimeToChunk.lookup chunkTime).getD [] ++ [row])

def extend (chunk : Int × List Row) : TableChunks where
  minTime := chunk.2.foldl (fun t r => min t r.time) chunks.minTime
  maxTime := chunk.2.foldl (fun t r => max t r.time) chunks.maxTime
  chunkTimeToChunk := chunks.chunkTimeToChunk.put chunk.1 ((chunks.chunkTimeToChunk.lookup chunk.1).getD [] ++ chunk.2)

def extendAll (chunks : Option TableChunks) (new : TableChunks) : TableChunks :=
  new.chunkTimeToChunk.entries.foldl extend (chunks.getD empty)

end TableChunks

abbrev TableMap := IndexMap Nat TableChunks

def rowsAt (table : Nat) (chunkTime : Int) : List Row :=
  ((tables.lookup table).bind fun chunks => chunks.chunkTimeToChunk.lookup chunkTime).getD []

structure WriteBatch where
  catalogSequence : Nat
  databaseId : Nat
  databaseName : String
  tableChunks : TableMap
  minTimeNs : Int
  maxTimeNs : Int

namespace WriteBatch

def new (catalogSequence databaseId : Nat) (databaseName : String) (tableChunks : TableMap) : WriteBatch where
  catalogSequence := catalogSequence
  databaseId := databaseId
  databaseName := databaseName
  tableChunks := tableChunks
  minTimeNs := tableChunks.values.foldl (fun t chunks => min t chunks.minTime) i64Max
  maxTimeNs := tableChunks.values.foldl (fun t chunks => max t chunks.maxTime) i64Min

def addWriteBatch (newTableChunks : TableMap) (minTimeNs maxTimeNs : Int) : WriteBatch :=
  { b with
    minTimeNs := min b.minTimeNs minTimeNs
    maxTimeNs := max b.maxTimeNs maxTimeNs
    tableChunks := newTableChunks.entries.foldl
      (fun tables e => tables.put e.1 (TableChunks.extendAll (tables.lookup e.1) e.2)) b.tableChunks }

end WriteBatch

structure QualifiedLine where
  tableId : Nat
  chunkTime : Int
  row : Row

def convertQualifiedLine (line : QualifiedLine) : TableMap :=
  tables.put line.tableId (((tables.lookup line.tableId).getD .empty).pushRow line.chunkTime line.row)

structure Request where
  catalogSequence : Nat
  databaseId : Nat
  databaseName : String
  lines : List QualifiedLine
  times : ∀ line ∈ lines, i64Min ≤ line.row.time ∧ line.row.time ≤ i64Max

variable (w : Request) (table : Nat)

namespace Request

def batch : WriteBatch :=
  .new w.catalogSequence w.databaseId w.databaseName (w.lines.foldl convertQualifiedLine (.empty _))

def rowsFor (chunkTime : Int) : List Row :=
  (w.lines.filter fun l => l.tableId = table ∧ l.chunkTime = chunkTime).map QualifiedLine.row

end Request

inductive WalOp where
  | write (request : Request)
  | noop (timestampNs : Int)

inductive BufferState where
  | acceptingWrites | shuttingDown | error
  deriving DecidableEq

inductive BufferError where
  | shutdown
  | bufferFull (opCount : Nat)

structure WalBuffer where
  state : BufferState
  opLimit : Nat
  opCount : Nat
  databaseToWriteBatch : IndexMap String WriteBatch
  noOp : Option Int

variable (buf : WalBuffer)

namespace WalBuffer

def new (opLimit : Nat) : WalBuffer := ⟨.acceptingWrites, opLimit, 0, .empty _, none⟩

def merged (old : Option WriteBatch) (new : WriteBatch) : WriteBatch :=
  (old.getD ⟨new.catalogSequence, new.databaseId, new.databaseName, .empty _, i64Max, i64Min⟩).addWriteBatch
    new.tableChunks new.minTimeNs new.maxTimeNs

def writeOp : WalOp → WalBuffer
  | .write request =>
    let writeBatch := merged (buf.databaseToWriteBatch.lookup request.databaseName) request.batch
    { buf with databaseToWriteBatch := buf.databaseToWriteBatch.put request.databaseName writeBatch }
  | .noop _ => buf

def writeOpsUnconfirmed (ops : List WalOp) : Except BufferError WalBuffer :=
  if buf.state ≠ .acceptingWrites then .error .shutdown
  else if buf.opLimit ≤ buf.opCount then .error (.bufferFull buf.opCount)
  else .ok (ops.foldl writeOp buf)

end WalBuffer

structure WalContents where
  minTimestampNs : Int
  maxTimestampNs : Int
  writes : List WriteBatch
  noop : Option Int

/-- The contents of the WAL file that a flush writes; `order` is the order in which the batches of
the map are visited, and sorting keeps it. -/
def WalBuffer.intoWalContents (order : List (String × WriteBatch)) (forcedSnapshot : Bool) : WalContents :=
  let minTimestampNs := order.foldl (fun t e => min t e.2.minTimeNs) i64Max
  let maxTimestampNs := order.foldl (fun t e => max t e.2.maxTimeNs) i64Min
  match order, forcedSnapshot, buf.noOp with
  | [], true, some time => ⟨time, time + 1, [], some time⟩
  | _, _, _ => ⟨minTimestampNs, maxTimestampNs, order.map Prod.snd, none⟩

variable (contents : WalContents) (accepted : List Request) {e : String × WriteBatch} (chunkTime : Int) {x : Int}

def WalContents.rowsAt (database table : Nat) (chunkTime : Int) : List Row :=
  (contents.writes.filter fun b => b.databaseId = database).flatMap fun b =>
    WriteBatches.rowsAt b.tableChunks table chunkTime

structure State where
  buffer : WalBuffer
  accepted : List Request

inductive Action where
  | writeOps (ops : List WalOp)
  | addNoOp (now : Int)
  | setState (state : BufferState)

def WalOp.request? : WalOp → Option Request
  | .write request => some request
  | .noop _ => none

namespace State

def new (opLimit : Nat) : State := ⟨.new opLimit, []⟩

/-- A call that fails leaves the buffer as it is. -/
def step (s : State) : Action → Option State
  | .writeOps ops => some <| match s.buffer.writeOpsUnconfirmed ops with
    | .ok buffer => ⟨buffer, s.accepted ++ ops.filterMap WalOp.request?⟩
    | .error _ => s
  | .addNoOp now => some { s with buffer := { s.buffer with noOp := some now } }
  | .setState state => some { s with buffer := { s.buffer with state := state } }

end State

def rowsFor (database table : Nat) (chunkTime : Int) : List Row :=
  (accepted.filter fun w => w.databaseId = database).flatMap fun w => w.rowsFor table chunkTime

/-- The file holds each accepted row once, under the ids of its request and in the order of arrival. -/
def WalContents.Whole : Prop :=
  ∀ database table chunkTime, contents.rowsAt database table chunkTime = rowsFor accepted database table chunkTime

def WalContents.Spans : Prop :=
  ∀ w ∈ accepted, ∀ l ∈ w.lines, (contents.minTimestampNs ≤ l.row.time ∧ l.row.time ≤ contents.maxTimestampNs) ∧
    (∃ w' ∈ accepted, ∃ l' ∈ w'.lines, l'.row.time = contents.minTimestampNs) ∧
    ∃ w' ∈ accepted, ∃ l' ∈ w'.lines, l'.row.time = contents.maxTimestampNs

private theorem chunkTimeToChunk_extendAll (old : Option TableChunks) (new : TableChunks) :
    ((TableChunks.extendAll old new).chunkTimeToChunk.lookup chunkTime).getD [] =
      ((old.getD .empty).chunkTimeToChunk.lookup chunkTime).getD [] ++
        (new.chunkTimeToChunk.lookup chunkTime).getD [] := by
  have hproj (es : List (Int × List Row)) (chunks : TableChunks) :
      (es.foldl TableChunks.extend chunks).chunkTimeToChunk =
      es.foldl (fun m e => m.put e.1 ((m.lookup e.1).getD [] ++ e.2)) chunks.chunkTimeToChunk := by
    induction es generalizing chunks with
    | nil => rfl
    | cons e es ih => exact ih (chunks.extend e)
  rw [TableChunks.extendAll, hproj, lookup_foldl_update fun old rows => old.getD [] ++ rows]
  cases new.chunkTimeToChunk.lookup chunkTime <;> simp

open WriteBatch

/-- Merging appends the rows of every table and window. -/
theorem rowsAt_addWriteBatch (new : TableMap) (minTimeNs maxTimeNs : Int) :
    rowsAt (b.addWriteBatch new minTimeNs maxTimeNs).tableChunks table chunkTime =
      rowsAt b.tableChunks table chunkTime ++ rowsAt new table chunkTime := by
  rw [rowsAt, addWriteBatch, lookup_foldl_update TableChunks.extendAll, rowsAt, rowsAt]
  cases hnew : new.lookup table with
  | none => simp
  | some chunks =>
    rw [Option.map_some, Option.some_or, bind_some, bind_some, chunkTimeToChunk_extendAll]
    cases b.tableChunks.lookup table <;> rfl

namespace Request

theorem rowsAt_batch : rowsAt w.batch.tableChunks table chunkTime = w.rowsFor table chunkTime := by
  have hfold (lines : List QualifiedLine) (tables : TableMap) :
      rowsAt (lines.foldl convertQualifiedLine tables) table chunkTime = rowsAt tables table chunkTime ++
        (lines.filter fun l => l.tableId = table ∧ l.chunkTime = chunkTime).map QualifiedLine.row := by
    induction lines generalizing tables with
    | nil => simp
    | cons l lines ih =>
      have hline : rowsAt (convertQualifiedLine tables l) table chunkTime = rowsAt tables table chunkTime ++
          if l.tableId = table ∧ l.chunkTime = chunkTime then [l.row] else [] := by
        rw [rowsAt, convertQualifiedLine, lookup_put, rowsAt]
        by_cases htable : table = l.tableId
        · rw [if_pos htable, bind_some, TableChunks.pushRow, lookup_put]
          cases hold : tables.lookup l.tableId <;> by_cases htime : chunkTime = l.chunkTime <;>
            simp [htable, htime, hold, eq_comm, TableChunks.empty]
        · simp [htable, Ne.symm htable]
      rw [foldl_cons, ih, hline, filter_cons, append_assoc]
      by_cases hl : l.tableId = table ∧ l.chunkTime = chunkTime <;> simp [hl]
  rw [batch, new, hfold, rowsFor]
  rfl

theorem bound_foldl (bound : TableChunks → Prop) (line : Int → Prop) (hempty : bound .empty)
    (hpush : ∀ chunks chunkTime row, bound (chunks.pushRow chunkTime row) ↔ bound chunks ∧ line row.time)
    (lines : List QualifiedLine) (tables : TableMap) :
    (∀ table chunks, (lines.foldl convertQualifiedLine tables).lookup table = some chunks → bound chunks) ↔
      (∀ table chunks, tables.lookup table = some chunks → bound chunks) ∧ ∀ l ∈ lines, line l.row.time := by
  induction lines generalizing tables with
  | nil => simp
  | cons l lines ih =>
    have hline : (∀ table chunks, (convertQualifiedLine tables l).lookup table = some chunks → bound chunks) ↔
        (∀ table chunks, tables.lookup table = some chunks → bound chunks) ∧ line l.row.time := by
      have hold : bound ((tables.lookup l.tableId).getD .empty) ↔
          ∀ chunks, tables.lookup l.tableId = some chunks → bound chunks := by
        cases tables.lookup l.tableId <;> simp [hempty]
      constructor
      · intro h
        obtain ⟨hbound, hrow⟩ := (hpush _ _ _).mp (h l.tableId _ (by rw [convertQualifiedLine, lookup_put, if_pos rfl]))
        refine ⟨fun table chunks hchunks => ?_, hrow⟩
        by_cases htable : table = l.tableId
        · exact hold.mp hbound chunks (htable ▸ hchunks)
        · exact h table chunks (by rwa [convertQualifiedLine, lookup_put, if_neg htable])
      · rintro ⟨h, hrow⟩
        exact forall_put ((hpush _ _ _).mpr ⟨hold.mpr (h l.tableId), hrow⟩) fun table chunks _ => h table chunks
    rw [foldl_cons, ih, hline, forall_mem_cons, and_assoc]

theorem forall_mem_values {tables : TableMap} {bound : TableChunks → Prop} :
    (∀ chunks ∈ tables.values, bound chunks) ↔ ∀ table chunks, tables.lookup table = some chunks → bound chunks := by
  simp only [mem_values, forall_exists_index]
  exact forall_comm

theorem le_minTimeNs_batch (hx : x ≤ i64Max) : x ≤ w.batch.minTimeNs ↔ ∀ l ∈ w.lines, x ≤ l.row.time := by
  rw [batch, new, le_foldl_min, forall_mem_values,
    bound_foldl (fun chunks => x ≤ chunks.minTime) (fun t => x ≤ t) hx fun _ _ _ => le_min_iff]
  simp [hx]

theorem maxTimeNs_batch_le (hx : i64Min ≤ x) : w.batch.maxTimeNs ≤ x ↔ ∀ l ∈ w.lines, l.row.time ≤ x := by
  rw [batch, new, foldl_max_le, forall_mem_values,
    bound_foldl (fun chunks => chunks.maxTime ≤ x) (fun t => t ≤ x) hx fun _ _ _ => max_le_iff]
  simp [hx]

end Request

structure Merged (b : WriteBatch) (ws : List Request) : Prop where
  first : ∃ w, ws.head? = some w ∧ b.databaseId = w.databaseId
  rows : ∀ table chunkTime, rowsAt b.tableChunks table chunkTime = ws.flatMap fun w => w.rowsFor table chunkTime
  low : ∀ x ≤ i64Max, x ≤ b.minTimeNs ↔ ∀ w ∈ ws, ∀ l ∈ w.lines, x ≤ l.row.time
  high : ∀ x, i64Min ≤ x → (b.maxTimeNs ≤ x ↔ ∀ w ∈ ws, ∀ l ∈ w.lines, l.row.time ≤ x)

theorem Merged.new (w : Request) : Merged (WalBuffer.merged none w.batch) [w] := by
  refine ⟨⟨w, rfl, rfl⟩, fun table chunkTime => ?_, fun x hx => ?_, fun x hx => ?_⟩
  · rw [WalBuffer.merged, rowsAt_addWriteBatch, w.rowsAt_batch, flatMap_singleton]
    rfl
  · rw [WalBuffer.merged, addWriteBatch, le_min_iff, w.le_minTimeNs_batch hx, forall_mem_singleton]
    exact and_iff_right hx
  · rw [WalBuffer.merged, addWriteBatch, max_le_iff, w.maxTimeNs_batch_le hx, forall_mem_singleton]
    exact and_iff_right hx

theorem Merged.add {b : WriteBatch} {ws : List Request} (h : Merged b ws) (w : Request) :
    Merged (WalBuffer.merged (some b) w.batch) (ws ++ [w]) := by
  obtain ⟨first, hfirst, hid⟩ := h.first
  refine ⟨⟨first, by rw [List.head?_append, hfirst, Option.some_or], hid⟩, fun table chunkTime => ?_, fun x hx => ?_,
    fun x hx => ?_⟩
  · rw [WalBuffer.merged, Option.getD_some, rowsAt_addWriteBatch, w.rowsAt_batch, h.rows, flatMap_append,
      flatMap_singleton]
  · rw [WalBuffer.merged, Option.getD_some, addWriteBatch, le_min_iff, w.le_minTimeNs_batch hx, h.low x hx,
      forall_mem_append, forall_mem_singleton]
  · rw [WalBuffer.merged, Option.getD_some, addWriteBatch, max_le_iff, w.maxTimeNs_batch_le hx, h.high x hx,
      forall_mem_append, forall_mem_singleton]

def named (name : String) : List Request := accepted.filter fun w => w.databaseName = name

def State.Holds (s : State) : Prop :=
  ∀ name, match s.buffer.databaseToWriteBatch.lookup name with
    | none => named s.accepted name = []
    | some b => Merged b (named s.accepted name)

namespace State

theorem Holds.writeOp {s : State} (h : s.Holds) (op : WalOp) :
    Holds ⟨s.buffer.writeOp op, s.accepted ++ op.request?.toList⟩ := by
  cases op with
  | noop _ => simpa [WalOp.request?, WalBuffer.writeOp] using h
  | write w =>
    intro name
    have hname := h w.databaseName
    simp only [WalBuffer.writeOp, WalOp.request?, Option.toList_some, lookup_put, named, filter_append] at h hname ⊢
    by_cases heq : name = w.databaseName
    · subst heq
      rw [if_pos rfl, filter_cons_of_pos (by simp), filter_nil]
      cases hlookup : s.buffer.databaseToWriteBatch.lookup w.databaseName with
      | none =>
        rw [hlookup] at hname
        rw [hname]
        exact .new w
      | some b =>
        rw [hlookup] at hname
        exact hname.add w
    · rw [if_neg heq, filter_cons_of_neg (by simpa using Ne.symm heq), filter_nil, append_nil]
      exact h name

theorem Holds.writeOps {s : State} (h : s.Holds) (ops : List WalOp) :
    Holds ⟨ops.foldl WalBuffer.writeOp s.buffer, s.accepted ++ ops.filterMap WalOp.request?⟩ := by
  induction ops generalizing s with
  | nil => simpa using h
  | cons op ops ih =>
    have hops := ih (h.writeOp op)
    cases hop : op.request? with
    | none | some => simpa [hop] using hops

theorem Holds.step {s s' : State} {a : Action} (h : s.Holds) (hstep : s.step a = some s') : s'.Holds := by
  cases a with
  | addNoOp | setState =>
    cases hstep
    exact h
  | writeOps ops =>
    simp only [State.step, WalBuffer.writeOpsUnconfirmed, some.injEq] at hstep
    split at hstep
    · next buffer hbuffer =>
      subst hstep
      split_ifs at hbuffer
      cases hbuffer
      exact h.writeOps ops
    · exact hstep ▸ h

section Flush
variable {s : State} {order : List (String × WriteBatch)} {forcedSnapshot : Bool}

theorem writes_intoWalContents (order : List (String × WriteBatch)) (forcedSnapshot : Bool) :
    (buf.intoWalContents order forcedSnapshot).writes = order.map Prod.snd := by
  unfold WalBuffer.intoWalContents
  split <;> rfl

private theorem extremes_intoWalContents (forcedSnapshot : Bool) (hne : order ≠ []) :
    (buf.intoWalContents order forcedSnapshot).minTimestampNs = order.foldl (fun t e => min t e.2.minTimeNs) i64Max ∧
    (buf.intoWalContents order forcedSnapshot).maxTimestampNs =
      order.foldl (fun t e => max t e.2.maxTimeNs) i64Min := by
  unfold WalBuffer.intoWalContents
  split
  · exact absurd rfl hne
  · exact ⟨rfl, rfl⟩

section
variable (h : s.Holds)
include h

private theorem Holds.merged (he : e ∈ s.buffer.databaseToWriteBatch.entries) : Merged e.2 (named s.accepted e.1) := by
  have hname := h e.1
  rwa [lookup_isSome_of_mem he] at hname

theorem Holds.exists_entry {w : Request} (hw : w ∈ s.accepted) :
    ∃ b, (w.databaseName, b) ∈ s.buffer.databaseToWriteBatch.entries := by
  have hname := h w.databaseName
  cases hlookup : s.buffer.databaseToWriteBatch.lookup w.databaseName with
  | none =>
    rw [hlookup] at hname
    have hmem : w ∈ named s.accepted w.databaseName := mem_filter.mpr ⟨hw, by simp⟩
    exact absurd hmem (hname ▸ not_mem_nil)
  | some b => exact ⟨b, KeyedList.lookup_eq_some.mp hlookup⟩

theorem Holds.entry_id (he : e ∈ s.buffer.databaseToWriteBatch.entries) :
    ∃ w ∈ s.accepted, w.databaseName = e.1 ∧ e.2.databaseId = w.databaseId := by
  obtain ⟨w, hw, hid⟩ := (h.merged he).first
  obtain ⟨hmem, hname⟩ := mem_filter.mp (mem_of_head? hw)
  exact ⟨w, hmem, of_decide_eq_true hname, hid⟩

section
variable (hperm : order.Perm s.buffer.databaseToWriteBatch.entries)
include hperm

theorem Holds.forall_entries {bound : WriteBatch → Prop} {line : QualifiedLine → Prop}
    (hbound : ∀ b ws, Merged b ws → (bound b ↔ ∀ w ∈ ws, ∀ l ∈ w.lines, line l)) :
    (∀ e ∈ order, bound e.2) ↔ ∀ w ∈ s.accepted, ∀ l ∈ w.lines, line l := by
  constructor
  · intro hall w hw
    obtain ⟨b, hb⟩ := h.exists_entry hw
    exact (hbound b _ (h.merged hb)).mp (hall _ (hperm.mem_iff.mpr hb)) w (mem_filter.mpr ⟨hw, by simp⟩)
  · intro hall e he
    exact (hbound e.2 _ (h.merged (hperm.mem_iff.mp he))).mpr fun w hw => hall w (mem_filter.mp hw).1

private theorem Holds.spans : (s.buffer.intoWalContents order forcedSnapshot).Spans s.accepted := by
  intro w hw l hl
  obtain ⟨b, hb⟩ := h.exists_entry hw
  obtain ⟨hmin, hmax⟩ := extremes_intoWalContents s.buffer forcedSnapshot (ne_nil_of_mem (hperm.mem_iff.mpr hb))
  rw [hmin, hmax]
  generalize hlow : order.foldl (fun t e => min t e.2.minTimeNs) i64Max = low
  generalize hhigh : order.foldl (fun t e => max t e.2.maxTimeNs) i64Min = high
  have hlows (x : Int) (hx : x ≤ i64Max) : x ≤ low ↔ ∀ w ∈ s.accepted, ∀ l ∈ w.lines, x ≤ l.row.time := by
    rw [← hlow, le_foldl_min, and_iff_right hx]
    exact h.forall_entries hperm fun b ws hb => hb.low x hx
  have hhighs (x : Int) (hx : i64Min ≤ x) : high ≤ x ↔ ∀ w ∈ s.accepted, ∀ l ∈ w.lines, l.row.time ≤ x := by
    rw [← hhigh, foldl_max_le, and_iff_right hx]
    exact h.forall_entries hperm fun b ws hb => hb.high x hx
  have hlowle : low ≤ i64Max := ((le_foldl_min order).mp (le_of_eq hlow.symm)).1
  have hlehigh : i64Min ≤ high := ((foldl_max_le order).mp (le_of_eq hhigh)).1
  have hbelow := (hlows low hlowle).mp le_rfl
  have habove := (hhighs high hlehigh).mp le_rfl
  obtain ⟨hge, hle⟩ := w.times l hl
  refine ⟨⟨hbelow w hw l hl, habove w hw l hl⟩, ?_, ?_⟩
  -- If no row had the extreme time, the next value would be a bound too.
  · by_contra hnone
    push Not at hnone
    have hstrict : ∀ w' ∈ s.accepted, ∀ l' ∈ w'.lines, low + 1 ≤ l'.row.time := fun w' hw' l' hl' =>
      lt_of_le_of_ne (hbelow w' hw' l' hl') (hnone w' hw' l' hl').symm
    have := (hlows (low + 1) ((hstrict w hw l hl).trans hle)).mpr hstrict
    omega
  · by_contra hnone
    push Not at hnone
    have hstrict : ∀ w' ∈ s.accepted, ∀ l' ∈ w'.lines, l'.row.time ≤ high - 1 := fun w' hw' l' hl' =>
      Int.le_sub_one_of_lt (lt_of_le_of_ne (habove w' hw' l' hl') (hnone w' hw' l' hl'))
    have := (hhighs (high - 1) (hge.trans (hstrict w hw l hl))).mpr hstrict
    omega

private theorem Holds.whole
    (hids : ∀ w ∈ s.accepted, ∀ w' ∈ s.accepted, w.databaseName = w'.databaseName ↔ w.databaseId = w'.databaseId) :
    (s.buffer.intoWalContents order forcedSnapshot).Whole s.accepted := by
  intro database table chunkTime
  rw [WalContents.rowsAt, writes_intoWalContents, filter_map, rowsFor]
  by_cases hex : ∃ w ∈ s.accepted, w.databaseId = database
  · obtain ⟨w, hw, rfl⟩ := hex
    obtain ⟨b, hb⟩ := h.exists_entry hw
    have hone : order.filter ((fun b : WriteBatch => b.databaseId = w.databaseId) ∘ Prod.snd) =
        [(w.databaseName, b)] := by
      have hnodup : order.Nodup := hperm.nodup_iff.mpr (List.Nodup.of_map _ s.buffer.databaseToWriteBatch.distinct)
      refine perm_singleton.mp ((perm_ext_iff_of_nodup (hnodup.filter _) (nodup_singleton _)).mpr fun e => ?_)
      rw [mem_filter, mem_singleton, Function.comp_apply, decide_eq_true_eq, hperm.mem_iff]
      constructor
      · rintro ⟨he, hid⟩
        obtain ⟨w', hw', hname, hid'⟩ := h.entry_id he
        have heq : w'.databaseName = w.databaseName := (hids w' hw' w hw).mpr (hid'.symm.trans hid)
        exact KeyedList.eq_of_key_eq he hb (hname.symm.trans heq)
      · rintro rfl
        obtain ⟨w', hw', hname, hid'⟩ := h.entry_id hb
        exact ⟨hb, hid'.trans ((hids w' hw' w hw).mp hname)⟩
    have hnamed : named s.accepted w.databaseName = s.accepted.filter fun w' => w'.databaseId = w.databaseId :=
      filter_congr fun w' hw' => by rw [decide_eq_decide]; exact hids w' hw' w hw
    rw [hone, map_singleton, flatMap_singleton, (h.merged hb).rows, hnamed]
  · push Not at hex
    have hnone : order.filter ((fun b : WriteBatch => b.databaseId = database) ∘ Prod.snd) = [] := by
      refine filter_eq_nil_iff.mpr fun e he => ?_
      obtain ⟨w', hw', -, hid'⟩ := h.entry_id (hperm.mem_iff.mp he)
      simpa [hid'] using hex w' hw'
    rw [hnone, filter_eq_nil_iff.mpr fun w hw => by simpa using hex w hw]
    rfl

private theorem Holds.ids_of_whole (hrows : ∀ w ∈ s.accepted, w.lines ≠ [])
    (hnames : ∀ w ∈ s.accepted, ∀ w' ∈ s.accepted, w.databaseId = w'.databaseId → w.databaseName = w'.databaseName)
    (hwhole : (s.buffer.intoWalContents order forcedSnapshot).Whole s.accepted) {w w' : Request} (hw : w ∈ s.accepted)
    (hw' : w' ∈ s.accepted) (hname : w.databaseName = w'.databaseName) : w.databaseId = w'.databaseId := by
  obtain ⟨b, hb⟩ := h.exists_entry hw
  -- The batch of the name has the id of each of its requests.
  have hid (v : Request) (hv : v ∈ s.accepted) (hvname : v.databaseName = w.databaseName) :
      b.databaseId = v.databaseId := by
    obtain ⟨l, lines, hlines⟩ := exists_cons_of_ne_nil (hrows v hv)
    have hmem : l.row ∈ rowsFor s.accepted v.databaseId l.tableId l.chunkTime := by
      refine mem_flatMap.mpr ⟨v, mem_filter.mpr ⟨hv, by simp⟩, ?_⟩
      simp [Request.rowsFor, hlines]
    rw [← hwhole, WalContents.rowsAt, writes_intoWalContents] at hmem
    obtain ⟨b', hb', -⟩ := mem_flatMap.mp hmem
    obtain ⟨hb', hid'⟩ := mem_filter.mp hb'
    obtain ⟨e, he, rfl⟩ := mem_map.mp hb'
    obtain ⟨v', hv', hname', hv'id⟩ := h.entry_id (hperm.mem_iff.mp he)
    have heq : e.1 = w.databaseName :=
      hname'.symm.trans ((hnames v' hv' v hv (hv'id.symm.trans (of_decide_eq_true hid'))).trans hvname)
    have hsame : e = (w.databaseName, b) := KeyedList.eq_of_key_eq (hperm.mem_iff.mp he) hb heq
    rw [← of_decide_eq_true hid', hsame]
  exact (hid w hw rfl).symm.trans (hid w' hw' hname.symm)

end

end

end Flush

/-- Every accepted row is flushed once, under the ids of its request and in the order of arrival, if requests have the
same database name exactly when they have the same id; where a database keeps its name, only if. -/
theorem flush_whole_iff_names_fix_ids {opLimit : Nat} {as : List Action} {s : State}
    (hrun : run step (new opLimit) as = some s)
    {order : List (String × WriteBatch)} (hperm : order.Perm s.buffer.databaseToWriteBatch.entries)
    (forcedSnapshot : Bool) : (s.buffer.intoWalContents order forcedSnapshot).Spans s.accepted ∧
    ((∀ w ∈ s.accepted, ∀ w' ∈ s.accepted, w.databaseName = w'.databaseName ↔ w.databaseId = w'.databaseId) →
      (s.buffer.intoWalContents order forcedSnapshot).Whole s.accepted) ∧
    ((∀ w ∈ s.accepted, w.lines ≠ []) →
      (∀ w ∈ s.accepted, ∀ w' ∈ s.accepted, w.databaseId = w'.databaseId → w.databaseName = w'.databaseName) →
      (s.buffer.intoWalContents order forcedSnapshot).Whole s.accepted →
        ∀ w ∈ s.accepted, ∀ w' ∈ s.accepted, w.databaseName = w'.databaseName → w.databaseId = w'.databaseId) := by
  have h : s.Holds := invariant_of_step Holds.step (fun _ => rfl) hrun
  exact ⟨h.spans hperm, h.whole hperm,
    fun hrows hnames hwhole w hw w' hw' => h.ids_of_whole hperm hrows hnames hwhole hw hw'⟩

private def request (databaseId : Nat) (time : Int) (ht : i64Min ≤ time ∧ time ≤ i64Max) : Request where
  catalogSequence := databaseId
  databaseId := databaseId
  databaseName := "foo"
  lines := [⟨0, 0, .ofTime time⟩]
  times := by simpa [Row.ofTime] using ht

/-- Two requests to one database are written as one batch under its id. -/
theorem flush_whole_of_one_database :
    ∃ s, run step (new 10)
      [.writeOps [.write (request 1 5 (by decide))], .writeOps [.write (request 1 3 (by decide))]] = some s ∧
      s.accepted.length = 2 ∧
        (s.buffer.intoWalContents s.buffer.databaseToWriteBatch.entries false).Whole s.accepted := by
  refine exists_of_decide (fun s => s.accepted.length = 2 ∧ ∀ w ∈ s.accepted, w.databaseName = "foo" ∧ w.databaseId = 1)
    (by decide +kernel) fun s hrun ⟨hlength, hsame⟩ => ?_
  refine ⟨hlength, (flush_whole_iff_names_fix_ids hrun (.refl _) false).2.1 fun w hw w' hw' => ?_⟩
  simp [hsame w hw, hsame w' hw']

/-- A database is deleted and created again under its name, with a write before and a write after:
the row of the second is flushed under the id of the first. -/
theorem flush_under_deleted_database :
    ∃ s, run step (new 10)
      [.writeOps [.write (request 1 5 (by decide))], .writeOps [.write (request 2 3 (by decide))]] = some s ∧
      s.accepted.map Request.databaseId = [1, 2] ∧
      ((s.buffer.intoWalContents s.buffer.databaseToWriteBatch.entries false).rowsAt 1 0 0).map (·.time) = [5, 3] ∧
      ((s.buffer.intoWalContents s.buffer.databaseToWriteBatch.entries false).rowsAt 2 0 0).map (·.time) = [] ∧
      ¬ (s.buffer.intoWalContents s.buffer.databaseToWriteBatch.entries false).Whole s.accepted := by
  refine exists_of_decide (fun s => s.accepted.map Request.databaseId = [1, 2] ∧
    ((s.buffer.intoWalContents s.buffer.databaseToWriteBatch.entries false).rowsAt 1 0 0).map (·.time) = [5, 3] ∧
    ((s.buffer.intoWalContents s.buffer.databaseToWriteBatch.entries false).rowsAt 2 0 0).map (·.time) = [] ∧
    (rowsFor s.accepted 2 0 0).map (·.time) = [3]) (by decide +kernel) fun s hrun ⟨hids, hfirst, hsecond, hrow⟩ => ?_
  refine ⟨hids, hfirst, hsecond, fun hwhole => ?_⟩
  rw [hwhole 2 0 0, hrow] at hsecond
  cases hsecond

end State

end VarveDB.WriteBatches
