import VarveDB.Library.Runs
import VarveDB.Write.Overwrites

/-! The chunks of a table's buffer as columns. Read row by row, they are the chunks of the row-wise buffer. -/
namespace VarveDB
open Library Runs List

namespace TableBuffer

inductive Kind where
  | bool | i64 | f64 | u64 | string | tag | time
  deriving DecidableEq

def FieldData.kind : FieldData → Kind
  | timestamp _ => .time
  | tag _ => .tag
  | string _ => .string
  | integer _ => .i64
  | uInteger _ => .u64
  | float _ => .f64
  | boolean _ => .bool

def bytesOf (v : Option FieldData) : Nat := v.elim 0 fun v => v.varBytes.getD 0

/-- The bytes that a builder keeps for its values; a tag's text is kept once, in the dictionary. -/
def storedBytes (kind : Kind) (values : List (Option FieldData)) : Nat :=
  if kind = .tag then values.toFinset.sum bytesOf else (values.map bytesOf).sum

end TableBuffer

namespace ColumnBuffer
open TableBuffer

structure Builder where
  kind : Kind
  values : List (Option FieldData)
  typed : ∀ v, some v ∈ values → v.kind = kind

variable (b : Builder)

namespace Builder

def appendNull : Builder := ⟨b.kind, b.values ++ [none], by simpa using b.typed⟩

/-- Appends a value. The code panics if it is not of the builder's type, or if the builder would keep more bytes than
its offsets can count. -/
def appendValue (capacity : Nat) (v : FieldData) : Option Builder :=
  if h : v.kind = b.kind ∧ storedBytes b.kind (b.values ++ [some v]) ≤ capacity then
    some ⟨b.kind, b.values ++ [some v], fun w hw => by
      rcases mem_snoc.mp hw with hw | hw
      · exact b.typed w hw
      · rw [some.inj hw, h.1]⟩
  else none

def newNullPrefilled (kind : Kind) (rows : Nat) : Builder := ⟨kind, List.replicate rows none, by simp [mem_replicate]⟩

/-- `builder_read`, where tags read as null; the code panics beyond the last row. -/
def read (idx : Nat) : Option (Option FieldData) := if b.kind = .tag then some none else b.values[idx]?

def appendCopied (capacity : Nat) : Option FieldData → Option (Builder × Nat)
  | none => some (b.appendNull, 0)
  | some v => (b.appendValue capacity v).map fun b' => (b', v.varBytes.getD 0)

end Builder

structure MutableTableChunk where
  timestampMin : Int
  timestampMax : Int
  data : IndexMap Nat Builder
  rowCount : Nat
  stringBytesPerColumn : IndexMap Nat Nat
  live : List Bool
  supersededCount : Nat

inductive CarrySource where
  | none
  | localRow (old : Nat)
  | foreignRow (src : MutableTableChunk) (old : Nat)

-- `capacity` is what the offsets of a string builder can count, `i32::MAX` bytes.
variable (capacity : Nat) (c : MutableTableChunk) (row : Row) (carry : CarrySource)

namespace MutableTableChunk

def new : MutableTableChunk := ⟨2 ^ 63 - 1, -2 ^ 63, .empty _, 0, .empty _, [], 0⟩

def wouldExceedLimitWith (limit : Nat) (c : MutableTableChunk) (incoming : IndexMap Nat Nat) : Bool :=
  incoming.entries.any fun e => (c.stringBytesPerColumn.lookup e.1).getD 0 + e.2 > limit

def addField (thisRow : Nat) (c : MutableTableChunk) (f : Nat × FieldData) : Option MutableTableChunk := do
  let b ← ((c.data.lookup f.1).getD (.newNullPrefilled f.2.kind thisRow)).appendValue capacity f.2
  some { c with
    timestampMin := f.2.timestamp?.elim c.timestampMin (min c.timestampMin)
    timestampMax := f.2.timestamp?.elim c.timestampMax (max c.timestampMax)
    data := c.data.put f.1 b
    stringBytesPerColumn := addBytes c.stringBytesPerColumn f }

def addCopied (column : Nat) (b : Builder) (v : Option FieldData) : Option MutableTableChunk := do
  let (b, copiedBytes) ← b.appendCopied capacity v
  some { c with
    data := c.data.put column b
    stringBytesPerColumn := if 0 < copiedBytes then
        c.stringBytesPerColumn.put column ((c.stringBytesPerColumn.lookup column).getD 0 + copiedBytes)
      else c.stringBytesPerColumn }

end MutableTableChunk

def CarrySource.value (column : Nat) (b : Builder) : CarrySource → Option (Option FieldData)
  | .none => some Option.none
  | .localRow old => b.read old
  | .foreignRow src old => (src.data.lookup column).elim (some Option.none) fun b => b.read old

namespace MutableTableChunk

def fillColumn (c : MutableTableChunk) (e : Nat × Builder) : Option MutableTableChunk :=
  if (row.fields.lookup e.1).isSome then some c
  else (carry.value e.1 e.2).bind fun v => c.addCopied capacity e.1 e.2 v

def createColumn (thisRow old : Nat) (c : MutableTableChunk) (e : Nat × Builder) : Option MutableTableChunk :=
  if (row.fields.lookup e.1).isSome ∨ (c.data.lookup e.1).isSome then some c
  else (e.2.read old).bind fun v => c.addCopied capacity e.1 (.newNullPrefilled e.2.kind thisRow) v

def createColumns (thisRow : Nat) (c : MutableTableChunk) : CarrySource → Option MutableTableChunk
  | .foreignRow src old => run (createColumn capacity row thisRow old) c src.data.entries
  | _ => some c

def appendRow : Option MutableTableChunk := do
  let provided ← run (addField capacity c.rowCount) c row.fields.entries
  let filled ← run (fillColumn capacity row carry) provided provided.data.entries
  let c' ← filled.createColumns capacity row c.rowCount carry
  some { c' with live := c'.live ++ [true], rowCount := c'.rowCount + 1 }

def markSuperseded (row : Nat) : MutableTableChunk :=
  { c with live := c.live.set row false, supersededCount := c.supersededCount + 1 }

end MutableTableChunk

structure ChunkTimeBuffer where
  chunks : List MutableTableChunk
  rowKeyToIndex : IndexMap Nat (Nat × Nat)

namespace ChunkTimeBuffer
variable (hash : RowKey → Nat) (capacity : Nat) (ctb : ChunkTimeBuffer)

def empty : ChunkTimeBuffer := ⟨[], .empty _⟩

def appendReplacing (chunks : List MutableTableChunk) (last : Nat) (target : MutableTableChunk) (row : Row) :
    Option (Nat × Nat) → Option (List MutableTableChunk)
  | none => (target.appendRow capacity row .none).map fun target => chunks.set last target
  | some (ci, ri) =>
    if ci = last then
      (target.appendRow capacity row (.localRow ri)).map fun target => chunks.set last (target.markSuperseded ri)
    else chunks[ci]?.bind fun src => (target.appendRow capacity row (.foreignRow src ri)).map fun target =>
      (chunks.set last target).modify ci fun c => c.markSuperseded ri

def addRow (row : Row) : Option ChunkTimeBuffer := do
  let last := ctb.chunks.length - 1
  let target ← ctb.chunks[last]?
  let chunks ← appendReplacing capacity ctb.chunks last target row (ctb.rowKeyToIndex.lookup (hash (rowKeyFor row)))
  some ⟨chunks, ctb.rowKeyToIndex.put (hash (rowKeyFor row)) (last, target.rowCount)⟩

def addRows (rows : List Row) : Option ChunkTimeBuffer := run (addRow hash capacity) ctb rows

def withTarget (limit : Nat) (ctb : ChunkTimeBuffer) (rows : List Row) : ChunkTimeBuffer :=
  let incoming := (rows.flatMap fun row => row.fields.entries).foldl addBytes (.empty _)
  let needsNewChunk := ctb.chunks.getLast?.elim true fun c => c.wouldExceedLimitWith limit incoming
  if needsNewChunk then { ctb with chunks := ctb.chunks ++ [.new] } else ctb

end ChunkTimeBuffer
end ColumnBuffer

abbrev ColumnBuffer := IndexMap Int ColumnBuffer.ChunkTimeBuffer

variable {w : FieldData} {i old : Nat} {v : Option FieldData}

namespace ColumnBuffer
open TableBuffer

def bufferChunk (hash : RowKey → Nat) (capacity limit : Nat) (chunkTime : Int) (cb : ColumnBuffer) (rows : List Row) :
    Option ColumnBuffer := do
  let ctb ← (((cb.lookup chunkTime).getD .empty).withTarget limit rows).addRows hash capacity rows
  some (cb.put chunkTime ctb)

variable {b : Builder} {capacity : Nat}

namespace Builder

theorem appendValue_eq_some {v : FieldData} (h : v.kind = b.kind)
    (hfits : storedBytes b.kind (b.values ++ [some v]) ≤ capacity) :
    ∃ b', b.appendValue capacity v = some b' ∧ b'.kind = b.kind ∧ b'.values = b.values ++ [some v] := by
  rw [appendValue, dif_pos ⟨h, hfits⟩]
  exact ⟨_, rfl, rfl, rfl⟩

private theorem appendCopied_eq_some (h : ∀ w ∈ v, w.kind = b.kind)
    (hfits : storedBytes b.kind (b.values ++ [v]) ≤ capacity) :
    ∃ b', b.appendCopied capacity v = some (b', bytesOf v) ∧ b'.kind = b.kind ∧ b'.values = b.values ++ [v] := by
  cases v with
  | none => exact ⟨_, rfl, rfl, rfl⟩
  | some w =>
    obtain ⟨b', hb', hkind, hvalues⟩ := appendValue_eq_some (h w rfl) hfits
    refine ⟨b', ?_, hkind, hvalues⟩
    rw [appendCopied, hb']
    rfl

end Builder

variable {id ri : Nat}

namespace MutableTableChunk

def seen (c : MutableTableChunk) (id : Nat) : Option Builder × Nat :=
  (c.data.lookup id, (c.stringBytesPerColumn.lookup id).getD 0)

def Kinds (types : Nat → Kind) (c : MutableTableChunk) : Prop := ∀ id b, c.data.lookup id = some b → b.kind = types id

def column (c : MutableTableChunk) (id : Nat) : List (Option FieldData) :=
  (c.data.lookup id).elim (List.replicate c.rowCount none) Builder.values

theorem getD_lookup_addBytes (m : IndexMap Nat Nat) (f : Nat × FieldData) (id : Nat) :
    ((addBytes m f).lookup id).getD 0 = (m.lookup id).getD 0 + if id = f.1 then f.2.varBytes.getD 0 else 0 := by
  rw [addBytes]
  cases f.2.varBytes with
  | none => simp
  | some n =>
    split <;> simp_all

section Phases
variable {types : Nat → Kind} {row : Row}

variable {c : MutableTableChunk}

theorem Kinds.put {c' : MutableTableChunk} (h : c.Kinds types) (hb : b.kind = types id)
    (hdata : c'.data = c.data.put id b) : c'.Kinds types := by
  intro id' b' hb'
  rw [hdata, IndexMap.lookup_put] at hb'
  split at hb'
  · next heq => rw [heq, ← some.inj hb', hb]
  · exact h id' b' hb'

def bookkeeping (c : MutableTableChunk) : Nat × List Bool × Nat := (c.rowCount, c.live, c.supersededCount)

private theorem exists_provided (h : c.Kinds types) (htyped : ∀ f ∈ row.fields.entries, f.2.kind = types f.1)
    (hbytes : ∀ f ∈ row.fields.entries, storedBytes (types f.1) (c.column f.1 ++ [some f.2]) ≤ capacity) :
    ∃ p, run (addField capacity c.rowCount) c row.fields.entries = some p ∧
      (p.Kinds types ∧ p.bookkeeping = c.bookkeeping) ∧
      (∀ id ∉ row.fields.entries.map Prod.fst, p.seen id = c.seen id) ∧
      ∀ f ∈ row.fields.entries, ∃ b, p.seen f.1 = (some b, (c.seen f.1).2 + bytesOf (some f.2)) ∧
        b.values = c.column f.1 ++ [some f.2] := by
  refine exists_run_of_touch Prod.fst seen (fun p => p.Kinds types ∧ p.bookkeeping = c.bookkeeping)
    (fun f s s' => ∃ b, s' = (some b, s.2 + bytesOf (some f.2)) ∧
      b.values = s.1.elim (List.replicate c.rowCount none) Builder.values ++ [some f.2])
    row.fields.distinct (fun f hf p hp hlook => ?_) ⟨h, rfl⟩
  have hkind : ((p.data.lookup f.1).getD (.newNullPrefilled f.2.kind c.rowCount)).kind = types f.1 := by
    cases hb : p.data.lookup f.1 with
    | none => exact htyped f hf
    | some b => exact hp.1 f.1 b hb
  have hbuilder : ((p.data.lookup f.1).getD (.newNullPrefilled f.2.kind c.rowCount)).values = c.column f.1 := by
    rw [column, ← show p.data.lookup f.1 = c.data.lookup f.1 from congrArg Prod.fst hlook]
    cases p.data.lookup f.1 <;> rfl
  obtain ⟨b, hb, hbkind, hvalues⟩ := Builder.appendValue_eq_some ((htyped f hf).trans hkind.symm)
    (show storedBytes _ _ ≤ capacity by rw [hkind, hbuilder]; exact hbytes f hf)
  rw [addField, hb]
  refine ⟨_, rfl, ⟨hp.1.put (hbkind.trans hkind) rfl, hp.2⟩, fun id hid => ?_, b, ?_, ?_⟩
  · simp [seen, hid, getD_lookup_addBytes]
  · simp [seen, getD_lookup_addBytes, bytesOf]
  · rw [hvalues]
    cases hlookup : p.data.lookup f.1 <;> simp [seen, hlookup, Builder.newNullPrefilled]

private theorem exists_addCopied (h : c.Kinds types) (hb : b.kind = types id) (hv : ∀ w ∈ v, w.kind = types id)
    (hbytes : storedBytes (types id) (b.values ++ [v]) ≤ capacity) :
    ∃ c', c.addCopied capacity id b v = some c' ∧ c'.Kinds types ∧ c'.bookkeeping = c.bookkeeping ∧
      (c'.timestampMin, c'.timestampMax) = (c.timestampMin, c.timestampMax) ∧ (∀ k, k ≠ id → c'.seen k = c.seen k) ∧
      ∃ b', c'.seen id = (some b', (c.seen id).2 + bytesOf v) ∧ b'.values = b.values ++ [v] := by
  obtain ⟨b', hb', hkind, hvalues⟩ := Builder.appendCopied_eq_some (fun w hw => (hv w hw).trans hb.symm) (hb ▸ hbytes)
  rw [addCopied, hb']
  refine ⟨_, rfl, h.put (hkind.trans hb) rfl, rfl, rfl, fun k hk => ?_, b', ?_, hvalues⟩
  · by_cases hpos : 0 < bytesOf v <;> simp [seen, hk, hpos]
  · by_cases hpos : 0 < bytesOf v
    · simp [seen, hpos]
    · simp [seen, Nat.eq_zero_of_not_pos hpos]

theorem exists_copied (step : MutableTableChunk → Nat × Builder → Option MutableTableChunk) {m : IndexMap Nat Builder}
    (skip : Nat → Option Builder → Prop) [∀ id b, Decidable (skip id b)]
    (value : Nat × Builder → Option (Option FieldData)) (builder : Builder → Builder) (hstep : ∀ c e, step c e =
      if skip e.1 (c.data.lookup e.1) then some c else (value e).bind (c.addCopied capacity e.1 (builder e.2)))
    (hbuilder : ∀ e ∈ m.entries, (builder e.2).kind = types e.1)
    (hvalue : ∀ e ∈ m.entries, ¬ skip e.1 (c.seen e.1).1 → ∃ v, value e = some v ∧ (∀ w ∈ v, w.kind = types e.1) ∧
      storedBytes (types e.1) ((builder e.2).values ++ [v]) ≤ capacity) (h : c.Kinds types) :
    ∃ q, run step c m.entries = some q ∧ (q.Kinds types ∧ q.bookkeeping = c.bookkeeping ∧
        (q.timestampMin, q.timestampMax) = (c.timestampMin, c.timestampMax)) ∧
      (∀ id ∉ m.entries.map Prod.fst, q.seen id = c.seen id) ∧
      ∀ e ∈ m.entries, if skip e.1 (c.seen e.1).1 then q.seen e.1 = c.seen e.1
        else ∃ v b, value e = some v ∧ q.seen e.1 = (some b, (c.seen e.1).2 + bytesOf v) ∧
          b.values = (builder e.2).values ++ [v] := by
  refine exists_run_of_touch Prod.fst seen _ (fun e s s' => if skip e.1 s.1 then s' = s
      else ∃ v b, value e = some v ∧ s' = (some b, s.2 + bytesOf v) ∧ b.values = (builder e.2).values ++ [v])
    m.distinct (fun e he q hq hlook => ?_) ⟨h, rfl, rfl⟩
  rw [hstep]
  by_cases hskip : skip e.1 (q.data.lookup e.1)
  · rw [if_pos hskip]
    exact ⟨q, rfl, hq, fun _ _ => rfl, (if_pos hskip).mpr rfl⟩
  · obtain ⟨v, hv, hkinds, hbytes⟩ := hvalue e he (hlook ▸ hskip)
    obtain ⟨q', hq', hkinds', hbook, htimes, hframe, b, hseen, hvalues⟩ :=
      exists_addCopied hq.1 (hbuilder e he) hkinds hbytes
    rw [if_neg hskip, hv, bind_some]
    exact ⟨q', hq', ⟨hkinds', hbook.trans hq.2.1, htimes.trans hq.2.2⟩, hframe,
      (if_neg hskip).mpr ⟨v, b, rfl, hseen, hvalues⟩⟩

private theorem timestamps_run_addField {fs : List (Nat × FieldData)} {n : Nat} {p : MutableTableChunk}
    (h : run (addField capacity n) c fs = some p) :
    p.timestampMin = ((fs.map Prod.snd).filterMap FieldData.timestamp?).foldl min c.timestampMin ∧
    p.timestampMax = ((fs.map Prod.snd).filterMap FieldData.timestamp?).foldl max c.timestampMax := by
  induction fs generalizing c with
  | nil => cases h; exact ⟨rfl, rfl⟩
  | cons f fs ih =>
    obtain ⟨m, hm, hrun⟩ := run_cons_eq_some.mp h
    obtain ⟨b, -, ⟨⟩⟩ := bind_eq_some_iff.mp hm
    obtain ⟨hmin, hmax⟩ := ih hrun
    rw [hmin, hmax]
    cases htime : f.2.timestamp? <;> simp [htime]

/-- Builders have the types of their columns, and a value or null for every row. -/
structure Regular (types : Nat → Kind) (c : MutableTableChunk) : Prop where
  kinds : c.Kinds types
  lengths : ∀ id b, c.data.lookup id = some b → b.values.length = c.rowCount

def carriedAt (types : Nat → Kind) (c : MutableTableChunk) (old id : Nat) : Option FieldData :=
  if types id = .tag then none else (c.column id)[old]?.join

theorem carriedAt_eq_none (h : c.data.lookup id = none) (old : Nat) : c.carriedAt types old id = none := by
  rw [carriedAt, column, h, elim_none]
  split
  · rfl
  · rw [List.getElem?_replicate]
    split <;> rfl

theorem Regular.read (h : c.Regular types) (hb : c.data.lookup id = some b)
    (hold : old < c.rowCount) : b.read old = some (c.carriedAt types old id) := by
  rw [Builder.read, h.kinds id b hb, carriedAt, column, hb, elim_some]
  split
  · rfl
  · rw [List.getElem?_eq_getElem (h.lengths id b hb ▸ hold)]
    rfl

theorem Kinds.column (h : c.Kinds types) (hw : (c.column id)[i]?.join = some w) : w.kind = types id := by
  rw [MutableTableChunk.column] at hw
  cases hb : c.data.lookup id with
  | none =>
    rw [hb, elim_none, List.getElem?_replicate] at hw
    split at hw <;> cases hw
  | some b =>
    rw [hb, elim_some] at hw
    exact (b.typed w (mem_of_getElem? (Option.join_eq_some_iff.mp hw))).trans (h id b hb)

theorem Regular.kind_carriedAt (h : c.Regular types) (hw : w ∈ c.carriedAt types old id) : w.kind = types id := by
  rw [carriedAt] at hw
  split at hw
  · cases hw
  · exact h.kinds.column hw

end Phases
end MutableTableChunk

variable {c : MutableTableChunk}

namespace CarrySource
variable {types : Nat → Kind} {carry : CarrySource}

def Fits (types : Nat → Kind) (c : MutableTableChunk) : CarrySource → Prop
  | .none => True
  | .localRow old => old < c.rowCount
  | .foreignRow src old => src.Regular types ∧ old < src.rowCount

def carried (types : Nat → Kind) (c : MutableTableChunk) (id : Nat) : CarrySource → Option FieldData
  | .none => Option.none
  | .localRow old => c.carriedAt types old id
  | .foreignRow src old => src.carriedAt types old id

theorem Fits.value (h : c.Regular types) (hfits : carry.Fits types c)
    (hb : c.data.lookup id = some b) : carry.value id b = some (carry.carried types c id) := by
  cases carry with
  | none => rfl
  | localRow old => exact h.read hb hfits
  | foreignRow src old =>
    rw [CarrySource.value, carried]
    cases hsrc : src.data.lookup id with
    | none => rw [elim_none, MutableTableChunk.carriedAt_eq_none hsrc]
    | some b' => exact hfits.1.read hsrc hfits.2

private theorem Fits.kind_carried (h : c.Regular types) (hfits : carry.Fits types c)
    (hw : w ∈ carry.carried types c id) : w.kind = types id := by
  cases carry with
  | none => cases hw
  | localRow old => exact h.kind_carriedAt hw
  | foreignRow src old => exact hfits.1.kind_carriedAt hw

end CarrySource

namespace MutableTableChunk
variable {types : Nat → Kind} {row : Row} {carry : CarrySource}

private theorem exists_createColumns (row : Row) {q : MutableTableChunk} (h : q.Kinds types)
    (hfits : carry.Fits types c) (hbytes : ∀ id, row.fields.lookup id = none → q.data.lookup id = none →
      storedBytes (types id) (List.replicate c.rowCount none ++ [carry.carried types c id]) ≤ capacity) :
    ∃ r, q.createColumns capacity row c.rowCount carry = some r ∧ (r.Kinds types ∧ r.bookkeeping = q.bookkeeping ∧
        (r.timestampMin, r.timestampMax) = (q.timestampMin, q.timestampMax)) ∧
      ∀ id, if (row.fields.lookup id).isSome ∨ (q.data.lookup id).isSome then r.seen id = q.seen id
        else c.data.lookup id = none → (r.data.lookup id).elim (List.replicate (c.rowCount + 1) none) Builder.values =
            List.replicate c.rowCount none ++ [carry.carried types c id] ∧
          (r.seen id).2 = (q.seen id).2 + bytesOf (carry.carried types c id) := by
  have hnothing (id : Nat) (hid : ¬ ((row.fields.lookup id).isSome ∨ (q.data.lookup id).isSome))
      (hcarried : carry.carried types c id = none) :
      (q.data.lookup id).elim (List.replicate (c.rowCount + 1) none) Builder.values =
        List.replicate c.rowCount none ++ [carry.carried types c id] ∧
      (q.seen id).2 = (q.seen id).2 + bytesOf (carry.carried types c id) := by
    rw [Option.not_isSome_iff_eq_none.mp (not_or.mp hid).2, hcarried, elim_none, replicate_succ']
    exact ⟨rfl, rfl⟩
  cases carry with
  | none | localRow =>
    refine ⟨q, rfl, ⟨h, rfl, rfl⟩, fun id => ?_⟩
    split
    · rfl
    · next hid => exact fun hnone => hnothing id hid (by first | rfl | exact carriedAt_eq_none hnone _)
  | foreignRow src old =>
    obtain ⟨r, hrun, hgood, hframe, hcreated⟩ := exists_copied (createColumn capacity row c.rowCount old)
      (fun id b => (row.fields.lookup id).isSome ∨ b.isSome) (fun e => e.2.read old)
        (fun b => .newNullPrefilled b.kind c.rowCount)
      (fun _ _ => rfl) (fun e he => hfits.1.kinds e.1 e.2 (IndexMap.lookup_isSome_of_mem he))
      (fun e he hskip => ⟨_, hfits.1.read (IndexMap.lookup_isSome_of_mem he) hfits.2,
        fun _ => hfits.1.kind_carriedAt, hbytes e.1 (Option.not_isSome_iff_eq_none.mp (not_or.mp hskip).1)
          (Option.not_isSome_iff_eq_none.mp (not_or.mp hskip).2)⟩) h
    refine ⟨r, hrun, hgood, fun id => ?_⟩
    cases hsrc : src.data.lookup id with
    | none =>
      have hseen := hframe id (KeyedList.lookup_eq_none.mp hsrc)
      split
      · exact hseen
      · next hid =>
        rw [hseen, show r.data.lookup id = q.data.lookup id from congrArg Prod.fst hseen]
        exact fun _ => hnothing id hid (carriedAt_eq_none hsrc old)
    | some b =>
      have hid := hcreated (id, b) (KeyedList.lookup_eq_some.mp hsrc)
      split
      · next hpresent => exact (if_pos hpresent).mp hid
      · next hpresent =>
        obtain ⟨v, b', hv, hseen, hvalues⟩ := (if_neg hpresent).mp hid
        have hcarried : v = src.carriedAt types old id :=
          some.inj (hv.symm.trans (hfits.1.read hsrc hfits.2))
        rw [show r.data.lookup id = some b' from congrArg Prod.fst hseen, hseen, elim_some, hvalues, hcarried]
        exact fun _ => ⟨rfl, rfl⟩

section AppendRow
variable (h : c.Regular types) (htyped : ∀ f ∈ row.fields.entries, f.2.kind = types f.1) (hfits : carry.Fits types c)
  (hbytes : ∀ id, storedBytes (types id)
    (c.column id ++ [(row.fields.lookup id).or (carry.carried types c id)]) ≤ capacity)
include h htyped hfits hbytes

private theorem Regular.exists_filled : ∃ p q, run (addField capacity c.rowCount) c row.fields.entries = some p ∧
    run (fillColumn capacity row carry) p p.data.entries = some q ∧ (q.Kinds types ∧ q.bookkeeping = c.bookkeeping ∧
      (q.timestampMin, q.timestampMax) = (p.timestampMin, p.timestampMax)) ∧
    ∀ id, if (row.fields.lookup id).isSome ∨ (c.data.lookup id).isSome then
        ∃ b, q.seen id =
            (some b, (c.seen id).2 + bytesOf ((row.fields.lookup id).or (carry.carried types c id))) ∧
          b.values = c.column id ++ [(row.fields.lookup id).or (carry.carried types c id)]
      else q.seen id = c.seen id := by
  obtain ⟨p, hp, ⟨hpkinds, hpbook⟩, hpframe, hprovided⟩ := exists_provided h.kinds htyped
    fun f hf => by simpa [IndexMap.lookup_isSome_of_mem hf] using hbytes f.1
  have hunprovided {id : Nat} (hid : row.fields.lookup id = none) : p.seen id = c.seen id :=
    hpframe id (KeyedList.lookup_eq_none.mp hid)
  obtain ⟨q, hq, ⟨hqkinds, hqbook, hqtimes⟩, hqframe, hfilled⟩ := exists_copied (fillColumn capacity row carry)
    (fun id _ => (row.fields.lookup id).isSome) (fun e => carry.value e.1 e.2) (fun b => b) (fun _ _ => rfl)
    (fun e he => hpkinds _ _ (IndexMap.lookup_isSome_of_mem he))
    (fun e he hid => by
      have hnone : row.fields.lookup e.1 = none := Option.not_isSome_iff_eq_none.mp hid
      have hsame : c.data.lookup e.1 = some e.2 :=
        (congrArg Prod.fst (hunprovided hnone)).symm.trans (IndexMap.lookup_isSome_of_mem he)
      refine ⟨_, hfits.value h hsame, fun _ => hfits.kind_carried h, ?_⟩
      simpa [hnone, column, hsame] using hbytes e.1) hpkinds
  refine ⟨p, q, hp, hq, ⟨hqkinds, hqbook.trans hpbook, hqtimes⟩, fun id => ?_⟩
  cases hid : row.fields.lookup id with
  | some v =>
    obtain ⟨b, hseen, hvalues⟩ := hprovided (id, v) (KeyedList.lookup_eq_some.mp hid)
    have hmem : (id, b) ∈ p.data.entries := KeyedList.lookup_eq_some.mp (congrArg Prod.fst hseen)
    have hqseen : q.seen id = p.seen id := (if_pos (Option.isSome_of_eq_some hid)).mp (hfilled (id, b) hmem)
    exact (if_pos (.inl rfl)).mpr ⟨b, hqseen.trans hseen, hvalues⟩
  | none =>
    have hplookup : p.data.lookup id = c.data.lookup id := congrArg Prod.fst (hunprovided hid)
    cases hc : c.data.lookup id with
    | some b =>
      obtain ⟨v, b', hv, hseen, hvalues⟩ := (if_neg (by simp [hid])).mp
        (hfilled (id, b) (KeyedList.lookup_eq_some.mp (hplookup.trans hc)))
      have hcarried : v = carry.carried types c id := some.inj (hv.symm.trans (hfits.value h hc))
      rw [column, hc, elim_some, ← hunprovided hid, Option.none_or, ← hcarried]
      exact (if_pos (.inr rfl)).mpr ⟨b', hseen, hvalues⟩
    | none =>
      have hqseen := hqframe id (KeyedList.lookup_eq_none.mp (hplookup.trans hc))
      exact (if_neg (by simp)).mpr (hqseen.trans (hunprovided hid))

/-- `appendRow` appends to every column the value of the row, or the one carried from the row that it
replaces, and counts the bytes of both. -/
theorem Regular.exists_appendRow : ∃ c', c.appendRow capacity row carry = some c' ∧ c'.Kinds types ∧
    c'.bookkeeping = (c.rowCount + 1, c.live ++ [true], c.supersededCount) ∧
    c'.timestampMin = (row.fields.values.filterMap FieldData.timestamp?).foldl min c.timestampMin ∧
    c'.timestampMax = (row.fields.values.filterMap FieldData.timestamp?).foldl max c.timestampMax ∧
    ∀ id, c'.column id = c.column id ++ [(row.fields.lookup id).or (carry.carried types c id)] ∧
      (c'.seen id).2 = (c.seen id).2 + bytesOf ((row.fields.lookup id).or (carry.carried types c id)) := by
  obtain ⟨p, q, hp, hq, ⟨hqkinds, hqbook, hqtimes⟩, hfilled⟩ := h.exists_filled htyped hfits hbytes
  have hqnone {id : Nat} (hid : row.fields.lookup id = none) (hq : q.data.lookup id = none) :
      c.data.lookup id = none := by
    by_contra hc
    obtain ⟨b, hseen, -⟩ := (if_pos (.inr (Option.isSome_iff_ne_none.mpr hc))).mp (hfilled id)
    cases hq.symm.trans (congrArg Prod.fst hseen)
  obtain ⟨r, hr, ⟨hrkinds, hrbook, hrtimes⟩, hcreated⟩ := exists_createColumns row hqkinds hfits fun id hid hq => by
    simpa [hid, column, hqnone hid hq] using hbytes id
  obtain ⟨hmin, hmax⟩ := timestamps_run_addField hp
  have htimes := Prod.mk.inj (hrtimes.trans hqtimes)
  have hbook : r.bookkeeping = c.bookkeeping := hrbook.trans hqbook
  simp only [bookkeeping, Prod.mk.injEq] at hbook
  have happend :
      c.appendRow capacity row carry = some { r with live := r.live ++ [true], rowCount := r.rowCount + 1 } := by
    simp only [appendRow, hp, hq, hr, bind_eq_bind, bind_some]
  refine ⟨_, happend, hrkinds, ?_, htimes.1.trans hmin, htimes.2.trans hmax, fun id => ?_⟩
  · simp [bookkeeping, hbook]
  have hcolumn : ({ r with live := r.live ++ [true], rowCount := r.rowCount + 1 } : MutableTableChunk).column id =
      (r.seen id).1.elim (List.replicate (c.rowCount + 1) none) Builder.values := by rw [← hbook.1]; rfl
  rw [hcolumn]
  change _ ∧ (r.seen id).2 = _
  by_cases hpresent : (row.fields.lookup id).isSome ∨ (c.data.lookup id).isSome
  · obtain ⟨b, hseen, hvalues⟩ := (if_pos hpresent).mp (hfilled id)
    have hsome : (q.data.lookup id).isSome := Option.isSome_of_eq_some (congrArg Prod.fst hseen)
    rw [(if_pos (.inr hsome)).mp (hcreated id), hseen, elim_some, hvalues]
    exact ⟨rfl, rfl⟩
  · have hqseen : q.seen id = c.seen id := (if_neg hpresent).mp (hfilled id)
    have hqlookup : q.data.lookup id = c.data.lookup id := congrArg Prod.fst hqseen
    have hid := Option.not_isSome_iff_eq_none.mp (not_or.mp hpresent).1
    have hc := Option.not_isSome_iff_eq_none.mp (not_or.mp hpresent).2
    obtain ⟨hvalues, hbytes⟩ := (if_neg (hqlookup ▸ hpresent)).mp (hcreated id) hc
    rw [hid, column, hc, elim_none, ← hqseen]
    exact ⟨hvalues, hbytes⟩

end AppendRow
end MutableTableChunk

private theorem storedBytes_append_le (kind : Kind) (values more : List (Option FieldData)) :
    storedBytes kind values ≤ storedBytes kind (values ++ more) := by
  rw [storedBytes, storedBytes]
  split
  · exact Finset.sum_le_sum_of_subset (by simp [toFinset_append])
  · simp

def columnOf (chunk : TableBuffer.MutableTableChunk) (id : Nat) : List (Option FieldData) :=
  chunk.slots.map fun slot => slot.row.values.lookup id

/-- No column of a chunk keeps more bytes than its offsets can count. The values that rows provide
and those that are carried to them count alike. -/
def Bounded (types : Nat → Kind) (capacity : Nat) (m : TableBuffer.ChunkTimeBuffer) : Prop :=
  ∀ chunk ∈ m.chunks, ∀ id, storedBytes (types id) (columnOf chunk id) ≤ capacity

section Bounded
variable {types : Nat → Kind} {m : TableBuffer.ChunkTimeBuffer} {row : Row} {number : Nat}

private theorem map_slots_markSuperseded {β : Type} (chunk : TableBuffer.MutableTableChunk) {f : Slot → β}
    (hf : ∀ slot : Slot, f { slot with live := false } = f slot) :
    (chunk.markSuperseded ri).slots.map f = chunk.slots.map f := by
  refine ext_getElem? fun i => ?_
  simp only [TableBuffer.MutableTableChunk.markSuperseded, List.getElem?_map, List.getElem?_modify]
  cases chunk.slots[i]? with
  | none => rfl
  | some slot => by_cases hi : ri = i <;> simp [hi, hf]

theorem columnOf_addRow (m : TableBuffer.ChunkTimeBuffer) (number : Nat) (row : Row) (i id : Nat) :
    ((m.addRow number row).chunks[i]?.map fun chunk => columnOf chunk id) = m.chunks[i]?.map fun chunk =>
      columnOf chunk id ++ if i = m.chunks.length - 1 then [(storedRow number row (m.replaced row)).values.lookup id]
        else [] := by
  have hmark (chunks : List TableBuffer.MutableTableChunk) (place : Nat × Nat) :
      ((TableBuffer.markSuperseded chunks place)[i]?.map fun chunk => columnOf chunk id) =
        chunks[i]?.map fun chunk => columnOf chunk id := by
    rw [TableBuffer.markSuperseded, List.getElem?_modify]
    cases chunks[i]? with
    | none => rfl
    | some chunk => by_cases hi : place.1 = i <;> simp [hi, columnOf, map_slots_markSuperseded]
  have happended : ((m.chunks.modify (m.chunks.length - 1) fun chunk =>
        chunk.appendRow number row (m.replaced row))[i]?.map fun chunk => columnOf chunk id) =
          m.chunks[i]?.map fun chunk =>
      columnOf chunk id ++ if i = m.chunks.length - 1 then [(storedRow number row (m.replaced row)).values.lookup id]
        else [] := by
    rw [List.getElem?_modify]
    cases m.chunks[i]? with
    | none => rfl
    | some chunk =>
      by_cases hi : i = m.chunks.length - 1
      · simp [hi, columnOf, TableBuffer.MutableTableChunk.appendRow]
      · simp [hi, Ne.symm hi]
  rw [TableBuffer.ChunkTimeBuffer.addRow]
  cases m.rowKeyToIndex.lookup (rowKeyFor row) with
  | none => exact happended
  | some place => exact (hmark _ place).trans happended

private theorem Bounded.addRow_getElem?
    (h : Bounded types capacity (m.addRow number row)) {chunk : TableBuffer.MutableTableChunk}
    (hchunk : m.chunks[i]? = some chunk) (id : Nat) : storedBytes (types id) (columnOf chunk id ++
      if i = m.chunks.length - 1 then [(storedRow number row (m.replaced row)).values.lookup id] else []) ≤
        capacity := by
  have hcolumn := columnOf_addRow m number row i id
  rw [hchunk, Option.map_some] at hcolumn
  obtain ⟨chunk', hchunk', heq⟩ := Option.map_eq_some_iff.mp hcolumn
  rw [← heq]
  exact h chunk' (mem_of_getElem? hchunk') id

private theorem Bounded.of_addRow (h : Bounded types capacity (m.addRow number row)) : Bounded types capacity m := by
  intro chunk hchunk id
  obtain ⟨i, hi⟩ := mem_iff_getElem?.mp hchunk
  exact (storedBytes_append_le _ _ _).trans (h.addRow_getElem? hi id)

theorem Bounded.of_addRows {rows : List Row} (h : Bounded types capacity (rows.foldl (fun m row => m.addRow 0 row) m)) :
    Bounded types capacity m := by
  induction rows generalizing m with
  | nil => exact h
  | cons row rows ih => exact (ih h).of_addRow

end Bounded

/-- The chunk holds the rows of a row-wise chunk, column by column. -/
structure Stores (types : Nat → Kind) (c : MutableTableChunk) (m : TableBuffer.MutableTableChunk) : Prop where
  rowCount : c.rowCount = m.slots.length
  live : c.live = m.slots.map Slot.live
  superseded : c.supersededCount = m.supersededCount
  timestampMin : c.timestampMin = m.timestampMin
  timestampMax : c.timestampMax = m.timestampMax
  bytes : ∀ id, (c.seen id).2 = (m.varBytesPerColumn.lookup id).getD 0
  kinds : c.Kinds types
  column : ∀ id, c.column id = columnOf m id

section Bytes

private theorem getD_lookup_foldl_addBytes (fs : List (Nat × FieldData)) (hdistinct : (fs.map Prod.fst).Nodup)
    (m : IndexMap Nat Nat) (id : Nat) : ((fs.foldl addBytes m).lookup id).getD 0 =
      (m.lookup id).getD 0 + bytesOf ((fs.find? fun f => f.1 = id).map Prod.snd) := by
  induction fs generalizing m with
  | nil => rfl
  | cons f fs ih =>
    obtain ⟨hfresh, hdistinct⟩ := nodup_cons.mp hdistinct
    rw [foldl_cons, ih hdistinct, MutableTableChunk.getD_lookup_addBytes, List.find?_cons]
    by_cases hid : id = f.1
    · subst hid
      have hnone : (fs.find? fun g => g.1 = f.1) = none :=
        List.find?_eq_none.mpr fun g hg => by
          simpa using fun heq : g.1 = f.1 => hfresh (heq ▸ mem_map_of_mem hg)
      simp [hnone, bytesOf]
    · simp [hid, Ne.symm hid]

private theorem distinct_provided_carried (row : Row) (replaced : Option StoredRow) :
    ((row.fields.entries ++ carried row replaced).map Prod.fst).Nodup := by
  cases replaced with
  | none => simpa [carried] using row.fields.distinct
  | some old =>
    have hsub : (carried row (some old)).Sublist old.values.entries := filter_sublist
    rw [map_append, nodup_append]
    refine ⟨row.fields.distinct, old.values.distinct.sublist (hsub.map _), fun a ha b hb heq => ?_⟩
    obtain ⟨f, hf, rfl⟩ := mem_map.mp hb
    obtain ⟨-, hnone⟩ := of_decide_eq_true (mem_filter.mp hf).2
    exact KeyedList.lookup_eq_none.mp hnone (heq ▸ ha)

private theorem find?_provided_carried (number : Nat) (row : Row) (replaced : Option StoredRow) (id : Nat) :
    ((row.fields.entries ++ carried row replaced).find? fun f => f.1 = id).map Prod.snd =
      (storedRow number row replaced).values.lookup id := by
  rw [List.find?_append, Option.map_or]
  cases replaced with
  | none => simp [carried, storedRow, KeyedList.lookup]
  | some old =>
    have hvalues : (storedRow number row (some old)).values = row.fields.putAll
      (old.values.retain fun f => f.2.tag? = none ∧ row.fields.lookup f.1 = none) := rfl
    rw [hvalues, IndexMap.lookup_putAll]
    change (row.fields.lookup id).or ((old.values.retain _).lookup id) = _
    cases hrow : row.fields.lookup id with
    | none => simp
    | some v => rw [lookup_carried_of_provided hrow, Option.some_or, Option.none_or]

end Bytes

namespace Stores
variable {types : Nat → Kind} {c : MutableTableChunk} {m : TableBuffer.MutableTableChunk}

theorem regular (h : Stores types c m) : c.Regular types := by
  refine ⟨h.kinds, fun id b hb => ?_⟩
  have hcolumn := congrArg List.length (h.column id)
  rwa [MutableTableChunk.column, hb, elim_some, columnOf, length_map, ← h.rowCount] at hcolumn

theorem new (types : Nat → Kind) : Stores types .new .new := by
  refine ⟨rfl, rfl, rfl, rfl, rfl, fun _ => rfl, fun _ _ hb => ?_, fun _ => rfl⟩
  cases hb

variable (h : Stores types c m)
include h

theorem carriedAt_eq {slot : Slot} (hslot : m.slots[ri]? = some slot) (id : Nat) :
    c.carriedAt types ri id = (slot.row.values.lookup id).filter fun v => v.tag? = none := by
  have hvalue : (c.column id)[ri]?.join = slot.row.values.lookup id := by
    rw [h.column, columnOf, List.getElem?_map, hslot]
    rfl
  rw [MutableTableChunk.carriedAt, hvalue]
  cases hv : slot.row.values.lookup id with
  | none => simp
  | some v =>
    rw [← h.kinds.column (hvalue.trans hv)]
    cases v <;> simp [FieldData.kind, FieldData.tag?, Option.filter]

theorem appendRow {row : Row} (htyped : ∀ f ∈ row.fields.entries, f.2.kind = types f.1)
    (carry : CarrySource) (hfits : carry.Fits types c) (replaced : Option StoredRow)
    (hcarried : ∀ id, carry.carried types c id =
      replaced.bind fun old => (old.values.lookup id).filter fun v => v.tag? = none) (number : Nat)
    (hbytes : ∀ id,
      storedBytes (types id) (columnOf m id ++ [(storedRow number row replaced).values.lookup id]) ≤ capacity) :
    ∃ c', c.appendRow capacity row carry = some c' ∧ Stores types c' (m.appendRow number row replaced) := by
  have hvalue (id : Nat) : (row.fields.lookup id).or (carry.carried types c id) =
      (storedRow number row replaced).values.lookup id := by rw [lookup_storedRow, hcarried]
  obtain ⟨c', hc', hkinds, hbook, hmin, hmax, hcolumns⟩ := h.regular.exists_appendRow htyped hfits fun id => by
    rw [hvalue, h.column]
    exact hbytes id
  simp only [MutableTableChunk.bookkeeping, Prod.mk.injEq] at hbook
  refine ⟨c', hc', ?_, ?_, ?_, ?_, ?_, fun id => ?_, hkinds, fun id => ?_⟩
  · rw [hbook.1, h.rowCount]
    simp [TableBuffer.MutableTableChunk.appendRow]
  · rw [hbook.2.1, h.live]
    simp [TableBuffer.MutableTableChunk.appendRow]
  · rw [hbook.2.2, h.superseded]
    simp [TableBuffer.MutableTableChunk.appendRow, TableBuffer.MutableTableChunk.supersededCount]
  · rw [hmin, h.timestampMin]
    rfl
  · rw [hmax, h.timestampMax]
    rfl
  · rw [(hcolumns id).2, hvalue, h.bytes, TableBuffer.MutableTableChunk.appendRow,
      getD_lookup_foldl_addBytes _ (distinct_provided_carried row replaced), find?_provided_carried number]
  · rw [(hcolumns id).1, hvalue, h.column]
    simp [columnOf, TableBuffer.MutableTableChunk.appendRow]

theorem markSuperseded {r : StoredRow} (hslot : m.slots[ri]? = some ⟨r, true⟩) :
    Stores types (c.markSuperseded ri) (m.markSuperseded ri) := by
  obtain ⟨hri, hslot⟩ := List.getElem?_eq_some_iff.mp hslot
  refine ⟨?_, ?_, ?_, h.timestampMin, h.timestampMax, h.bytes, h.kinds, fun id => ?_⟩
  · rw [show (c.markSuperseded ri).rowCount = c.rowCount from rfl, h.rowCount]
    simp [TableBuffer.MutableTableChunk.markSuperseded]
  · refine ext_getElem? fun i => ?_
    simp only [MutableTableChunk.markSuperseded, h.live, TableBuffer.MutableTableChunk.markSuperseded,
      List.getElem?_set, List.getElem?_map, List.getElem?_modify, length_map]
    by_cases hi : ri = i
    · subst hi
      simp [hri]
    · simp [hi]
  · simp only [MutableTableChunk.markSuperseded, h.superseded, TableBuffer.MutableTableChunk.supersededCount,
      TableBuffer.MutableTableChunk.markSuperseded, modify_eq_take_cons_drop hri]
    conv_lhs => rw [← take_append_drop ri m.slots, drop_eq_getElem_cons hri, hslot]
    simp
    omega
  · rw [columnOf, map_slots_markSuperseded m fun _ => rfl]
    exact h.column id

end Stores

/-- A window's chunks hold the rows of the row-wise ones, and its index gives the places of the
identities in `keys` by their hashes. -/
structure Refines (hash : RowKey → Nat) (types : Nat → Kind) (keys : Set RowKey) (ctb : ChunkTimeBuffer)
    (m : TableBuffer.ChunkTimeBuffer) : Prop where
  chunks : List.Forall₂ (Stores types) ctb.chunks m.chunks
  index : ∀ key ∈ keys, ctb.rowKeyToIndex.lookup (hash key) = m.rowKeyToIndex.lookup key

section Pointwise
variable {α β : Type} {R : α → β → Prop} {l : List α} {l' : List β}

section
variable (h : List.Forall₂ R l l')
include h

theorem forall₂_getElem? {b : β} (hb : l'[i]? = some b) : ∃ a, l[i]? = some a ∧ R a b := by
  induction h generalizing i with
  | nil => cases hb
  | cons hab _ ih =>
    cases i with
    | zero => exact ⟨_, rfl, some.inj hb ▸ hab⟩
    | succ i => exact ih hb

theorem forall₂_modify {f : α → α} {g : β → β}
    (hfg : ∀ a b, l'[i]? = some b → R a b → R (f a) (g b)) : List.Forall₂ R (l.modify i f) (l'.modify i g) := by
  induction h generalizing i with
  | nil => cases i <;> exact .nil
  | cons hab hl ih =>
    cases i with
    | zero => exact .cons (hfg _ _ rfl hab) hl
    | succ i => exact .cons hab (ih hfg)

private theorem forall₂_set {a : α} {f : β → β}
    (ha : ∀ b, l'[i]? = some b → R a (f b)) : List.Forall₂ R (l.set i a) (l'.modify i f) :=
  set_eq_modify a i l ▸ forall₂_modify h fun _ b hb _ => ha b hb

end

private theorem set_eq_modify_set (l : List α) (i : Nat) (a : α) (f : α → α) :
    l.set i (f a) = (l.set i a).modify i f := by
  rw [set_eq_modify, set_eq_modify, modify_modify_eq]
  rfl

end Pointwise

namespace Refines
variable {hash : RowKey → Nat} {types : Nat → Kind} {keys : Set RowKey} {ctb : ChunkTimeBuffer}
  {m : TableBuffer.ChunkTimeBuffer}

section
variable (h : Refines hash types keys ctb m)
include h

theorem withTarget (limit : Nat) (rows : List Row) :
    Refines hash types keys (ctb.withTarget limit rows) (m.withTarget limit rows) := by
  have hexceed (c : MutableTableChunk) (mc : TableBuffer.MutableTableChunk) (hc : Stores types c mc)
      (incoming : IndexMap Nat Nat) :
      c.wouldExceedLimitWith limit incoming = mc.wouldExceedLimitWith limit incoming := by
    refine congrArg (fun f => incoming.entries.any f) (funext fun e => ?_)
    rw [← hc.bytes]
    rfl
  have hneeds (incoming : IndexMap Nat Nat) :
      (ctb.chunks.getLast?.elim true fun c => c.wouldExceedLimitWith limit incoming) =
        m.chunks.getLast?.elim true fun c => c.wouldExceedLimitWith limit incoming := by
    rw [List.getLast?_eq_head?_reverse, List.getLast?_eq_head?_reverse]
    generalize ctb.chunks.reverse = l, m.chunks.reverse = l', forall₂_reverse_iff.mpr h.chunks = hrev
    cases hrev with
    | nil => rfl
    | cons hc _ => exact hexceed _ _ hc incoming
  rw [ChunkTimeBuffer.withTarget, TableBuffer.ChunkTimeBuffer.withTarget, hneeds]
  split
  · exact ⟨rel_append h.chunks (.cons (Stores.new types) .nil), h.index⟩
  · exact h

private theorem index_put (hinj : Set.InjOn hash keys) {key : RowKey} (hkey : key ∈ keys)
    (place : Nat × Nat) : ∀ k ∈ keys, (ctb.rowKeyToIndex.put (hash key) place).lookup (hash k) =
      (m.rowKeyToIndex.put key place).lookup k := by
  intro k hk
  simp only [IndexMap.lookup_put, h.index k hk, hinj.eq_iff hk hkey]

theorem addRow (hs : m.Sound) (hne : m.chunks ≠ []) (hinj : Set.InjOn hash keys)
    {row : Row} (hkey : rowKeyFor row ∈ keys) (htyped : ∀ f ∈ row.fields.entries, f.2.kind = types f.1) (number : Nat)
    (hbounded : Bounded types capacity (m.addRow number row)) :
    ∃ ctb', ctb.addRow hash capacity row = some ctb' ∧ Refines hash types keys ctb' (m.addRow number row) := by
  have hlength : ctb.chunks.length = m.chunks.length := h.chunks.length_eq
  have hlast : m.chunks.length - 1 < m.chunks.length := Nat.sub_lt (length_pos_of_ne_nil hne) Nat.one_pos
  have hmc := List.getElem?_eq_getElem hlast
  obtain ⟨c, hc, hstores⟩ := forall₂_getElem? h.chunks hmc
  have hbytes (id : Nat) := hbounded.addRow_getElem? hmc id
  simp only [if_true] at hbytes
  have hplace :
      (m.addRow number row).rowKeyToIndex = m.rowKeyToIndex.put (rowKeyFor row) (m.chunks.length - 1, c.rowCount) := by
    rw [TableBuffer.ChunkTimeBuffer.addRow, hmc, hstores.rowCount]
    rfl
  have hindex := h.index_put hinj hkey (m.chunks.length - 1, c.rowCount)
  rw [← hplace] at hindex
  have happended {c' : MutableTableChunk} {replaced : Option StoredRow}
      (hc' : Stores types c' (m.chunks[m.chunks.length - 1].appendRow number row replaced)) :
      List.Forall₂ (Stores types) (ctb.chunks.set (m.chunks.length - 1) c')
        (m.chunks.modify (m.chunks.length - 1) fun chunk => chunk.appendRow number row replaced) :=
    forall₂_set h.chunks fun b hb => by rw [← some.inj (hmc.symm.trans hb)]; exact hc'
  -- It is enough to append to the chunks at the place that both indexes give.
  suffices hchunks : ∃ chunks, ChunkTimeBuffer.appendReplacing capacity ctb.chunks (m.chunks.length - 1) c row
      (m.rowKeyToIndex.lookup (rowKeyFor row)) = some chunks ∧
        List.Forall₂ (Stores types) chunks (m.addRow number row).chunks by
    obtain ⟨chunks, hchunks, hstored⟩ := hchunks
    refine ⟨⟨chunks, _⟩, ?_, hstored, hindex⟩
    rw [ChunkTimeBuffer.addRow, hlength, hc, bind_eq_bind, bind_some, h.index _ hkey, hchunks]
    rfl
  rw [TableBuffer.ChunkTimeBuffer.addRow]
  cases hlookup : m.rowKeyToIndex.lookup (rowKeyFor row) with
  | none =>
    have hreplaced : m.replaced row = none := by rw [TableBuffer.ChunkTimeBuffer.replaced, hlookup, Option.bind_none]
    obtain ⟨c', hc', hstores'⟩ :=
      hstores.appendRow htyped .none trivial none (fun _ => rfl) number (hreplaced ▸ hbytes)
    rw [ChunkTimeBuffer.appendReplacing, hc', hreplaced]
    exact ⟨_, rfl, happended hstores'⟩
  | some place =>
    obtain ⟨ci, ri⟩ := place
    obtain ⟨r, hslot, -⟩ := (hs.indexed _ _).mp hlookup
    obtain ⟨mc, hci, hri⟩ := bind_eq_some_iff.mp hslot
    have hreplaced : m.replaced row = some r := by
      rw [TableBuffer.ChunkTimeBuffer.replaced, hlookup, bind_some, hslot]
      rfl
    -- The slot that is superseded is the same after the row has been appended.
    have hkept (b : TableBuffer.MutableTableChunk) (hb : (m.chunks.modify (m.chunks.length - 1) fun chunk =>
        chunk.appendRow number row (some r))[ci]? = some b) : b.slots[ri]? = some ⟨r, true⟩ := by
      rw [List.getElem?_modify, hci] at hb
      cases hb
      split
      · exact List.getElem?_append_left (List.getElem?_eq_some_iff.mp hri).1 |>.trans hri
      · exact hri
    have hsuperseded {c' : MutableTableChunk}
        (hc' : Stores types c' (m.chunks[m.chunks.length - 1].appendRow number row (some r))) :
        List.Forall₂ (Stores types) ((ctb.chunks.set (m.chunks.length - 1) c').modify ci fun c => c.markSuperseded ri)
          (TableBuffer.markSuperseded (m.chunks.modify (m.chunks.length - 1) fun chunk =>
            chunk.appendRow number row (some r)) (ci, ri)) :=
      forall₂_modify (happended hc') fun _ b hb hab => hab.markSuperseded (hkept b hb)
    obtain ⟨src, hsrc, hsrcStores⟩ := forall₂_getElem? h.chunks hci
    have hri_lt : ri < src.rowCount := hsrcStores.rowCount ▸ (List.getElem?_eq_some_iff.mp hri).1
    rw [ChunkTimeBuffer.appendReplacing, hreplaced]
    split
    · next heq =>
      subst heq
      have heq : c = src := some.inj (hc.symm.trans hsrc)
      subst heq
      obtain ⟨c', hc', hstores'⟩ :=
        hstores.appendRow htyped (.localRow ri) hri_lt (some r) (hsrcStores.carriedAt_eq hri) number
          (hreplaced ▸ hbytes)
      have hchunks := hsuperseded hstores'
      rw [← set_eq_modify_set] at hchunks
      rw [hc']
      exact ⟨_, rfl, hchunks⟩
    · obtain ⟨c', hc', hstores'⟩ := hstores.appendRow htyped (.foreignRow src ri) ⟨hsrcStores.regular, hri_lt⟩ (some r)
        (hsrcStores.carriedAt_eq hri) number (hreplaced ▸ hbytes)
      rw [hsrc, bind_some, hc']
      exact ⟨_, rfl, hsuperseded hstores'⟩

end

/-- The same for the rows of a write, which end up as what the rows so far come to. -/
theorem addRows (rows : List Row) (hinj : Set.InjOn hash keys) (hkeys : ∀ row ∈ rows, rowKeyFor row ∈ keys)
    (htyped : ∀ row ∈ rows, ∀ f ∈ row.fields.entries, f.2.kind = types f.1) {written : List Row}
    (h : Refines hash types keys ctb m) (hs : m.Sound) (hne : m.chunks ≠ []) (hcollapsed : m.Collapsed written)
    (hbounded : Bounded types capacity (rows.foldl (fun m row => m.addRow 0 row) m)) :
    (rows.foldl (fun m row => m.addRow 0 row) m).Sound ∧
    (rows.foldl (fun m row => m.addRow 0 row) m).Collapsed (written ++ rows) ∧
    ∃ ctb', ctb.addRows hash capacity rows = some ctb' ∧
      Refines hash types keys ctb' (rows.foldl (fun m row => m.addRow 0 row) m) := by
  induction rows generalizing ctb m written with
  | nil => exact ⟨hs, by rwa [append_nil], ctb, rfl, h⟩
  | cons row rows ih =>
    rw [foldl_cons] at hbounded ⊢
    obtain ⟨mid, hmid, hrefines⟩ := h.addRow hs hne hinj (hkeys row mem_cons_self) (htyped row mem_cons_self) 0
      hbounded.of_addRows
    obtain ⟨hs', hcollapsed', ctb', hrun, hrefines'⟩ := ih (fun r hr => hkeys r (mem_cons_of_mem _ hr))
      (fun r hr => htyped r (mem_cons_of_mem _ hr)) hrefines (hs.addRow hne 0 row)
      (TableBuffer.ChunkTimeBuffer.addRow_ne_nil hne) (hcollapsed.addRow hs hne 0 row) hbounded
    refine ⟨hs', ?_, ctb', run_cons_eq_some.mpr ⟨mid, hmid, hrun⟩, hrefines'⟩
    rwa [append_assoc] at hcollapsed'

end Refines

end ColumnBuffer
end VarveDB
