import VarveDB.Library.Results
import VarveDB.Schema.Basic

/-! The stream adapter that gives the batches of a chunk the schema of a scan. -/
namespace VarveDB.Query
open Library Schema List

inductive ScalarValue where
  | dictionary (value : String)
  | float64 (bits : UInt64)
  | int64 (value : Int)
  | uInt64 (value : Nat)
  | utf8 (value : String)
  | boolean (value : Bool)
  | timestamp (nanos : Int)
  deriving DecidableEq

def ScalarValue.dataType : ScalarValue → DataType
  | dictionary _ => .dictionary
  | float64 _ => .float64
  | int64 _ => .int64
  | uInt64 _ => .uInt64
  | utf8 _ => .utf8
  | boolean _ => .boolean
  | timestamp _ => .timestamp

structure ArrayRef where
  dataType : DataType
  values : List (Option ScalarValue)
  typed : ∀ v ∈ values, ∀ x, v = some x → x.dataType = dataType

def nullArray (dataType : DataType) (len : Nat) : ArrayRef :=
  ⟨dataType, List.replicate len none, fun v hv x hx => by simp [(mem_replicate.mp hv).2] at hx⟩

def ScalarValue.toArrayOfSize (value : ScalarValue) (len : Nat) : ArrayRef :=
  ⟨value.dataType, List.replicate len (some value), fun v hv x hx => by
    rw [(mem_replicate.mp hv).2] at hx
    rw [Option.some.inj hx]⟩

/-- Columns of equal length with the types of the schema's fields, and no null where a field
allows none. -/
structure RecordBatch where
  schema : List Field
  columns : List ArrayRef
  numRows : Nat
  types : columns.map ArrayRef.dataType = schema.map Field.dataType
  lengths : ∀ c ∈ columns, c.values.length = numRows
  nulls : ∀ p ∈ schema.zip columns, p.1.nullable = false → none ∉ p.2.values

inductive ArrowError where
  | columnCount
  | noRowCount
  | nullInNonNullable
  | unequalLengths
  | typeMismatch
  deriving DecidableEq

variable {columns : List ArrayRef} {schema : List Field} {b : RecordBatch} {f : Field}

namespace RecordBatch

def tryNew (schema : List Field) (columns : List ArrayRef) : Except ArrowError RecordBatch :=
  if schema.length ≠ columns.length then .error .columnCount
  else match columns.head? with
    | none => .error .noRowCount
    | some first =>
      if hnulls : ∀ p ∈ schema.zip columns, p.1.nullable = false → none ∉ p.2.values then
        if hlengths : ∀ c ∈ columns, c.values.length = first.values.length then
          if htypes : columns.map ArrayRef.dataType = schema.map Field.dataType then
            .ok ⟨schema, columns, first.values.length, htypes, hlengths, hnulls⟩
          else .error .typeMismatch
        else .error .unequalLengths
      else .error .nullInNonNullable

theorem tryNew_eq_ok (h : tryNew schema columns = .ok b) : b.schema = schema ∧ b.columns = columns := by
  unfold tryNew at h
  repeat' split at h
  all_goals cases h
  exact ⟨rfl, rfl⟩

def Fits (n : Nat) (f : Field) (c : ArrayRef) : Prop :=
  c.dataType = f.dataType ∧ c.values.length = n ∧ (f.nullable = false → none ∉ c.values)

/-- Columns that fit their fields make a batch. -/
theorem exists_tryNew {n : Nat} (hne : schema ≠ [])
    (h : List.Forall₂ (Fits n) schema columns) : ∃ b, tryNew schema columns = .ok b := by
  obtain ⟨hlen, hfits⟩ := forall₂_iff_zip.mp h
  have hnulls : ∀ p ∈ schema.zip columns, p.1.nullable = false → none ∉ p.2.values := fun p hp => (hfits hp).2.2
  have htypes : columns.map ArrayRef.dataType = schema.map Field.dataType := by
    rw [← forall₂_eq_eq_eq, forall₂_map_left_iff, forall₂_map_right_iff]
    exact h.flip.imp fun _ _ hfit => hfit.1
  have hcounts : ∀ c ∈ columns, c.values.length = n := fun c hc => by
    obtain ⟨i, hi, rfl⟩ := getElem_of_mem hc
    exact (h.get (hlen ▸ hi) hi).2.1
  obtain ⟨f, fs, rfl⟩ := exists_cons_of_ne_nil hne
  obtain ⟨c, cs, -, -, rfl⟩ := forall₂_cons_left_iff.mp h
  have hlengths : ∀ d ∈ c :: cs, d.values.length = c.values.length := fun d hd =>
    (hcounts d hd).trans (hcounts c mem_cons_self).symm
  refine ⟨⟨_, _, _, htypes, hlengths, hnulls⟩, ?_⟩
  simp only [tryNew, hlen, ne_eq, not_true_eq_false, if_false, List.head?_cons, dif_pos hnulls, dif_pos hlengths,
    dif_pos htypes]

/-- The column at the position of a field fits it. -/
theorem exists_column {i : Nat} (h : b.schema[i]? = some f) : ∃ c, b.columns[i]? = some c ∧ Fits b.numRows f c := by
  obtain ⟨hi, rfl⟩ := List.getElem?_eq_some_iff.mp h
  have hlen : b.columns.length = b.schema.length := by simpa using congrArg List.length b.types
  have hi' : i < b.columns.length := hlen ▸ hi
  have htype : b.columns[i].dataType = b.schema[i].dataType := by
    simpa [hi, hi'] using congrArg (fun l => l[i]?) b.types
  have hzip : (b.schema[i], b.columns[i]) ∈ b.schema.zip b.columns :=
    mem_iff_getElem.mpr ⟨i, by rw [length_zip]; omega, by simp⟩
  exact ⟨b.columns[i], List.getElem?_eq_getElem hi', htype, b.lengths _ (getElem_mem _), b.nulls _ hzip⟩

def indexOf (fields : List Field) (name : String) : Option Nat := fields.findIdx? fun f => f.name = name

def value (b : RecordBatch) (name : String) (row : Nat) : Option ScalarValue :=
  ((indexOf b.schema name).bind fun i => b.columns[i]?).bind fun c => c.values[row]?.join

end RecordBatch

inductive ColumnMapping where
  | fromInput (index : Nat)
  | makeNull (dataType : DataType)
  | virtual (value : ScalarValue)
  deriving DecidableEq

inductive AdapterError where
  | dataTypeMismatch (inputField : String) (inputType : DataType) (outputField : String) (outputType : DataType)
  | columnBothInInputAndVirtual (field : String)
  | columnNotNullable (field : String) (outputType : DataType)
  | dataTypeMismatchForVirtual (fieldType : DataType) (outputField : String) (outputType : DataType)
  deriving DecidableEq

inductive ExecutionError where
  | adapter (e : AdapterError)
  | arrow (e : ArrowError)
  | panic
  deriving DecidableEq

structure SchemaAdapterStream where
  outputSchema : List Field
  mappings : List ColumnMapping
  deriving DecidableEq

namespace SchemaAdapterStream
variable (inputSchema : List Field) (virtualColumns : String → Option ScalarValue) (outputField : Field)

def mapping : ColumnMapping :=
  match RecordBatch.indexOf inputSchema outputField.name with
  | some i => .fromInput i
  | none =>
    match virtualColumns outputField.name with
    | some value => .virtual value
    | none => .makeNull outputField.dataType

def verify : ColumnMapping → Except AdapterError Unit
  | .fromInput i =>
    match inputSchema[i]? with
    | none => .ok ()
    | some inputField =>
      if inputField.dataType ≠ outputField.dataType then
        .error (.dataTypeMismatch inputField.name inputField.dataType outputField.name outputField.dataType)
      else if (virtualColumns inputField.name).isSome then .error (.columnBothInInputAndVirtual inputField.name)
      else .ok ()
  | .makeNull _ =>
    if outputField.nullable then .ok () else .error (.columnNotNullable outputField.name outputField.dataType)
  | .virtual value =>
    if value.dataType ≠ outputField.dataType then
      .error (.dataTypeMismatchForVirtual value.dataType outputField.name outputField.dataType)
    else .ok ()

def tryNew (outputSchema : List Field) : Except AdapterError SchemaAdapterStream := do
  let mappings := outputSchema.map (mapping inputSchema virtualColumns)
  let _ ← outputSchema.mapM fun f => verify inputSchema virtualColumns f (mapping inputSchema virtualColumns f)
  .ok ⟨outputSchema, mappings⟩

def outputColumn (batch : RecordBatch) : ColumnMapping → Except ExecutionError ArrayRef
  | .fromInput i =>
    match batch.columns[i]? with
    | some column => .ok column
    | none => .error .panic
  | .makeNull dataType => .ok (nullArray dataType batch.numRows)
  | .virtual value => .ok (value.toArrayOfSize batch.numRows)

def extendBatch (s : SchemaAdapterStream) (batch : RecordBatch) : Except ExecutionError RecordBatch := do
  let columns ← s.mappings.mapM (outputColumn batch)
  (RecordBatch.tryNew s.outputSchema columns).mapError .arrow

variable {inputSchema virtualColumns} {s : SchemaAdapterStream} {batch out : RecordBatch}

theorem tryNew_eq_ok {outputSchema : List Field}
    (h : ∀ f ∈ outputSchema, verify inputSchema virtualColumns f (mapping inputSchema virtualColumns f) = .ok ()) :
    tryNew inputSchema virtualColumns outputSchema =
      .ok ⟨outputSchema, outputSchema.map (mapping inputSchema virtualColumns)⟩ := by
  obtain ⟨us, hus⟩ := exists_mapM fun f hf => ⟨(), h f hf⟩
  rw [tryNew, hus]
  rfl

/-- A batch is extended if each output column can be made and fits its field. -/
theorem exists_extendBatch (hne : s.outputSchema ≠ [])
    (hmap : s.mappings = s.outputSchema.map (mapping inputSchema virtualColumns))
    (h : ∀ f ∈ s.outputSchema, ∃ c, outputColumn batch (mapping inputSchema virtualColumns f) = .ok c ∧
      RecordBatch.Fits batch.numRows f c) : ∃ out, s.extendBatch batch = .ok out := by
  obtain ⟨columns, hcolumns⟩ := exists_mapM (f := fun f => outputColumn batch (mapping inputSchema virtualColumns f))
    fun f hf => (h f hf).imp fun _ hc => hc.1
  have hfits : List.Forall₂ (RecordBatch.Fits batch.numRows) s.outputSchema columns := by
    refine forall₂_iff_zip.mpr ⟨(mapM_eq_ok_iff.mp hcolumns).length_eq, fun {f c} hfc => ?_⟩
    obtain ⟨c', hc', hfit⟩ := h f (of_mem_zip hfc).1
    have hc : outputColumn batch (mapping inputSchema virtualColumns f) = .ok c :=
      forall₂_zip (mapM_eq_ok_iff.mp hcolumns) hfc
    rw [hc] at hc'
    cases hc'
    exact hfit
  obtain ⟨out, hout⟩ := RecordBatch.exists_tryNew hne hfits
  refine ⟨out, bind_eq_ok.mpr ⟨columns, ?_, by rw [hout]; rfl⟩⟩
  rw [hmap, mapM_map]
  exact hcolumns

/-- An extended batch holds, under the name of an output field, the column made for it. -/
theorem exists_outputColumn (hok : s.extendBatch batch = .ok out)
    (hmap : s.mappings = s.outputSchema.map (mapping inputSchema virtualColumns)) (hf : f ∈ s.outputSchema)
    (hname : ∀ g ∈ s.outputSchema, g.name = f.name → g = f) :
    ∃ c, outputColumn batch (mapping inputSchema virtualColumns f) = .ok c ∧ c.dataType = f.dataType ∧
      c.values.length = out.numRows ∧ ∀ row, out.value f.name row = c.values[row]?.join := by
  obtain ⟨columns, hcolumns, hnew⟩ := bind_eq_ok.mp hok
  obtain ⟨hschema, hcols⟩ : out.schema = s.outputSchema ∧ out.columns = columns := by
    cases hb : RecordBatch.tryNew s.outputSchema columns with
    | error e => rw [hb] at hnew; cases hnew
    | ok b =>
      rw [hb] at hnew
      cases hnew
      exact RecordBatch.tryNew_eq_ok hb
  subst hcols
  rw [hmap, mapM_eq_ok_iff, forall₂_map_left_iff] at hcolumns
  obtain ⟨hlen, hget⟩ := forall₂_iff_get.mp hcolumns
  -- the first field of that name is `f` itself, so its position is that of the column made for `f`
  obtain ⟨i, hi⟩ : ∃ i, RecordBatch.indexOf out.schema f.name = some i := by
    cases hidx : RecordBatch.indexOf out.schema f.name with
    | some i => exact ⟨i, rfl⟩
    | none => simpa using List.findIdx?_eq_none_iff.mp hidx f (hschema ▸ hf)
  obtain ⟨hlt, hp, -⟩ := List.findIdx?_eq_some_iff_getElem.mp hi
  have hlt' : i < s.outputSchema.length := hschema ▸ hlt
  have hfi : s.outputSchema[i] = f := by
    refine hname _ (getElem_mem _) ?_
    simpa [hschema] using hp
  have hcol : i < out.columns.length := hlen ▸ hlt'
  refine ⟨out.columns[i], ?_, ?_, out.lengths _ (getElem_mem _), fun row => ?_⟩
  · simpa [hfi] using hget i hlt' hcol
  · have htypes := congrArg (fun l => l[i]?) out.types
    simpa [hschema, hlt', hcol, hfi] using htypes
  · simp [RecordBatch.value, hi, hcol]

end SchemaAdapterStream
end VarveDB.Query
