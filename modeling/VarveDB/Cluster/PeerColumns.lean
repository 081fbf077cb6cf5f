import VarveDB.Catalog.Table
import VarveDB.Cluster.Chunks
import VarveDB.Query.SchemaAdapter

/-! The columns of a peer's rows, which the reader adapts to the schema of its own definition. -/
namespace VarveDB.Cluster
open Library Runs Schema Query Catalog List SchemaAdapterStream RecordBatch

def chunkOrderField : Field := ⟨chunkOrderColumnName, .int64, false⟩

def scanSchema (reader : Schema) (columns : List (Fin reader.columns.length)) : List Field :=
  columns.map (fun i => Column.toField (reader.columns.get i)) ++ [chunkOrderField]

def virtualColumns (name : String) : Option ScalarValue :=
  if name = chunkOrderColumnName then some (.int64 ClusterWriteBuffer.peerBufferChunkOrder) else none

def executePeerChunk (reader : TableDefinition) (columns : List (Fin reader.schema.columns.length))
    (served : List RecordBatch) : Except ExecutionError (List RecordBatch) := do
  let adapter ← (SchemaAdapterStream.tryNew reader.schema.asArrow virtualColumns
    (scanSchema reader.schema columns)).mapError .adapter
  served.mapM adapter.extendBatch

/-- Whatever the peer serves, the execution succeeds, and each row has under the name of each
column asked for the value that the peer holds under that name, null if it has no such column. -/
def RowsKeepColumns (peer reader : TableDefinition) (columns : List (Fin reader.schema.columns.length)) : Prop :=
  ∀ served : List RecordBatch, (∀ b ∈ served, b.schema = peer.schema.asArrow) →
    ∃ out, executePeerChunk reader columns served = .ok out ∧
      List.Forall₂ (fun b o : RecordBatch => o.numRows = b.numRows ∧ ∀ i ∈ columns, ∀ row < b.numRows,
        o.value (reader.schema.columns.get i).1 row = b.value (reader.schema.columns.get i).1 row) served out

section
variable {reader : Schema} {columns : List (Fin reader.columns.length)}

theorem name_ne_chunkOrder (hreserved : chunkOrderColumnName ∉ reader.columns.map Prod.fst)
    (i : Fin reader.columns.length) : (reader.columns.get i).1 ≠ chunkOrderColumnName := fun h =>
  hreserved (h ▸ mem_map_of_mem (get_mem _ i))

private theorem indexOf_asArrow (i : Fin reader.columns.length) :
    indexOf reader.asArrow (reader.columns.get i).1 = some i.1 := by
  rw [indexOf, List.findIdx?_eq_some_iff_getElem]
  refine ⟨by simp [asArrow], by simp [asArrow, Column.toField], fun j hj heq => ?_⟩
  have hlen : (reader.columns.map Prod.fst).length = reader.columns.length := length_map _
  have hname : (reader.columns.map Prod.fst)[j] = (reader.columns.map Prod.fst)[i.1] := by
    simpa [asArrow, Column.toField] using heq
  exact absurd ((reader.distinct.getElem_inj_iff).mp hname) (by omega)

theorem mapping_column (i : Fin reader.columns.length) :
    mapping reader.asArrow virtualColumns (Column.toField (reader.columns.get i)) = .fromInput i := by
  have hidx : indexOf reader.asArrow (Column.toField (reader.columns.get i)).name = some i.1 := indexOf_asArrow i
  rw [mapping, hidx]

variable (hreserved : chunkOrderColumnName ∉ reader.columns.map Prod.fst)
include hreserved

theorem mapping_chunkOrder :
    mapping reader.asArrow virtualColumns chunkOrderField =
      .virtual (.int64 ClusterWriteBuffer.peerBufferChunkOrder) := by
  have hidx : indexOf reader.asArrow chunkOrderField.name = none := by
    rw [indexOf, List.findIdx?_eq_none_iff]
    intro f hf
    obtain ⟨c, hc, rfl⟩ := mem_map.mp hf
    exact decide_eq_false fun h : c.1 = chunkOrderColumnName => hreserved (h ▸ mem_map_of_mem hc)
  have hvirtual :
      virtualColumns chunkOrderField.name = some (.int64 ClusterWriteBuffer.peerBufferChunkOrder) := if_pos rfl
  rw [mapping, hidx, hvirtual]

private theorem adapter_eq_ok : tryNew reader.asArrow virtualColumns (scanSchema reader columns) =
      .ok ⟨scanSchema reader columns, (scanSchema reader columns).map (mapping reader.asArrow virtualColumns)⟩ := by
  refine tryNew_eq_ok fun f hf => ?_
  rcases mem_snoc.mp hf with hf | rfl
  · obtain ⟨i, -, rfl⟩ := mem_map.mp hf
    have hget : reader.asArrow[i.1]? = some (Column.toField (reader.columns.get i)) := by simp [asArrow]
    have hvirtual : virtualColumns (Column.toField (reader.columns.get i)).name = none :=
      if_neg (name_ne_chunkOrder hreserved i)
    simp only [mapping_column, verify, hget, ne_eq, not_true_eq_false, if_false, hvirtual,
      Option.isSome_none, Bool.false_eq_true]
  · rw [mapping_chunkOrder hreserved]
    rfl

end

section
variable {peer reader : TableDefinition} {columns : List (Fin reader.schema.columns.length)} {b out : RecordBatch}

private def adapt (reader : TableDefinition) (columns : List (Fin reader.schema.columns.length)) (b : RecordBatch) :
    Except ExecutionError RecordBatch :=
  SchemaAdapterStream.extendBatch ⟨scanSchema reader.schema columns,
    (scanSchema reader.schema columns).map (SchemaAdapterStream.mapping reader.schema.asArrow virtualColumns)⟩ b

section
variable (hreserved : chunkOrderColumnName ∉ reader.schema.columns.map Prod.fst)
include hreserved

private theorem executePeerChunk_eq (served : List RecordBatch) :
    executePeerChunk reader columns served = served.mapM (adapt reader columns) := by
  rw [executePeerChunk, adapter_eq_ok hreserved]
  rfl

private theorem eq_of_name_eq (i : Fin reader.schema.columns.length) {g : Field}
    (hg : g ∈ scanSchema reader.schema columns)
    (hname : g.name = (reader.schema.columns.get i).1) : g = Column.toField (reader.schema.columns.get i) := by
  rcases mem_snoc.mp hg with hg | rfl
  · obtain ⟨j, -, rfl⟩ := mem_map.mp hg
    rw [inj_on_of_nodup_map reader.schema.distinct (get_mem _ j) (get_mem _ i) hname]
  · exact absurd hname.symm (name_ne_chunkOrder hreserved i)

private theorem value_adapt (hok : adapt reader columns b = .ok out) {i : Fin reader.schema.columns.length}
    (hi : i ∈ columns) : ∃ c, b.columns[i.1]? = some c ∧ c.dataType = (reader.schema.columns.get i).2.dataType ∧
      c.values.length = out.numRows ∧ ∀ row, out.value (reader.schema.columns.get i).1 row = c.values[row]?.join := by
  obtain ⟨c, hc, htype, hlen, hvalue⟩ := exists_outputColumn hok rfl
    (f := Column.toField (reader.schema.columns.get i))
    (mem_append_left _ (mem_map_of_mem hi)) fun g hg hname => eq_of_name_eq hreserved i hg hname
  refine ⟨c, ?_, htype, hlen, hvalue⟩
  rw [mapping_column] at hc
  simp only [outputColumn] at hc
  split at hc
  · next hcol => rw [hcol]; cases hc; rfl
  · cases hc

private theorem numRows_adapt (hok : adapt reader columns b = .ok out) : out.numRows = b.numRows := by
  obtain ⟨c, hc, -, hlen, -⟩ := exists_outputColumn hok rfl (f := chunkOrderField)
    (mem_append_right _ (mem_singleton_self _)) fun g hg hname => by
      rcases mem_append.mp hg with hg | hg
      · obtain ⟨i, -, rfl⟩ := mem_map.mp hg
        exact absurd hname (name_ne_chunkOrder hreserved i)
      · exact mem_singleton.mp hg
  rw [mapping_chunkOrder hreserved] at hc
  cases hc
  simpa [ScalarValue.toArrayOfSize] using hlen.symm

private theorem exists_adapt (hsame : ∀ i ∈ columns, peer.schema.columns[i.1]? = some (reader.schema.columns.get i))
    (hb : b.schema = peer.schema.asArrow) : ∃ out, adapt reader columns b = .ok out := by
  refine exists_extendBatch (by simp [scanSchema]) rfl fun f hf => ?_
  rcases mem_snoc.mp hf with hf | rfl
  · obtain ⟨i, hi, rfl⟩ := mem_map.mp hf
    have hfield : b.schema[i.1]? = some (Column.toField (reader.schema.columns.get i)) := by
      rw [hb, asArrow, List.getElem?_map, hsame i hi]
      rfl
    obtain ⟨c, hc, hfits⟩ := exists_column hfield
    refine ⟨c, ?_, hfits⟩
    rw [mapping_column]
    simp only [outputColumn, hc]
  · refine ⟨_, by rw [mapping_chunkOrder hreserved]; rfl, rfl, by simp [ScalarValue.toArrayOfSize], fun _ => ?_⟩
    simp [ScalarValue.toArrayOfSize]

end

private theorem value_served (hb : b.schema = peer.schema.asArrow) {i : Nat} {c : Column} {array : ArrayRef}
    (hcolumn : peer.schema.columns[i]? = some c) (harray : b.columns[i]? = some array) (row : Nat) :
    b.value c.1 row = array.values[row]?.join := by
  obtain ⟨hi, rfl⟩ := List.getElem?_eq_some_iff.mp hcolumn
  have hidx : indexOf b.schema (peer.schema.columns.get ⟨i, hi⟩).1 = some i := by
    rw [hb]
    exact indexOf_asArrow ⟨i, hi⟩
  have hidx' : indexOf b.schema peer.schema.columns[i].1 = some i := hidx
  simp [value, hidx', harray]

end

variable (dataType : DataType) (added : String)

section Probe

private def sample (i : Nat) : ScalarValue :=
  match dataType with
  | .dictionary => .dictionary ""
  | .float64 => .float64 0
  | .int64 => .int64 0
  | .uInt64 => .uInt64 0
  | .utf8 => .utf8 ""
  | .boolean => .boolean false
  | .timestamp => .timestamp i

private theorem dataType_sample (i : Nat) : (sample dataType i).dataType = dataType := by
  cases dataType <;> rfl

private theorem eq_of_sample_eq {dataType : DataType} {i j : Nat} (h : sample dataType i = sample .timestamp j) :
    i = j := by
  cases dataType <;> cases h
  rfl

private def probeValue (k i : Nat) (f : Field) : Option ScalarValue :=
  if i = k ∨ f.nullable = false then some (sample f.dataType i) else none

private def probeColumn (k i : Nat) (f : Field) : ArrayRef where
  dataType := f.dataType
  values := [probeValue k i f]
  typed := fun v hv x hx => by
    rw [mem_singleton.mp hv, probeValue] at hx
    split at hx
    · rw [← some.inj hx, dataType_sample]
    · cases hx

private def probe (fields : List Field) (k : Nat) : RecordBatch where
  schema := fields
  columns := fields.mapIdx (probeColumn k)
  numRows := 1
  types := ext_getElem? fun i => by
    simp only [List.getElem?_map, List.getElem?_mapIdx, Option.map_map]
    rfl
  lengths := fun c hc => by
    obtain ⟨i, hi, rfl⟩ := mem_mapIdx.mp hc
    rfl
  nulls := fun p hp hnull hmem => by
    obtain ⟨i, hi, rfl⟩ := mem_iff_getElem.mp hp
    simp only [getElem_zip, getElem_mapIdx, probeColumn, mem_singleton] at hmem hnull
    simp [probeValue, hnull] at hmem

private theorem value_probe {fields : List Field} {k : Nat} {name : String} {x : ScalarValue}
    (h : (probe fields k).value name 0 = some x) :
    ∃ i f, fields[i]? = some f ∧ f.name = name ∧ (i = k ∨ f.nullable = false) ∧ x = sample f.dataType i := by
  obtain ⟨c, hc, hx⟩ := bind_eq_some_iff.mp h
  obtain ⟨i, hi, hcol⟩ := bind_eq_some_iff.mp hc
  obtain ⟨hlt, hname, -⟩ := List.findIdx?_eq_some_iff_getElem.mp hi
  have hname : fields[i].name = name := of_decide_eq_true hname
  have hget : fields[i]? = some fields[i] := List.getElem?_eq_getElem hlt
  have hcol' : c = probeColumn k i fields[i] := by
    have hmapped : (fields.mapIdx (probeColumn k))[i]? = some (probeColumn k i fields[i]) := by
      rw [List.getElem?_mapIdx, hget]
      rfl
    exact some.inj (hcol.symm.trans hmapped)
  subst hcol'
  have hvalue : probeValue k i fields[i] = some x := by simpa [probeColumn] using hx
  rw [probeValue] at hvalue
  split at hvalue
  · next hk => exact ⟨i, fields[i], hget, hname, hk, (some.inj hvalue).symm⟩
  · cases hvalue

end Probe

private theorem InfluxColumnType.dataType_injective {s t : InfluxColumnType} (h : s.dataType = t.dataType) : s = t := by
  cases s with
  | tag | timestamp => cases t with
    | field u => cases u <;> cases h
    | _ => first | rfl | cases h
  | field s => cases t with
    | field t => cases s <;> cases t <;> first | rfl | cases h
    | _ => cases s <;> cases h

/-- A peer's rows keep their columns exactly if each column asked for stands, with its name and
type, at the same position in the peer's definition of the table as in the reader's. -/
theorem rows_keep_columns_iff (peer reader : TableDefinition) (columns : List (Fin reader.schema.columns.length))
    (hreserved : chunkOrderColumnName ∉ reader.schema.columns.map Prod.fst) :
    RowsKeepColumns peer reader columns ↔
      ∀ i ∈ columns, peer.schema.columns[i.1]? = some (reader.schema.columns.get i) := by
  constructor
  · intro h i hi
    obtain ⟨out, hexec, hout⟩ := h [probe peer.schema.asArrow i.1] fun b hb => by
      rw [mem_singleton.mp hb]
      rfl
    rw [executePeerChunk_eq hreserved, mapM_eq_ok_iff] at hexec
    obtain ⟨o, os, hadapt, -, rfl⟩ := forall₂_cons_left_iff.mp hexec
    obtain ⟨-, hvalue⟩ := (forall₂_cons.mp hout).1
    obtain ⟨c, hc, htype, -, hc'⟩ := value_adapt hreserved hadapt hi
    -- the batch has a column at the position, so the peer's definition has one there
    obtain ⟨f, hf, rfl⟩ : ∃ f, peer.schema.asArrow[i.1]? = some f ∧ probeColumn i.1 i.1 f = c := by
      have hmapped : (peer.schema.asArrow.mapIdx (probeColumn i.1))[i.1]? = some c := hc
      rw [List.getElem?_mapIdx] at hmapped
      exact map_eq_some_iff.mp hmapped
    obtain ⟨column, hcolumn, rfl⟩ := map_eq_some_iff.mp ((List.getElem?_map ..).symm.trans hf)
    have hread : o.value (reader.schema.columns.get i).1 0 = some (sample column.2.dataType i.1) := by
      rw [hc' 0]
      simp [probeColumn, probeValue, Column.toField]
    obtain ⟨j, g, hg, hname, hj, hsample⟩ := value_probe ((hvalue i hi 0 Nat.one_pos).symm.trans hread)
    obtain ⟨owner, howner, rfl⟩ := map_eq_some_iff.mp ((List.getElem?_map ..).symm.trans hg)
    -- the value read under the name comes from the position of that name, so the two are the same
    have hij : j = i.1 := by
      rcases hj with hj | hnull
      · exact hj
      · have htime : owner.2 = .timestamp := by
          revert hnull
          cases h : owner.2 <;> simp [Column.toField, h, InfluxColumnType.nullable]
        rw [Column.toField, htime] at hsample
        exact (eq_of_sample_eq hsample).symm
    subst hij
    obtain rfl : column = owner := some.inj (hcolumn.symm.trans howner)
    rw [hcolumn]
    exact congrArg some (Prod.ext hname (InfluxColumnType.dataType_injective htype))
  · intro hsame served hserved
    obtain ⟨out, hout⟩ := exists_mapM (f := adapt reader columns) fun b hb =>
      exists_adapt hreserved hsame (hserved b hb)
    refine ⟨out, by rw [executePeerChunk_eq hreserved, hout], ?_⟩
    refine forall₂_iff_zip.mpr ⟨(mapM_eq_ok_iff.mp hout).length_eq, fun {b o} hbo => ?_⟩
    have hadapt : adapt reader columns b = .ok o := forall₂_zip (mapM_eq_ok_iff.mp hout) hbo
    refine ⟨numRows_adapt hreserved hadapt, fun i hi row _ => ?_⟩
    obtain ⟨c, hc, -, -, hvalue⟩ := value_adapt hreserved hadapt hi
    rw [hvalue row]
    exact (value_served (hserved b (of_mem_zip hbo).1) (hsame i hi) hc row).symm

def definitionAt (created : TableDefinition) (log : List AddColumns) (position : Nat) : Apply TableDefinition :=
  (log.take position).foldlM (fun t r => r.applyToTable t) created

private def zoneLog : List AddColumns :=
  [⟨0, 0, [.timestamp (some 0) "time", .tag 0 (some 1) "zone"], []⟩, ⟨0, 0, [.tag 1 (some 2) added], []⟩]

private def zoneTable (position : Nat) : TableDefinition :=
  match definitionAt (.newEmpty 0 "m" .aware) (zoneLog added) position with
  | .ok t => t
  | .error _ => .newEmpty 0 "m" .aware

theorem rows_keep_columns_of_last_name : chunkOrderColumnName ∉ (zoneTable "zz" 1).schema.columns.map Prod.fst ∧
      RowsKeepColumns (zoneTable "zz" 2) (zoneTable "zz" 1) (List.finRange _) :=
  ⟨by decide, (rows_keep_columns_iff _ _ _ (by decide)).mpr (by decide)⟩

private def zoneRow : RecordBatch where
  schema := (zoneTable "tz" 2).schema.asArrow
  columns := [(ScalarValue.timestamp 1).toArrayOfSize 1, (ScalarValue.dictionary "cet").toArrayOfSize 1,
    (ScalarValue.dictionary "z1").toArrayOfSize 1]
  numRows := 1
  types := by decide
  lengths := by decide
  nulls := by decide

/-- A tag added at the peer whose name sorts before that of another tag: a reader whose catalog is
one record behind reads its value under the other tag's name. -/
theorem value_read_under_another_name :
    ∃ (peer reader : TableDefinition) (columns : List (Fin reader.schema.columns.length)) (served out : RecordBatch),
      definitionAt (.newEmpty 0 "m" .aware) (zoneLog "tz") 2 = .ok peer ∧
      definitionAt (.newEmpty 0 "m" .aware) (zoneLog "tz") 1 = .ok reader ∧
      served.schema = peer.schema.asArrow ∧ executePeerChunk reader columns [served] = .ok [out] ∧
      columns.map (fun i => (reader.schema.columns.get i).1) = ["time", "zone"] ∧
      served.value "zone" 0 = some (.dictionary "z1") ∧ out.value "zone" 0 = some (.dictionary "cet") := by
  obtain ⟨outs, hexec, houts⟩ : ∃ outs, executePeerChunk (zoneTable "tz" 1) (List.finRange _) [zoneRow] = .ok outs ∧
      ∀ out ∈ outs, out.value "zone" 0 = some (.dictionary "cet") := by decide
  obtain ⟨out, rfl⟩ : ∃ out, outs = [out] := by
    obtain ⟨adapter, -, hmap⟩ := bind_eq_ok.mp hexec
    exact length_eq_one_iff.mp (mapM_eq_ok_iff.mp hmap).length_eq.symm
  refine ⟨zoneTable "tz" 2, zoneTable "tz" 1, List.finRange _, zoneRow, out, by decide, by decide, rfl,
    hexec, by decide, by decide, ?_⟩
  simpa using houts

end VarveDB.Cluster
