import VarveDB.Write.TableBuffer

/-! What the rows of one gen1 window come to: one row for every point, with the last value of each column. -/
namespace VarveDB.TableBuffer
open Library List

variable (row : Row)

def Row.tagSet : List (Nat × String) := row.fields.entries.filterMap fun f => f.2.tag?.map (f.1, ·)

def SamePoint (a b : Row) : Prop := a.tagSet.Perm b.tagSet ∧ a.time = b.time

instance : DecidableRel SamePoint := fun a b => inferInstanceAs (Decidable (a.tagSet.Perm b.tagSet ∧ a.time = b.time))

/-- The last version of each point. -/
def points (rows : List Row) : List Row := rows.pwFilter fun a b => ¬ SamePoint a b

/-- The value of a column in the last version of the point that provides it. -/
def lastValue (rows : List Row) (point : Row) (column : Nat) : Option FieldData :=
  (rows.filter fun row => SamePoint row point).reverse.findSome? fun row => row.fields.lookup column

variable {v : String} {id : Nat} {key : RowKey}

theorem FieldData.tag?_eq_some {f : FieldData} : f.tag? = some v ↔ f = .tag v := by
  cases f <;> simp [FieldData.tag?]

private theorem Row.mem_tagSet {row : Row} : (id, v) ∈ row.tagSet ↔ row.fields.lookup id = some (.tag v) := by
  rw [KeyedList.lookup_eq_some, Row.tagSet, mem_filterMap]
  constructor
  · rintro ⟨f, hf, hv⟩
    obtain ⟨_, htag, heq⟩ := Option.map_eq_some_iff.mp hv
    obtain ⟨rfl, rfl⟩ := Prod.mk.inj heq
    exact FieldData.tag?_eq_some.mp htag ▸ hf
  · exact fun h => ⟨(id, .tag v), h, rfl⟩

private theorem Row.distinct_tagSet : (row.tagSet.map Prod.fst).Nodup := by
  refine row.fields.distinct.sublist ?_
  rw [Row.tagSet]
  induction row.fields.entries with
  | nil => exact .slnil
  | cons f fs ih =>
    rw [filterMap_cons]
    cases f.2.tag? with
    | none => exact ih.cons _
    | some v => exact ih.cons_cons _

/-- The overwrite identity tells points apart. -/
theorem rowKeyFor_eq_iff {a b : Row} : rowKeyFor a = rowKeyFor b ↔ SamePoint a b := by
  have hsort (row : Row) : (rowKeyFor row).1.Perm row.tagSet := perm_insertionSort _ _
  have hsorted (row : Row) : (rowKeyFor row).1.Pairwise (·.1 ≤ ·.1) := pairwise_insertionSort _ _
  constructor
  · intro h
    exact ⟨(hsort a).symm.trans (h ▸ hsort b), congrArg Prod.snd h⟩
  · rintro ⟨htags, htime⟩
    refine Prod.ext ?_ htime
    have hperm : (rowKeyFor a).1.Perm (rowKeyFor b).1 := (hsort a).trans (htags.trans (hsort b).symm)
    refine hperm.eq_of_pairwise (fun p q hp hq hle hge => ?_) (hsorted a) (hsorted b)
    have hmem := (hsort a).subset hp
    have hmem' := htags.symm.subset ((hsort b).subset hq)
    exact inj_on_of_nodup_map a.distinct_tagSet hmem hmem' (Nat.le_antisymm hle hge)

theorem lookup_carried_of_provided {row : Row} {v : FieldData} (h : row.fields.lookup id = some v) (old : StoredRow) :
    (old.values.retain fun f => f.2.tag? = none ∧ row.fields.lookup f.1 = none).lookup id = none := by
  rw [Option.eq_none_iff_forall_ne_some]
  intro w hw
  simp [KeyedList.lookup_eq_some, h] at hw

theorem lookup_storedRow (number : Nat) (row : Row) (replaced : Option StoredRow) (id : Nat) :
    (storedRow number row replaced).values.lookup id = (row.fields.lookup id).or
      (replaced.bind fun old => (old.values.lookup id).filter fun v => v.tag? = none) := by
  cases replaced with
  | none => simp [storedRow, carried]
  | some old =>
    have hcarried : (storedRow number row (some old)).values = row.fields.putAll
      (old.values.retain fun f => f.2.tag? = none ∧ row.fields.lookup f.1 = none) := rfl
    rw [hcarried, IndexMap.lookup_putAll, Option.bind_some]
    cases hrow : row.fields.lookup id with
    | some v => rw [lookup_carried_of_provided hrow, Option.none_or, Option.some_or]
    | none =>
      rw [Option.or_none, Option.none_or, IndexMap.lookup_retain]
      simp [hrow]

/-- A tag of a row is one of its identity. -/
theorem mem_rowKeyFor {row : Row} : (id, v) ∈ (rowKeyFor row).1 ↔ row.fields.lookup id = some (.tag v) :=
  (perm_insertionSort _ _).mem_iff.trans Row.mem_tagSet

/-- Each point has one version among the last ones. -/
theorem points_spec (rows : List Row) :
    (points rows).Pairwise (fun a b => ¬ SamePoint a b) ∧ ∀ row ∈ rows, ∃ p ∈ points rows, SamePoint row p := by
  refine ⟨pairwise_pwFilter rows, fun row hrow => ?_⟩
  by_contra hnot
  have hneg {x y z : Row} (hxz : ¬ SamePoint x z) : ¬ SamePoint x y ∨ ¬ SamePoint y z := by
    simp only [← rowKeyFor_eq_iff] at hxz ⊢
    exact not_and_or.mp fun ⟨hxy, hyz⟩ => hxz (hxy.trans hyz)
  have hall : ∀ p ∈ rows, ¬ SamePoint row p := (forall_mem_pwFilter (R := fun a b => ¬ SamePoint a b) hneg row rows).mp
    fun p hp hsame => hnot ⟨p, hp, hsame⟩
  exact hall row hrow (rowKeyFor_eq_iff.mp rfl)

namespace ChunkTimeBuffer

def lastOf (rows : List Row) (key : RowKey) (column : Nat) : Option FieldData :=
  (rows.filter fun row => rowKeyFor row = key).reverse.findSome? fun row => row.fields.lookup column

theorem lastOf_append (rows : List Row) (key : RowKey) (column : Nat) : lastOf (rows ++ [row]) key column =
      if rowKeyFor row = key then (row.fields.lookup column).or (lastOf rows key column) else
        lastOf rows key column := by
  split
  · next h => cases hv : row.fields.lookup column <;> simp [h, lastOf, hv]
  · next h => simp [h, lastOf]

variable {rows : List Row} {ctb : ChunkTimeBuffer}

theorem lastOf_eq_some {column : Nat} {v : FieldData} (h : lastOf rows key column = some v) :
    ∃ row ∈ rows, rowKeyFor row = key ∧ row.fields.lookup column = some v := by
  obtain ⟨row, hrow, hv⟩ := exists_of_findSome?_eq_some h
  obtain ⟨hmem, hkey⟩ := mem_filter.mp (mem_reverse.mp hrow)
  exact ⟨row, hmem, of_decide_eq_true hkey, hv⟩

structure Collapsed (ctb : ChunkTimeBuffer) (rows : List Row) : Prop where
  keys : ∀ key, key ∈ ctb.liveRows.map StoredRow.key ↔ key ∈ rows.map rowKeyFor
  values : ∀ r ∈ ctb.liveRows, ∀ column, r.values.lookup column = lastOf rows r.key column

theorem Collapsed.empty : Collapsed .empty [] :=
  ⟨by simp [liveRows, ChunkTimeBuffer.empty], by simp [liveRows, ChunkTimeBuffer.empty]⟩

section
variable (h : ctb.Collapsed rows)
include h

/-- A row written last holds the values it provides, and the last ones of its point for the others:
tags are not carried over, but rows of one point provide the same ones. -/
private theorem Collapsed.lookup_storedRow (hs : ctb.Sound) (number : Nat) (row : Row) (column : Nat) :
    (storedRow number row (ctb.replaced row)).values.lookup column = lastOf (rows ++ [row]) (rowKeyFor row) column := by
  rw [TableBuffer.lookup_storedRow, lastOf_append, if_pos rfl, hs.replaced_eq]
  cases hprovided : row.fields.lookup column with
  | some v => rw [Option.some_or, Option.some_or]
  | none =>
    rw [Option.none_or, Option.none_or]
    cases hfind : ctb.liveRows.find? fun r => r.key = rowKeyFor row with
    | none =>
      rw [Option.bind_none, eq_comm, Option.eq_none_iff_forall_ne_some]
      intro v hv
      obtain ⟨old, hold, hkey, -⟩ := lastOf_eq_some hv
      obtain ⟨r, hr, hrkey⟩ := mem_map.mp ((h.keys _).mpr (mem_map_of_mem hold))
      exact List.find?_eq_none.mp hfind r hr (decide_eq_true (hrkey.trans hkey))
    | some r =>
      have hkey : r.key = rowKeyFor row := by simpa using List.find?_some hfind
      rw [Option.bind_some, h.values r (mem_of_find?_eq_some hfind), hkey]
      cases hlast : lastOf rows (rowKeyFor row) column with
      | none => rfl
      | some v =>
        obtain ⟨old, -, hold, hlookup⟩ := lastOf_eq_some hlast
        refine Option.filter_some_pos (decide_eq_true (Option.eq_none_iff_forall_ne_some.mpr fun tag htag => ?_))
        rw [FieldData.tag?_eq_some.mp htag, ← mem_rowKeyFor, hold, mem_rowKeyFor, hprovided] at hlookup
        cases hlookup

theorem Collapsed.addRow (hs : ctb.Sound) (hne : ctb.chunks ≠ []) (number : Nat) (row : Row) :
    (ctb.addRow number row).Collapsed (rows ++ [row]) := by
  have hlive := hs.liveRows_addRow hne number row
  refine ⟨fun key => ?_, fun r hr column => ?_⟩
  · rw [(hlive.map _).mem_iff, map_append, mem_append, ← h.keys, map_cons, mem_cons]
    by_cases hkey : key = rowKeyFor row
    · simp [hkey, storedRow]
    · simp only [mem_map, mem_filter, decide_eq_true_eq, mem_singleton, map_cons, map_nil,
        hkey, or_false, storedRow, false_or]
      refine exists_congr fun r => ?_
      constructor
      · rintro ⟨⟨hr, -⟩, hrkey⟩
        exact ⟨hr, hrkey⟩
      · rintro ⟨hr, hrkey⟩
        exact ⟨⟨hr, hrkey ▸ hkey⟩, hrkey⟩
  · rcases mem_cons.mp (hlive.subset hr) with rfl | hr
    · exact h.lookup_storedRow hs number row column
    · obtain ⟨hr, hkey⟩ := mem_filter.mp hr
      rw [h.values r hr, lastOf_append, if_neg (Ne.symm (of_decide_eq_true hkey))]

theorem Collapsed.withTarget (limit : Nat) (incoming : List Row) : (ctb.withTarget limit incoming).Collapsed rows := by
  refine ⟨?_, ?_⟩ <;> rw [liveRows_withTarget]
  exacts [h.keys, h.values]

end

private theorem lastOf_rowKeyFor (rows : List Row) (point : Row) (column : Nat) :
    lastOf rows (rowKeyFor point) column = lastValue rows point column := by
  simp only [lastOf, lastValue, rowKeyFor_eq_iff]

private theorem mem_rowKeyFor_points : key ∈ (points rows).map rowKeyFor ↔ key ∈ rows.map rowKeyFor := by
  constructor
  · exact fun h => ((pwFilter_sublist rows).map _).subset h
  · intro h
    obtain ⟨row, hrow, rfl⟩ := mem_map.mp h
    obtain ⟨p, hp, hsame⟩ := (points_spec rows).2 row hrow
    exact rowKeyFor_eq_iff.mpr hsame ▸ mem_map_of_mem hp

/-- One live row for each point, with the last value that was written for each column. -/
theorem Collapsed.rows_perm (h : ctb.Collapsed rows) (hs : ctb.Sound) (columns : List Nat) :
    (ctb.liveRows.map fun r => columns.map r.values.lookup).Perm
      ((points rows).map fun p => columns.map (lastValue rows p)) := by
  have hdistinct : ((points rows).map rowKeyFor).Nodup :=
    pairwise_map.mpr ((points_spec rows).1.imp fun hne heq => hne (rowKeyFor_eq_iff.mp heq))
  have hkeys : (ctb.liveRows.map StoredRow.key).Perm ((points rows).map rowKeyFor) :=
    (perm_ext_iff_of_nodup hs.keys hdistinct).mpr fun key => (h.keys key).trans mem_rowKeyFor_points.symm
  have hlive : (ctb.liveRows.map fun r => columns.map r.values.lookup) =
      (ctb.liveRows.map StoredRow.key).map fun key => columns.map (lastOf rows key) := by
    rw [map_map]
    exact map_congr_left fun r hr => map_congr_left fun column _ => h.values r hr column
  rw [hlive]
  refine (hkeys.map _).trans (.of_eq ?_)
  rw [map_map]
  exact map_congr_left fun p _ => map_congr_left fun column _ => lastOf_rowKeyFor rows p column

end ChunkTimeBuffer

end VarveDB.TableBuffer
