import Mathlib

/-! The schema of a table: InfluxDB types, the Arrow fields that carry them, and the checks of the builder. -/
namespace VarveDB
namespace Schema

inductive InfluxFieldType where
  | float
  | integer
  | uInteger
  | string
  | boolean
  deriving DecidableEq

inductive InfluxColumnType where
  | tag
  | field (fieldType : InfluxFieldType)
  | timestamp
  deriving DecidableEq

inductive DataType where
  | dictionary
  | float64
  | int64
  | uInt64
  | utf8
  | boolean
  | timestamp
  deriving DecidableEq

def InfluxFieldType.dataType : InfluxFieldType → DataType
  | .float => .float64
  | .integer => .int64
  | .uInteger => .uInt64
  | .string => .utf8
  | .boolean => .boolean

def InfluxColumnType.dataType : InfluxColumnType → DataType
  | .tag => .dictionary
  | .field t => t.dataType
  | .timestamp => .timestamp

def InfluxColumnType.nullable : InfluxColumnType → Bool
  | .tag | .field _ => true
  | .timestamp => false

structure Field where
  name : String
  dataType : DataType
  nullable : Bool
  deriving DecidableEq

def timeColumnName : String := "time"

abbrev Column := String × InfluxColumnType

def Column.toField (c : Column) : Field := ⟨c.1, c.2.dataType, c.2.nullable⟩

def influxColumn (name : String) : InfluxColumnType → Column
  | .timestamp => (timeColumnName, .timestamp)
  | t => (name, t)

inductive BuildError where
  | missingSeriesKeyColumn
  | tagsNotInSeriesKey
  | duplicateColumnName
  deriving DecidableEq
end Schema

structure Schema where
  columns : List Schema.Column
  seriesKey : Option (List String)
  distinct : (columns.map Prod.fst).Nodup

namespace Schema

@[ext]
theorem ext {s t : Schema} (hcolumns : s.columns = t.columns) (hkey : s.seriesKey = t.seriesKey) : s = t := by
  cases s; cases t; simp_all

instance : DecidableEq Schema := fun s t =>
  decidable_of_iff (s.columns = t.columns ∧ s.seriesKey = t.seriesKey) ⟨fun h => ext h.1 h.2, fun h => h ▸ ⟨rfl, rfl⟩⟩

def empty : Schema := ⟨[], none, List.nodup_nil⟩

def asArrow (s : Schema) : List Field := s.columns.map Column.toField

def build (columns : List Column) (seriesKey : List String) : Except BuildError Schema :=
  if seriesKey.any fun k => columns.all fun c => c.1 ≠ k then .error .missingSeriesKeyColumn
  else if columns.any fun c => c.2 = .tag ∧ c.1 ∉ seriesKey then .error .tagsNotInSeriesKey
  else if h : (columns.map Prod.fst).Nodup then .ok ⟨columns, some seriesKey, h⟩
  else .error .duplicateColumnName

end Schema
end VarveDB
