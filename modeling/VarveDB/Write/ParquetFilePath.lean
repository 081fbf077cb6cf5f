import VarveDB.Library.Padded
import VarveDB.Write.PersistedSnapshot

/-! The object store paths of Parquet files. -/
namespace VarveDB
open Library.Padded

/-- `ParquetFilePath::new_with_chunk_ordinal`; `dateString` formats a chunk time as
`YYYY-MM-DD/HH-MM`. -/
def parquetFilePath (dateString : Int → String) (hostPrefix : String) (table : TableKey) (chunkTime : Int)
    (walFileSequenceNumber chunkOrdinal : Nat) : String :=
  let ordinalSuffix := if chunkOrdinal = 0 then "" else "-" ++ toString chunkOrdinal
  hostPrefix ++ "/dbs/" ++ toString table.1 ++ "/" ++ toString table.2 ++ "/" ++ dateString chunkTime ++ "/" ++
    (zeroPadded 10 walFileSequenceNumber ++ (ordinalSuffix ++ ".parquet"))

private theorem string_append_lt {s t t' : String} (h : t < t') : s ++ t < s ++ t' := by
  rw [String.lt_iff_toList_lt, String.toList_append, String.toList_append]
  exact List.append_left_lt (String.lt_iff_toList_lt.mp h)

/-- Within one window the paths sort by WAL file number, up to ten digits. -/
theorem parquetFilePath_lt {dateString : Int → String} {hostPrefix : String} {table : TableKey} {chunkTime : Int}
    {w w' : Nat} (h : w < w') (hw' : w' < 10 ^ 10) (ordinal ordinal' : Nat) :
    parquetFilePath dateString hostPrefix table chunkTime w ordinal <
      parquetFilePath dateString hostPrefix table chunkTime w' ordinal' :=
  string_append_lt (zeroPadded_append_lt h hw' _ _)

end VarveDB
