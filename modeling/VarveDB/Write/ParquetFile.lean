import Mathlib

namespace VarveDB

structure ParquetFile where
  id : Nat
  path : String
  sizeBytes : Nat
  rowCount : Nat
  chunkTime : Int
  minTime : Int
  maxTime : Int
  deriving DecidableEq

end VarveDB
