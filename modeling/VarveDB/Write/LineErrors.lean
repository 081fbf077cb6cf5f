import VarveDB.Library.Runs
import VarveDB.LineProtocol.Display

/-! The reports of rejected lines and the count of accepted bytes of a write. -/
namespace VarveDB.LineErrors
open Library Runs LineProtocol List

variable (text : Input)

/-- `str::lines`: a line feed ends a line, together with a carriage return before it. -/
def lines : List Input :=
  (text.splitOn '\n').dropLast.map (fun line => if line.getLast? = some '\r' then line.dropLast else line) ++
    (text.splitOn '\n').getLast?.toList.filter (· ≠ [])

def len : Nat := (text.map Char.utf8Size).sum

section
variable {τ κ μ : Type} (displayF64 : UInt64 → Input) (validate : τ → ParsedLine → τ × Except μ κ)

structure Point where
  lineNumber : Nat
  line : Input
  text : Input
  outcome : Except Error ParsedLine

end

section
variable {τ κ μ : Type} [Features] (parseF64 : Input → Option UInt64) (displayF64 : UInt64 → Input)
  (validate : τ → ParsedLine → τ × Except μ κ)

def pointsFrom (lines : List Input) : Nat → List Input → List Point
  | _, [] => []
  | before, piece :: pieces =>
    let number := before + (piece.take (piece.length - (trimLeading piece).length)).count '\n'
    ((parsePiece parseF64 piece).map fun outcome =>
      ⟨number + 1, lines[number]?.getD [], trimLeading piece, outcome⟩).toList ++
      pointsFrom lines (before + piece.count '\n' + 1) pieces

def points (lp : Input) : List Point := pointsFrom parseF64 (lines lp) 0 (splitLines lp)

variable {parseF64 displayF64 validate}

end

private def accept (_ : Unit) (_ : ParsedLine) : Unit × Except String Unit := ((), .ok ())

end VarveDB.LineErrors
