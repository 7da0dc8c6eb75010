import Lowering.Text.Decimal

namespace Lowering

structure Position where
  file : Text
  line : Int
  column : Int
deriving DecidableEq, Inhabited, Repr

namespace Position

def unknown : Position := ⟨Text.empty, 0, 0⟩

def start (file : Text) : Position := ⟨file, 1, 1⟩

def advance (p : Position) (b : UInt8) : Position :=
  if b = 0x0A then ⟨p.file, p.line + 1, 1⟩ else ⟨p.file, p.line, p.column + 1⟩

/-- The place as messages give it; a file without a name is not mentioned. -/
def text (p : Position) : Text :=
  let place := "line " ++ Decimal.ofInt p.line ++ ", column " ++ Decimal.ofInt p.column
  if p.file.isEmpty then place else p.file ++ ": " ++ place

end Position

end Lowering
