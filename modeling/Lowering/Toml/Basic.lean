import Lowering.Text.Hex

namespace Lowering.Toml

abbrev Key := List Text

namespace Key

def isBareByte (b : UInt8) : Bool :=
  (0x41 ≤ b && b ≤ 0x5A) || (0x61 ≤ b && b ≤ 0x7A) || (0x30 ≤ b && b ≤ 0x39) ||
    b = 0x5F || b = 0x2D

/-- The escape letters of the control characters that have one. -/
def letters : List (UInt8 × UInt8) :=
  [(0x08, 0x62), (0x09, 0x74), (0x0A, 0x6E), (0x0C, 0x66), (0x0D, 0x72)]

def escapeByte (b : UInt8) : List UInt8 :=
  if b = 0x22 ∨ b = 0x5C then [0x5C, b]
  else match letters.lookup b with
    | some letter => [0x5C, letter]
    | none => if b < 0x20 ∨ b = 0x7F then [0x5C, 0x75] ++ Hex.digits 4 b.toNat else [b]

/-- A part that is not a bare word stands in double quotes. -/
def partText (part : Text) : Text :=
  if !part.isEmpty && part.bytes.all isBareByte then part
  else ⟨0x22 :: part.bytes.flatMap escapeByte ++ [0x22]⟩

def text (key : Key) : Text := Text.join "." (key.map partText)

end Key

inductive Value where
  | str (text : Text)
  | int (value : Int64)
  | float (spelling : Text)
  | bool (value : Bool)
  | moment (spelling : Text)
  | array (elems : List Value)
  | inline (pairs : List (Key × Value))
deriving Inhabited

/-- What one line, or a value over several lines, says. -/
inductive Line where
  | table (key : Key)
  | tables (key : Key)
  | pair (key : Key) (value : Value)

end Lowering.Toml
