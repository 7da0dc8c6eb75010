import Lowering.Text.Hex
import Lowering.Text.Utf8
import Lowering.Text.Printable

namespace Lowering.Quoted

/-- The letter after the backslash for the seven named control characters. -/
def named : List (UInt8 × UInt8) :=
  [(0x07, 0x61), (0x08, 0x62), (0x0C, 0x66), (0x0A, 0x6E), (0x0D, 0x72), (0x09, 0x74),
    (0x0B, 0x76)]

/-- A quote and a backslash are escaped, a printable character stands for itself, and the rest are
written by name or by number. -/
def encodePiece : Utf8.Piece → List UInt8
  | .stray b => [0x5C, 0x78] ++ Hex.digits 2 b.toNat
  | .point code spelling =>
    if code = 0x22 ∨ code = 0x5C then 0x5C :: spelling
    else if Printable.isPrintable code then spelling
    else if code < 0x80 then
      match named.lookup code.toUInt8 with
      | some letter => [0x5C, letter]
      | none => [0x5C, 0x78] ++ Hex.digits 2 code
    else if code < 0x10000 then [0x5C, 0x75] ++ Hex.digits 4 code
    else [0x5C, 0x55] ++ Hex.digits 8 code

def encodeBody (t : Text) : List UInt8 := (Utf8.pieces t.bytes).flatMap encodePiece

def encode (t : Text) : Text := ⟨0x22 :: encodeBody t ++ [0x22]⟩

/-- A numbered escape of `width` hexadecimal digits that stands for a code point. -/
def codePoint (width : Nat) (rest : List UInt8) : Option (List UInt8 × Nat) := do
  if rest.length < width then none
  let code ← Hex.value? (rest.take width)
  if Utf8.isScalar code then some (Utf8.encode code, width + 1) else none

/-- What the escape after a backslash stands for, and how many bytes it takes. -/
def escape : List UInt8 → Option (List UInt8 × Nat)
  | [] => none
  | c :: rest =>
    if c = 0x5C ∨ c = 0x22 then some ([c], 1)
    else if c = 0x78 then
      match rest with
      | a :: b :: _ => (Hex.value? [a, b]).map fun n => ([n.toUInt8], 3)
      | _ => none
    else if c = 0x75 then codePoint 4 rest
    else if c = 0x55 then codePoint 8 rest
    else if 0x30 ≤ c ∧ c ≤ 0x37 then
      match rest with
      | a :: b :: _ =>
        if 0x30 ≤ a ∧ a ≤ 0x37 ∧ 0x30 ≤ b ∧ b ≤ 0x37 then
          let n := (c.toNat - 0x30) * 64 + (a.toNat - 0x30) * 8 + (b.toNat - 0x30)
          if n < 256 then some ([n.toUInt8], 3) else none
        else none
      | _ => none
    else
      match named.find? fun p => p.2 = c with
      | some p => some ([p.1], 1)
      | none => none

/-- Reads escapes, after `skip` more bytes of the last one. A line break or a quote must be
escaped. -/
def unescapeFrom : Nat → List UInt8 → Option (List UInt8)
  | _, [] => some []
  | skip + 1, _ :: rest => unescapeFrom skip rest
  | 0, b :: rest =>
    if b = 0x5C then
      match escape rest with
      | some (out, width) => (unescapeFrom width rest).map (out ++ ·)
      | none => none
    else if b = 0x0A ∨ b = 0x22 then none
    else (unescapeFrom 0 rest).map (b :: ·)

/-- The text that the bytes between two quotes stand for. A byte that is not UTF-8 is read as
U+FFFD. -/
def decodeBody (body : List UInt8) : Option Text :=
  (unescapeFrom 0 (Utf8.sanitize body)).map Text.mk

end Lowering.Quoted
