import Lowering.Text.Basic

namespace Lowering.Hex

def digit (n : Nat) : UInt8 := if n < 10 then (0x30 + n).toUInt8 else (0x57 + n).toUInt8

/-- The last `width` hexadecimal digits of a number. -/
def digits : Nat → Nat → List UInt8
  | 0, _ => []
  | width + 1, n => digits width (n / 16) ++ [digit (n % 16)]

def digit? (b : UInt8) : Option Nat :=
  if 0x30 ≤ b ∧ b ≤ 0x39 then some (b.toNat - 0x30)
  else if 0x61 ≤ b ∧ b ≤ 0x66 then some (b.toNat - 0x57)
  else if 0x41 ≤ b ∧ b ≤ 0x46 then some (b.toNat - 0x37)
  else none

def value? (bs : List UInt8) : Option Nat :=
  bs.foldlM (fun n b => (digit? b).map (16 * n + ·)) 0

def ofBytes (bs : List UInt8) : Text := ⟨bs.flatMap fun b => digits 2 b.toNat⟩

def ofWord (w : UInt64) : Text := ⟨digits 16 w.toNat⟩

end Lowering.Hex
