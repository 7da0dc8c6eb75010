import Lowering.Text.Basic

namespace Lowering.Decimal

def isDigit (b : UInt8) : Bool := decide (0x30 ≤ b ∧ b ≤ 0x39)

/-- The decimal digits of a number, most significant first, without leading zeros. -/
def digits (n : Nat) : List UInt8 := (Nat.toDigits 10 n).map fun c => c.toNat.toUInt8

def value (ds : List UInt8) : Nat := ds.foldl (fun n d => 10 * n + (d.toNat - 0x30)) 0

def ofNat (n : Nat) : Text := ⟨digits n⟩

/-- A minus sign goes in front of a negative number. -/
def ofInt : Int → Text
  | .ofNat n => ⟨digits n⟩
  | .negSucc n => ⟨0x2D :: digits (n + 1)⟩

/-- Reads an optional minus sign and then one or more digits, and nothing else. -/
def toInt? (t : Text) : Option Int :=
  match t.bytes with
  | [] => none
  | b :: rest =>
    if b = 0x2D then
      if rest ≠ [] ∧ rest.all isDigit then some (-(value rest : Int)) else none
    else if (b :: rest).all isDigit then some (value (b :: rest)) else none

/-- A number as a word of 64 bits with sign, if it fits. -/
def toWord? (i : Int) : Option Int64 :=
  if -0x8000000000000000 ≤ i ∧ i < 0x8000000000000000 then some (Int64.ofInt i) else none

def toInt64? (t : Text) : Option Int64 := (toInt? t).bind toWord?

def ofInt64 (i : Int64) : Text := ofInt i.toInt

end Lowering.Decimal
