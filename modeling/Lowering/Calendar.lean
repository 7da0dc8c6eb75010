import Lowering.Text.Decimal

namespace Lowering.Calendar

open Text (expect)

def isLeap (year : Nat) : Bool := year % 4 = 0 && (year % 100 ≠ 0 || year % 400 = 0)

def daysIn (year month : Nat) : Nat :=
  if month = 2 then if isLeap year then 29 else 28
  else if month = 4 ∨ month = 6 ∨ month = 9 ∨ month = 11 then 30
  else 31

def isDate (year month day : Nat) : Bool :=
  1 ≤ month && month ≤ 12 && 1 ≤ day && day ≤ daysIn year month

def two? : List UInt8 → Option (Nat × List UInt8)
  | a :: b :: rest =>
    if Decimal.isDigit a && Decimal.isDigit b then some (Decimal.value [a, b], rest) else none
  | _ => none

/-- A number of two digits, or of one if no digit follows it, and what follows it. -/
def oneOrTwo? : List UInt8 → Option (Nat × List UInt8)
  | a :: b :: rest =>
    if !Decimal.isDigit a then none
    else if Decimal.isDigit b then some (Decimal.value [a, b], rest)
    else some (Decimal.value [a], b :: rest)
  | [a] => if Decimal.isDigit a then some (Decimal.value [a], []) else none
  | [] => none

/-- What follows a date: four digits of the year, two of the month and two of the day. -/
def date? (bs : List UInt8) : Option (List UInt8) := do
  let (century, bs) ← two? bs
  let (years, bs) ← two? bs
  let (month, bs) ← two? (← expect 0x2D bs)
  let (day, bs) ← two? (← expect 0x2D bs)
  if isDate (100 * century + years) month day then some bs else none

/-- An offset: `Z` for none, or a sign with at most 24 hours and 60 minutes. -/
def isOffset : List UInt8 → Bool
  | [z] => z = 0x5A
  | [sign, a, b, colon, c, d] =>
    (sign = 0x2B || sign = 0x2D) && colon = 0x3A && [a, b, c, d].all Decimal.isDigit &&
      Decimal.value [a, b] ≤ 24 && Decimal.value [c, d] ≤ 60
  | _ => false

end Lowering.Calendar
