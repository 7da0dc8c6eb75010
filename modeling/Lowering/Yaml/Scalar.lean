import Lowering.Calendar
import Lowering.Text.Quoted

namespace Lowering.Yaml

/-- Without one leading occurrence of a byte. -/
def dropOne (b : UInt8) : List UInt8 → List UInt8
  | c :: rest => if c = b then rest else c :: rest
  | [] => []

def letterOrDigit? (b : UInt8) : Option Nat :=
  if Decimal.isDigit b then some (b.toNat - 0x30)
  else if 0x61 ≤ b ∧ b ≤ 0x7A then some (b.toNat - 0x57)
  else if 0x41 ≤ b ∧ b ≤ 0x5A then some (b.toNat - 0x37)
  else none

/-- Whether digits of a base follow until the text ends or the number exceeds 64 bits. -/
def digitsFrom (base : Nat) : Nat → List UInt8 → Bool
  | _, [] => true
  | n, b :: rest =>
    match letterOrDigit? b with
    | none => false
    | some d =>
      if base ≤ d then false
      else if 0x10000000000000000 ≤ n * base + d then true
      else digitsFrom base (n * base + d) rest

def isNumeral (base : Nat) (bs : List UInt8) : Bool := !bs.isEmpty && digitsFrom base 0 bs

def isExponent (bs : List UInt8) : Bool :=
  let digits := match bs with
    | b :: rest => if b = 0x2B ∨ b = 0x2D then rest else b :: rest
    | [] => []
  !digits.isEmpty && digits.all Decimal.isDigit

/-- A mantissa of digits with at most one point, and then an exponent, which a hexadecimal number
must have. -/
def isMagnitude (hexadecimal : Bool) (bs : List UInt8) : Bool :=
  let isDigit (b : UInt8) : Bool :=
    if hexadecimal then (Hex.digit? b).isSome else Decimal.isDigit b
  let isMantissa (b : UInt8) : Bool := isDigit b || b = 0x2E
  let mark : UInt8 := if hexadecimal then 0x70 else 0x65
  let mantissa := bs.takeWhile isMantissa
  mantissa.any isDigit && mantissa.count 0x2E ≤ 1 &&
    match bs.dropWhile isMantissa with
    | [] => !hexadecimal
    | b :: rest => (b = mark || b + 0x20 = mark) && isExponent rest

def isFloat (bs : List UInt8) : Bool :=
  let unsigned := match bs with
    | b :: rest => if b = 0x2B ∨ b = 0x2D then rest else b :: rest
    | [] => []
  match unsigned with
  | zero :: x :: rest =>
    if zero = 0x30 ∧ (x = 0x78 ∨ x = 0x58) then isMagnitude true rest
    else isMagnitude false unsigned
  | _ => isMagnitude false unsigned

/-- Whether a text reads as a number in one of the notations for numbers. One plus sign and then
one minus sign may stand in front, and underscores between. -/
def isNumber (t : Text) : Bool :=
  let points := t.bytes.count 0x2E
  let body : Text := ⟨(dropOne 0x2D (dropOne 0x2B t.bytes)).filter (· ≠ 0x5F)⟩
  if t.startsWith "_" || 1 < points then false
  else if body.startsWith "0x" then isNumeral 16 (body.bytes.drop 2)
  else if body.startsWith "0o" then isNumeral 8 (body.bytes.drop 2)
  else if body.startsWith "0b" then isNumeral 2 (body.bytes.drop 2)
  else if body.startsWith "0" && 1 < body.length && points = 0 then isNumeral 8 body.bytes
  else if points = 1 then isFloat (if t.startsWith "-" then 0x2D :: body.bytes else body.bytes)
  else isNumeral 10 body.bytes

open Calendar
open Text (expect)

/-- What follows a fraction of a second, if there is one. -/
def fraction (bs : List UInt8) : List UInt8 :=
  match bs with
  | mark :: d :: rest =>
    if (mark = 0x2E ∨ mark = 0x2C) ∧ Decimal.isDigit d then rest.dropWhile Decimal.isDigit else bs
  | _ => bs

/-- What follows hours, minutes, seconds and an optional fraction. -/
def clock? (bs : List UInt8) : Option (List UInt8) := do
  let (hour, bs) ← oneOrTwo? bs
  let (minute, bs) ← two? (← expect 0x3A bs)
  let (second, bs) ← two? (← expect 0x3A bs)
  if hour < 24 ∧ minute < 60 ∧ second < 60 then some (fraction bs) else none

/-- A date, a date with a clock time, or an hour with a minute. -/
def isTime (t : Text) : Bool :=
  let dated : Bool := match date? t.bytes with
    | none => false
    | some [] => true
    | some (sep :: rest) =>
      if sep = 0x54 ∨ sep = 0x74 then
        match clock? rest with
        | some offset => isOffset offset
        | none => false
      else if sep = 0x20 then clock? (rest.dropWhile (· = 0x20)) = some []
      else false
  let short : Bool := match oneOrTwo? t.bytes with
    | some (hour, colon :: rest) =>
      match oneOrTwo? rest with
      | some (minute, []) => colon = 0x3A && hour < 24 && minute < 60
      | _ => false
    | _ => false
  dated || short

def keywords : List Text :=
  ["null", "Null", "NULL", "~", "true", "True", "TRUE", "false", "False", "FALSE", "y", "Y", "yes",
    "Yes", "YES", "n", "N", "no", "No", "NO", "on", "On", "ON", "off", "Off", "OFF"]

def indicators : List UInt8 := (Text.ofString "*&[\x7b\x7d],!|>%'\"@` ").bytes

/-- Whether a colon or a hyphen stands before a blank. -/
def hasSeparator : List UInt8 → Bool
  | a :: b :: rest => ((a = 0x3A || a = 0x2D) && b = 0x20) || hasSeparator (b :: rest)
  | _ => false

def needsQuotes (t : Text) : Bool :=
  match t.bytes.head?, t.bytes.getLast? with
  | some first, some last =>
    t = "-" || keywords.contains t || isNumber t || indicators.contains first || last = 0x3A ||
      last = 0x20 || isTime t || t.contains 0x23 || t.contains 0x5C || hasSeparator t.bytes
  | _, _ => true

def scalar (t : Text) : Text := if needsQuotes t then Quoted.encode t else t

end Lowering.Yaml
