import Lowering.Calendar
import Lowering.Toml.Basic

namespace Lowering.Toml

/-- One or more digits; an underscore may stand between two of them. -/
def isRun (isDigit : UInt8 → Bool) : List UInt8 → Bool
  | [] => false
  | [b] => isDigit b
  | a :: b :: rest =>
    isDigit a && (if b = 0x5F then isRun isDigit rest else isRun isDigit (b :: rest))

def withoutUnderscores (bs : List UInt8) : List UInt8 := bs.filter (· ≠ 0x5F)

/-- A decimal run that has no zero in front, unless it is zero. -/
def isPlainRun (bs : List UInt8) : Bool :=
  isRun Decimal.isDigit bs && (bs.head? ≠ some 0x30 || bs.length = 1)

namespace Integer

def isHex (b : UInt8) : Bool := (Hex.digit? b).isSome

def isOctal (b : UInt8) : Bool := 0x30 ≤ b && b ≤ 0x37

def isBinary (b : UInt8) : Bool := b = 0x30 || b = 0x31

/-- The number that digits of a base of at most sixteen denote. -/
def inBase (base : Nat) (bs : List UInt8) : Nat :=
  bs.foldl (fun n b => base * n + (Hex.digit? b).getD 0) 0

def based? (base : Nat) (isDigit : UInt8 → Bool) (bs : List UInt8) : Option Int :=
  if isRun isDigit bs then some (inBase base (withoutUnderscores bs)) else none

def decimal? (bs : List UInt8) : Option Int :=
  if isPlainRun bs then some (Decimal.value (withoutUnderscores bs)) else none

/-- A decimal integer with or without a sign, or a hexadecimal, octal or binary one without. -/
def toInt? : List UInt8 → Option Int
  | 0x30 :: 0x78 :: bs => based? 16 isHex bs
  | 0x30 :: 0x6F :: bs => based? 8 isOctal bs
  | 0x30 :: 0x62 :: bs => based? 2 isBinary bs
  | 0x2B :: bs => decimal? bs
  | 0x2D :: bs => (decimal? bs).map (-·)
  | bs => decimal? bs

def toInt64? (bs : List UInt8) : Option Int64 :=
  (toInt? bs).bind Decimal.toWord?

end Integer

namespace Float

/-- Half a unit above the greatest number of double precision: from here on rounding leaves the
range. -/
def limit : Nat := Nat.pow 2 1024 - Nat.pow 2 970

/-- The digits `ds`, with the point after the first `whole` of them, times ten to the power `exp`
round to a finite number. Outside of 300 to 310 digits before the point there is nothing to
compute. -/
def isFinite (ds : List UInt8) (whole : Nat) (exp : Int) : Bool :=
  let leading := (ds.takeWhile (· = 0x30)).length
  let digits := ds.drop leading
  let size : Int := whole - leading + exp
  if digits.isEmpty ∨ size < 300 then true
  else if 310 < size then false
  else
    let n := Decimal.value digits
    let shift : Int := size - digits.length
    if 0 ≤ shift then decide (n * Nat.pow 10 shift.toNat < limit)
    else decide (n < limit * Nat.pow 10 (-shift).toNat)

def unsigned : List UInt8 → List UInt8
  | 0x2B :: bs => bs
  | 0x2D :: bs => bs
  | bs => bs

def isExponentMark (b : UInt8) : Bool := b = 0x65 || b = 0x45

/-- The exponent, 0 if there is none. -/
def exponent? : List UInt8 → Option Int
  | [] => some 0
  | _ :: bs =>
    if isRun Decimal.isDigit (unsigned bs) then
      let n : Int := Decimal.value (withoutUnderscores (unsigned bs))
      some (if bs.head? = some 0x2D then -n else n)
    else none

/-- The digits after the point, none if there is no point. -/
def fraction? : List UInt8 → Option (List UInt8)
  | [] => some []
  | _ :: bs => if isRun Decimal.isDigit bs then some (withoutUnderscores bs) else none

/-- A decimal number with a fraction, an exponent or both that is in the range of double
precision, an infinity, or not a number. -/
def isFloat (bs : List UInt8) : Bool :=
  let bs := unsigned bs
  if bs = [0x69, 0x6E, 0x66] ∨ bs = [0x6E, 0x61, 0x6E] then true
  else
    let (mantissa, exp) := bs.span fun b => !isExponentMark b
    let (whole, fraction) := mantissa.span (· ≠ 0x2E)
    if exp.isEmpty && fraction.isEmpty || !isPlainRun whole then false
    else match fraction? fraction, exponent? exp with
      | some after, some e =>
        let digits := withoutUnderscores whole
        isFinite (digits ++ after) digits.length e
      | _, _ => false

end Float

namespace Moment

open Calendar
open Text (expect)

/-- What follows a time of day, whose seconds may be left out or have a fraction. -/
def time? (bs : List UInt8) : Option (List UInt8) := do
  let (hour, bs) ← two? bs
  let (minute, bs) ← two? (← expect 0x3A bs)
  if 24 ≤ hour ∨ 60 ≤ minute then none
  match bs with
  | 0x3A :: bs =>
    let (second, bs) ← two? bs
    if 60 ≤ second then none
    match bs with
    | 0x2E :: d :: bs => if Decimal.isDigit d then some (bs.dropWhile Decimal.isDigit) else none
    | bs => some bs
  | bs => some bs

/-- Between date and time stands a `T` in either case or a blank; `Z` has either case. -/
def normalize (b : UInt8) : UInt8 :=
  if b = 0x74 ∨ b = 0x20 then 0x54 else if b = 0x7A then 0x5A else b

/-- A date, a time of day, or both, and then perhaps with an offset. -/
def isMoment (bs : List UInt8) : Bool :=
  let bs := bs.map normalize
  match date? bs with
  | some [] => true
  | some (0x54 :: bs) =>
    match time? bs with
    | some rest => rest.isEmpty || isOffset rest
    | none => false
  | some _ => false
  | none => time? bs = some []

end Moment

end Lowering.Toml
