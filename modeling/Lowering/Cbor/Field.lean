import Lowering.Cbor.Decode
import Lowering.Text.Utf8

namespace Lowering.Cbor

structure Target where
  name : Text
  isList : Bool := false
  isRecord : Bool := false

inductive Mismatch.Reason where
  | type
  | range (n : Int)
  /-- A record is a map, not an array. -/
  | arrayForRecord
  /-- Nothing but numbers and texts are keys of a record. -/
  | key
  /-- The key `-1 - n` is out of range. -/
  | keyRange (n : Nat)
deriving DecidableEq, Repr

structure Mismatch where
  found : Major
  wanted : Text
  reason : Mismatch.Reason := .type
  /-- The outermost field that the item is in. -/
  field : Option Text := none
deriving DecidableEq, Repr

namespace Mismatch

def Reason.text (found : Major) (wanted : Text) : Reason → Text
  | type => Text.empty
  | range n => " (" ++ Decimal.ofInt n ++ " overflows " ++ wanted ++ ")"
  | arrayForRecord => " (cannot decode CBOR array to struct without toarray option)"
  | key =>
    " (map key is of type " ++ found.name ++ " and cannot be used to match struct field name)"
  | keyRange n => " (-1-" ++ Decimal.ofNat n ++ " overflows Go's int64)"

def message (m : Mismatch) : Text :=
  let place : Text := match m.field with
    | some field => "struct field " ++ field ++ " of type "
    | none => "value of type "
  "cbor: cannot unmarshal " ++ m.found.name ++ " into Go " ++ place ++ m.wanted ++
    m.reason.text m.found m.wanted

end Mismatch

inductive Fault where
  | malformed (m : Malformed)
  | mismatch (m : Mismatch)
  | text
  /-- The content of a tag is not of the type that the tag stands for. -/
  | tag (number : Nat) (found : Major)
deriving DecidableEq, Repr

namespace Fault

def tagText (tag : Nat) : Text :=
  if tag = 0 then "cbor: tag number 0 must be followed by text string, got "
  else if tag = 1 then
    "cbor: tag number 1 must be followed by integer or floating-point number, got "
  else "cbor: tag number 2 or 3 must be followed by byte string, got "

def message : Fault → Text
  | malformed m => m.message
  | mismatch m => m.message
  | text => "cbor: invalid UTF-8 string"
  | .tag number found => tagText number ++ found.name

def inField (field : Text) : Fault → Fault
  | mismatch m => mismatch { m with field := some field }
  | fault => fault

end Fault

namespace Item

/-- An item without the tags around it, and the type it counts as. A date must tag a text, a time a
number and a big number a byte string, which is then the number itself. -/
def content : Item → Except Fault (Major × Item)
  | .tagged tag item =>
    if tag = 0 then
      match item with
      | .text pieces => .ok (.text, .text pieces)
      | item => .error (.tag tag item.major)
    else if tag = 1 then
      match item with
      | .unsigned n => .ok (.unsigned, .unsigned n)
      | .negative n => .ok (.negative, .negative n)
      | .float => .ok (.simple, .float)
      | item => .error (.tag tag item.major)
    else if tag = 2 then
      match item with
      | .bytes pieces => .ok (.tag, .unsigned (BigEndian.decode pieces.flatten))
      | item => .error (.tag tag item.major)
    else if tag = 3 then
      match item with
      | .bytes pieces => .ok (.tag, .negative (BigEndian.decode pieces.flatten))
      | item => .error (.tag tag item.major)
    else content item
  | item => .ok (item.major, item)

/-- Whether an item, once its tags are off, is null or undefined. -/
def isMissing : Item → Bool
  | .simple n => n = 22 || n = 23
  | _ => false

end Item

namespace Read

/-- What is wrong with an item of a wrong type. A number of more than 64 bits is out of the range of
every type; only a tagged one may also be meant as the elements of a list. -/
def reasonFor (target : Target) (found : Major) : Item → Mismatch.Reason
  | .unsigned n =>
    if 0x10000000000000000 ≤ n ∧ !target.isList then .range n else .type
  | .negative n =>
    if 0x8000000000000000 ≤ n ∧ !(found = .tag ∧ target.isList) then .range (-1 - n) else .type
  | .array _ => if target.isRecord then .arrayForRecord else .type
  | _ => .type

/-- The text of a string item, every piece of which must be UTF-8. -/
def stringText (pieces : List (List UInt8)) : Except Fault Text :=
  if pieces.all Utf8.isValid then .ok ⟨pieces.flatten⟩ else .error .text

/-- The fault of an item of a wrong type. A text must be UTF-8 even where none is asked for. -/
def refuse {α : Type} (target : Target) (found : Major) (item : Item) : Except Fault α := do
  if let .text pieces := item then discard (stringText pieces)
  .error (.mismatch ⟨found, target.name, reasonFor target found item, none⟩)

structure Range where
  name : Text
  low : Int
  high : Int

/-- A number in a range. Where there are no negative numbers, one is of the wrong type rather than
out of range, unless it has more than 64 bits. -/
def ranged (range : Range) (found : Major) (n : Int) : Except Fault Int :=
  if range.low ≤ n ∧ n ≤ range.high then .ok n
  else
    let isType : Bool := n < 0 && range.low = 0 && -0x8000000000000000 ≤ n
    .error (.mismatch ⟨found, range.name, if isType then .type else .range n, none⟩)

/-- An integer of a range. A simple value without a meaning counts as its number. -/
def int (range : Range) (item : Item) : Except Fault Int := do
  let (found, item) ← item.content
  match item with
  | .unsigned n => ranged range found n
  | .negative n => ranged range found (-1 - n)
  | .simple n =>
    if n = 22 ∨ n = 23 then .ok 0
    else if n = 20 ∨ n = 21 then refuse ⟨range.name, false, false⟩ found item
    else ranged range found n
  | item => refuse ⟨range.name, false, false⟩ found item

def byte (name : Text) (item : Item) : Except Fault UInt8 :=
  (int ⟨name, 0, 255⟩ item).map fun n => n.toNat.toUInt8

def int32 (name : Text) (item : Item) : Except Fault Int :=
  int ⟨name, -0x80000000, 0x7FFFFFFF⟩ item

def int64 (name : Text) (item : Item) : Except Fault Int :=
  int ⟨name, -0x8000000000000000, 0x7FFFFFFFFFFFFFFF⟩ item

def textTarget : Target := { name := "string" }

def textOr (usual : Text) (item : Item) : Except Fault Text := do
  let (found, item) ← item.content
  match item with
  | .text pieces => stringText pieces
  | item => if item.isMissing then .ok usual else refuse textTarget found item

def text (item : Item) : Except Fault Text := textOr Text.empty item

/-- A list; none inside stands for a missing one. -/
def list {α : Type} (name : Text) (elem : Item → Except Fault α) (item : Item) :
    Except Fault (Option (List α)) := do
  let (found, item) ← item.content
  match item with
  | .array items => return some (← items.mapM elem)
  | item => if item.isMissing then .ok none else refuse { name, isList := true } found item

def texts (item : Item) : Except Fault (Option (List Text)) := list "[]string" text item

def pairs : List Item → List (Item × Item)
  | key :: value :: rest => (key, value) :: pairs rest
  | _ => []

def entriesFor (target : Target) (item : Item) : Except Fault (List (Item × Item)) := do
  let (found, item) ← item.content
  match item with
  | .map keysAndValues => return pairs keysAndValues
  | item => if item.isMissing then .ok [] else refuse target found item

/-- Entries with texts for keys. A missing key stands for the key of the entry before. -/
def keyed {α : Type} (value : Item → Except Fault α) :
    Text → List (Item × Item) → Except Fault (List (Text × α))
  | _, [] => .ok []
  | before, (key, item) :: rest => do
    let key ← textOr before key
    let a ← value item
    return (key, a) :: (← keyed value key rest)

def dictionary {α : Type} (name : Text) (value : Item → Except Fault α) (item : Item) :
    Except Fault (List (Text × α)) := do
  keyed value Text.empty (← entriesFor { name } item)

/-- The number that is spelled by a text. -/
def numberOf? (t : Text) : Option Nat := do
  let n ← Decimal.toInt? t
  if 0 ≤ n ∧ Decimal.ofInt n = t then some n.toNat else none

/-- The field that a key means; none if there can be no such field. -/
def fieldNumber? : Item → Except Fault (Option Nat)
  | .unsigned n => .ok (some n)
  | .negative n =>
    if 0x8000000000000000 ≤ n then
      .error (.mismatch ⟨.negative, "int64", .keyRange n, none⟩)
    else .ok none
  | .text pieces => (stringText pieces).map numberOf?
  | item => .error (.mismatch ⟨item.major, "string", .key, none⟩)

/-- Reads fields in turn. Of several values of one field the first one counts. -/
def fieldsFrom {α : Type} (name : Text) (read : α → Nat → Item → Except Fault α) :
    List Nat → α → List (Item × Item) → Except Fault α
  | _, a, [] => .ok a
  | seen, a, (key, value) :: rest => do
    match ← fieldNumber? key with
    | none => fieldsFrom name read seen a rest
    | some n =>
      if seen.contains n then fieldsFrom name read seen a rest
      else
        let a ← (read a n value).mapError (Fault.inField (name ++ "." ++ Decimal.ofNat n))
        fieldsFrom name read (n :: seen) a rest

/-- A record, from the value that one without fields stands for. `read` puts a field into it, and
leaves it as it is if there is no such field. -/
def record {α : Type} (name : Text) (read : α → Nat → Item → Except Fault α) (initial : α)
    (item : Item) : Except Fault α := do
  fieldsFrom name read [] initial (← entriesFor { name, isRecord := true } item)

end Read

def read {α : Type} (value : Item → Except Fault α) (bytes : List UInt8) : Except Fault α := do
  value (← (decode bytes).mapError Fault.malformed)

end Lowering.Cbor
