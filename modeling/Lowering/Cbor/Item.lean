import Lowering.BigEndian
import Lowering.Text.Decimal

namespace Lowering.Cbor

/-- The eight types that the first byte of an item tells apart. -/
inductive Major where
  | unsigned
  | negative
  | bytes
  | text
  | array
  | map
  | tag
  | simple
deriving DecidableEq, Repr

namespace Major

def code : Major → Nat
  | unsigned => 0
  | negative => 1
  | bytes => 2
  | text => 3
  | array => 4
  | map => 5
  | tag => 6
  | simple => 7

def ofByte (b : UInt8) : Major :=
  match b.toNat / 32 with
  | 0 => unsigned
  | 1 => negative
  | 2 => bytes
  | 3 => text
  | 4 => array
  | 5 => map
  | 6 => tag
  | _ => simple

def name : Major → Text
  | unsigned => "positive integer"
  | negative => "negative integer"
  | bytes => "byte string"
  | text => "UTF-8 text string"
  | array => "array"
  | map => "map"
  | tag => "tag"
  | simple => "primitives"

end Major

/-- A data item. Strings keep the pieces they were sent in, and a map lists its keys and values in
turn. -/
inductive Item where
  | unsigned (n : Nat)
  /-- The number `-1 - n`. -/
  | negative (n : Nat)
  | bytes (pieces : List (List UInt8))
  | text (pieces : List (List UInt8))
  | array (items : List Item)
  | map (keysAndValues : List Item)
  | tagged (tag : Nat) (item : Item)
  /-- A simple value, such as 20 for false, 21 for true, 22 for null and 23 for undefined. -/
  | simple (n : Nat)
  /-- A floating-point number; its value is of no use here. -/
  | float

namespace Item

def major : Item → Major
  | .unsigned _ => .unsigned
  | .negative _ => .negative
  | .bytes _ => .bytes
  | .text _ => .text
  | .array _ => .array
  | .map _ => .map
  | .tagged _ _ => .tag
  | .simple _ => .simple
  | .float => .simple

def null : Item := .simple 22

def ofInt : Int → Item
  | .ofNat n => .unsigned n
  | .negSucc n => .negative n

def ofText (t : Text) : Item := .text [t.bytes]

def record (fields : List (Nat × Item)) : Item :=
  .map (fields.flatMap fun (key, value) => [.unsigned key, value])

end Item

/-- The start of an item: its type with a number, in the fewest bytes. -/
def head (major : Major) (n : Nat) : List UInt8 :=
  let type := 32 * major.code
  if n < 24 then [(type + n).toUInt8]
  else if n < 0x100 then (type + 24).toUInt8 :: BigEndian.encode 1 n
  else if n < 0x10000 then (type + 25).toUInt8 :: BigEndian.encode 2 n
  else if n < 0x100000000 then (type + 26).toUInt8 :: BigEndian.encode 4 n
  else (type + 27).toUInt8 :: BigEndian.encode 8 n

/-- The byte that ends an item of indefinite length. -/
def breakByte : UInt8 := 0xFF

/-- A string of one piece has a definite length. -/
def encodeString (major : Major) (pieces : List (List UInt8)) : List UInt8 :=
  match pieces with
  | [piece] => head major piece.length ++ piece
  | _ => (32 * major.code + 31).toUInt8 ::
      pieces.flatMap (fun piece => head major piece.length ++ piece) ++ [breakByte]

mutual
def Item.encode : Item → List UInt8
  | .unsigned n => head .unsigned n
  | .negative n => head .negative n
  | .bytes pieces => encodeString .bytes pieces
  | .text pieces => encodeString .text pieces
  | .array items => head .array items.length ++ encodeAll items
  | .map keysAndValues => head .map (keysAndValues.length / 2) ++ encodeAll keysAndValues
  | .tagged tag item => head .tag tag ++ item.encode
  | .simple n => head .simple n
  | .float => [0xF9, 0, 0]

def encodeAll : List Item → List UInt8
  | [] => []
  | item :: items => item.encode ++ encodeAll items
end

end Lowering.Cbor
