import Lowering.Cbor.Item

namespace Lowering.Cbor

/-- Arrays, maps and tags within tags may nest this deep. -/
def maxNesting : Nat := 32

/-- An array may hold this many items, a map this many pairs. -/
def maxCount : Nat := 131072

def lengthLimit : Nat := 0x8000000000000000

inductive Malformed where
  | empty
  | truncated
  /-- The low bits of a first byte have no meaning for its type. -/
  | info (bits : Nat) (major : Major)
  /-- A simple value is written in two bytes without need. -/
  | simpleValue (n : Nat)
  /-- The mark for an end stands where nothing can end. -/
  | strayBreak
  /-- A string of indefinite length has a piece of another type. -/
  | piece (found major : Major)
  /-- A piece of a string has an indefinite length itself. -/
  | openPiece (major : Major)
  | length (major : Major) (n : Nat)
  | nesting
  | items
  | pairs
  /-- So many bytes are left over from an index on. -/
  | leftOver (count index : Nat)
deriving DecidableEq, Repr

namespace Malformed

def lengthText (major : Major) : Text :=
  match major with
  | .array | .map => " is too large, it would cause integer overflow"
  | _ => " is too large, causing integer overflow"

def message : Malformed → Text
  | empty => "EOF"
  | truncated => "unexpected EOF"
  | .info bits major =>
    "cbor: invalid additional information " ++ Decimal.ofNat bits ++ " for type " ++ major.name
  | simpleValue n =>
    "cbor: invalid simple value " ++ Decimal.ofNat n ++ " for type " ++ Major.simple.name
  | strayBreak => "cbor: unexpected \"break\" code"
  | piece found major =>
    "cbor: wrong element type " ++ found.name ++ " for indefinite-length " ++ major.name
  | openPiece major =>
    "cbor: indefinite-length " ++ major.name ++ " chunk is not definite-length"
  | length major n => "cbor: " ++ major.name ++ " length " ++ Decimal.ofNat n ++ lengthText major
  | nesting => "cbor: exceeded max nested level " ++ Decimal.ofNat maxNesting
  | items =>
    "cbor: exceeded max number of elements " ++ Decimal.ofNat maxCount ++ " for CBOR array"
  | pairs =>
    "cbor: exceeded max number of key-value pairs " ++ Decimal.ofNat maxCount ++ " for CBOR map"
  | leftOver count index =>
    "cbor: " ++ Decimal.ofNat count ++ " bytes of extraneous data starting at index " ++
      Decimal.ofNat index

end Malformed

abbrev Result := Except Malformed

def splitBytes (count : Nat) (bs : List UInt8) : Result (List UInt8 × List UInt8) :=
  let first := bs.take count
  if first.length = count then .ok (first, bs.drop count) else .error .truncated

/-- The start of an item: its type, and a number unless the length is indefinite. -/
structure Head where
  major : Major
  /-- How the number is given: below 24 directly, from 24 to 27 in bytes that follow, 31 for an
  indefinite length. -/
  info : Nat
  value : Nat

def openHead (major : Major) (rest : List UInt8) : Result (Head × List UInt8) :=
  match major with
  | .bytes | .text | .array | .map => .ok (⟨major, 31, 0⟩, rest)
  | .simple => .error .strayBreak
  | _ => .error (.info 31 major)

def decodeHead : List UInt8 → Result (Head × List UInt8)
  | [] => .error .truncated
  | b :: rest =>
    let major := Major.ofByte b
    let info := b.toNat % 32
    if info < 24 then .ok (⟨major, info, info⟩, rest)
    else if info ≤ 27 then do
      let (number, rest) ← splitBytes (Nat.pow 2 (info - 24)) rest
      let value := BigEndian.decode number
      if major = .simple ∧ info = 24 ∧ value < 32 then .error (.simpleValue value)
      else .ok (⟨major, info, value⟩, rest)
    else if info = 31 then openHead major rest
    else .error (.info info major)

def decodePiece (h : Head) (rest : List UInt8) : Result (List UInt8 × List UInt8) :=
  if lengthLimit ≤ h.value then .error (.length h.major h.value) else splitBytes h.value rest

/-- The pieces of a string of indefinite length, up to its end. Each is a string of the same type
and of definite length. -/
def decodePieces (major : Major) : Nat → List UInt8 → Result (List (List UInt8) × List UInt8)
  | 0, _ => .error .truncated
  | fuel + 1, bs =>
    match bs with
    | [] => .error .truncated
    | b :: rest =>
      if b = breakByte then .ok ([], rest)
      else if Major.ofByte b ≠ major then .error (.piece (Major.ofByte b) major)
      else if b.toNat % 32 = 31 then .error (.openPiece major)
      else do
        let (h, rest) ← decodeHead (b :: rest)
        let (piece, rest) ← decodePiece h rest
        let (pieces, rest) ← decodePieces major fuel rest
        return (piece :: pieces, rest)

def decodeString (h : Head) (rest : List UInt8) : Result (List (List UInt8) × List UInt8) := do
  if h.info = 31 then decodePieces h.major (rest.length + 1) rest
  else
    let (piece, rest) ← decodePiece h rest
    return ([piece], rest)

def decodeCount (item : List UInt8 → Result (Item × List UInt8)) :
    Nat → List UInt8 → Result (List Item × List UInt8)
  | 0, bs => .ok ([], bs)
  | count + 1, bs => do
    let (first, rest) ← item bs
    let (items, rest) ← decodeCount item count rest
    return (first :: items, rest)

/-- Items up to the end of a container of indefinite length, of which there may be `room`. -/
def decodeUntilBreak (item : List UInt8 → Result (Item × List UInt8)) (full : Malformed) :
    Nat → Nat → List UInt8 → Result (List Item × List UInt8)
  | 0, _, _ => .error .truncated
  | fuel + 1, room, bs =>
    match bs with
    | [] => .error .truncated
    | b :: rest =>
      if b = breakByte then .ok ([], rest)
      else do
        let (first, rest) ← item (b :: rest)
        if room = 0 then .error full
        else
          let (items, rest) ← decodeUntilBreak item full fuel (room - 1) rest
          return (first :: items, rest)

def decodeArray (item : List UInt8 → Result (Item × List UInt8)) (h : Head) (rest : List UInt8) :
    Result (List Item × List UInt8) :=
  if h.info = 31 then decodeUntilBreak item .items (rest.length + 1) maxCount rest
  else if lengthLimit ≤ h.value then .error (.length .array h.value)
  else if maxCount < h.value then .error .items
  else decodeCount item h.value rest

/-- The keys and values of a map after its head. One key more than there may be is not yet a
pair too many. -/
def decodeMap (item : List UInt8 → Result (Item × List UInt8)) (h : Head) (rest : List UInt8) :
    Result (List Item × List UInt8) := do
  if h.info = 31 then
    let (items, rest) ← decodeUntilBreak item .pairs (rest.length + 1) (2 * maxCount + 1) rest
    if items.length % 2 = 1 then .error .strayBreak else .ok (items, rest)
  else if lengthLimit ≤ h.value then .error (.length .map h.value)
  else if maxCount < h.value then .error .pairs
  else decodeCount item (2 * h.value) rest

/-- One item that starts `depth` levels deep. Every item takes at least one byte, so the number of
bytes is fuel enough. -/
def decodeItem : Nat → Nat → List UInt8 → Result (Item × List UInt8)
  | 0, _, _ => .error .truncated
  | fuel + 1, depth, bs => do
    let (h, rest) ← decodeHead bs
    match h.major with
    | .unsigned => return (.unsigned h.value, rest)
    | .negative => return (.negative h.value, rest)
    | .bytes =>
      let (pieces, rest) ← decodeString h rest
      return (.bytes pieces, rest)
    | .text =>
      let (pieces, rest) ← decodeString h rest
      return (.text pieces, rest)
    | .array =>
      if maxNesting ≤ depth then .error .nesting
      else
        let (items, rest) ← decodeArray (decodeItem fuel (depth + 1)) h rest
        return (.array items, rest)
    | .map =>
      if maxNesting ≤ depth then .error .nesting
      else
        let (items, rest) ← decodeMap (decodeItem fuel (depth + 1)) h rest
        return (.map items, rest)
    | .tag =>
      let nested := (rest.head?.map Major.ofByte) = some .tag
      if nested then
        discard (decodeHead rest)
        if maxNesting ≤ depth then .error .nesting
      let (item, rest) ← decodeItem fuel (if nested then depth + 1 else depth) rest
      return (.tagged h.value item, rest)
    | .simple => return (if h.info ≤ 24 then .simple h.value else .float, rest)

def decode (bs : List UInt8) : Except Malformed Item := do
  if bs.isEmpty then .error .empty
  else
    let (item, rest) ← decodeItem bs.length 0 bs
    if rest.isEmpty then return item
    else .error (.leftOver rest.length (bs.length - rest.length))

end Lowering.Cbor
