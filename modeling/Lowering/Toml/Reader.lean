import Lowering.Toml.Scalar
import Lowering.Text.Quoted

namespace Lowering.Toml

abbrev Read (α : Type) := List UInt8 → Option (α × List UInt8)

open Text (expect)

namespace Read

def isSpace (b : UInt8) : Bool := b = 0x20 || b = 0x09

def isNewline (b : UInt8) : Bool := b = 0x0A || b = 0x0D

def isLetter (b : UInt8) : Bool := (0x41 ≤ b && b ≤ 0x5A) || (0x61 ≤ b && b ≤ 0x7A)

def skipSpaces (bs : List UInt8) : List UInt8 := bs.dropWhile isSpace

def skipBlank (inComment : Bool) : List UInt8 → List UInt8
  | [] => []
  | b :: rest =>
    if isNewline b then skipBlank false rest
    else if inComment then skipBlank true rest
    else if isSpace b then skipBlank false rest
    else if b = 0x23 then skipBlank true rest
    else b :: rest

/-- After a header or a pair only blanks and a comment may stand on the line. -/
def lineEnd (bs : List UInt8) : Option (List UInt8) :=
  match skipSpaces bs with
  | [] => some []
  | b :: rest =>
    if isNewline b then some rest
    else if b = 0x23 then some (skipBlank true rest)
    else none

/-- The escapes that stand for one character of their own. -/
def simpleEscapes : List (UInt8 × UInt8) :=
  [(0x62, 0x08), (0x74, 0x09), (0x6E, 0x0A), (0x66, 0x0C), (0x72, 0x0D), (0x65, 0x1B),
    (0x22, 0x22), (0x5C, 0x5C)]

/-- What the escape after a backslash stands for, and how many bytes it takes. -/
def escape : List UInt8 → Option (List UInt8 × Nat)
  | [] => none
  | c :: rest =>
    if c = 0x78 then Quoted.codePoint 2 rest
    else if c = 0x75 then Quoted.codePoint 4 rest
    else if c = 0x55 then Quoted.codePoint 8 rest
    else (simpleEscapes.lookup c).map fun b => ([b], 1)

def isBlankByte (b : UInt8) : Bool := isSpace b || isNewline b

/-- How many blanks and line ends a backslash at the end of a line takes away; 0 if only blanks, or
nothing, follow it on its line. -/
def joinedLines (rest : List UInt8) : Nat :=
  let run := rest.takeWhile isBlankByte
  if run.contains 0x0A then run.length else 0

def unescapeFrom (joins : Bool) : Nat → List UInt8 → Option (List UInt8)
  | _, [] => some []
  | skip + 1, _ :: rest => unescapeFrom joins skip rest
  | 0, b :: rest =>
    if b = 0x5C then
      let joined := if joins then joinedLines rest else 0
      if 0 < joined then unescapeFrom joins joined rest
      else match escape rest with
        | some (out, width) => (unescapeFrom joins width rest).map (out ++ ·)
        | none => none
    else (unescapeFrom joins 0 rest).map (b :: ·)

/-- What stands before the closing quote of a string on one line, whose last bytes, read already,
are `seen`. -/
def body (quote : UInt8) (escapes : Bool) (seen : List UInt8) : Read (List UInt8)
  | [] => none
  | b :: rest =>
    if b = quote then some (seen.reverse, rest)
    else if isNewline b then none
    else if escapes && b = 0x5C then
      match rest with
      | [] => none
      | c :: rest => if isNewline c then none else body quote escapes (c :: b :: seen) rest
    else body quote escapes (b :: seen) rest

/-- Two quotes stand right before, so that one more would be the sixth in a row. A backslash before
them speaks for the first one being escaped. -/
def isCrowded (quote : UInt8) (escapes : Bool) : List UInt8 → Bool
  | a :: b :: before =>
    a = quote && b = quote && !(escapes && before.head? = some 0x5C)
  | _ => false

/-- What stands before the three closing quotes of a string over several lines. Up to two more
quotes may stand right before them. -/
def longBody (quote : UInt8) (escapes : Bool) (seen : List UInt8) : Read (List UInt8)
  | [] => none
  | b :: rest =>
    if b = quote then
      match rest with
      | c :: d :: after =>
        if c = quote ∧ d = quote then
          if after.head? = some quote then
            if isCrowded quote escapes seen then none
            else longBody quote escapes (b :: seen) (c :: d :: after)
          else some (seen.reverse, after)
        else longBody quote escapes (b :: seen) (c :: d :: after)
      | _ => none
    else if escapes && b = 0x5C then
      match rest with
      | [] => none
      | c :: rest => longBody quote escapes (c :: b :: seen) rest
    else longBody quote escapes (b :: seen) rest

/-- A line end right after the opening quotes does not belong to the string. -/
def dropNewline : List UInt8 → List UInt8
  | 0x0A :: bs => bs
  | 0x0D :: 0x0A :: bs => bs
  | bs => bs

def shortString (quote : UInt8) (bs : List UInt8) : Option (Text × List UInt8) := do
  let escapes := quote = 0x22
  let (raw, rest) ← body quote escapes [] bs
  let content ← if escapes then unescapeFrom false 0 raw else some raw
  return (⟨content⟩, rest)

def longString (quote : UInt8) (bs : List UInt8) : Option (Text × List UInt8) := do
  let escapes := quote = 0x22
  let (raw, rest) ← longBody quote escapes [] bs
  let raw := dropNewline raw
  let content ← if escapes then unescapeFrom true 0 raw else some raw
  return (⟨content⟩, rest)

def stringAfter (quote : UInt8) (bs : List UInt8) : Option (Text × List UInt8) :=
  match bs with
  | a :: b :: rest =>
    if a = quote ∧ b = quote then longString quote rest else shortString quote bs
  | _ => shortString quote bs

def keyPart (bs : List UInt8) : Option (Text × List UInt8) :=
  match bs with
  | [] => none
  | b :: rest =>
    if b = 0x22 ∨ b = 0x27 then shortString b rest
    else
      let (word, rest) := bs.span Key.isBareByte
      if word.isEmpty then none else some (⟨word⟩, rest)

/-- Parts with dots between them, with blanks around any of them. -/
def keyFuel : Nat → Read Key
  | 0, _ => none
  | fuel + 1, bs => do
    let (part, rest) ← keyPart (skipSpaces bs)
    match skipSpaces rest with
    | 0x2E :: rest =>
      let (parts, rest) ← keyFuel fuel rest
      return (part :: parts, rest)
    | rest => return ([part], rest)

/-- Every part takes a byte. -/
def key (bs : List UInt8) : Option (Key × List UInt8) := keyFuel (bs.length + 1) bs

def isMomentByte (b : UInt8) : Bool :=
  Decimal.isDigit b || [0x2D, 0x3A, 0x54, 0x74, 0x20, 0x2E, 0x5A, 0x7A, 0x2B].contains b

def isNumberByte (b : UInt8) : Bool :=
  Decimal.isDigit b || isLetter b || [0x5F, 0x2E, 0x2B, 0x2D].contains b

/-- Digits with a hyphen or a colon after them begin a point in time. -/
def startsMoment (bs : List UInt8) : Bool :=
  match bs.dropWhile Decimal.isDigit with
  | b :: _ => bs.head?.any Decimal.isDigit && (b = 0x2D || b = 0x3A)
  | [] => false

def trimEnd (bs : List UInt8) : List UInt8 := (bs.reverse.dropWhile isSpace).reverse

def word (bs : List UInt8) : Option Value :=
  if bs = [0x74, 0x72, 0x75, 0x65] then some (.bool true)
  else if bs = [0x66, 0x61, 0x6C, 0x73, 0x65] then some (.bool false)
  else match Integer.toInt64? bs with
    | some i => some (.int i)
    | none => if Float.isFloat bs then some (.float ⟨bs⟩) else none

def plain (bs : List UInt8) : Option (Value × List UInt8) :=
  if startsMoment bs then
    let (run, rest) := bs.span isMomentByte
    let run := trimEnd run
    if Moment.isMoment run then some (.moment ⟨run⟩, rest) else none
  else
    let (run, rest) := bs.span isNumberByte
    (word run).map fun v => (v, rest)

mutual

def valueFuel : Nat → Read Value
  | 0, _ => none
  | fuel + 1, bs =>
    match bs with
    | [] => none
    | b :: rest =>
      if b = 0x5B then (elemsFuel fuel rest).map fun (elems, rest) => (.array elems, rest)
      else if b = 0x7B then (pairsFuel fuel rest).map fun (pairs, rest) => (.inline pairs, rest)
      else if b = 0x22 ∨ b = 0x27 then (stringAfter b rest).map fun (s, rest) => (.str s, rest)
      else plain bs

def elemsFuel : Nat → Read (List Value)
  | 0, _ => none
  | fuel + 1, bs =>
    match skipBlank false bs with
    | 0x5D :: rest => some ([], rest)
    | bs => do
      let (value, rest) ← valueFuel fuel bs
      match skipBlank false rest with
      | 0x5D :: rest => return ([value], rest)
      | 0x2C :: rest =>
        let (values, rest) ← elemsFuel fuel rest
        return (value :: values, rest)
      | _ => none

def pairsFuel : Nat → Read (List (Key × Value))
  | 0, _ => none
  | fuel + 1, bs =>
    match skipBlank false bs with
    | 0x7D :: rest => some ([], rest)
    | bs => do
      let (k, rest) ← key bs
      let (value, rest) ← valueFuel fuel (skipSpaces (← expect 0x3D rest))
      match skipBlank false rest with
      | 0x7D :: rest => return ([(k, value)], rest)
      | 0x2C :: rest =>
        let (pairs, rest) ← pairsFuel fuel rest
        return ((k, value) :: pairs, rest)
      | _ => none

end

/-- Of two steps into a value at least one takes a byte. -/
def value (bs : List UInt8) : Option (Value × List UInt8) := valueFuel (2 * bs.length + 1) bs

def header (bs : List UInt8) : Option (Line × List UInt8) :=
  match bs with
  | 0x5B :: bs => do
    let (k, rest) ← key bs
    let rest ← expect 0x5D rest
    return (.tables k, ← expect 0x5D rest)
  | bs => do
    let (k, rest) ← key bs
    return (.table k, ← expect 0x5D rest)

def pair (bs : List UInt8) : Option (Line × List UInt8) := do
  let (k, rest) ← key bs
  let (v, rest) ← value (skipSpaces (← expect 0x3D rest))
  return (.pair k v, rest)

def line (bs : List UInt8) : Option (Line × List UInt8) :=
  match bs with
  | 0x5B :: bs => header bs
  | bs => pair bs

def linesFuel : Nat → List UInt8 → Option (List Line)
  | 0, _ => none
  | fuel + 1, bs =>
    match skipBlank false bs with
    | [] => some []
    | bs => do
      let (l, rest) ← line bs
      let ls ← linesFuel fuel (← lineEnd rest)
      return l :: ls

/-- A mark of the byte order in front of the text is skipped. -/
def dropMark : List UInt8 → List UInt8
  | 0xFF :: 0xFE :: bs => bs
  | 0xFE :: 0xFF :: bs => bs
  | 0xEF :: 0xBB :: 0xBF :: bs => bs
  | bs => bs

/-- No control character but tabs and line ends, and a carriage return only before a line feed. -/
def isClean : List UInt8 → Bool
  | [] => true
  | b :: rest =>
    (if b = 0x0D then rest.head? = some 0x0A
      else (0x20 ≤ b || b = 0x09 || b = 0x0A) && b ≠ 0x7F) && isClean rest

end Read

def lines? (t : Text) : Option (List Line) :=
  let bs := Read.dropMark t.bytes
  if Utf8.isValid bs && Read.isClean bs then Read.linesFuel (bs.length + 1) bs else none

end Lowering.Toml
