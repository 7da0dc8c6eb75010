import Lowering.Position

namespace Lowering.Token

inductive Kind where
  | opening
  | closing
  /-- A maximal run of bytes that mean nothing else. -/
  | atom (text : Text)
  /-- What stands between two quotes, with its escapes. -/
  | string (body : List UInt8)
  /-- A string literal that the end of the text cuts off. -/
  | unclosed
deriving DecidableEq, Repr

end Token

structure Token where
  pos : Position
  kind : Token.Kind
deriving DecidableEq, Repr

namespace Token

/-- What the machine is in the middle of. The bytes seen so far stand last byte first. -/
inductive Mode where
  | blank
  | comment
  | atom (start : Position) (seen : List UInt8)
  | string (start : Position) (seen : List UInt8) (escaped : Bool)
deriving DecidableEq, Repr

def isBlank (b : UInt8) : Bool :=
  b = 0x20 || b = 0x09 || b = 0x0A || b = 0x0D || b = 0x2C

def endsAtom (b : UInt8) : Bool :=
  b = 0x28 || b = 0x29 || b = 0x22 || b = 0x3B || isBlank b

/-- A byte outside every token. -/
def enter (at_ : Position) (b : UInt8) : List Token × Mode :=
  if b = 0x28 then ([⟨at_, .opening⟩], .blank)
  else if b = 0x29 then ([⟨at_, .closing⟩], .blank)
  else if b = 0x22 then ([], .string at_ [] false)
  else if b = 0x3B then ([], .comment)
  else if isBlank b then ([], .blank)
  else ([], .atom at_ [b])

/-- The tokens that one byte completes, and what the machine is in after it. -/
def step (at_ : Position) (b : UInt8) : Mode → List Token × Mode
  | .blank => enter at_ b
  | .comment => ([], if b = 0x0A then .blank else .comment)
  | .atom start seen =>
    if endsAtom b then
      let (more, mode) := enter at_ b
      (⟨start, .atom ⟨seen.reverse⟩⟩ :: more, mode)
    else ([], .atom start (b :: seen))
  | .string start seen escaped =>
    if escaped then ([], .string start (b :: seen) false)
    else if b = 0x5C then ([], .string start (b :: seen) true)
    else if b = 0x22 then ([⟨start, .string seen.reverse⟩], .blank)
    else ([], .string start (b :: seen) false)

def finish : Mode → List Token
  | .atom start seen => [⟨start, .atom ⟨seen.reverse⟩⟩]
  | .string start _ _ => [⟨start, .unclosed⟩]
  | _ => []

def scanFrom (mode : Mode) (at_ : Position) : List UInt8 → List Token
  | [] => finish mode
  | b :: rest =>
    let (done, next) := step at_ b mode
    done ++ scanFrom next (at_.advance b) rest

def scan (file source : Text) : List Token :=
  scanFrom .blank (Position.start file) source.bytes

end Lowering.Token
