import Lowering.Forest.Basic
import Lowering.Notation.Token
import Lowering.Text.Quoted

namespace Lowering

inductive ReadError.Cause where
  | unexpectedClosing
  | unterminatedList
  | unterminatedString
  | badString
deriving DecidableEq, Repr

structure ReadError where
  pos : Position
  cause : ReadError.Cause
deriving DecidableEq, Repr

namespace ReadError

def Cause.message : Cause → Text
  | unexpectedClosing => "unexpected ')'"
  | unterminatedList => "unterminated list"
  | unterminatedString => "unterminated string"
  | badString => "bad string literal: invalid syntax"

def message (e : ReadError) : Text := e.pos.text ++ ": " ++ e.cause.message

end ReadError

namespace Reader

/-- A list whose closing parenthesis is still to come, with its operands so far, last one first. -/
structure OpenList where
  pos : Position
  elems : List Operand

/-- The open lists, innermost first, and the complete forms, last one first. -/
structure Progress where
  opened : List OpenList := []
  forms : List Operand := []

abbrev ReadM := EStateM ReadError Forest

def Progress.add (p : Progress) (v : Operand) : Progress :=
  match p.opened with
  | [] => { p with forms := v :: p.forms }
  | inner :: outer => { p with opened := { inner with elems := v :: inner.elems } :: outer }

/-- An underscore is nil, a numeral of 64 bits is an integer, and any other atom is a symbol. -/
def atom (text : Text) : Operand :=
  if text = "_" then .nil
  else match Decimal.toInt64? text with
    | some i => .int i
    | none => .sym text

/-- The node of a list: a first symbol that spells a tag is the tag of the node. -/
def listNode (pos : Position) (elems : List Operand) : Node :=
  match elems with
  | [] => { tag := .list, args := [], pos }
  | first :: rest =>
    match first.symbol?.bind Tag.ofSpelling? with
    | some tag => { tag, args := rest, pos }
    | none => { tag := .list, args := elems, pos }

def alloc (n : Node) : ReadM Int := do
  modify (·.push n)
  return (← get).size

def step (p : Progress) (t : Token) : ReadM Progress :=
  match t.kind with
  | .opening => return { p with opened := ⟨t.pos, []⟩ :: p.opened }
  | .closing =>
    match p.opened with
    | [] => throw ⟨t.pos, .unexpectedClosing⟩
    | inner :: outer => do
      let id ← alloc (listNode inner.pos inner.elems.reverse)
      return { p with opened := outer }.add (.ref id)
  | .atom text => return p.add (atom text)
  | .string body =>
    match Quoted.decodeBody body with
    | some text => return p.add (.str text)
    | none => throw ⟨t.pos, .badString⟩
  | .unclosed => throw ⟨t.pos, .unterminatedString⟩

def forms (tokens : List Token) : ReadM (List Operand) := do
  let p ← tokens.foldlM step {}
  match p.opened with
  | [] => return p.forms.reverse
  | inner :: _ => throw ⟨inner.pos, .unterminatedList⟩

/-- The number of the node that the forms of a source stand for: a single node is itself, anything
else is put under a node at the start of the file. -/
def read (file source : Text) : ReadM Int := do
  let forms ← forms (Token.scan file source)
  match forms with
  | [v] =>
    match v.child? with
    | some id => return id
    | none => alloc { tag := .block, args := forms, pos := Position.start file }
  | _ => alloc { tag := .block, args := forms, pos := Position.start file }

end Reader

namespace Forest

def parse (file source : Text) : Except ReadError (Forest × Int) :=
  match Reader.read file source {} with
  | .ok root forest => .ok (forest, root)
  | .error e _ => .error e

end Forest

end Lowering
