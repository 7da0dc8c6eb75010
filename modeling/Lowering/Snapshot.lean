import Lowering.Cbor.Field
import Lowering.Shape.Encoding

namespace Lowering.Snapshot

open Cbor

inductive Error where
  /-- They are no CBOR record of the right type. -/
  | malformed (fault : Cbor.Fault)
  | version (got : UInt8)
  | missingNode (id : Int)
  | rootOutOfRange (id : Int)
deriving DecidableEq, Repr

namespace Error

def message : Error → Text
  | malformed fault => "ast: unmarshal snapshot: " ++ fault.message
  | version got => "ast: snapshot version " ++ Decimal.ofNat got.toNat ++ ", want " ++
      Decimal.ofNat Shape.version.toNat
  | missingNode id => "ast: snapshot references missing node " ++ Decimal.ofInt id
  | rootOutOfRange id => "ast: snapshot root " ++ Decimal.ofInt id ++ " out of range"

end Error

/-- A field that is left out if the value is what a missing one stands for. -/
def optional (isDefault : Bool) (key : Nat) (value : Item) : List (Nat × Item) :=
  if isDefault then [] else [(key, value)]

def operandItem (v : Operand) : Item :=
  .record <| [(1, .unsigned v.kind.toNat)] ++ optional v.text.isEmpty 2 (.ofText v.text) ++
    optional (v.number = 0) 3 (.ofInt v.number.toInt) ++ optional (v.target = 0) 4 (.ofInt v.target)

def namesItem : Option (List Text) → Item
  | none => .null
  | some names => .array (names.map .ofText)

def noteItems : List (Text × Note) → List Item
  | [] => []
  | (key, .names list) :: rest => .ofText key :: namesItem list :: noteItems rest
  | (_, .other) :: rest => noteItems rest

def nodeItem (n : Node) : Item :=
  let notes := noteItems n.notes.entries
  .record <| [(1, .unsigned n.tag.byte.toNat)] ++
    optional n.args.isEmpty 2 (.array (n.args.map operandItem)) ++
    optional n.pos.file.isEmpty 3 (.ofText n.pos.file) ++
    optional (n.pos.line = 0) 4 (.ofInt n.pos.line) ++
    optional (n.pos.column = 0) 5 (.ofInt n.pos.column) ++
    optional notes.isEmpty 6 (.map notes)

def item (f : Forest) (root : Int) : Item :=
  .record [(1, .unsigned Shape.version.toNat), (2, .ofInt root),
    (3, .array (f.nodes.toList.map nodeItem))]

def encode (f : Forest) (root : Int) : List UInt8 := (item f root).encode

def operandField (v : Operand) (n : Nat) (item : Item) : Except Cbor.Fault Operand := do
  match n with
  | 1 => return { v with kind := ← Read.byte "ast.Kind" item }
  | 2 => return { v with text := ← Read.text item }
  | 3 => return { v with number := Int64.ofInt (← Read.int64 "int64" item) }
  | 4 => return { v with target := ← Read.int32 "ast.NodeID" item }
  | _ => return v

def operand : Item → Except Cbor.Fault Operand :=
  Read.record "ast.snapshotValue" operandField Operand.nil

/-- Of several annotations under one key the last one counts. -/
def notesOf (entries : List (Text × Option (List Text))) : Notes :=
  entries.foldl (fun notes (key, names) => notes.insert key (.names names)) {}

def notes (item : Item) : Except Cbor.Fault Notes :=
  (Read.dictionary "map[string][]string" Read.texts item).map notesOf

def nodeField (n : Node) (number : Nat) (item : Item) : Except Cbor.Fault Node := do
  match number with
  | 1 => return { n with tag := Tag.ofByte (← Read.byte "ast.Tag" item) }
  | 2 => return { n with args := (← Read.list "[]ast.snapshotValue" operand item).getD [] }
  | 3 => return { n with pos := { n.pos with file := ← Read.text item } }
  | 4 => return { n with pos := { n.pos with line := ← Read.int64 "int" item } }
  | 5 => return { n with pos := { n.pos with column := ← Read.int64 "int" item } }
  | 6 => return { n with notes := ← notes item }
  | _ => return n

def emptyNode : Node := { tag := Tag.ofByte 0, args := [], pos := Position.unknown }

def node : Item → Except Cbor.Fault Node := Read.record "ast.snapshotNode" nodeField emptyNode

structure Content where
  version : UInt8 := 0
  root : Int := 0
  nodes : List Node := []

def contentField (c : Content) (n : Nat) (item : Item) : Except Cbor.Fault Content := do
  match n with
  | 1 => return { c with version := ← Read.byte "uint8" item }
  | 2 => return { c with root := ← Read.int32 "ast.NodeID" item }
  | 3 => return { c with nodes := (← Read.list "[]ast.snapshotNode" node item).getD [] }
  | _ => return c

def content : Item → Except Cbor.Fault Content := Read.record "ast.snapshot" contentField {}

/-- The first number in the order of nodes and operands that refers to no node. -/
def firstMissing (f : Forest) : Option Int :=
  (f.nodes.toList.flatMap Node.children).find? fun id => !f.isValid id

/-- Reads a snapshot: the version is checked first, then the operands, then the root. -/
def decode (bytes : List UInt8) : Except Error (Forest × Int) :=
  match Cbor.read content bytes with
  | .error fault => .error (.malformed fault)
  | .ok content =>
    if content.version ≠ Shape.version then .error (.version content.version)
    else
      let f : Forest := ⟨content.nodes.toArray⟩
      match firstMissing f with
      | some id => .error (.missingNode id)
      | none =>
        if f.isValid content.root then .ok (f, content.root)
        else .error (.rootOutOfRange content.root)

end Lowering.Snapshot
