import Lowering.BigEndian
import Lowering.Forest.Tree

namespace Lowering.Shape

/-- The byte in front of every encoded tree and in every stored forest. -/
def version : UInt8 := 1

/-- A text after its length in four bytes. -/
def sized (t : Text) : List UInt8 := BigEndian.encode 4 t.length ++ t.bytes

end Shape

namespace Tree

open Shape

def kindByte {α : Type} : Tree α → UInt8
  | leaf .nil => 0
  | leaf (.sym _) => 1
  | leaf (.str _) => 2
  | leaf (.int _) => 3
  | leaf (.unknown kind) => kind
  | node _ _ _ => 4

mutual
def payload {α : Type} : Tree α → List UInt8
  | leaf (.sym name) => sized name
  | leaf (.str text) => sized text
  | leaf (.int value) => BigEndian.encode 8 value.toUInt64.toNat
  | leaf .nil => []
  | leaf (.unknown _) => []
  | node _ tag args => tag.byte :: BigEndian.encode 4 args.length ++ payloads args

def payloads {α : Type} : List (Tree α) → List UInt8
  | [] => []
  | t :: ts => t.kindByte :: payload t ++ payloads ts
end

def encode {α : Type} (t : Tree α) : List UInt8 := version :: t.payload

end Tree

namespace Forest

def encode (f : Forest) (id : Int) : Except Fault (List UInt8) := (f.tree id).map Tree.encode

end Forest

end Lowering
