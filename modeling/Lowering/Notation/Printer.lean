import Lowering.Forest.Tree
import Lowering.Text.Quoted

namespace Lowering

namespace Atom

/-- An atom of an unknown kind leaves no trace but the blank before it. -/
def format : Atom → Text
  | nil => "_"
  | sym name => name
  | str text => Quoted.encode text
  | int value => Decimal.ofInt64 value
  | unknown _ => Text.empty

end Atom

namespace Tree

def heading {α : Type} (tag : Tag) (args : List (Tree α)) : List Text :=
  if tag ≠ .list then [tag.spelling]
  else match (args.head?.bind symbol?).bind Tag.ofSpelling? with
    | some _ => [Tag.spelling .list]
    | none => []

mutual
def format {α : Type} : Tree α → Text
  | leaf a => a.format
  | node _ tag args => "(" ++ Text.join " " (heading tag args ++ formats args) ++ ")"

def formats {α : Type} : List (Tree α) → List Text
  | [] => []
  | t :: ts => format t :: formats ts
end

end Tree

namespace Forest

def format (f : Forest) (id : Int) : Except Fault Text := (f.tree id).map Tree.format

def formatOperand (f : Forest) (v : Operand) : Except Fault Text :=
  (f.operandTree v).map Tree.format

end Forest

end Lowering
