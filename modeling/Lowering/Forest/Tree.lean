import Lowering.Forest.Basic

namespace Lowering

inductive Tree (α : Type) where
  | leaf (a : Atom)
  | node (mark : α) (tag : Tag) (args : List (Tree α))

structure Mark where
  id : Int
  pos : Position
deriving DecidableEq, Repr

namespace Tree

mutual
def shape {α : Type} : Tree α → Tree Unit
  | leaf a => leaf a
  | node _ tag args => node () tag (shapes args)

def shapes {α : Type} : List (Tree α) → List (Tree Unit)
  | [] => []
  | t :: ts => shape t :: shapes ts
end

/-- The trees of a sequence: those below a list, none for nil, else the tree alone. -/
def elems {α : Type} : Tree α → List (Tree α)
  | leaf .nil => []
  | node _ .list args => args
  | t => [t]

def symbol? {α : Type} : Tree α → Option Text
  | leaf (.sym name) => some name
  | _ => none

def paramName? {α : Type} : Tree α → Option Text
  | leaf (.sym name) => some name
  | node _ _ (first :: _) => first.symbol?
  | _ => none

def paramNames {α : Type} (params : Tree α) : List Text := params.elems.filterMap paramName?

end Tree

namespace Forest

def treeFrom (f : Forest) : Nat → Int → Except Fault (Tree Mark)
  | 0, _ => .error .endless
  | fuel + 1, id => do
    let n ← f.get id
    let args ← n.args.mapM fun v =>
      match v.view with
      | .atom a => .ok (.leaf a)
      | .child c => treeFrom f fuel c
    return .node ⟨id, n.pos⟩ n.tag args

/-- The tree of a node. Without cycles no path is longer than the number of nodes. -/
def tree (f : Forest) (id : Int) : Except Fault (Tree Mark) := f.treeFrom (f.size + 1) id

def operandTree (f : Forest) (v : Operand) : Except Fault (Tree Mark) :=
  match v.view with
  | .atom a => .ok (.leaf a)
  | .child id => f.tree id

end Forest

end Lowering
