import Lowering.Context

namespace Lowering.Pass.Validate

open PassM

/-- The forms that no pass may leave behind. -/
def isSurface : Tag → Bool
  | .destruct | .concat | .range | .yield | .lambda | .proc | .op _ => true
  | _ => false

def operandComplaint (tag : Tag) (v : Operand) (i : Nat) : Option Complaint :=
  match v.view with
  | .atom (.str text) => some (.stringOutside text)
  | .atom (.int value) => if tag = .index ∧ i = 1 then none else some (.intOutside value)
  | _ => none

/-- The first thing that is wrong with a node whose operands fit its tag. -/
def complaint? (n : Node) : Option Complaint :=
  if isSurface n.tag then some .leftOver
  else if n.tag = .call ∧ (n.arg 0).is "yield" then some .yieldCall
  else n.args.zipIdx.findSome? fun (v, i) => operandComplaint n.tag v i

def visit (n : Node) : PassM Walk.Action := do
  match n.tag with
  | .sexp => return .skip
  | _ =>
    check n
    match complaint? n with
    | some c => reject n c
    | none => return .descend

def run (root : Int) : PassM Unit := do discard <| walk root fun _ n => visit n

end Lowering.Pass.Validate
