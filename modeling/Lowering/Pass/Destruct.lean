import Lowering.Context

namespace Lowering.Pass.Destruct

open PassM

def temporary : Operand := .sym "__destruct"

def assignElement (pos : Position) (target : Operand) (i : Nat) : PassM Operand := do
  let position ← list pos [.int (Int64.ofNat i)]
  let element ← node .callm pos [temporary, .sym "[]", position]
  node .assign pos [target, element]

/-- Puts the assignments to `targets` in the place of the node `id`. -/
def expand (id : Int) (pos : Position) (targets : List Operand) (value : Operand) :
    PassM Unit := do
  let first ← node .assign pos [temporary, value]
  let rest ← targets.zipIdx.mapM fun (target, i) => assignElement pos target i
  let vars ← list pos [temporary]
  let body ← node .block pos (first :: rest)
  reshape id .letIn [vars, body]

def visit (id : Int) (n : Node) : PassM Walk.Action := do
  match n.tag with
  | .sexp => return .skip
  | .assign =>
    check n
    match (← operandAt n 0).child? with
    | none => return .descend
    | some target =>
      let d ← fetch target
      if d.tag = .destruct then
        check d
        expand id n.pos d.args (← operandAt n 1)
      return .descend
  | _ => return .descend

def run (root : Int) : PassM Unit := do discard <| walk root visit

end Lowering.Pass.Destruct
