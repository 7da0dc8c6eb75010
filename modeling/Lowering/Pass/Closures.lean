import Lowering.Pass.Environment

namespace Lowering.Pass.Closures

open PassM Environment

/-- The visit that makes a return one by the frame. Lambdas and definitions keep their own. -/
def leaving (id : Int) (n : Node) : PassM Walk.Action := do
  match n.tag with
  | .sexp | .lambda | .defm | .defun => return .skip
  | .ret =>
    update id ({ · with tag := .preturn })
    return .descend
  | _ => return .descend

/-- Turns `return` into `preturn` below a node. -/
def leaveByFrame (body : Int) : PassM Unit := do discard <| walk body leaving

/-- The parameters of the function that a closure becomes: what it is called with, and its own
parameters, which may be missing. -/
def params (pos : Position) (names : List Text) : PassM (List Operand) := do
  let own ← names.mapM fun p => list pos [.sym p, .sym "default", .sym "nil"]
  return [.sym closureName, .sym envName, .sym "self"] ++ own

/-- Makes a function of a closure, puts it on record and gives its number. -/
def hoist (n : Node) (names : List Text) : PassM Int := do
  let params ← params n.pos names
  let label ← newLabel
  let params ← list n.pos params
  let function ← alloc .defun n.pos [.sym label, params, n.arg 1]
  modify fun c => { c with hoisted := c.hoisted ++ [function] }
  return function

/-- Puts the function that a closure becomes, and what makes an object of it, into its place. -/
def lift (id : Int) (n : Node) : PassM Unit := do
  let names ← query (·.paramNames (n.arg 0))
  let function ← hoist n names
  let frame ← slotAt n.pos 0
  let args ← list n.pos
    [.sym tmpProcName, .sym envName, .sym "self", .int (Int64.ofNat names.length)]
  let make ← sexpCall n.pos "__new_proc" [args]
  let here ← node .stackframe n.pos []
  let first ← node .assign n.pos [frame, here]
  let second ← node .assign n.pos [.sym tmpProcName, .ref function]
  reshape id .block [first, second, make]

def convert (id : Int) (n : Node) : PassM Unit := do
  if n.tag = .proc then
    match (n.arg 1).child? with
    | some body => leaveByFrame body
    | none => pure ()
  lift id n

def visit (id : Int) (n : Node) : PassM Walk.Action := do
  match n.tag with
  | .sexp => return .skip
  | .lambda | .proc =>
    check n
    convert id n
    return .descend
  | _ => return .descend

def run (root : Int) : PassM Unit := do discard <| walk root visit

end Lowering.Pass.Closures
