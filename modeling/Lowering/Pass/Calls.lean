import Lowering.Context

namespace Lowering.Pass

open PassM

namespace Concat

def textOf (pos : Position) (part : Operand) : PassM Operand := node .callm pos [part, .sym "to_s"]

/-- Appends the last part to the earlier ones, which stand last one first. -/
def chain (pos : Position) : Operand → List Operand → PassM Operand
  | last, [] => textOf pos last
  | last, before :: earlier => do
    let right ← textOf pos last
    let left ← chain pos before earlier
    let args ← list pos [right]
    node .callm pos [left, .sym "concat", args]

/-- `(concat a b)` becomes `(callm (callm a to_s) concat ((callm b to_s)))`, from left to right. -/
def visit (id : Int) (n : Node) : PassM Walk.Action := do
  match n.tag with
  | .sexp => return .skip
  | .concat =>
    check n
    match n.args.reverse with
    | [] => throw (.fault (.missingOperand 0 0))
    | last :: earlier =>
      let top ← chain n.pos last earlier
      replace id top.target
      return .descend
  | _ => return .descend

def run (root : Int) : PassM Unit := do discard <| walk root visit

end Concat

namespace Range

/-- `(range a b)` becomes `(callm Range new (a b))`. -/
def visit (id : Int) (n : Node) : PassM Walk.Action := do
  match n.tag with
  | .sexp => return .skip
  | .range =>
    check n
    let bounds ← moveArgs id n
    reshape id .callm [.sym "Range", .sym "new", bounds]
    return .descend
  | _ => return .descend

def run (root : Int) : PassM Unit := do discard <| walk root visit

end Range

namespace Operators

/-- The left operand receives the call and the right one, if any, is its only argument. -/
def visit (id : Int) (n : Node) : PassM Walk.Action := do
  match n.tag with
  | .sexp => return .skip
  | .op operator =>
    check n
    let method := Operand.sym operator.spelling
    match n.args with
    | [left, right] =>
      let args ← list n.pos [right]
      reshape id .callm [left, method, args]
    | _ => reshape id .callm [← operandAt n 0, method]
    return .descend
  | _ => return .descend

def run (root : Int) : PassM Unit := do discard <| walk root visit

end Operators

namespace Yield

/-- `(yield a b)` and `(call yield (a b))` become `(callm __closure__ call (a b))`. -/
def visit (id : Int) (n : Node) : PassM Walk.Action := do
  match n.tag with
  | .sexp => return .skip
  | .yield =>
    let args ← if n.args.isEmpty then pure [] else do pure [← moveArgs id n]
    reshape id .callm ([.sym "__closure__", .sym "call"] ++ args)
    return .descend
  | .call =>
    check n
    if (← operandAt n 0).is "yield" then
      reshape id .callm ([.sym "__closure__", .sym "call"] ++ n.args.drop 1)
    return .descend
  | _ => return .descend

def run (root : Int) : PassM Unit := do discard <| walk root visit

end Yield

end Lowering.Pass
