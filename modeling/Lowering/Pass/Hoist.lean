import Lowering.Context

namespace Lowering.Pass.Hoist

open PassM

inductive Family where
  | strings
  | ints
deriving DecidableEq, Repr

namespace Family

def constant? (family : Family) (v : Operand) : Option Constant :=
  match family, v.view with
  | strings, .atom (.str text) => some (.str text)
  | ints, .atom (.int value) => some (.int value)
  | _, _ => none

def fetcher : Family → Text
  | strings => "__get_string"
  | ints => "__get_fixnum"

end Family

/-- Replaces a constant. An argument of a call may be written bare, without the list around it;
the call that fetches it needs that list. -/
def operand (family : Family) (n : Node) (v : Operand) (i : Nat) : PassM Operand := do
  match family.constant? v with
  | none => return v
  | some value =>
    let label ← intern value
    let fetched ← sexpCall n.pos family.fetcher [.sym label]
    if (n.tag = .call ∨ n.tag = .callm) ∧ 0 < i then list n.pos [fetched] else return fetched

def visit (family : Family) (id : Int) (n : Node) : PassM Walk.Action := do
  match n.tag with
  | .sexp => return .skip
  | _ =>
    let args ← n.args.zipIdx.mapM fun (v, i) => operand family n v i
    setArgs id args
    return .descend

def run (family : Family) (root : Int) : PassM Unit := do discard <| walk root (visit family)

end Lowering.Pass.Hoist
