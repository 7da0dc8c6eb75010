import Lowering.Diagnostic

namespace Lowering.Scope

inductive Event where
  /-- A name stands where a variable may stand, also as the target of an assignment. -/
  | use (name : Text)
  /-- An assignment to a name is complete. -/
  | define (name : Text)
  | enter (id : Int) (params : List Text)
  | leave
  /-- A node is malformed, and nothing after it is looked at. -/
  | reject (d : Diagnostic)
deriving DecidableEq, Repr

/-- An assignment to a symbol defines it once its operands have been read. -/
def definition (args : List (Tree Mark)) : List Event :=
  match args.head?.bind Tree.symbol? with
  | some name => [.define name]
  | none => []

/-- The events of a well-formed node, given those of its operands. -/
def nodeEvents (mark : Mark) (tag : Tag) (args : List (Tree Mark)) (parts : List (List Event)) :
    List Event :=
  match tag with
  | .assign => parts.flatten ++ definition args
  | .callm => (parts.eraseIdx 1).flatten
  | .letIn => (parts.drop 1).flatten
  | .lambda | .proc =>
    let params := (args.head?.map Tree.paramNames).getD []
    .enter mark.id params :: (parts.drop 1).flatten ++ [.leave]
  | _ => parts.flatten

mutual
/-- The events of a tree. The statements of a closure may stand in a list or alone; both give the
same events. -/
def events : Tree Mark → List Event
  | .leaf (.sym name) => [.use name]
  | .leaf _ => []
  | .node mark tag args =>
    match tag with
    | .sexp | .defm | .defun => []
    | _ =>
      match Tree.malformed? tag args with
      | some c => [.reject ⟨mark.pos, tag, c⟩]
      | none => nodeEvents mark tag args (eventsEach args)

def eventsEach : List (Tree Mark) → List (List Event)
  | [] => []
  | t :: ts => events t :: eventsEach ts
end

end Lowering.Scope
