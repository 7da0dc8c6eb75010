import Lowering.Forest.Basic

namespace Lowering.Walk

inductive Action where
  | descend
  | skip
  | stop
deriving DecidableEq, Repr

variable {ε σ : Type}

/-- Walks from each of some nodes in turn, until one of the walks stops. The result says whether
none did, and which nodes have been visited. -/
def all (walk : List Int → Int → EStateM ε σ (Bool × List Int)) :
    List Int → List Int → EStateM ε σ (Bool × List Int)
  | seen, [] => return (true, seen)
  | seen, id :: ids => do
    let (finished, seen) ← walk seen id
    if finished then all walk seen ids else return (false, seen)

/-- Walks from a node through those not yet seen. Below the given depth the walk fails. -/
def from_ (tooDeep : ε) (children : Int → EStateM ε σ (List Int))
    (visit : Int → EStateM ε σ Action) : Nat → List Int → Int → EStateM ε σ (Bool × List Int)
  | 0, seen, id => if seen.contains id then return (true, seen) else throw tooDeep
  | fuel + 1, seen, id => do
    if seen.contains id then return (true, seen)
    match ← visit id with
    | .stop => return (false, id :: seen)
    | .skip => return (true, id :: seen)
    | .descend => all (from_ tooDeep children visit fuel) (id :: seen) (← children id)

def run (tooDeep : ε) (children : Int → EStateM ε σ (List Int)) (visit : Int → EStateM ε σ Action)
    (depth : Nat) (root : Int) : EStateM ε σ Bool := do
  return (← from_ tooDeep children visit depth [] root).1

/-- A visitor of the nodes with one tag; the others are passed through. -/
def onTag (tagOf : Int → EStateM ε σ Tag) (tag : Tag) (visit : Int → EStateM ε σ Action)
    (id : Int) : EStateM ε σ Action := do
  if (← tagOf id) = tag then visit id else return .descend

end Walk

namespace Forest

/-- The nodes that a walk from a root visits, in order. It does not go below the nodes whose tag is
one to skip. -/
def preorderSkipping (f : Forest) (root : Int) (skips : Tag → Bool) : Except Fault (List Int) :=
  let fetch (id : Int) : EStateM Fault (List Int) Node :=
    match f.get id with
    | .ok n => return n
    | .error e => throw e
  let visit (id : Int) : EStateM Fault (List Int) Walk.Action := do
    let n ← fetch id
    modify (id :: ·)
    return if skips n.tag then .skip else .descend
  match Walk.run .endless (fun id => return (← fetch id).children) visit f.extent root [] with
  | .ok _ visited => .ok visited.reverse
  | .error e _ => .error e

def preorder (f : Forest) (root : Int) : Except Fault (List Int) :=
  f.preorderSkipping root fun _ => false

end Forest

end Lowering
