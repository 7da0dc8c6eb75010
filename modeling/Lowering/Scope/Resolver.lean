import Lowering.Names
import Lowering.Scope.Event

namespace Lowering.Scope

/-- Names that are never variables: `nil`, `self`, `true`, `false`, instance variables, and all
names whose first byte comes before `a`, such as those of classes. -/
def isSpecial (name : Text) : Bool :=
  name = "nil" || name = "self" || name = "true" || name = "false" ||
    match name.bytes with
    | [] => true
    | b :: _ => b < 0x61

/-- One level of scope: the function, or a closure in it. -/
structure Frame where
  /-- The node of the closure; none for the function. -/
  closure : Option Int
  params : List Text
  vars : List Text := []
  /-- The parameters that a closure further in captures. -/
  exports : List Text := []
deriving DecidableEq, Repr

structure Closed where
  id : Int
  vars : List Text
  exports : List Text
deriving DecidableEq, Repr

structure Resolver where
  frames : List Frame
  /-- The keys of the captured variables, in the order of their first capture. -/
  captures : List Text := []
  /-- The parameters of the function among the captured variables. -/
  capturedParams : List Text := []
  uses : List Text := []
  closures : List Int := []
  closed : List Closed := []
deriving DecidableEq, Repr

/-- The environment key of a parameter of a closure. It holds a `#`. -/
def exportKey (name : Text) (id : Int) : Text := name ++ "#" ++ Decimal.ofInt id

namespace Resolver

def start (params : List Text) : Resolver := { frames := [{ closure := none, params }] }

/-- How a frame has a name: as a parameter or as a variable. -/
inductive Role where
  | param
  | var
deriving DecidableEq, Repr

def role? (f : Frame) (name : Text) : Option Role :=
  if f.params.contains name then some .param
  else if f.vars.contains name then some .var
  else none

/-- The innermost frame that has a name, by its place from the inside. -/
def lookupIn (name : Text) : List Frame → Option (Nat × Role)
  | [] => none
  | f :: outer =>
    match role? f name with
    | some role => some (0, role)
    | none => (lookupIn name outer).map fun (i, role) => (i + 1, role)

def lookup (r : Resolver) (name : Text) : Option (Nat × Role) := lookupIn name r.frames

def addCapture (r : Resolver) (key : Text) : Resolver :=
  { r with captures := Names.add r.captures key }

/-- Captures a name from the frame at place `i`. A variable leaves the frame; a parameter of a
closure is known in the environment by a key of its own. -/
def capture (r : Resolver) (name : Text) (i : Nat) (role : Role) : Resolver :=
  match role, (r.frames[i]?).bind (·.closure) with
  | .var, _ =>
    { r with frames := r.frames.modify i fun f => { f with vars := f.vars.erase name } }.addCapture
      name
  | .param, some id =>
    { r with frames := r.frames.modify i fun f =>
        { f with exports := Names.add f.exports name } }.addCapture (exportKey name id)
  | .param, none =>
    { r with capturedParams := Names.add r.capturedParams name }.addCapture name

/-- A use of a name. It is captured if a closure lies between its frame and the innermost one. -/
def use (r : Resolver) (name : Text) : Resolver :=
  if isSpecial name then r
  else
    let r := { r with uses := r.uses ++ [name] }
    match r.lookup name with
    | some (i + 1, role) => r.capture name (i + 1) role
    | _ => r

/-- A completed assignment makes a variable of a name that is not known yet. -/
def define (r : Resolver) (name : Text) : Resolver :=
  if isSpecial name ∨ r.captures.contains name ∨ (r.lookup name).isSome then r
  else { r with frames := r.frames.modify 0 fun f => { f with vars := f.vars ++ [name] } }

def enter (r : Resolver) (id : Int) (params : List Text) : Resolver :=
  { r with closures := r.closures ++ [id], frames := { closure := some id, params } :: r.frames }

def leave (r : Resolver) : Resolver :=
  match r.frames with
  | { closure := some id, vars, exports, .. } :: outer =>
    { r with frames := outer, closed := r.closed ++ [⟨id, vars, exports⟩] }
  | _ => r

def step (r : Resolver) : Event → Resolver
  | .use name => r.use name
  | .define name => r.define name
  | .enter id params => r.enter id params
  | .leave => r.leave
  | .reject _ => r

/-- Takes events up to the first malformed node. -/
def run (r : Resolver) : List Event → Resolver × Option Diagnostic
  | [] => (r, none)
  | .reject d :: _ => (r, some d)
  | e :: rest => run (r.step e) rest

def locals (r : Resolver) : List Text := (r.frames.getLast?.map (·.vars)).getD []

/-- The names used, the most frequent first, and in the order of first use among equals. -/
def byFrequency (r : Resolver) : List Text :=
  let counted := r.uses.eraseDups.map fun name => (name, r.uses.count name)
  (counted.mergeSort fun a b => b.2 ≤ a.2).map (·.1)

def exportsOf (r : Resolver) (id : Int) : List Text :=
  match r.closed.reverse.find? fun c => c.id = id ∧ c.exports ≠ [] with
  | some c => c.exports
  | none => []

end Resolver

end Lowering.Scope
