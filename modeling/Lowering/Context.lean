import Lowering.Classes.Table
import Lowering.Diagnostic
import Lowering.Forest.Walk

namespace Lowering

structure Options where
  wordSize : Int64 := 4
  labelStem : Text := ".L"
  disabled : List Text := []
  /-- The method names that get the first slots. -/
  reserved : List Text := []
deriving DecidableEq, Repr

namespace Options

/-- The options with the usual values for a word size that is not positive and an empty stem. -/
def withDefaults (o : Options) : Options :=
  { o with
    wordSize := if o.wordSize ≤ 0 then 4 else o.wordSize
    labelStem := if o.labelStem.isEmpty then ".L" else o.labelStem }

end Options

inductive Constant where
  | str (text : Text)
  | int (value : Int64)
deriving DecidableEq, Repr

structure Literal where
  label : Text
  value : Constant
deriving DecidableEq, Repr

/-- The constants met so far, in the order of their labels, each once. -/
structure Literals where
  entries : List Literal := []
deriving DecidableEq, Repr

namespace Literals

def labelOf? (l : Literals) (value : Constant) : Option Text :=
  (l.entries.find? fun e => e.value = value).map (·.label)

/-- The constant of a label; the last one, should a label have been given twice. -/
def find? (l : Literals) (label : Text) : Option Literal :=
  l.entries.reverse.find? fun e => e.label = label

def add (l : Literals) (label : Text) (value : Constant) : Literals :=
  ⟨l.entries ++ [⟨label, value⟩]⟩

end Literals

structure Context where
  forest : Forest
  options : Options := {}
  literals : Literals := {}
  classes : Classes.Table := {}
  /-- The functions that closures have become, in the order of their making. -/
  hoisted : List Int := []
  labels : Nat := 0
  /-- Groups of nodes that have one operand list between them: what is put into the list of one is
  in the lists of all. -/
  shared : List (List Int) := []

namespace Context

def ofForest (forest : Forest) (options : Options) : Context where
  forest := forest
  options := options.withDefaults
  classes := Classes.Table.ofReserved options.reserved

/-- The state with another forest, whose nodes have their operands to themselves. -/
def withForest (c : Context) (forest : Forest) : Context := { c with forest, shared := [] }

def sharers (c : Context) (id : Int) : List Int := (c.shared.find? (·.contains id)).getD [id]

/-- Lets the node `new` share the operand list of `id`. -/
def share (c : Context) (id new : Int) : Context :=
  { c with shared := (new :: c.sharers id) :: c.shared.filter fun g => !g.contains id }

def detach (c : Context) (id : Int) : Context :=
  { c with shared := (c.shared.map (·.filter (· ≠ id))).filter fun g => 1 < g.length }

/-- Lets the node `new` take the place of `id` among those that share its operand list. -/
def handOver (c : Context) (id new : Int) : Context :=
  { c with shared := c.shared.map (·.map fun other => if other = id then new else other) }

end Context

inductive PassError where
  | rejected (d : Diagnostic)
  | fault (f : Fault)
  /-- A search goes up superclasses that come back to one of them, and does not end. -/
  | circular
deriving DecidableEq, Repr

namespace PassError

def message : PassError → Text
  | rejected d => d.message
  | fault f => f.message
  | circular => "circular superclasses"

end PassError

abbrev PassM := EStateM PassError Context

namespace PassM

def fetch (id : Int) : PassM Node := do
  match (← get).forest.get? id with
  | some n => return n
  | none => throw (.fault (.invalidNode id))

def operandAt (n : Node) (i : Nat) : PassM Operand :=
  match n.args[i]? with
  | some v => return v
  | none => throw (.fault (.missingOperand i n.args.length))

def query {α : Type} (ask : Forest → Except Fault α) : PassM α := do
  match ask (← get).forest with
  | .ok a => return a
  | .error f => throw (.fault f)

def setForest (f : Forest) : PassM Unit := modify fun c => { c with forest := f }

def alloc (tag : Tag) (pos : Position) (args : List Operand) : PassM Int := do
  modify fun c => { c with forest := c.forest.push { tag, args, pos } }
  return (← get).forest.size

def node (tag : Tag) (pos : Position) (args : List Operand) : PassM Operand := do
  return .ref (← alloc tag pos args)

def list (pos : Position) (args : List Operand) : PassM Operand := node .list pos args

/-- Makes a call that no later pass looks into. -/
def sexpCall (pos : Position) (function : Text) (args : List Operand) : PassM Operand := do
  let call ← node .call pos (.sym function :: args)
  node .sexp pos [call]

def update (id : Int) (change : Node → Node) : PassM Unit := do
  let n ← fetch id
  modify fun c => { c with forest := c.forest.set id (change n) }

/-- Gives a node a tag and operands of its own. -/
def reshape (id : Int) (tag : Tag) (args : List Operand) : PassM Unit := do
  update id (·.reshape tag args)
  modify (·.detach id)

/-- Puts operands into the list of a node, and so of those that share it. -/
def setArgs (id : Int) (args : List Operand) : PassM Unit := do
  ((← get).sharers id).forM fun other => update other ({ · with args })

def renewArgs (id : Int) (args : List Operand) : PassM Unit := do
  update id ({ · with args })
  modify (·.detach id)

/-- Puts a copy of the node `src` in the place of `id`. -/
def replace (id src : Int) : PassM Unit := do
  setForest (← query (·.replace id src))
  modify (·.detach id)

/-- A second node like `id`, which shares its operand list. -/
def twin (id : Int) (n : Node) : PassM Int := do
  let new ← alloc n.tag n.pos n.args
  update new ({ · with notes := n.notes })
  modify (·.share id new)
  return new

/-- Moves the operand list of a node to a list, since the node is about to get another one. -/
def moveArgs (id : Int) (n : Node) : PassM Operand := do
  let new ← alloc .list n.pos n.args
  modify (·.handOver id new)
  return .ref new

def reject {α : Type} (n : Node) (complaint : Complaint) : PassM α :=
  throw (.rejected (n.diagnostic complaint))

def check (n : Node) : PassM Unit :=
  match n.malformed? with
  | some d => throw (.rejected d)
  | none => return

def newLabel : PassM Text := do
  let c ← get
  set { c with labels := c.labels + 1 }
  return c.options.labelStem ++ Decimal.ofNat (c.labels + 1)

def intern (value : Constant) : PassM Text := do
  match (← get).literals.labelOf? value with
  | some label => return label
  | none =>
    let label ← newLabel
    modify fun c => { c with literals := c.literals.add label value }
    return label

/-- Walks the nodes below a root; whether no visit stopped it. -/
def walk (root : Int) (visit : Int → Node → PassM Walk.Action) : PassM Bool := do
  let depth := (← get).forest.extent
  Walk.run (.fault .endless) (fun id => return (← fetch id).children)
    (fun id => do visit id (← fetch id)) depth root

end PassM

end Lowering
