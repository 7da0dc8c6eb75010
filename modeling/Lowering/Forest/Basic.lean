import Lowering.Forest.Node

namespace Lowering

inductive Fault where
  | invalidNode (id : Int)
  /-- The nodes below a node come back to it, so that it stands for no finite tree. -/
  | endless
  /-- An operand is read that the node does not have. -/
  | missingOperand (i count : Nat)
deriving DecidableEq, Repr

namespace Fault

def message : Fault → Text
  | invalidNode id => "ast: invalid node id " ++ Decimal.ofInt id
  | endless => "ast: endless tree"
  | missingOperand i count =>
    "index out of range [" ++ Decimal.ofNat i ++ "] with length " ++ Decimal.ofNat count

end Fault

structure Forest where
  nodes : Array Node := #[]
deriving Inhabited, Repr

namespace Forest

def size (f : Forest) : Nat := f.nodes.size

def isValid (f : Forest) (id : Int) : Bool := 0 < id && id ≤ f.size

def get? (f : Forest) (id : Int) : Option Node :=
  if 0 < id then f.nodes[id.toNat - 1]? else none

def get (f : Forest) (id : Int) : Except Fault Node :=
  match f.get? id with
  | some n => .ok n
  | none => .error (.invalidNode id)

def push (f : Forest) (n : Node) : Forest := ⟨f.nodes.push n⟩

/-- Puts another node under a number; without effect if no node has it. -/
def set (f : Forest) (id : Int) (n : Node) : Forest :=
  if 0 < id then ⟨f.nodes.setIfInBounds (id.toNat - 1) n⟩ else f

@[simp] theorem size_push (f : Forest) (n : Node) : (f.push n).size = f.size + 1 := by
  simp [push, size]

@[simp] theorem size_set (f : Forest) (id : Int) (n : Node) : (f.set id n).size = f.size := by
  unfold set size; split <;> simp

theorem isValid_iff_get? (f : Forest) (id : Int) :
    f.isValid id = true ↔ ∃ n, f.get? id = some n := by
  unfold isValid get? size
  by_cases h : 0 < id
  · rw [if_pos h]
    constructor
    · intro hle
      have hsize : id ≤ (f.nodes.size : Int) := by simpa [h] using hle
      have hlt : id.toNat - 1 < f.nodes.size := by omega
      exact ⟨f.nodes[id.toNat - 1], Array.getElem?_eq_getElem hlt⟩
    · rintro ⟨n, hn⟩
      obtain ⟨hlt, -⟩ := Array.getElem?_eq_some_iff.mp hn
      have hsize : id ≤ (f.nodes.size : Int) := by omega
      simpa [h] using hsize
  · simp [h]

/-- The node of `src` in the place of `id`: its tag, operands and annotations, and its position
unless that is unknown. A node put in place of itself loses its annotations. -/
def replace (f : Forest) (id src : Int) : Except Fault Forest := do
  let old ← f.get id
  let new ← f.get src
  let pos := if new.pos = Position.unknown then old.pos else new.pos
  let notes := if id = src then {} else new.notes
  return f.set id { new with pos, notes }

/-- The operands of a sequence: those of a list node, none for nil, and for anything else the
operand alone, since a sequence of one may be written bare. -/
def elems (f : Forest) (v : Operand) : Except Fault (List Operand) :=
  match v.view with
  | .atom .nil => .ok []
  | .child id => do
    let n ← f.get id
    return if n.tag = .list then n.args else [v]
  | .atom _ => .ok [v]

def symbols (f : Forest) (v : Operand) : Except Fault (List Text) :=
  (f.elems v).map (·.filterMap Operand.symbol?)

/-- The name that a parameter declares: it is a symbol, or a node whose first operand is one. -/
def declares (f : Forest) (p : Operand) : Except Fault (Option Text) :=
  match p.view with
  | .atom (.sym name) => .ok (some name)
  | .child id => (f.get id).map fun n => (n.arg 0).symbol?
  | .atom _ => .ok none

def paramNames (f : Forest) (params : Operand) : Except Fault (List Text) := do
  let elems ← f.elems params
  let names ← elems.mapM f.declares
  return names.filterMap id

/-- Length of a path that no descent through the forest exceeds, also if on the way every node
grows by one level for each operand and six more. -/
def extent (f : Forest) : Nat := f.nodes.foldl (fun total n => total + n.args.length + 6) 8

end Forest

/-- Changes to a forest. A failing change leaves what it did up to then. -/
abbrev ForestM := EStateM Fault Forest

namespace ForestM

def fetch (id : Int) : ForestM Node := do
  match (← get).get? id with
  | some n => return n
  | none => throw (.invalidNode id)

def alloc (n : Node) : ForestM Int := do
  modify (·.push n)
  return (← get).size

def update (id : Int) (change : Node → Node) : ForestM Unit := do
  let n ← fetch id
  modify (·.set id (change n))

/-- Copies a node after the nodes below it, each as often as it is reached. -/
def cloneFrom : Nat → Int → ForestM Int
  | 0, _ => throw .endless
  | fuel + 1, id => do
    let n ← fetch id
    let args ← n.args.mapM fun v =>
      match v.child? with
      | some c => return .ref (← cloneFrom fuel c)
      | none => return v
    alloc { n with args }

def clone (id : Int) : ForestM Int := do cloneFrom ((← get).size + 1) id

end ForestM

end Lowering
