import Lowering.Toml.Reader

namespace Lowering.Toml

inductive Item where
  | value (v : Value)
  | table (entries : List (Text × Item))
  | tables (all : List (List (Text × Item)))
deriving Inhabited

abbrev Table := List (Text × Item)

/-- What a name stands for while the text is read. Tables are known by number, since an inline
table may be reached both from the document and from the inline table around it. -/
inductive Slot where
  | value (v : Value)
  | table (id : Nat)
  | tables (ids : List Nat)

/-- The table in which a longer key continues: of several, the last one. -/
def Slot.inner? : Slot → Option Nat
  | .value _ => none
  | .table id => some id
  | .tables ids => ids.getLast?

structure Draft where
  /-- The tables by number. Number 0 is the document. -/
  tables : Array (List (Text × Slot)) := #[[]]
  implied : List Key := []
  /-- The keys that stand for an array. -/
  arrays : List Key := []
  keys : List Key := []

namespace Draft

def entries (d : Draft) (id : Nat) : List (Text × Slot) := (d.tables[id]?).getD []

/-- The table that a key leads to from table `id`. -/
def locate? (d : Draft) (id : Nat) : Key → Option Nat
  | [] => some id
  | name :: key => do
    let inner ← (← (d.entries id).lookup name).inner?
    d.locate? inner key

def find? (d : Draft) (key : Key) : Option Slot := do
  (d.entries (← d.locate? 0 key.dropLast)).lookup (← key.getLast?)

/-- A name that is there keeps its place; a new one comes last. -/
def setEntry (name : Text) (slot : Slot) (entries : List (Text × Slot)) : List (Text × Slot) :=
  if entries.any fun e => e.1 = name then
    entries.map fun e => if e.1 = name then (name, slot) else e
  else entries ++ [(name, slot)]

def set (d : Draft) (id : Nat) (name : Text) (slot : Slot) : Draft :=
  { d with tables := d.tables.modify id (setEntry name slot) }

/-- What a slot stands for, down to a depth. -/
def item (d : Draft) : Nat → Slot → Item
  | _, .value v => .value v
  | 0, _ => .table []
  | fuel + 1, .table id => .table ((d.entries id).map fun e => (e.1, d.item fuel e.2))
  | fuel + 1, .tables ids =>
    .tables (ids.map fun id => (d.entries id).map fun e => (e.1, d.item fuel e.2))

/-- The document. No table is inside itself, so their number bounds the depth. -/
def root (d : Draft) : Table := (d.entries 0).map fun e => (e.1, d.item d.tables.size e.2)

end Draft

abbrev DraftM := StateT Draft Option

namespace DraftM

def find? (key : Key) : DraftM (Option Slot) := return (← get).find? key

def set (id : Nat) (name : Text) (slot : Slot) : DraftM Unit := modify (·.set id name slot)

def newTable : DraftM Nat := do
  let d ← get
  modify fun d => { d with tables := d.tables.push [] }
  return d.tables.size

def imply (key : Key) : DraftM Unit := modify fun d => { d with implied := key :: d.implied }

def unimply (key : Key) : DraftM Unit :=
  modify fun d => { d with implied := d.implied.filter (· ≠ key) }

def noteKey (key : Key) : DraftM Unit := modify fun d => { d with keys := key :: d.keys }

def noteArray (key : Key) (isArray : Bool) : DraftM Unit :=
  modify fun d =>
    { d with arrays := if isArray then key :: d.arrays else d.arrays.filter (· ≠ key) }

def splitLast (key : Key) : Key × Text := (key.dropLast, key.getLastD Text.empty)

def tableAt (key : Key) : DraftM Nat := do
  match (← get).locate? 0 key with
  | some id => return id
  | none => failure

/-- Gives the key a meaning; all but its last part must stand for tables. -/
def put (key : Key) (slot : Slot) : DraftM Unit := do
  let (outer, name) := splitLast key
  set (← tableAt outer) name slot

/-- Defines a key. An implied table stays as it is and is implied no more; if the key also counts
as an array, then what it stood for gives way. -/
def define (key : Key) (slot : Slot) : DraftM Unit := do
  if (← find? key).isNone then put key slot
  else
    let d ← get
    if d.implied.contains key then
      unimply key
      if d.arrays.contains key then put key slot
    else failure

def enterOuter : List Key → DraftM Unit
  | [] => return
  | key :: keys => do
    if (← find? key).isNone then
      imply key
      put key (.table (← newTable))
    discard <| tableAt key
    enterOuter keys

/-- The proper beginnings of a key, shortest first, without the empty one. -/
def outerKeys (key : Key) : List Key := (List.range key.length).tail.map key.take

def openTable (key : Key) : DraftM Unit := do
  enterOuter (outerKeys key)
  define key (.table (← newTable))

def openTables (key : Key) : DraftM Unit := do
  enterOuter (outerKeys key)
  match ← find? key with
  | none => put key (.tables [← newTable])
  | some (.tables ids) => put key (.tables (ids ++ [← newTable]))
  | some _ => failure

/-- A dotted key implies the tables it goes through. -/
def enterDotted (outer : Key) : List Key → DraftM Unit
  | [] => return
  | key :: keys => do
    imply (outer ++ key)
    openTable (outer ++ key)
    enterDotted outer keys

def isArray : Value → Bool
  | .array _ => true
  | _ => false

/-- The key that counts as an array if the value of `key` is one. An empty name counts for the
table it is in. -/
def arrayKey (key : Key) : Key :=
  if 1 < key.length ∧ key.getLast? = some Text.empty then key.dropLast else key

/-- Keeps an item of an inline table under its key in the table `id`, which holds this inline
table alone. What the key goes through must be tables. -/
def keep (slot : Slot) (id : Nat) : Key → DraftM Unit
  | [] => return
  | [name] => set id name slot
  | name :: key => do
    match ((← get).entries id).lookup name with
    | none =>
      let inner ← newTable
      set id name (.table inner)
      keep slot inner key
    | some (.table inner) => keep slot inner key
    | some _ => failure

mutual

/-- Enters the value of a key. The items of an inline table are entered into the document and also
kept in a table of their own; those of an array are entered one after the other. -/
def enterValue (key : Key) (inArray : Bool) : Value → DraftM Slot
  | .inline pairs => do
    imply key
    if inArray then openTables key else openTable key
    let own ← newTable
    enterPairs key (some own) pairs
    return .table own
  | .array elems => do
    noteArray (arrayKey key) true
    enterValues key elems
    return .value (.array elems)
  | v => return .value v

def enterValues (key : Key) : List Value → DraftM Unit
  | [] => return
  | v :: vs => do
    discard <| enterValue key true v
    enterValues key vs

/-- Enters pairs below a key. Those of an inline table are also kept in its own table. -/
def enterPairs (outer : Key) (own : Option Nat) : List (Key × Value) → DraftM Unit
  | [] => return
  | (key, v) :: pairs => do
    enterDotted outer (outerKeys key)
    let full := outer ++ key
    noteKey full
    let slot ← enterValue full false v
    define full slot
    noteArray (arrayKey full) (isArray v)
    if let some id := own then keep slot id key
    enterPairs outer own pairs

end

/-- One line after a header `outer`, or after none. The result is the header that later lines come
after. -/
def enterLine (outer : Key) : Line → DraftM Key
  | .table key => do
    openTable key
    noteArray key false
    noteKey key
    return key
  | .tables key => do
    openTables key
    noteArray key false
    noteKey key
    return key
  | .pair key v => do
    enterPairs outer none [(key, v)]
    return outer

end DraftM

structure Document where
  root : Table
  keys : List Key

namespace Document

def ofLines? (ls : List Line) : Option Document := do
  let (_, d) ← (ls.foldlM DraftM.enterLine []).run {}
  return { root := d.root, keys := d.keys.reverse }

def parse? (t : Text) : Option Document := (lines? t).bind ofLines?

end Document

end Lowering.Toml
