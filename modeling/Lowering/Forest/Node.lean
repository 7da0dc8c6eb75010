import Lowering.Position
import Lowering.Tag

namespace Lowering

inductive Atom where
  | nil
  | sym (name : Text)
  | str (text : Text)
  | int (value : Int64)
  | unknown (kind : UInt8)
deriving DecidableEq, Repr

/-- An operand as nodes hold it. The number of a node has no bound here. It is meant to fit 32 bits
with a sign, which a forest keeps to up to 2147483647 nodes and a snapshot cannot break. -/
structure Operand where
  kind : UInt8
  text : Text := Text.empty
  number : Int64 := 0
  target : Int := 0
deriving DecidableEq, Inhabited, Repr

namespace Operand

def nil : Operand := ⟨0, Text.empty, 0, 0⟩

def sym (name : Text) : Operand := ⟨1, name, 0, 0⟩

def str (text : Text) : Operand := ⟨2, text, 0, 0⟩

def int (value : Int64) : Operand := ⟨3, Text.empty, value, 0⟩

def ref (id : Int) : Operand := ⟨4, Text.empty, 0, id⟩

inductive View where
  | atom (a : Atom)
  | child (id : Int)
deriving DecidableEq, Repr

def view (v : Operand) : View :=
  if v.kind = 0 then .atom .nil
  else if v.kind = 1 then .atom (.sym v.text)
  else if v.kind = 2 then .atom (.str v.text)
  else if v.kind = 3 then .atom (.int v.number)
  else if v.kind = 4 then .child v.target
  else .atom (.unknown v.kind)

@[simp] theorem view_nil : nil.view = .atom .nil := rfl
@[simp] theorem view_sym (name : Text) : (sym name).view = .atom (.sym name) := rfl
@[simp] theorem view_str (text : Text) : (str text).view = .atom (.str text) := rfl
@[simp] theorem view_int (value : Int64) : (int value).view = .atom (.int value) := rfl
@[simp] theorem view_ref (id : Int) : (ref id).view = .child id := rfl

def isNil (v : Operand) : Bool := v.kind = 0

def isSymbol (v : Operand) : Bool := v.kind = 1

def isString (v : Operand) : Bool := v.kind = 2

def isInt (v : Operand) : Bool := v.kind = 3

def isNode (v : Operand) : Bool := v.kind = 4

def symbol? (v : Operand) : Option Text := if v.isSymbol then some v.text else none

def child? (v : Operand) : Option Int := if v.isNode then some v.target else none

def is (v : Operand) (name : Text) : Bool := v.isSymbol && v.text = name

end Operand

/-- What an annotation holds: a list of names, which may also be absent, or something that is
neither shown nor stored. -/
inductive Note where
  | names (list : Option (List Text))
  | other
deriving DecidableEq, Repr

namespace Notes

/-- The order of keys: shorter ones first, and those of one length by bytes. -/
def before (a b : Text) : Bool :=
  a.length < b.length || (a.length = b.length && a.less b)

/-- Keys stand in their order, each of them once. -/
def Sorted (entries : List (Text × Note)) : Prop :=
  entries.Pairwise fun a b => before a.1 b.1 = true

def insertEntry (key : Text) (value : Note) :
    List (Text × Note) → List (Text × Note)
  | [] => [(key, value)]
  | (k, v) :: rest =>
    if k = key then (key, value) :: rest
    else if before key k then (key, value) :: (k, v) :: rest
    else (k, v) :: insertEntry key value rest

section

variable {a b c key : Text} {value : Note} {entries : List (Text × Note)}

theorem before_iff : before a b = true ↔
    a.length < b.length ∨ a.length = b.length ∧ a.bytes < b.bytes := by
  simp [before, Text.less]

theorem before_irrefl (a : Text) : ¬before a a = true := by
  rw [before_iff]
  intro h
  obtain h | ⟨-, h⟩ := h
  · exact Nat.lt_irrefl _ h
  · exact List.lt_irrefl _ h

theorem before_trans (h : before a b = true) (h' : before b c = true) : before a c = true := by
  rw [before_iff] at h h' ⊢
  obtain h | ⟨hlength, h⟩ := h <;> obtain h' | ⟨hlength', h'⟩ := h'
  · exact .inl (Nat.lt_trans h h')
  · exact .inl (hlength' ▸ h)
  · exact .inl (hlength ▸ h')
  · exact .inr ⟨hlength.trans hlength', List.lt_trans h h'⟩

theorem before_of_not (hne : a ≠ b) (h : ¬before b a = true) : before a b = true := by
  rw [before_iff, not_or] at h
  rw [before_iff]
  obtain hlt | heq | hgt := Nat.lt_trichotomy a.length b.length
  · exact .inl hlt
  · refine .inr ⟨heq, Decidable.byContradiction fun hle => hne ?_⟩
    exact Text.ext_bytes (List.le_antisymm (List.not_lt.mp fun hlt => h.2 ⟨heq.symm, hlt⟩)
      (List.not_lt.mp hle))
  · exact absurd hgt h.1

theorem mem_insertEntry (h : e ∈ insertEntry key value entries) :
    e = (key, value) ∨ e ∈ entries := by
  induction entries with
  | nil => exact .inl (by simpa [insertEntry] using h)
  | cons first entries ih =>
    unfold insertEntry at h
    grind

theorem sorted_insertEntry (h : Sorted entries) : Sorted (insertEntry key value entries) := by
  induction entries with
  | nil => exact List.pairwise_singleton ..
  | cons first entries ih =>
    obtain ⟨hfirst, hrest⟩ := List.pairwise_cons.mp h
    unfold insertEntry
    split
    · rename_i heq
      exact List.pairwise_cons.mpr ⟨fun e he => heq ▸ hfirst e he, hrest⟩
    split
    · rename_i hbefore
      refine List.pairwise_cons.mpr ⟨List.forall_mem_cons.mpr ⟨hbefore, fun e he => ?_⟩, h⟩
      exact before_trans hbefore (hfirst e he)
    · rename_i hne hnot
      refine List.pairwise_cons.mpr ⟨fun e he => ?_, ih hrest⟩
      obtain rfl | he := mem_insertEntry he
      · exact before_of_not hne hnot
      · exact hfirst e he

end

end Notes

/-- The annotations of a node by key, in the order of the keys. -/
@[ext] structure Notes where
  entries : List (Text × Note)
  sorted : Notes.Sorted entries
deriving DecidableEq, Repr

instance : EmptyCollection Notes := ⟨[], .nil⟩

instance : Inhabited Notes := ⟨{}⟩

namespace Notes

@[simp] theorem entries_empty : ({} : Notes).entries = [] := rfl

/-- Sets the annotation of a key, in place of the one it had. -/
def insert (notes : Notes) (key : Text) (value : Note) : Notes :=
  ⟨insertEntry key value notes.entries, sorted_insertEntry notes.sorted⟩

def find? (notes : Notes) (key : Text) : Option Note := notes.entries.lookup key

theorem lookup_entry_cons (key other : Text) (value : Note) (entries : List (Text × Note)) :
    ((key, value) :: entries).lookup other =
      if other = key then some value else entries.lookup other := by
  by_cases h : other = key
  · simp [h]
  · simp [List.lookup_cons, beq_false_of_ne h, h]

theorem lookup_insertEntry (key other : Text) (value : Note) (entries : List (Text × Note)) :
    (insertEntry key value entries).lookup other =
      if other = key then some value else entries.lookup other := by
  induction entries with
  | nil => simp [insertEntry, lookup_entry_cons]
  | cons e rest ih =>
    obtain ⟨k, v⟩ := e
    unfold insertEntry
    split
    · subst k
      simp only [lookup_entry_cons]
      split <;> rfl
    · split
      · rw [lookup_entry_cons]
      · rename_i hk _
        simp only [lookup_entry_cons, ih]
        by_cases h : other = k
        · subst h
          simp [hk]
        · simp [h]

@[simp] theorem find?_insert (notes : Notes) (key other : Text) (value : Note) :
    (notes.insert key value).find? other = if other = key then some value else notes.find? other :=
  lookup_insertEntry key other value notes.entries

def namesAt (notes : Notes) (key : Text) : List Text :=
  match notes.find? key with
  | some (.names (some list)) => list
  | _ => []

def isEmpty (notes : Notes) : Bool := notes.entries.isEmpty

/-- The entries with their keys in the order of bytes alone. -/
def sortedByKey (notes : Notes) : List (Text × Note) :=
  notes.entries.mergeSort fun a b => !b.1.less a.1

end Notes

structure Node where
  tag : Tag
  args : List Operand
  pos : Position
  notes : Notes := {}
deriving DecidableEq, Repr

namespace Node

/-- Operand `i`, or nil if there are fewer. -/
def arg (n : Node) (i : Nat) : Operand := (n.args[i]?).getD Operand.nil

/-- Operand `i` for any integer, or nil if there is none. -/
def argAt (n : Node) (i : Int) : Operand := if 0 ≤ i then n.arg i.toNat else Operand.nil

def children (n : Node) : List Int := n.args.filterMap Operand.child?

/-- The node with another tag and other operands; its place and its annotations stay. -/
def reshape (n : Node) (tag : Tag) (args : List Operand) : Node := { n with tag, args }

def annotate (n : Node) (key : Text) (value : Note) : Node :=
  { n with notes := n.notes.insert key value }

end Node

end Lowering
