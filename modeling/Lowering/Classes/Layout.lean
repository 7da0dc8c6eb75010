import Lowering.Cbor.Field
import Lowering.Classes.Table

namespace Lowering.Classes

structure MethodSlot where
  name : Text
  offset : Int
deriving DecidableEq, Repr

structure ClassLayout where
  name : Text
  kind : Text
  /-- The full name of the superclass, empty if there is none. -/
  super : Text
  methods : List MethodSlot
  ivars : List Text
  constants : List Text
deriving DecidableEq, Repr

structure Layout where
  version : Int
  offsets : List Text
  classes : List ClassLayout
deriving DecidableEq, Repr

namespace Layout

def currentVersion : Int := 1

end Layout

namespace Table

def classLayout (t : Table) (c : ClassScope) : ClassLayout where
  name := t.fullName c.name
  kind := c.kind.text
  super := (c.super.map t.fullName).getD Text.empty
  methods := c.methods.map fun m => ⟨m, t.slotOf m⟩
  ivars := t.ivars c.name
  constants := c.constants.filterMap fun (_, target) => target.map t.fullName

def layout (t : Table) : Layout where
  version := Layout.currentVersion
  offsets := t.slots
  classes := t.classes.map t.classLayout

def isBound (t : Table) : Bool := t.classes.all fun c => c.constants.all fun k => k.2.isSome

/-- The layout, if every constant stands for a class and the superclasses of each class come to an
end. -/
def layout? (t : Table) : Option Layout :=
  if t.isBound && t.isRooted then some t.layout else none

end Table

namespace Layout

open Cbor

def textsItem (names : List Text) : Item := .array (names.map .ofText)

def slotItem (m : MethodSlot) : Item :=
  .record [(1, .ofText m.name), (2, .ofInt m.offset)]

def classItem (c : ClassLayout) : Item :=
  .record <| [(1, .ofText c.name), (2, .ofText c.kind)] ++
    (if c.super.isEmpty then [] else [(3, .ofText c.super)]) ++
    (if c.methods.isEmpty then [] else [(4, .array (c.methods.map slotItem))]) ++
    (if c.ivars.isEmpty then [] else [(5, textsItem c.ivars)]) ++
    (if c.constants.isEmpty then [] else [(6, textsItem c.constants)])

def item (l : Layout) : Item :=
  .record [(1, .ofInt l.version),
    (2, if l.offsets.isEmpty then .null else textsItem l.offsets),
    (3, if l.classes.isEmpty then .null else .array (l.classes.map classItem))]

def encode (l : Layout) : List UInt8 := l.item.encode

inductive Error where
  /-- They are no CBOR record of the right type. -/
  | malformed (fault : Cbor.Fault)
  | version (got : Int)
deriving DecidableEq, Repr

def Error.message : Error → Text
  | malformed fault => "decoding layout: " ++ fault.message
  | version got => "layout version " ++ Decimal.ofInt got ++ ", want " ++
      Decimal.ofInt currentVersion

def slotField (m : MethodSlot) (n : Nat) (item : Item) : Except Cbor.Fault MethodSlot := do
  match n with
  | 1 => return { m with name := ← Read.text item }
  | 2 => return { m with offset := ← Read.int64 "int" item }
  | _ => return m

def slot : Item → Except Cbor.Fault MethodSlot :=
  Read.record "scope.MethodSlot" slotField ⟨.empty, 0⟩

def texts (item : Item) : Except Cbor.Fault (List Text) := (Read.texts item).map (·.getD [])

def classField (c : ClassLayout) (n : Nat) (item : Item) : Except Cbor.Fault ClassLayout := do
  match n with
  | 1 => return { c with name := ← Read.text item }
  | 2 => return { c with kind := ← Read.text item }
  | 3 => return { c with super := ← Read.text item }
  | 4 => return { c with methods := (← Read.list "[]scope.MethodSlot" slot item).getD [] }
  | 5 => return { c with ivars := ← texts item }
  | 6 => return { c with constants := ← texts item }
  | _ => return c

def classOf : Item → Except Cbor.Fault ClassLayout :=
  Read.record "scope.ClassLayout" classField ⟨.empty, .empty, .empty, [], [], []⟩

def layoutField (l : Layout) (n : Nat) (item : Item) : Except Cbor.Fault Layout := do
  match n with
  | 1 => return { l with version := ← Read.int64 "int" item }
  | 2 => return { l with offsets := ← texts item }
  | 3 => return { l with classes := (← Read.list "[]scope.ClassLayout" classOf item).getD [] }
  | _ => return l

def ofItem : Item → Except Cbor.Fault Layout := Read.record "scope.Layout" layoutField ⟨0, [], []⟩

def decode (bytes : List UInt8) : Except Error Layout :=
  match Cbor.read ofItem bytes with
  | .error fault => .error (.malformed fault)
  | .ok l => if l.version = currentVersion then .ok l else .error (.version l.version)

end Layout

end Lowering.Classes
