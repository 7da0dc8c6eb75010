import Lowering.Names

namespace Lowering.Classes

inductive Kind where
  | global
  | ofModule
  | ofClass
  | unknown
deriving DecidableEq, Repr

namespace Kind

def ofCode (code : Int) : Kind :=
  if code = 0 then global else if code = 1 then ofModule else if code = 2 then ofClass else unknown

def text : Kind → Text
  | global => "global"
  | ofModule => "module"
  | ofClass => "class"
  | unknown => "unknown"

end Kind

/-- A place for definitions: the global scope, or the class of a name. -/
inductive Scope where
  | global
  | named (name : Text)
deriving DecidableEq, Repr

/-- Names with the classes they stand for, in the order in which the names were first given. A name
may also be set to no class. -/
abbrev Constants := List (Text × Option Text)

namespace Constants

/-- Sets a constant; a known name keeps its place. -/
def put (name : Text) (target : Option Text) : Constants → Constants
  | [] => [(name, target)]
  | (n, t) :: rest => if n = name then (n, target) :: rest else (n, t) :: put name target rest

end Constants

structure ClassScope where
  name : Text
  kind : Kind
  /-- The scope around its first opening, if that was in one. -/
  parent : Option Scope
  /-- The name of its superclass, once that is known. -/
  super : Option Text
  methods : List Text := []
  ivars : List Text := []
  constants : Constants := []
deriving DecidableEq, Repr

structure Table where
  /-- The method names, each at its slot. -/
  slots : List Text := []
  constants : Constants := []
  /-- The classes in the order of their first opening. -/
  classes : List ClassScope := []
deriving DecidableEq, Repr

namespace Table

/-- An empty table in which the reserved method names have the first slots. -/
def ofReserved (reserved : List Text) : Table := { slots := reserved.foldl Names.add [] }

def intern (t : Table) (name : Text) : Table := { t with slots := Names.add t.slots name }

def slotOf (t : Table) (name : Text) : Int :=
  match t.slots.idxOf? name with
  | some i => i
  | none => -1

def find? (t : Table) (name : Text) : Option ClassScope := t.classes.find? fun c => c.name = name

def knows (t : Table) : Scope → Bool
  | .global => true
  | .named name => (t.find? name).isSome

/-- What is reported where a class is asked for and there is none. -/
def noClass : Text := "runtime error: invalid memory address or nil pointer dereference"

def update (t : Table) (name : Text) (change : ClassScope → ClassScope) : Table :=
  { t with classes := t.classes.map fun c => if c.name = name then change c else c }

def kindOf (t : Table) : Scope → Kind
  | .global => .global
  | .named name => ((t.find? name).map (·.kind)).getD .unknown

def parentOf (t : Table) : Scope → Option Scope
  | .global => none
  | .named name => (t.find? name).bind (·.parent)

def constantsOf (t : Table) : Scope → Constants
  | .global => t.constants
  | .named name => ((t.find? name).map (·.constants)).getD []

/-- Defines a method in a scope. The global scope only gives it a slot. -/
def addMethod (t : Table) (scope : Scope) (name : Text) : Table :=
  let t := t.intern name
  match scope with
  | .global => t
  | .named c => t.update c fun c => { c with methods := Names.add c.methods name }

/-- Gives a class an instance variable. The global scope has none. -/
def addIvar (t : Table) (scope : Scope) (name : Text) : Table :=
  match scope with
  | .global => t
  | .named c => t.update c fun c => { c with ivars := Names.add c.ivars name }

def addConstant (t : Table) (scope : Scope) (name : Text) (target : Option Text) : Table :=
  match scope with
  | .global => { t with constants := t.constants.put name target }
  | .named c => t.update c fun c => { c with constants := c.constants.put name target }

def constant (t : Table) (scope : Scope) (name : Text) : Option (Option Text) :=
  (t.constantsOf scope).lookup name

/-- A scope and those around it, innermost first. A parent is opened before its child, so there
are no more than the classes and the global scope. -/
def outward (t : Table) : Nat → Scope → List Scope
  | 0, _ => []
  | fuel + 1, scope =>
    scope :: match t.parentOf scope with
      | some parent => outward t fuel parent
      | none => []

/-- A class and its superclasses, up to a number of them. -/
def ancestry (t : Table) : Nat → Text → List ClassScope
  | 0, _ => []
  | fuel + 1, name =>
    match t.find? name with
    | none => []
    | some c =>
      c :: match c.super with
        | some super => ancestry t fuel super
        | none => []

/-- A class and its superclasses, as many as are known; if they come back to one of them, as many
as there are classes. -/
def ancestors (t : Table) (name : Text) : List ClassScope := t.ancestry t.classes.length name

/-- Whether the superclasses of a class come to an end, and not back to one of them. -/
def ends (t : Table) (name : Text) : Bool :=
  (t.ancestors name).getLast?.all fun c => (c.super.bind t.find?).isNone

def isRooted (t : Table) : Bool := t.classes.all fun c => t.ends c.name

/-- What a name is set to in a scope, or in a scope around it, or in a superclass, or globally: the
first of these that sets it, if the search for it ends. -/
def setting (t : Table) (scope : Scope) (name : Text) : Option (Option Text) :=
  match scope with
  | .global => t.constant .global name
  | .named c =>
    ((t.outward (t.classes.length + 1) scope).findSome? fun s => t.constant s name) <|>
    ((t.ancestors c).tail.findSome? fun s => s.constants.lookup name) <|>
    t.constant .global name

def resolve (t : Table) (scope : Scope) (name : Text) : Option Text := (t.setting scope name).join

/-- Whether the search for a name ends: the superclasses come to an end, or it need not go beyond
the scopes around or one of the superclasses. -/
def settles (t : Table) (scope : Scope) (name : Text) : Bool :=
  match scope with
  | .global => true
  | .named c =>
    t.ends c ||
    (t.outward (t.classes.length + 1) scope).any (fun s => (t.constant s name).isSome) ||
    (t.ancestors c).tail.any fun s => (s.constants.lookup name).isSome

/-- The names of a class and of the classes around it, outermost first. -/
def path (t : Table) (name : Text) : List Text :=
  let around := (t.outward (t.classes.length + 1) (.named name)).tail.takeWhile fun s =>
    t.kindOf s ≠ .global
  (around.filterMap fun
    | .named n => some n
    | .global => none).reverse ++ [name]

def fullName (t : Table) (name : Text) : Text := Text.join "::" (t.path name)

/-- The instance variables of a class whose superclasses come to an end: those of its superclasses
first, each once. -/
def ivars (t : Table) (name : Text) : List Text :=
  ((t.ancestors name).reverse.flatMap (·.ivars)).eraseDups

def hasMethod (t : Table) (name method : Text) : Bool :=
  match t.find? name with
  | some c => c.methods.contains method
  | none => false

/-- The slot of a method that a class or a superclass has. Without one the superclasses are searched
to their end. -/
def offset (t : Table) (name method : Text) : Int :=
  if (t.ancestors name).any fun c => c.methods.contains method then t.slotOf method else -1

/-- The superclass that a class is opened with: looked up from the scope of the opening, or else by
its bare name. -/
def findSuper (t : Table) (parent : Option Scope) (super : Text) : Option Text :=
  if super.isEmpty then none
  else
    (parent.bind fun p => t.resolve p super) <|> (t.find? super).map (·.name)

/-- Whether the search for the superclass that a class is opened with ends. -/
def findsSuper (t : Table) (parent : Option Scope) (super : Text) : Bool :=
  super.isEmpty || parent.all fun p => t.settles p super

/-- Opens a class. The first opening fixes its kind and its place; a later one may still bring a
superclass, if none was known. -/
def enter (t : Table) (kind : Kind) (name : Text) (parent : Option Scope) (super : Text) :
    Table :=
  let known := t.findSuper parent super
  let t := match t.find? name with
    | none =>
      let c : ClassScope := { name, kind, parent, super := known }
      { t with classes := t.classes ++ [c] }
    | some c =>
      if c.super = none ∧ known ≠ none ∧ known ≠ some name then
        t.update name fun c => { c with super := known }
      else t
  let t := t.addConstant .global name (some name)
  match parent with
  | some p => t.addConstant p name (some name)
  | none => t

end Table

end Lowering.Classes
