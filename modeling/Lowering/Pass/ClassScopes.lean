import Lowering.Context

namespace Lowering.Pass.ClassScopes

open PassM Classes

def changeTable (change : Table → Table) : PassM Unit :=
  modify fun c => { c with classes := change c.classes }

/-- A name with one at sign in front; with two it belongs to the class and not to its objects. -/
def isIvar (v : Operand) : Bool :=
  v.isSymbol && v.text.startsWith "@" && !v.text.startsWith "@@"

def noteIvar (scope : Scope) (v : Operand) : PassM Unit :=
  if isIvar v then changeTable (·.addIvar scope v.text) else pure ()

/-- A visit that notes the instance variables among the operands of a node. -/
def scanning (scope : Scope) (_ : Int) (n : Node) : PassM Walk.Action := do
  n.args.forM (noteIvar scope)
  return .descend

def scanIvars (scope : Scope) (body : Operand) : PassM Unit :=
  match body.child? with
  | none => noteIvar scope body
  | some id => discard <| walk id (scanning scope)

structure Accessors where
  reader : Bool
  writer : Bool

def accessors? (function : Operand) : Option Accessors :=
  if function.is "attr_reader" then some ⟨true, false⟩
  else if function.is "attr_writer" then some ⟨false, true⟩
  else if function.is "attr_accessor" then some ⟨true, true⟩
  else none

/-- `(defm x () (@x))` -/
def defineReader (scope : Scope) (pos : Position) (name : Text) : PassM Operand := do
  changeTable (·.addMethod scope name)
  let params ← list pos []
  let body ← list pos [.sym ("@" ++ name)]
  node .defm pos [.sym name, params, body]

/-- `(defm x= (value) ((assign @x value)))` -/
def defineWriter (scope : Scope) (pos : Position) (name : Text) : PassM Operand := do
  let method := name ++ "="
  changeTable (·.addMethod scope method)
  let assign ← node .assign pos [.sym ("@" ++ name), .sym "value"]
  let params ← list pos [.sym "value"]
  let body ← list pos [assign]
  node .defm pos [.sym method, params, body]

/-- The definitions for one attribute. A colon in front of its name is taken off. -/
def define (wanted : Accessors) (scope : Scope) (pos : Position) (symbol : Text) :
    PassM (List Operand) := do
  let name := symbol.dropStart ":"
  changeTable (·.addIvar scope ("@" ++ name))
  let reader ← if wanted.reader then pure [← defineReader scope pos name] else pure []
  let writer ← if wanted.writer then pure [← defineWriter scope pos name] else pure []
  return reader ++ writer

def expandAttributes (id : Int) (n : Node) (wanted : Accessors) (scope : Scope) :
    PassM Unit := do
  let names ← query (·.symbols (n.arg 1))
  let defs ← names.mapM (define wanted scope n.pos)
  reshape id .block defs.flatten

def superName (n : Node) : Text := (n.arg 1).symbol?.getD Text.empty

def openClass (kind : Kind) (name : Text) (scope : Scope) (super : Text) : PassM Unit := do
  if (← get).classes.findsSuper (some scope) super then
    changeTable (·.enter kind name (some scope) super)
  else throw .circular

def build : Nat → Scope → Operand → PassM Unit
  | 0, _, _ => throw (.fault .endless)
  | fuel + 1, scope, v =>
    match v.child? with
    | none => pure ()
    | some id => do
      let n ← fetch id
      match n.tag with
      | .sexp => pure ()
      | .defm =>
        check n
        let name ← operandAt n 0
        changeTable (·.addMethod scope name.text)
        if (← get).classes.kindOf scope = .global then n.args.forM (build fuel scope)
        else scanIvars scope (← operandAt n 2)
      | .call =>
        check n
        match accessors? (← operandAt n 0) with
        | some wanted => expandAttributes id n wanted scope
        | none => n.args.forM (build fuel scope)
      | .classDef =>
        check n
        let name := (← operandAt n 0).text
        openClass .ofClass name scope (superName n)
        build fuel (.named name) (n.arg 2)
      | .moduleDef =>
        check n
        let name := (← operandAt n 0).text
        let super : Text := if ((← get).classes.find? "Object").isSome then "Object" else Text.empty
        openClass .ofModule name scope super
        build fuel (.named name) (n.arg 1)
      | _ => n.args.forM (build fuel scope)

def run (root : Int) : PassM Unit := do
  build (← get).forest.extent .global (.ref root)

end Lowering.Pass.ClassScopes
