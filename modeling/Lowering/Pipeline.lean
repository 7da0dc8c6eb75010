import Lowering.Pass.Calls
import Lowering.Pass.ClassScopes
import Lowering.Pass.Closures
import Lowering.Pass.Destruct
import Lowering.Pass.Hoist
import Lowering.Pass.Validate
import Lowering.Shape.Fingerprint

namespace Lowering

inductive Pass where
  | classes | destruct | concat | range | strings | ints | operators | yield | env | lambda
  | validate
deriving DecidableEq, Repr

namespace Pass

def all : List Pass :=
  [classes, destruct, concat, range, strings, ints, operators, yield, env, lambda, validate]

/-- The passes that change nothing in what they have produced. -/
def normalizing : List Pass := [destruct, concat, range, strings, ints, operators, yield]

def name : Pass → Text
  | classes => "classes"
  | destruct => "destruct"
  | concat => "concat"
  | range => "range"
  | strings => "strings"
  | ints => "ints"
  | operators => "operators"
  | yield => "yield"
  | env => "env"
  | lambda => "lambda"
  | validate => "validate"

def names : List Text := all.map name

def ofName? (text : Text) : Option Pass := all.find? fun p => p.name = text

def run : Pass → Int → PassM Unit
  | classes => ClassScopes.run
  | destruct => Destruct.run
  | concat => Concat.run
  | range => Range.run
  | strings => Hoist.run .strings
  | ints => Hoist.run .ints
  | operators => Operators.run
  | yield => Yield.run
  | env => Environment.run
  | lambda => Closures.run
  | validate => Validate.run

end Pass

inductive PipelineError where
  | unknownPass (name : Text)
  | inPass (pass : Pass) (e : PassError)
  | fault (f : Fault)
deriving DecidableEq, Repr

namespace PipelineError

def message : PipelineError → Text
  | unknownPass name => "unknown pass " ++ Quoted.encode name
  | inPass pass e => pass.name ++ ": " ++ e.message
  | fault f => f.message

end PipelineError

abbrev PipelineM := EStateM PipelineError Context

namespace Pipeline

def runPass (root : Int) (pass : Pass) : PipelineM Unit := fun c =>
  match pass.run root c with
  | .ok a c => .ok a c
  | .error e c => .error (.inPass pass e) c

def unknown? (names : List Text) : Option Text := names.find? fun n => (Pass.ofName? n).isNone

def checkNames (names : List Text) : PipelineM Unit :=
  match unknown? names with
  | some name => throw (.unknownPass name)
  | none => return

/-- The passes that options leave enabled. A finished tree is checked only if no pass is left
out. -/
def enabled (o : Options) : List Pass :=
  let kept := Pass.all.filter fun p => !o.disabled.contains p.name
  if kept.length = Pass.all.length then kept else kept.filter (· ≠ .validate)

def run (root : Int) : PipelineM Unit := do
  let o := (← get).options
  checkNames o.disabled
  (enabled o).forM (runPass root)

def runNamed (root : Int) (names : List Text) : PipelineM Unit := do
  checkNames names
  (Pass.all.filter fun p => names.contains p.name).forM (runPass root)

def fingerprint (root : Int) : PipelineM UInt64 := do
  match (← get).forest.fingerprint root with
  | .ok w => return w
  | .error f => throw (.fault f)

/-- Runs the class pass and the normalizing passes, and then the latter again; whether the second
run left the tree as it was. -/
def isIdempotent (root : Int) : PipelineM Bool := do
  runNamed root (Pass.name .classes :: Pass.normalizing.map Pass.name)
  let before ← fingerprint root
  runNamed root (Pass.normalizing.map Pass.name)
  let after ← fingerprint root
  return before = after

end Pipeline

end Lowering
