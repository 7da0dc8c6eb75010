import Lowering.Classes.Document
import Lowering.Command.Arguments
import Lowering.Notation.Printer
import Lowering.Notation.Reader
import Lowering.Settings.Load
import Lowering.Snapshot

namespace Lowering.Command

inductive Error where
  | settings (e : Settings.Error)
  | file (e : FileFault)
  | source (e : ReadError)
  | pipeline (e : PipelineError)
  | changing (name : Text)
  /-- The layout does not end, since superclasses come back to one of them. -/
  | circular
deriving DecidableEq, Repr

def Error.message : Error → Text
  | settings e => e.message
  | file e => e.message
  | source e => e.message
  | pipeline e => e.message
  | changing name => name ++ ": normalization is not idempotent"
  | circular => PassError.circular.message

variable {m : Type → Type} [Monad m] [Host m]

/-- The settings of the file that was named; else the nearest ones above the source; else the usual
ones. -/
def settingsFor (config : Option Text) (file : Text) : ExceptT Error m Settings := do
  match config with
  | some path =>
    match ← (Settings.loadFile path : m _) with
    | .ok s => return s
    | .error e => throw (.settings e)
  | none =>
    match ← (Settings.find (if file = "-" then "." else Path.folder file) : m _) with
    | .ok found => return found.getD {}
    | .error e => throw (.settings e)

def sourceOf (file : Text) : ExceptT Error m (Text × Text) := do
  if file = "-" then return ("<stdin>", ← (Host.input : m _))
  else match ← (Host.readFile file : m _) with
    | .ok source => return (file, source)
    | .error e => throw (.file e)

def parse (file : Text) (options : Options) : ExceptT Error m (Context × Int) := do
  let (name, source) ← sourceOf file
  match Forest.parse name source with
  | .ok (forest, root) => return (Context.ofForest forest options, root)
  | .error e => throw (.source e)

def orFault (r : Except Fault α) : ExceptT Error m α :=
  match r with
  | .ok a => return a
  | .error f => throw (.pipeline (.fault f))

def printLine (t : Text) : ExceptT Error m Unit := (Host.print (t ++ "\n") : m Unit)

def write (path content : Text) : ExceptT Error m Unit := do
  match ← (Host.writeFile path content : m _) with
  | .ok () => return
  | .error e => throw (.file e)

/-- A constant with its label, as a comment. -/
def literalLine (l : Literal) : Text :=
  match l.value with
  | .str t => "; " ++ l.label ++ " string " ++ Quoted.encode t
  | .int i => "; " ++ l.label ++ " int " ++ Decimal.ofInt64 i

def formatFor (path : Text) (usual : LayoutFormat) : LayoutFormat :=
  let ending := (Path.ending path).lowerAscii
  if ending = ".cbor" then .cbor
  else if ending = ".yaml" ∨ ending = ".yml" then .yaml
  else usual

def layoutContent (l : Classes.Layout) : LayoutFormat → Text
  | .cbor => ⟨l.encode⟩
  | .yaml => l.document

def orElse (path usual : Text) : Text := if path.isEmpty then usual else path

def run (i : Invocation) : ExceptT Error m Unit := do
  let file := i.file.getD "-"
  let settings ← settingsFor i.config file
  let options := settings.options
  let options := { options with disabled := options.disabled ++ i.disabled }
  let (context, root) ← parse file options
  match Pipeline.run root context with
  | .error e _ => throw (.pipeline e)
  | .ok _ context =>
    printLine (← orFault (context.forest.format root))
    for id in context.hoisted do
      printLine (← orFault (context.forest.format id))
    for l in context.literals.entries do
      printLine (literalLine l)
    let classes := orElse i.classes settings.classesPath
    if !classes.isEmpty then
      if !context.classes.isRooted then throw .circular
      write classes (layoutContent context.classes.layout (formatFor classes settings.format))
    let snapshot := orElse i.snapshot settings.snapshotPath
    if !snapshot.isEmpty then
      write snapshot ⟨Snapshot.encode context.forest root⟩

def check (i : Invocation) : ExceptT Error m Unit := do
  let file := i.file.getD "-"
  let settings ← settingsFor i.config file
  let (context, root) ← parse file settings.options
  match Pipeline.isIdempotent root context with
  | .error e _ => throw (.pipeline e)
  | .ok false _ => throw (.changing file)
  | .ok true context =>
    let fingerprint ← orFault (context.forest.fingerprint root)
    printLine (file ++ ": ok (" ++ Hex.ofWord fingerprint ++ ")")

inductive Outcome where
  | done
  | failed (e : Error)
  | refused
deriving DecidableEq, Repr

def Outcome.exitCode : Outcome → UInt32
  | done => 0
  | failed _ => 1
  | refused => 80

/-- A path from the root on. A tilde in front stands for the folder of the user. -/
def fullPath (path : Text) : m Text := do
  if path.isEmpty ∨ Path.isRooted path then return path
  else if path.startsWith "~/" then return Path.join (← Host.homeFolder) (path.dropStart "~/")
  else return Path.absolute (← Host.workingFolder) path

/-- The file of settings that was named, from the root on. It must be there and be no folder; a
lone hyphen is taken as it is. -/
def configPath (path : Text) : m (Option Text) := do
  if path = "-" then return some path
  let full ← fullPath path
  if (← Host.kind? full) = some .file then return some full else return none

def execute (words : List Text) : m Outcome := do
  match Invocation.parse? words with
  | none => return .refused
  | some i =>
    let config ← match i.config with
      | none => pure (some none)
      | some path => do pure ((← configPath path).map some)
    match config, i.command with
    | some config, some name =>
      let i := { i with config }
      let action := match name with
        | .run => run i
        | .check => check i
      match ← action.run with
      | .ok () => return .done
      | .error e => return .failed e
    | _, _ => return .refused

end Lowering.Command
