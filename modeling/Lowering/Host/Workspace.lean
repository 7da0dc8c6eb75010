import Lowering.Host.Basic
import Lowering.Path

namespace Lowering

inductive Entry where
  | file (content : Text)
  | folder
deriving DecidableEq, Repr

structure Workspace where
  folder : List Text := []
  home : Text := "/root"
  entries : List (List Text × Entry) := []
  input : Text := Text.empty
  output : Text := Text.empty

namespace Workspace

/-- What lies at a place; the root is always there. -/
def entry? (w : Workspace) (place : List Text) : Option Entry :=
  if place.isEmpty then some .folder else w.entries.lookup place

def isFolder (w : Workspace) (place : List Text) : Bool := w.entry? place = some .folder

def maxName : Nat := 255

def maxPath : Nat := 4095

/-- The place that a path leads to from `place`. -/
def follow (w : Workspace) (place : List Text) : List Text → Except FileFault.Cause (List Text)
  | [] => .ok place
  | name :: names =>
    match w.entry? place with
    | some .folder =>
      if name.isEmpty ∨ name = "." then w.follow place names
      else if name = ".." then w.follow place.dropLast names
      else if maxName < name.length then .error .longName
      else w.follow (place ++ [name]) names
    | some (.file _) => .error .notFolder
    | none => .error .missing

/-- Where the names of a path start from. -/
def start (w : Workspace) (path : Text) : List Text :=
  if Path.isRooted path then [] else w.folder

def pathFault? (path : Text) : Option FileFault.Cause :=
  if path.contains 0 then some .badName
  else if path.isEmpty then some .missing
  else if maxPath < path.length then some .longName
  else none

def locate (w : Workspace) (path : Text) : Except FileFault.Cause (List Text × Entry) :=
  match pathFault? path with
  | some c => .error c
  | none => do
    let place ← w.follow (w.start path) (path.splitOn Path.slash)
    match w.entry? place with
    | some e => .ok (place, e)
    | none => .error .missing

def readFile (w : Workspace) (path : Text) : Except FileFault Text :=
  match w.locate path with
  | .ok (_, .file content) => .ok content
  | .ok (_, .folder) => .error ⟨.reading, path, .isFolder⟩
  | .error c => .error ⟨.opening, path, c⟩

def kind? (w : Workspace) (path : Text) : Option FileKind :=
  match w.locate path with
  | .ok (_, .file _) => some .file
  | .ok (_, .folder) => some .folder
  | .error _ => none

/-- Puts an entry at a place, in the stead of one that is there. -/
def put (w : Workspace) (place : List Text) (e : Entry) : Workspace :=
  { w with entries := w.entries.filter (fun x => x.1 ≠ place) ++ [(place, e)] }

/-- Where a file is to be written. The folder it lies in must be there, and its name must be one
for a file. -/
def target (w : Workspace) (path : Text) : Except FileFault.Cause (List Text) :=
  match pathFault? path with
  | some c => .error c
  | none =>
    let names := path.splitOn Path.slash
    let trimmed := (names.reverse.dropWhile (·.isEmpty)).reverse
    match trimmed.getLast? with
    | none => .error .isFolder
    | some name => do
      let place ← w.follow (w.start path) trimmed.dropLast
      match w.entry? place with
      | some .folder =>
        if trimmed.length < names.length ∨ name = "." ∨ name = ".." then .error .isFolder
        else if maxName < name.length then .error .longName
        else if w.isFolder (place ++ [name]) then .error .isFolder
        else .ok (place ++ [name])
      | some (.file _) => .error .notFolder
      | none => .error .missing

def writeFile (w : Workspace) (path content : Text) : Except FileFault Workspace :=
  match w.target path with
  | .ok place => .ok (w.put place (.file content))
  | .error c => .error ⟨.opening, path, c⟩

/-- The places on the way to a place, outermost first, and the place itself. -/
def waysTo (place : List Text) : List (List Text) :=
  (List.range (place.length + 1)).tail.map place.take

def makeFolder (w : Workspace) (place : List Text) : Workspace :=
  (waysTo place).foldl (fun w p => if (w.entry? p).isSome then w else w.put p .folder) w

end Workspace

abbrev WorkspaceM := StateM Workspace

instance : Host WorkspaceM where
  workingFolder := return ("/" : Text) ++ Text.join "/" (← get).folder
  homeFolder := return (← get).home
  input := return (← get).input
  print t := modify fun w => { w with output := w.output ++ t }
  readFile path := return (← get).readFile path
  writeFile path content := do
    match (← get).writeFile path content with
    | .ok w => set w; return .ok ()
    | .error f => return .error f
  kind? path := return (← get).kind? path

end Lowering
