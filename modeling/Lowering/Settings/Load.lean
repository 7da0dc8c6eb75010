import Lowering.Host.Basic
import Lowering.Settings.Basic

namespace Lowering.Settings

def fileName : Text := "xform.toml"

inductive Error where
  | unreadable (path : Text) (fault : FileFault)
  | refused (path : Text) (refusal : Refusal)
deriving DecidableEq, Repr

def Error.message : Error → Text
  | unreadable path fault => "cannot read " ++ path ++ ": " ++ fault.message
  | refused path refusal => refusal.message path

variable {m : Type → Type} [Monad m] [Host m]

def loadFile (path : Text) : m (Except Error Settings) := do
  match ← Host.readFile path with
  | .error fault => return .error (.unreadable path fault)
  | .ok text =>
    let folder := Path.absolute (← Host.workingFolder) (Path.folder path)
    match ofText folder text with
    | .ok s => return .ok s
    | .error refusal => return .error (.refused path refusal)

def load (folder : Text) : m (Except Error Settings) := loadFile (Path.join folder fileName)

def findIn : List Text → m (Except Error (Option Settings))
  | [] => return .ok none
  | folder :: folders => do
    if (← Host.kind? (Path.join folder fileName)).isSome then
      return (← load folder).map some
    else findIn folders

def ancestorsFuel : Nat → Text → List Text
  | 0, folder => [folder]
  | fuel + 1, folder =>
    if Path.folder folder = folder then [folder]
    else folder :: ancestorsFuel fuel (Path.folder folder)

/-- A folder and those above it, nearest first. Each step up makes the path shorter. -/
def ancestors (folder : Text) : List Text := ancestorsFuel folder.length folder

def find (start : Text) : m (Except Error (Option Settings)) := do
  findIn (ancestors (Path.absolute (← Host.workingFolder) start))

end Lowering.Settings
