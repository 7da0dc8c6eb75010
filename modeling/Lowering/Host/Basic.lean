import Lowering.Text.Basic

namespace Lowering

inductive FileKind where
  | file
  | folder
deriving DecidableEq, Repr

inductive FileFault.Cause where
  | missing
  | notFolder
  | isFolder
  | badName
  | longName
deriving DecidableEq, Repr

inductive FileFault.Action where
  | opening
  | reading
deriving DecidableEq, Repr

structure FileFault where
  action : FileFault.Action
  path : Text
  cause : FileFault.Cause
deriving DecidableEq, Repr

namespace FileFault

def Cause.text : Cause → Text
  | missing => "no such file or directory"
  | notFolder => "not a directory"
  | isFolder => "is a directory"
  | badName => "invalid argument"
  | longName => "file name too long"

def Action.text : Action → Text
  | opening => "open"
  | reading => "read"

def message (f : FileFault) : Text :=
  f.action.text ++ " " ++ f.path ++ ": " ++ f.cause.text

end FileFault

class Host (m : Type → Type) where
  /-- The folder that relative paths start from. -/
  workingFolder : m Text
  homeFolder : m Text
  input : m Text
  print : Text → m Unit
  readFile : Text → m (Except FileFault Text)
  /-- Makes the file, or replaces what it holds. -/
  writeFile : Text → Text → m (Except FileFault Unit)
  kind? : Text → m (Option FileKind)

end Lowering
