import Lowering.Command.Run

namespace Lowering.Main

def stringOf? (t : Text) : Option String := String.fromUTF8? ⟨t.bytes.toArray⟩

def kindAt (path : String) : IO (Option FileKind) := do
  let full := (← IO.currentDir) / path
  if path.isEmpty then return none
  else if ← full.isDir then return some .folder
  else if ← full.pathExists then return some .file
  else return none

/-- The code of the system for a name that is too long. -/
def longNameCode : UInt32 := 36

def causeOf (e : IO.Error) (kind : Option FileKind) : FileFault.Cause :=
  match e, kind with
  | .noFileOrDirectory .., _ => .missing
  | _, some .folder => .isFolder
  | .inappropriateType .., _ => .notFolder
  | .invalidArgument _ code _, _ => if code = longNameCode then .longName else .badName
  | _, _ => .missing

instance : Host IO where
  workingFolder := return Text.ofString (← IO.currentDir).toString
  homeFolder := return Text.ofString ((← IO.getEnv "HOME").getD "/")
  input := return ⟨(← (← IO.getStdin).readBinToEnd).toList⟩
  print t := do
    let out ← IO.getStdout
    out.write ⟨t.bytes.toArray⟩
    out.flush
  readFile path := do
    match stringOf? path with
    | none => return .error ⟨.opening, path, .missing⟩
    | some p =>
      if (← kindAt p) = some .folder then return .error ⟨.reading, path, .isFolder⟩
      try return .ok ⟨(← IO.FS.readBinFile p).toList⟩
      catch e => return .error ⟨.opening, path, causeOf e (← kindAt p)⟩
  writeFile path content := do
    match stringOf? path with
    | none => return .error ⟨.opening, path, .missing⟩
    | some p =>
      try return .ok (← IO.FS.writeBinFile p ⟨content.bytes.toArray⟩)
      catch e => return .error ⟨.opening, path, causeOf e (← kindAt p)⟩
  kind? path := do
    match stringOf? path with
    | none => return none
    | some p => kindAt p

end Lowering.Main

def main (args : List String) : IO UInt32 := do
  let outcome : Lowering.Command.Outcome ←
    Lowering.Command.execute (args.map Lowering.Text.ofString)
  if let .failed e := outcome then
    let err ← IO.getStderr
    err.write ⟨(Lowering.Text.ofString "Error: " ++ e.message ++ "\n").bytes.toArray⟩
  return outcome.exitCode
