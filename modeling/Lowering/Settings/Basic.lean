import Lowering.Path
import Lowering.Pipeline
import Lowering.Toml.Document

namespace Lowering

inductive LayoutFormat where
  | yaml
  | cbor
deriving DecidableEq, Repr

namespace LayoutFormat

def name : LayoutFormat → Text
  | yaml => "yaml"
  | cbor => "cbor"

def ofName? (name : Text) : Option LayoutFormat :=
  [yaml, cbor].find? fun f => f.name = name

end LayoutFormat

structure Settings where
  options : Options := {}
  /-- Where the class layout goes; empty for nowhere. -/
  classes : Text := Text.empty
  format : LayoutFormat := .yaml
  /-- Where a snapshot of the result goes; empty for nowhere. -/
  snapshot : Text := Text.empty
  /-- The folder of the settings, from which their paths start; empty if they come from no file. -/
  folder : Text := Text.empty
deriving DecidableEq, Repr

namespace Settings

def outside (s : Settings) (path : Text) : Text :=
  if path.isEmpty ∨ Path.isRooted path ∨ s.folder.isEmpty then path
  else Path.join s.folder path

def classesPath (s : Settings) : Text := s.outside s.classes

def snapshotPath (s : Settings) : Text := s.outside s.snapshot

inductive Refusal where
  | malformed
  | unknownKey (key : Toml.Key)
  | wordSize (size : Int64)
  | format (name : Text)
  | pass (name : Text)
deriving DecidableEq, Repr

def Refusal.message (path : Text) : Refusal → Text
  | malformed => "parse error in " ++ path
  | unknownKey key => path ++ ": unknown key " ++ Toml.Key.text key
  | wordSize size => path ++ ": word-size must be 4 or 8, got " ++ Decimal.ofInt64 size
  | format name => path ++ ": unknown class layout format " ++ Quoted.encode name
  | pass name => path ++ ": unknown pass " ++ Quoted.encode name ++ " in disabled"

/-- The fields of the text; those that it leaves out are empty or zero. -/
structure Fields where
  disabled : List Text := []
  wordSize : Int64 := 0
  labelStem : Text := Text.empty
  reserved : List Text := []
  classes : Text := Text.empty
  format : Text := Text.empty
  snapshot : Text := Text.empty

/-- Letters without their case. The long s and the sign for kelvin are forms of the letters s
and k. -/
def foldCase (t : Text) : List Nat :=
  (Utf8.pieces t.lowerAscii.bytes).map fun
    | .point 0x17F _ => 0x73
    | .point 0x212A _ => 0x6B
    | .point code _ => code
    | .stray b => 0x110000 + b.toNat

def named? (entries : List (Text × α)) (name : Text) : Option α :=
  match entries.lookup name with
  | some a => some a
  | none => (entries.find? fun e => foldCase e.1 = foldCase name).map (·.2)

def textOf? : Toml.Item → Option Text
  | .value (.str t) => some t
  | _ => none

def wordOf? : Toml.Item → Option Int64
  | .value (.int i) => some i
  | _ => none

def textsOf? : Toml.Item → Option (List Text)
  | .value (.array elems) => elems.mapM fun v => textOf? (.value v)
  | _ => none

/-- How a value of the right type fills a field. -/
abbrev Filler := Toml.Item → Fields → Option Fields

def pipelineFields : List (Text × Filler) :=
  [("disabled", fun i f => (textsOf? i).map fun v => { f with disabled := v }),
    ("word-size", fun i f => (wordOf? i).map fun v => { f with wordSize := v }),
    ("label-prefix", fun i f => (textOf? i).map fun v => { f with labelStem := v }),
    ("reserved-methods", fun i f => (textsOf? i).map fun v => { f with reserved := v })]

def outputFields : List (Text × Filler) :=
  [("classes", fun i f => (textOf? i).map fun v => { f with classes := v }),
    ("format", fun i f => (textOf? i).map fun v => { f with format := v }),
    ("snapshot", fun i f => (textOf? i).map fun v => { f with snapshot := v })]

def tables : List (Text × List (Text × Filler)) :=
  [("pipeline", pipelineFields), ("output", outputFields)]

structure Progress where
  fields : Fields := {}
  known : List Toml.Key := []

def fillEntry (name : Text) (fillers : List (Text × Filler)) (p : Progress)
    (entry : Text × Toml.Item) : Option Progress :=
  match named? fillers entry.1 with
  | none => some p
  | some fill => do
    return { fields := ← fill entry.2 p.fields, known := [name, entry.1] :: p.known }

def fillTable (p : Progress) (entry : Text × Toml.Item) : Option Progress :=
  match named? tables entry.1 with
  | none => some p
  | some fillers =>
    match entry.2 with
    | .table entries =>
      entries.foldlM (fillEntry entry.1 fillers) { p with known := [entry.1] :: p.known }
    | _ => none

def Fields.ofText (t : Text) : Except Refusal Fields :=
  match Toml.Document.parse? t with
  | none => .error .malformed
  | some doc =>
    match doc.root.foldlM fillTable {} with
    | none => .error .malformed
    | some p =>
      match doc.keys.find? fun k => !p.known.contains k with
      | some key => .error (.unknownKey key)
      | none => .ok p.fields

/-- Empty fields get the usual values; then word size, format and disabled passes are checked in
this order. -/
def ofFields (folder : Text) (f : Fields) : Except Refusal Settings := do
  let size := if f.wordSize = 0 then 4 else f.wordSize
  if size ≠ 4 ∧ size ≠ 8 then .error (.wordSize size)
  let some format := LayoutFormat.ofName? (if f.format.isEmpty then "yaml" else f.format)
    | .error (.format f.format)
  if let some name := f.disabled.find? fun name => (Pass.ofName? name).isNone then
    .error (.pass name)
  return {
    options := {
      wordSize := size
      labelStem := if f.labelStem.isEmpty then ".L" else f.labelStem
      disabled := f.disabled
      reserved := f.reserved }
    classes := f.classes, format, snapshot := f.snapshot, folder }

def ofText (folder t : Text) : Except Refusal Settings := do
  ofFields folder (← Fields.ofText t)

end Settings

end Lowering
