import Lowering.Text.Decimal

namespace Lowering.Command

inductive Name where
  | run
  | check
deriving DecidableEq, Repr

structure Invocation where
  command : Option Name := none
  /-- The source; nothing, or a hyphen, is standard input. -/
  file : Option Text := none
  config : Option Text := none
  classes : Text := Text.empty
  snapshot : Text := Text.empty
  disabled : List Text := []
deriving DecidableEq, Repr

namespace Invocation

def positional (i : Invocation) (word : Text) : Option Invocation :=
  match i.command with
  | none =>
    if word = "run" then some { i with command := some .run }
    else if word = "check" then some { i with command := some .check }
    else none
  | some _ =>
    match i.file with
    | none => some { i with file := some word }
    | some _ => none

end Invocation

/-- The pieces of a list of names. A comma after a backslash does not divide, and nothing after the
last comma is no piece. `piece` holds the bytes of the first piece so far, last one first. -/
def splitNames (escaped : Bool) (piece : List UInt8) : List UInt8 → List Text
  | [] => if piece.isEmpty then [] else [⟨piece.reverse⟩]
  | b :: rest =>
    if escaped then
      splitNames false (if b = 0x2C then b :: piece else b :: 0x5C :: piece) rest
    else if b = 0x5C ∧ ¬ rest.isEmpty then splitNames true piece rest
    else if b = 0x2C then ⟨piece.reverse⟩ :: splitNames false [] rest
    else splitNames false (b :: piece) rest

/-- Whether a word of its own can be the value of a flag: it must not look like a flag. A lone
hyphen does not. -/
def isValue (word : Text) : Bool := !word.startsWith "-" || word = "-"

/-- A whole number with or without a sign, in 64 bits. -/
def isCount (t : Text) : Bool :=
  match t.bytes with
  | 0x2B :: digits =>
    digits.head?.any Decimal.isDigit && (Decimal.toInt64? ⟨digits⟩).isSome
  | _ => (Decimal.toInt64? t).isSome

inductive Flag where
  | config
  | classes
  | snapshot
  | disable
deriving DecidableEq, Repr

namespace Flag

def common : List (Text × Flag) := [("config", config)]

def ofRun : List (Text × Flag) :=
  [("classes", classes), ("snapshot", snapshot), ("disable", disable)]

def ofName? (command : Option Name) (name : Text) : Option Flag :=
  (common ++ if command = some .run then ofRun else []).lookup name

/-- A flag with its value. Of several files of settings the first one counts, of several outputs the
last one; passes add up. -/
def apply (i : Invocation) (value : Text) : Flag → Invocation
  | config => { i with config := some (i.config.getD value) }
  | classes => { i with classes := value }
  | snapshot => { i with snapshot := value }
  | disable => { i with disabled := i.disabled ++ splitNames false [] value.bytes }

/-- Whether a word of its own can be the value of this flag; a list is looked at name by name. -/
def takes (word : Text) : Flag → Bool
  | disable => (splitNames false [] word.bytes).all isValue
  | _ => isValue word

end Flag

def splitFlag (word : Text) : Text × Option Text :=
  match (word.bytes.drop 2).span (· ≠ 0x3D) with
  | (name, []) => (⟨name⟩, none)
  | (name, _ :: value) => (⟨name⟩, some ⟨value⟩)

/-- Reads the arguments one by one; nothing if they are refused. After `--` there are no flags. The
flag for more messages, `-v`, may be repeated or counted, and changes no result. -/
def arguments (i : Invocation) : List Text → Option Invocation
  | [] => some i
  | word :: rest =>
    if word = "--" then rest.foldlM Invocation.positional i
    else if word.startsWith "--" then
      let (name, value) := splitFlag word
      if name = "verbose" then if value.all isCount then arguments i rest else none
      else match Flag.ofName? i.command name with
        | none => none
        | some flag =>
          match value with
          | some value => arguments (flag.apply i value) rest
          | none =>
            match rest with
            | [] => none
            | value :: rest =>
              if flag.takes value then arguments (flag.apply i value) rest else none
    else if word.startsWith "-" ∧ word ≠ "-" then
      if (word.bytes.drop 1).all (· = 0x76) then arguments i rest else none
    else match i.positional word with
      | some i => arguments i rest
      | none => none

def Invocation.parse? (words : List Text) : Option Invocation := arguments {} words

end Lowering.Command
