namespace Lowering

/-- A sequence of bytes that is read as a name, a literal, a message or a whole source. -/
structure Text where
  bytes : List UInt8
deriving DecidableEq, Inhabited, Repr

namespace Text

def ofString (s : String) : Text := ⟨s.toUTF8.data.toList⟩

instance : Coe String Text := ⟨ofString⟩

instance : Append Text := ⟨fun a b => ⟨a.bytes ++ b.bytes⟩⟩

def empty : Text := ⟨[]⟩

def isEmpty (t : Text) : Bool := t.bytes.isEmpty

def length (t : Text) : Nat := t.bytes.length

@[simp] theorem bytes_append (a b : Text) : (a ++ b).bytes = a.bytes ++ b.bytes := rfl

@[simp] theorem bytes_empty : empty.bytes = [] := rfl

theorem ext_bytes {a b : Text} (h : a.bytes = b.bytes) : a = b := by
  cases a; cases b; simp_all

def concat (parts : List Text) : Text := ⟨parts.flatMap bytes⟩

@[simp] theorem bytes_concat (parts : List Text) :
    (concat parts).bytes = parts.flatMap bytes := rfl

def join (sep : Text) (parts : List Text) : Text := concat (parts.intersperse sep)

def startsWith (t start : Text) : Bool := start.bytes.isPrefixOf t.bytes

def endsWith (t ending : Text) : Bool := ending.bytes.isSuffixOf t.bytes

/-- Without `start`, if the text begins with it; else unchanged. -/
def dropStart (t start : Text) : Text :=
  if t.startsWith start then ⟨t.bytes.drop start.length⟩ else t

def contains (t : Text) (b : UInt8) : Bool := t.bytes.contains b

/-- What follows one given byte. -/
def expect (b : UInt8) : List UInt8 → Option (List UInt8)
  | c :: rest => if c = b then some rest else none
  | [] => none

/-- Order by bytes; a proper beginning comes first. -/
def less (a b : Text) : Bool := decide (a.bytes < b.bytes)

/-- The pieces between occurrences of a byte: one more piece than occurrences. -/
def splitOn (sep : UInt8) (t : Text) : List Text := (t.bytes.splitOn sep).map Text.mk

/-- ASCII capitals become small letters. -/
def lowerAscii (t : Text) : Text :=
  ⟨t.bytes.map fun b => if 0x41 ≤ b ∧ b ≤ 0x5A then b + 0x20 else b⟩

end Text

end Lowering
