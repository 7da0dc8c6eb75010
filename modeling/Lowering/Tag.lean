import Lowering.Text.Basic

namespace Lowering

/-- The operators, each of which stands for a call of the method of its name. -/
inductive Operator where
  | plus | minus | times | divide | modulo | power
  | equal | notEqual | less | greater | lessEqual | greaterEqual | compare | caseEqual
  | shiftLeft | shiftRight | bitAnd | bitOr | bitXor
  | bang | regexMatch | element | negate | complement
deriving DecidableEq, Repr

namespace Operator

def all : List Operator :=
  [plus, minus, times, divide, modulo, power, equal, notEqual, less, greater, lessEqual,
    greaterEqual, compare, caseEqual, shiftLeft, shiftRight, bitAnd, bitOr, bitXor, bang,
    regexMatch, element, negate, complement]

def byte : Operator → UInt8
  | plus => 0x40 | minus => 0x41 | times => 0x42 | divide => 0x43 | modulo => 0x44
  | power => 0x45 | equal => 0x46 | notEqual => 0x47 | less => 0x48 | greater => 0x49
  | lessEqual => 0x4A | greaterEqual => 0x4B | compare => 0x4C | caseEqual => 0x4D
  | shiftLeft => 0x4E | shiftRight => 0x4F | bitAnd => 0x50 | bitOr => 0x51 | bitXor => 0x52
  | bang => 0x53 | regexMatch => 0x54 | element => 0x55 | negate => 0x56 | complement => 0x57

def spelling : Operator → Text
  | plus => "+" | minus => "-" | times => "*" | divide => "/" | modulo => "%" | power => "**"
  | equal => "==" | notEqual => "!=" | less => "<" | greater => ">" | lessEqual => "<="
  | greaterEqual => ">=" | compare => "<=>" | caseEqual => "===" | shiftLeft => "<<"
  | shiftRight => ">>" | bitAnd => "&" | bitOr => "|" | bitXor => "^" | bang => "!"
  | regexMatch => "=~" | element => "[]" | negate => "-@" | complement => "~"

end Operator

/-- Whether a byte stands for one of the tags that have a meaning. -/
def isAssignedByte (b : UInt8) : Bool :=
  b ≤ 0x04 || (0x08 ≤ b && b ≤ 0x0C) || (0x10 ≤ b && b ≤ 0x17) || (0x20 ≤ b && b ≤ 0x21) ||
    (0x28 ≤ b && b ≤ 0x32) || (0x40 ≤ b && b ≤ 0x57)

/-- The operation of a node. A byte without a meaning is kept as it is, since stored trees may
hold one. -/
inductive Tag where
  | list | block | letIn | sexp | sub
  | assign | call | callm | index | destruct
  | defm | defun | lambda | proc | ret | preturn | yield | stackframe
  | classDef | moduleDef
  | range | concat | array | hash | pair | cond | loop | conj | disj | neg | ternalt
  | op (operator : Operator)
  | unassigned (byte : UInt8) (free : isAssignedByte byte = false)
deriving DecidableEq, Repr

namespace Tag

def byte : Tag → UInt8
  | list => 0x00 | block => 0x01 | letIn => 0x02 | sexp => 0x03 | sub => 0x04
  | assign => 0x08 | call => 0x09 | callm => 0x0A | index => 0x0B | destruct => 0x0C
  | defm => 0x10 | defun => 0x11 | lambda => 0x12 | proc => 0x13 | ret => 0x14
  | preturn => 0x15 | yield => 0x16 | stackframe => 0x17
  | classDef => 0x20 | moduleDef => 0x21
  | range => 0x28 | concat => 0x29 | array => 0x2A | hash => 0x2B | pair => 0x2C | cond => 0x2D
  | loop => 0x2E | conj => 0x2F | disj => 0x30 | neg => 0x31 | ternalt => 0x32
  | op o => o.byte
  | unassigned b _ => b

def assigned : List Tag :=
  [list, block, letIn, sexp, sub, assign, call, callm, index, destruct, defm, defun, lambda, proc,
    ret, preturn, yield, stackframe, classDef, moduleDef, range, concat, array, hash, pair, cond,
    loop, conj, disj, neg, ternalt] ++ Operator.all.map op

def ofByte (b : UInt8) : Tag :=
  if free : isAssignedByte b = false then unassigned b free
  else (assigned.find? fun t => t.byte = b).getD list

def spelling : Tag → Text
  | list => "list" | block => "do" | letIn => "let" | sexp => "sexp" | sub => "sub"
  | assign => "assign" | call => "call" | callm => "callm" | index => "index"
  | destruct => "destruct"
  | defm => "defm" | defun => "defun" | lambda => "lambda" | proc => "proc" | ret => "return"
  | preturn => "preturn" | yield => "yield" | stackframe => "stackframe"
  | classDef => "class" | moduleDef => "module"
  | range => "range" | concat => "concat" | array => "array" | hash => "hash" | pair => "pair"
  | cond => "if" | loop => "while" | conj => "and" | disj => "or" | neg => "not"
  | ternalt => "ternalt"
  | op o => o.spelling
  | unassigned _ _ => "tag?"

/-- The tag of a spelling; a byte without a meaning has none that can be read. -/
def ofSpelling? (t : Text) : Option Tag := assigned.find? fun tag => tag.spelling = t

def isOperator : Tag → Bool
  | op _ => true
  | _ => false

/-- The method that an operator calls; empty for the other tags. -/
def method : Tag → Text
  | op o => o.spelling
  | _ => Text.empty

def isClosure : Tag → Bool
  | lambda | proc => true
  | _ => false

/-- The forms that open a function body of their own. -/
def isFunction : Tag → Bool
  | defm | defun | lambda | proc => true
  | _ => false

theorem byte_ofByte_fin : ∀ i : Fin 256, (ofByte (UInt8.ofNat i)).byte = UInt8.ofNat i := by
  decide +kernel

theorem byte_ofByte (b : UInt8) : (ofByte b).byte = b := by
  have h := byte_ofByte_fin ⟨b.toNat, UInt8.toNat_lt b⟩
  simpa using h

theorem ofByte_byte (t : Tag) : ofByte t.byte = t := by
  cases t with
  | op o => cases o <;> decide
  | unassigned b free => simp [byte, ofByte, free]
  | _ => decide

theorem byte_injective {s t : Tag} (h : s.byte = t.byte) : s = t := by
  rw [← ofByte_byte s, ← ofByte_byte t, h]

theorem ofSpelling?_spelling {t : Tag} (h : t ∈ assigned) : ofSpelling? t.spelling = some t := by
  have all : ∀ t ∈ assigned, ofSpelling? t.spelling = some t := by decide +kernel
  exact all t h

theorem spelling_of_ofSpelling? {s : Text} {t : Tag} (h : ofSpelling? s = some t) :
    t.spelling = s := by
  simpa using List.find?_some h

end Tag

end Lowering
