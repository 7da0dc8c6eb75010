import Lowering.Forest.Tree
import Lowering.Text.Quoted

namespace Lowering

structure Arity where
  least : Nat
  most : Option Nat
deriving DecidableEq, Repr

namespace Arity

def exactly (n : Nat) : Arity := ⟨n, some n⟩

def between (least most : Nat) : Arity := ⟨least, some most⟩

def atLeast (n : Nat) : Arity := ⟨n, none⟩

/-- The operands that a tag takes; a tag without an entry takes any. -/
def ofTag : Tag → Option Arity
  | .assign => some (exactly 2)
  | .call => some (between 1 3)
  | .callm => some (between 2 4)
  | .lambda | .proc => some (between 0 2)
  | .defm | .defun => some (exactly 3)
  | .letIn => some (atLeast 1)
  | .classDef => some (between 1 3)
  | .moduleDef => some (between 1 2)
  | .index => some (exactly 2)
  | .range => some (exactly 2)
  | .sexp => some (exactly 1)
  | .destruct => some (atLeast 1)
  | .concat => some (atLeast 1)
  | .op _ => some (between 1 2)
  | _ => none

def admits (a : Arity) (count : Nat) : Bool := a.least ≤ count && a.most.all (count ≤ ·)

def message (a : Arity) (got : Nat) : Text :=
  let want : Text := match a.most with
    | none => "at least " ++ Decimal.ofNat a.least
    | some most =>
      if a.least = most then Decimal.ofNat a.least
      else Decimal.ofNat a.least ++ " to " ++ Decimal.ofNat most
  "want " ++ want ++ " operands, got " ++ Decimal.ofNat got

end Arity

inductive Complaint where
  | operandCount (want : Arity) (got : Nat)
  | methodName
  | definitionName
  | leftOver
  | yieldCall
  | stringOutside (text : Text)
  | intOutside (value : Int64)
  | noSlot (key : Text)
  | exportsWithoutBody (names : List Text)
deriving DecidableEq, Repr

namespace Complaint

inductive Kind where
  | malformed
  | unresolved
  | inconsistent
deriving DecidableEq, Repr

def Kind.ofCode? (code : Int) : Option Kind :=
  if code = 1 then some malformed
  else if code = 2 then some unresolved
  else if code = 3 then some inconsistent
  else none

def Kind.text : Kind → Text
  | malformed => "malformed node"
  | unresolved => "unresolved form"
  | inconsistent => "scope consistency"

def kindText (code : Int) : Text := ((Kind.ofCode? code).map Kind.text).getD "unknown"

def kind : Complaint → Kind
  | operandCount _ _ | methodName | definitionName => .malformed
  | leftOver | yieldCall | stringOutside _ | intOutside _ => .unresolved
  | noSlot _ | exportsWithoutBody _ => .inconsistent

def message (tag : Tag) : Complaint → Text
  | operandCount want got => tag.spelling ++ ": " ++ want.message got
  | methodName => "callm: method name must be a symbol"
  | definitionName => tag.spelling ++ ": name must be a symbol"
  | leftOver => tag.spelling ++ " form left after all passes"
  | yieldCall => "call to yield left after all passes"
  | stringOutside text => "string literal " ++ Quoted.encode text ++ " outside sexp"
  | intOutside value => "integer literal " ++ Decimal.ofInt64 value ++ " outside sexp"
  | noSlot key => key ++ " has no environment slot"
  | exportsWithoutBody names =>
    tag.spelling ++ " exports [" ++ Text.join " " names ++ "] but has no body"

/-- What is wrong with the operands of a node, given their number and which are symbols: their
number is checked first, then the operand that has to be a name. -/
def ofOperands (tag : Tag) (count : Nat) (isSymbol : Nat → Bool) : Option Complaint :=
  match Arity.ofTag tag with
  | none => none
  | some arity =>
    if !arity.admits count then some (operandCount arity count)
    else match tag with
      | .callm => if isSymbol 1 then none else some methodName
      | .defm | .defun | .classDef | .moduleDef =>
        if isSymbol 0 then none else some definitionName
      | _ => none

end Complaint

structure Diagnostic where
  pos : Position
  tag : Tag
  complaint : Complaint
deriving DecidableEq, Repr

namespace Diagnostic

def text (d : Diagnostic) : Text := d.complaint.message d.tag

def message (d : Diagnostic) : Text := d.pos.text ++ ": " ++ d.text

end Diagnostic

namespace Node

def diagnostic (n : Node) (complaint : Complaint) : Diagnostic := ⟨n.pos, n.tag, complaint⟩

def malformed? (n : Node) : Option Diagnostic :=
  (Complaint.ofOperands n.tag n.args.length fun i => (n.arg i).isSymbol).map n.diagnostic

end Node

namespace Tree

def malformed? {α : Type} (tag : Tag) (args : List (Tree α)) : Option Complaint :=
  Complaint.ofOperands tag args.length fun i => ((args[i]?).bind symbol?).isSome

end Tree

end Lowering
