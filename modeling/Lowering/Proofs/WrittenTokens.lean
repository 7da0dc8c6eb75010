import Lowering.Notation.Printer
import Lowering.Proofs.TokenSplits
import Lowering.Proofs.Trees

namespace Lowering

namespace Decimal

variable {n : Nat}

theorem digit_bounds (h : c ∈ Nat.toDigits 10 n) : 0x30 ≤ c.toNat ∧ c.toNat ≤ 0x39 := by
  have hd := Nat.isDigit_of_mem_toDigits (by decide) (by decide) h
  simp only [Char.isDigit, Bool.and_eq_true, decide_eq_true_eq, ge_iff_le,
    UInt32.le_iff_toNat_le] at hd
  exact hd

theorem toNat_digit (h : c ∈ Nat.toDigits 10 n) : c.toNat.toUInt8.toNat = c.toNat := by
  have := digit_bounds h
  exact UInt8.toNat_ofNat_of_lt (Nat.lt_of_le_of_lt this.2 (by decide))

theorem isDigit_of_mem_digits (h : b ∈ digits n) : isDigit b = true := by
  obtain ⟨c, hc, rfl⟩ := List.mem_map.mp h
  have := digit_bounds hc
  simp only [isDigit, decide_eq_true_eq, UInt8.le_iff_toNat_le, toNat_digit hc]
  exact this

theorem digits_ne_nil (n : Nat) : digits n ≠ [] := by
  simp [digits]

theorem value_digits (n : Nat) : value (digits n) = n := by
  conv => rhs; rw [← Nat.ofDigitChars_ten_toDigits (n := n)]
  unfold value digits Nat.ofDigitChars
  rw [List.foldl_map]
  apply List.foldl_ext
  intro m c hc
  rw [toNat_digit hc]
  rfl

theorem ofNat_injective : Function.Injective ofNat := by
  intro i j h
  rw [← value_digits i, ← value_digits j]
  exact congrArg (fun t : Text => value t.bytes) h

theorem toInt?_ofInt (i : Int) : toInt? (ofInt i) = some i := by
  have hall : ∀ n, (digits n).all isDigit = true :=
    fun n => List.all_eq_true.mpr fun b hb => isDigit_of_mem_digits hb
  cases i with
  | ofNat n =>
    have hdigits := hall n
    unfold toInt? ofInt
    cases hd : digits n with
    | nil => exact absurd hd (digits_ne_nil n)
    | cons b bs =>
      have hb : isDigit b = true := isDigit_of_mem_digits (n := n) (by simp [hd])
      have hminus : b ≠ 0x2D := by
        rintro rfl
        exact absurd hb (by decide)
      rw [hd] at hdigits
      simp only [hd, if_neg hminus, if_pos hdigits]
      rw [← hd, value_digits]
      rfl
  | negSucc n =>
    unfold toInt? ofInt
    simp only [if_true, if_pos (And.intro (digits_ne_nil (n + 1)) (hall (n + 1))), value_digits]
    rfl

/-- A numeral is made of digits, and a minus sign may stand in front. -/
theorem bytes_ofInt (i : Int) :
    (ofInt i).bytes ≠ [] ∧ ∀ b ∈ (ofInt i).bytes, isDigit b = true ∨ b = 0x2D := by
  cases i with
  | ofNat n => exact ⟨digits_ne_nil n, fun b hb => .inl (isDigit_of_mem_digits hb)⟩
  | negSucc n =>
    refine ⟨List.cons_ne_nil _ _, fun b hb => ?_⟩
    rcases List.mem_cons.mp hb with rfl | hb
    · exact .inr rfl
    · exact .inl (isDigit_of_mem_digits hb)

theorem toInt64?_ofInt64 (i : Int64) : toInt64? (ofInt64 i) = some i := by
  have hl := Int64.le_toInt i
  have hu := Int64.toInt_lt i
  rw [toInt64?, ofInt64, toInt?_ofInt, Option.bind_some, toWord?, if_pos (by omega),
    Int64.ofInt_toInt]

end Decimal

/-- A text that stands for itself as a symbol: the scanner takes it as one atom, and it is neither
the underscore nor a numeral of 64 bits. -/
def Text.IsSymbol (t : Text) : Prop :=
  t.bytes ≠ [] ∧ (∀ b ∈ t.bytes, Token.endsAtom b = false) ∧ t ≠ "_" ∧ Decimal.toInt64? t = none

instance (t : Text) : Decidable t.IsSymbol :=
  inferInstanceAs (Decidable (_ ∧ _ ∧ _ ∧ _))

/-- An atom of a kind that has a meaning, and if it is a symbol, one that stands for itself. -/
def Atom.Writable : Atom → Prop
  | sym name => name.IsSymbol
  | unknown _ => False
  | _ => True

instance (a : Atom) : Decidable a.Writable :=
  match a with
  | .sym name => inferInstanceAs (Decidable name.IsSymbol)
  | .unknown _ => isFalse id
  | .nil | .str _ | .int _ => isTrue trivial

/-- The token that an atom is written as; none for an unknown kind. -/
def Atom.token? : Atom → Option Token.Kind
  | nil => some (.atom "_")
  | sym name => some (.atom name)
  | str text => some (.string (Quoted.encodeBody text))
  | int value => some (.atom (Decimal.ofInt64 value))
  | unknown _ => none

namespace Tree

variable {α : Type}

/-- A tree over writable atoms in which every tag has a meaning. -/
inductive Writable : Tree α → Prop where
  | leaf {a : Atom} (atom : a.Writable) : Writable (.leaf a)
  | node {mark : α} {tag : Tag} {args : List (Tree α)} (assigned : tag ∈ Tag.assigned)
      (each : ∀ t ∈ args, Writable t) : Writable (.node mark tag args)

mutual
/-- The tokens with which a tree is written. -/
def tokens : Tree α → List Token.Kind
  | leaf a => a.token?.toList
  | node _ tag args => .opening :: (heading tag args).map .atom ++ tokensEach args ++ [.closing]

def tokensEach : List (Tree α) → List Token.Kind
  | [] => []
  | t :: ts => tokens t ++ tokensEach ts
end

/-- What stands between the parentheses of a node: a first symbol if its tag is written, and its
operands. -/
def writtenParts (tag : Tag) (args : List (Tree α)) : List (Tree α) :=
  (heading tag args).map (fun name => .leaf (.sym name)) ++ args

theorem heading_cases (tag : Tag) (args : List (Tree α)) : heading tag args = [tag.spelling] ∨
    heading tag args = [] ∧ tag = .list ∧
      (args.head?.bind symbol?).bind Tag.ofSpelling? = none := by
  unfold heading
  split
  · exact .inl rfl
  · rename_i htag
    obtain rfl : tag = .list := by simpa using htag
    split
    · exact .inl rfl
    · rename_i hnone
      exact .inr ⟨rfl, rfl, hnone⟩

theorem formats_eq (ts : List (Tree α)) : formats ts = ts.map format := by
  induction ts with
  | nil => rfl
  | cons t ts ih => rw [formats, ih, List.map_cons]

theorem tokensEach_eq (ts : List (Tree α)) : tokensEach ts = ts.flatMap tokens :=
  eq_flatMap rfl (fun _ _ => rfl) ts

theorem format_node (mark : α) (tag : Tag) (args : List (Tree α)) : format (.node mark tag args) =
    "(" ++ Text.join " " ((writtenParts tag args).map format) ++ ")" := by
  have hhead : ((heading tag args).map fun name => (leaf (.sym name) : Tree α)).map format =
      heading tag args := by
    rw [List.map_map]
    exact List.map_id _
  rw [format, formats_eq, writtenParts, List.map_append, hhead]

theorem tokens_node (mark : α) (tag : Tag) (args : List (Tree α)) :
    tokens (.node mark tag args) = .opening ::
    ((writtenParts tag args).flatMap tokens ++ [.closing]) := by
  have hhead : ((heading tag args).map fun name => (leaf (.sym name) : Tree α)).flatMap tokens =
      (heading tag args).map .atom := by
    rw [List.flatMap_map]
    exact List.map_eq_flatMap.symm
  rw [tokens, tokensEach_eq, writtenParts, List.flatMap_append, hhead]
  simp

theorem isSymbol_spelling (h : tag ∈ Tag.assigned) : tag.spelling.IsSymbol := by
  have all : ∀ tag ∈ Tag.assigned, tag.spelling.IsSymbol := by decide +kernel
  exact all tag h

theorem forall_mem_writtenParts {P : Tree α → Prop} (hhead : P (.leaf (.sym tag.spelling)))
    (hargs : ∀ t ∈ args, P t) : ∀ t ∈ writtenParts tag args, P t := by
  unfold writtenParts
  refine List.forall_mem_append.mpr ⟨fun t ht => ?_, hargs⟩
  obtain ⟨name, hname, rfl⟩ := List.mem_map.mp ht
  rcases heading_cases tag args with h | ⟨h, -⟩
  · rw [h, List.mem_singleton] at hname
    subst hname
    exact hhead
  · simp [h] at hname

end Tree

theorem Text.join_cons_cons (sep a b : Text) (ts : List Text) :
    join sep (a :: b :: ts) = a ++ (sep ++ join sep (b :: ts)) := by
  apply Text.ext_bytes
  simp [join]

namespace Token

open Tree

variable {α : Type} {mode : Mode} {at_ start : Position} {bs rest seen : List UInt8}

/-- The kinds of the tokens in the rest of a text. -/
def kinds (mode : Mode) (at_ : Position) (bs : List UInt8) : List Kind :=
  (scanFrom mode at_ bs).map (·.kind)

theorem kinds_cons (mode : Mode) (at_ : Position) (b : UInt8) (bs : List UInt8) :
    kinds mode at_ (b :: bs) =
      (step at_ b mode).1.map (·.kind) ++ kinds (step at_ b mode).2 (at_.advance b) bs := by
  rw [kinds, scanFrom, List.map_append]
  rfl

theorem kinds_blank_atom (hne : bs ≠ []) (h : ∀ b ∈ bs, endsAtom b = false) (hs : Stops rest)
    (at_ : Position) : ∃ after,
      kinds .blank at_ (bs ++ rest) = .atom ⟨bs⟩ :: kinds .blank after rest := by
  refine ⟨bs.foldl Position.advance at_, ?_⟩
  rw [kinds, scanFrom_blank_atom hne h hs]
  rfl

theorem kinds_blank_quoted (t : Text) (at_ : Position) (rest : List UInt8) : ∃ after,
    kinds .blank at_ ((Quoted.encode t).bytes ++ rest) =
      .string (Quoted.encodeBody t) :: kinds .blank after rest := by
  refine ⟨(Quoted.encodeBody t ++ [0x22]).foldl Position.advance (at_.advance 0x22), ?_⟩
  rw [Quoted.encode, List.append_assoc, List.cons_append, kinds_cons]
  have hstring := scanFrom_string (Quoted.enclosed_encodeBody t) at_ (at_.advance 0x22) [] rest
  simp [step, enter, kinds, hstring]

/-- An atom is found as it was written, if the text can stop after it. -/
theorem kinds_format_atom {a : Atom} (h : a.Writable) (hs : Stops rest) (at_ : Position) :
    ∃ after, kinds .blank at_ (a.format.bytes ++ rest) =
      a.token?.toList ++ kinds .blank after rest := by
  cases a with
  | nil => exact kinds_blank_atom (by decide +kernel) (by decide +kernel) hs at_
  | sym name => exact kinds_blank_atom h.1 h.2.1 hs at_
  | str text => exact kinds_blank_quoted text at_ rest
  | int value =>
    obtain ⟨hne, hdigits⟩ := Decimal.bytes_ofInt value.toInt
    apply kinds_blank_atom hne ?_ hs at_
    intro b hb
    rcases hdigits b hb with hdigit | rfl
    · grind [Decimal.isDigit, endsAtom, isBlank]
    · rfl
  | unknown kind => exact absurd h id

/-- A tree is found as it was written, wherever the text can stop after it. -/
def Found (t : Tree α) : Prop := ∀ at_ rest, Stops rest → ∃ after,
  kinds .blank at_ (t.format.bytes ++ rest) = t.tokens ++ kinds .blank after rest

/-- What stands between parentheses is found part by part. -/
theorem kinds_formats {ts : List (Tree α)} (each : ∀ t ∈ ts, Found t) (at_ : Position)
    (rest : List UInt8) : ∃ after,
      kinds .blank at_ ((Text.join " " (ts.map format)).bytes ++ 0x29 :: rest) =
        ts.flatMap tokens ++ .closing :: kinds .blank after rest := by
  have close : ∀ at_, kinds .blank at_ (0x29 :: rest) =
      .closing :: kinds .blank (at_.advance 0x29) rest := by
    intro at_
    rw [kinds_cons]
    rfl
  induction ts generalizing at_ with
  | nil => exact ⟨_, close at_⟩
  | cons t ts ih =>
    obtain ⟨hone, hmore⟩ := List.forall_mem_cons.mp each
    cases ts with
    | nil =>
      obtain ⟨after, h⟩ := hone at_ (0x29 :: rest) rfl
      refine ⟨after.advance 0x29, ?_⟩
      rw [close] at h
      simpa [Text.join] using h
    | cons u ts =>
      obtain ⟨mid, h⟩ :=
        hone at_ (0x20 :: ((Text.join " " ((u :: ts).map format)).bytes ++ 0x29 :: rest)) rfl
      obtain ⟨after, hrest⟩ := ih hmore (mid.advance 0x20)
      have hblank : ∀ bs, kinds .blank mid (0x20 :: bs) = kinds .blank (mid.advance 0x20) bs := by
        intro bs
        rw [kinds_cons]
        rfl
      have hsep : (" " : Text).bytes = [0x20] := rfl
      refine ⟨after, ?_⟩
      rw [hblank, hrest] at h
      rw [List.map_cons, List.map_cons, Text.join_cons_cons]
      simpa [hsep] using h

theorem found_of_writable {t : Tree α} (h : t.Writable) : Found t := by
  induction h with
  | leaf atom => exact fun at_ rest hs => kinds_format_atom atom hs at_
  | @node mark tag args assigned _ ih =>
    intro at_ rest hs
    have hname : (Atom.sym tag.spelling).Writable := isSymbol_spelling assigned
    have hhead : Found (.leaf (.sym tag.spelling) : Tree α) :=
      fun at_ rest hs => kinds_format_atom hname hs at_
    obtain ⟨after, hafter⟩ := kinds_formats (forall_mem_writtenParts hhead ih)
      (at_.advance 0x28) rest
    have hopen : ("(" : Text).bytes = [0x28] := rfl
    have hclose : (")" : Text).bytes = [0x29] := rfl
    refine ⟨after, ?_⟩
    rw [format_node, tokens_node, Text.bytes_append, Text.bytes_append, hopen, hclose,
      List.append_assoc, List.append_assoc, List.singleton_append, kinds_cons]
    simpa [step, enter] using hafter

/-- The scanner finds the tokens that a tree was written as. -/
theorem scan_format {t : Tree α} (h : t.Writable) (file : Text) :
    (scan file t.format).map (·.kind) = t.tokens := by
  obtain ⟨after, hafter⟩ := found_of_writable h (Position.start file) [] trivial
  rw [List.append_nil] at hafter
  exact hafter.trans (List.append_nil _)

end Token

end Lowering
