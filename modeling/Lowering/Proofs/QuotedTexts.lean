import Lowering.Proofs.Utf8Pieces
import Lowering.Text.Quoted
import Mathlib.Algebra.Group.Nat.Defs

namespace Lowering

namespace Hex

theorem digit?_digit (h : n < 16) : digit? (digit n) = some n := by
  have all : ∀ i : Fin 16, digit? (digit i) = some i.val := by decide
  exact all ⟨n, h⟩

theorem length_digits (width n : Nat) : (digits width n).length = width := by
  induction width generalizing n with
  | zero => rfl
  | succ width ih => rw [digits, List.length_append, ih, List.length_singleton]

/-- As many digits as a number needs are read as that number. -/
theorem value?_digits (h : n < 16 ^ width) : value? (digits width n) = some n := by
  induction width generalizing n with
  | zero =>
    obtain rfl : n = 0 := by omega
    rfl
  | succ width ih =>
    have hn : value? (digits width (n / 16)) = some (n / 16) := by
      apply ih
      rw [Nat.pow_succ] at h
      omega
    unfold value? at hn ⊢
    rw [digits, List.foldlM_append, hn]
    simp [digit?_digit (Nat.mod_lt n (by omega : 0 < 16))]
    omega

theorem digit_plain (n : Nat) (h : n < 16) :
    digit n < 0x80 ∧ digit n ≠ 0x22 ∧ digit n ≠ 0x5C := by
  have all : ∀ i : Fin 16, digit i < 0x80 ∧ digit i ≠ 0x22 ∧ digit i ≠ 0x5C := by decide
  exact all ⟨n, h⟩

theorem digits_plain (h : b ∈ digits width n) : b < 0x80 ∧ b ≠ 0x22 ∧ b ≠ 0x5C := by
  induction width generalizing n with
  | zero => cases h
  | succ width ih =>
    rw [digits] at h
    rcases List.mem_append.mp h with h | h
    · exact ih h
    · rw [List.mem_singleton.mp h]
      exact digit_plain _ (Nat.mod_lt n (by omega))

end Hex

namespace Utf8

theorem isValid_of_ascii (h : ∀ b ∈ bs, b < 0x80) : isValid bs = true := by
  refine isValid_iff.mpr ⟨bs.map UInt8.toNat, ?_, ?_⟩
  · intro code hcode
    obtain ⟨b, hb, rfl⟩ := List.mem_map.mp hcode
    have : b.toNat < 0x80 := h b hb
    simp [isScalar]
    omega
  · rw [List.flatMap_map]
    induction bs with
    | nil => rfl
    | cons b bs ih =>
      obtain ⟨hb, hbs⟩ := List.forall_mem_cons.mp h
      have hb : b.toNat < 0x80 := hb
      rw [List.flatMap_cons, ← ih hbs]
      simp [encode, hb]

theorem high_of_mem_encode (hs : isScalar code = true) (hc : 0x80 ≤ code) (h : b ∈ encode code) :
    0x80 ≤ b := by
  simp only [isScalar, Bool.or_eq_true, Bool.and_eq_true, decide_eq_true_eq] at hs
  have high : ∀ n, 0x80 ≤ n → n < 256 → 0x80 ≤ n.toUInt8 := by
    intro n hl hu
    rw [UInt8.le_iff_toNat_le, show n.toUInt8.toNat = n from UInt8.toNat_ofNat_of_lt hu]
    exact hl
  unfold encode at h
  rw [if_neg (by omega)] at h
  split at h
  · simp only [List.mem_cons, List.not_mem_nil, or_false] at h
    rcases h with rfl | rfl
    all_goals exact high _ (by omega) (by omega)
  split at h
  · simp only [List.mem_cons, List.not_mem_nil, or_false] at h
    rcases h with rfl | rfl | rfl
    all_goals exact high _ (by omega) (by omega)
  · simp only [List.mem_cons, List.not_mem_nil, or_false] at h
    rcases h with rfl | rfl | rfl | rfl
    all_goals exact high _ (by omega) (by omega)

end Utf8

namespace Quoted

open Utf8

variable {b : UInt8} {bs bs' rest : List UInt8} {p : Piece}

/-- Bytes between quotes: a backslash hides the byte after it, and no other quote occurs. -/
inductive Enclosed : List UInt8 → Prop where
  | nil : Enclosed []
  | byte {b : UInt8} {bs : List UInt8} (plain : b ≠ 0x22 ∧ b ≠ 0x5C) (rest : Enclosed bs) :
      Enclosed (b :: bs)
  | escape {b : UInt8} {bs : List UInt8} (rest : Enclosed bs) : Enclosed (0x5C :: b :: bs)

theorem Enclosed.append (h : Enclosed bs) (h' : Enclosed bs') : Enclosed (bs ++ bs') := by
  induction h with
  | nil => exact h'
  | byte plain _ ih => exact .byte plain ih
  | escape _ ih => exact .escape ih

theorem enclosed_of_plain (h : ∀ b ∈ bs, b ≠ 0x22 ∧ b ≠ 0x5C) : Enclosed bs := by
  induction bs with
  | nil => exact .nil
  | cons b bs ih =>
    obtain ⟨hb, hbs⟩ := List.forall_mem_cons.mp h
    exact .byte hb (ih hbs)

/-- How a piece is written: as it is, or behind a backslash in ASCII. -/
inductive WrittenAs : Piece → List UInt8 → Prop where
  | plain {code : Nat} (scalar : isScalar code = true)
      (free : code ≠ 0x22 ∧ code ≠ 0x5C ∧ code ≠ 0x0A) :
      WrittenAs (.point code (Utf8.encode code)) (Utf8.encode code)
  | escaped {p : Piece} {c : UInt8} {bs : List UInt8} (ascii : c < 0x80)
      (plain : ∀ b ∈ bs, b < 0x80 ∧ b ≠ 0x22 ∧ b ≠ 0x5C)
      (read : ∀ rest, escape (c :: (bs ++ rest)) = some (p.bytes, bs.length + 1)) :
      WrittenAs p (0x5C :: c :: bs)

theorem escape_byte (h : n < 256) (rest : List UInt8) : escape (0x78 :: (Hex.digits 2 n ++ rest)) =
      some ([n.toUInt8], (Hex.digits 2 n).length + 1) := by
  have hv : Hex.value? (Hex.digits 2 n) = some n := Hex.value?_digits (by omega)
  simp only [Hex.digits, List.nil_append, List.cons_append] at hv ⊢
  simp [escape, hv]

theorem codePoint_digits (hs : isScalar code = true) (hw : code < 16 ^ width) (rest : List UInt8) :
    codePoint width (Hex.digits width code ++ rest) =
      some (Utf8.encode code, (Hex.digits width code).length + 1) := by
  have hlen := Hex.length_digits width code
  unfold codePoint
  rw [if_neg (by simp [hlen]), List.take_left' hlen, Hex.value?_digits hw]
  simp [hs, hlen]

theorem escape_named (h : named.lookup c = some letter) (rest : List UInt8) :
    letter < 0x80 ∧ escape (letter :: rest) = some ([c], 1) := by
  have all : named.all (fun e => e.2 < 0x80 ∧ e.2 ≠ 0x5C ∧ e.2 ≠ 0x22 ∧ e.2 ≠ 0x78 ∧ e.2 ≠ 0x75 ∧
      e.2 ≠ 0x55 ∧ ¬ (0x30 ≤ e.2 ∧ e.2 ≤ 0x37) ∧
      named.find? (fun q => q.2 = e.2) = some e) = true := by
    decide
  have hmem : (c, letter) ∈ named := by
    obtain ⟨l1, l2, hl, -⟩ := List.lookup_eq_some_iff.mp h
    rw [hl]
    simp
  obtain ⟨hascii, h1, h2, h3, h4, h5, h6, hfind⟩ :=
    of_decide_eq_true (List.all_eq_true.mp all _ hmem)
  simp only at h1 h2 h3 h4 h5 h6 hfind
  refine ⟨hascii, ?_⟩
  simp only [escape, h1, h2, h3, h4, h5, h6, hfind, or_self, if_false]

/-- Every piece is written in one of the two ways. -/
theorem writtenAs_encodePiece (h : p.Proper) : WrittenAs p (encodePiece p) := by
  -- behind a backslash, a letter and then hexadecimal digits
  have numbered : ∀ {p : Piece} {c : UInt8} {width n : Nat}, c < 0x80 →
      (∀ rest, escape (c :: (Hex.digits width n ++ rest)) =
        some (p.bytes, (Hex.digits width n).length + 1)) →
      WrittenAs p ([0x5C, c] ++ Hex.digits width n) :=
    fun hc hread => .escaped hc (fun b hb => Hex.digits_plain hb) hread
  have single : ∀ {p : Piece} {c : UInt8}, c < 0x80 →
      (∀ rest, escape (c :: rest) = some (p.bytes, 1)) → WrittenAs p [0x5C, c] :=
    fun hc hread => .escaped hc (by simp) hread
  cases h with
  | @stray byte high =>
    apply numbered (by decide)
    intro rest
    rw [escape_byte (UInt8.toNat_lt byte) rest]
    simp [Piece.bytes]
  | @point code scalar =>
    have hscalar := scalar
    simp only [isScalar, Bool.or_eq_true, Bool.and_eq_true, decide_eq_true_eq] at hscalar
    rw [encodePiece]
    split
    · rename_i hq
      rcases hq with rfl | rfl
      · exact single (by decide) fun rest => rfl
      · exact single (by decide) fun rest => rfl
    rename_i hq
    split
    · rename_i hprint
      refine .plain scalar ⟨fun h => hq (.inl h), fun h => hq (.inr h), ?_⟩
      rintro rfl
      exact absurd hprint (by decide)
    split
    · rename_i hlt
      have hbytes : (Piece.point code (Utf8.encode code)).bytes = [code.toUInt8] := by
        simp [Piece.bytes, Utf8.encode, hlt]
      split
      · rename_i letter hnamed
        refine single (escape_named hnamed []).1 fun rest => ?_
        rw [hbytes]
        exact (escape_named hnamed rest).2
      · apply numbered (by decide)
        intro rest
        rw [hbytes]
        exact escape_byte (by omega) rest
    split
    · rename_i hlt
      have hread : ∀ rest, codePoint 4 (Hex.digits 4 code ++ rest) = some (Utf8.encode code, _) :=
        codePoint_digits scalar hlt
      exact numbered (by decide) hread
    · have hread : ∀ rest, codePoint 8 (Hex.digits 8 code ++ rest) = some (Utf8.encode code, _) :=
        codePoint_digits scalar (by omega)
      exact numbered (by decide) hread

/-- The bytes of a code point that is no quote, no backslash and no line break are none either. -/
theorem encode_free (scalar : isScalar code = true) (free : code ≠ 0x22 ∧ code ≠ 0x5C ∧ code ≠ 0x0A)
    (h : b ∈ Utf8.encode code) : b ≠ 0x22 ∧ b ≠ 0x5C ∧ b ≠ 0x0A := by
  by_cases hc : code < 0x80
  · simp only [Utf8.encode, if_pos hc, List.mem_singleton] at h
    have hb : b.toNat = code := by
      rw [h]
      exact UInt8.toNat_ofNat_of_lt (Nat.lt_trans hc (by decide))
    obtain ⟨h1, h2, h3⟩ := free
    refine ⟨?_, ?_, ?_⟩ <;> rintro rfl
    · exact h1 hb.symm
    · exact h2 hb.symm
    · exact h3 hb.symm
  · have := high_of_mem_encode scalar (by omega) h
    refine ⟨?_, ?_, ?_⟩ <;> rintro rfl <;> exact absurd this (by decide)

theorem WrittenAs.body (h : WrittenAs p bs) : Enclosed bs := by
  cases h with
  | plain scalar free =>
    apply enclosed_of_plain
    intro b hb
    have := encode_free scalar free hb
    exact ⟨this.1, this.2.1⟩
  | escaped ascii plain read => exact .escape (enclosed_of_plain fun b hb => (plain b hb).2)

theorem WrittenAs.isValid (h : WrittenAs p bs) : isValid bs = true := by
  cases h with
  | plain scalar free => exact isValid_iff.mpr ⟨[_], by simpa using scalar, by simp⟩
  | escaped ascii plain read =>
    apply isValid_of_ascii
    intro b hb
    rcases List.mem_cons.mp hb with rfl | hb
    · decide
    rcases List.mem_cons.mp hb with rfl | hb
    · exact ascii
    · exact (plain b hb).1

theorem unescapeFrom_eq (skip : Nat) (bs : List UInt8) :
    unescapeFrom skip bs = unescapeFrom 0 (bs.drop skip) := by
  induction skip generalizing bs with
  | zero => rfl
  | succ skip ih =>
    cases bs with
    | nil => rfl
    | cons b bs => exact ih bs

theorem unescape_plain (h : ∀ b ∈ bs, b ≠ 0x22 ∧ b ≠ 0x5C ∧ b ≠ 0x0A) (rest : List UInt8) :
    unescapeFrom 0 (bs ++ rest) = (unescapeFrom 0 rest).map (bs ++ ·) := by
  induction bs with
  | nil => simp
  | cons b bs ih =>
    obtain ⟨⟨h1, h2, h3⟩, hbs⟩ := List.forall_mem_cons.mp h
    rw [List.cons_append, unescapeFrom, if_neg h2, if_neg (by simp [h1, h3]), ih hbs,
      Option.map_map]
    rfl

/-- A piece is read as it was written. -/
theorem WrittenAs.unescape (h : WrittenAs p bs) (rest : List UInt8) :
    unescapeFrom 0 (bs ++ rest) = (unescapeFrom 0 rest).map (p.bytes ++ ·) := by
  cases h with
  | plain scalar free => exact unescape_plain (fun b hb => encode_free scalar free hb) rest
  | @escaped _ c bs ascii plain read =>
    have hdrop : (c :: (bs ++ rest)).drop (bs.length + 1) = rest := by simp
    rw [List.cons_append, List.cons_append, unescapeFrom, if_pos rfl, read]
    simp only [unescapeFrom_eq (bs.length + 1), hdrop]

/-- What is written between quotes has no end in it. -/
theorem enclosed_encodeBody (t : Text) : Enclosed (encodeBody t) := by
  unfold encodeBody
  apply induct_pieces (P := fun _ ps => Enclosed (ps.flatMap encodePiece))
  · exact .nil
  · intro p bs hp ih
    exact (writtenAs_encodePiece hp).body.append ih

theorem isValid_encodeBody (t : Text) : isValid (encodeBody t) = true := by
  unfold encodeBody
  apply induct_pieces (P := fun _ ps => isValid (ps.flatMap encodePiece) = true)
  · rfl
  · intro p bs hp ih
    exact isValid_append (writtenAs_encodePiece hp).isValid ih

/-- What is written between quotes is read as the text. -/
theorem decodeBody_encodeBody (t : Text) : decodeBody (encodeBody t) = some t := by
  have hread : unescapeFrom 0 (encodeBody t) = some t.bytes := by
    unfold encodeBody
    apply induct_pieces (P := fun bs ps => unescapeFrom 0 (ps.flatMap encodePiece) = some bs)
    · rfl
    · intro p bs hp ih
      rw [List.flatMap_cons, (writtenAs_encodePiece hp).unescape, ih, Option.map_some]
  rw [decodeBody, sanitize_of_isValid (isValid_encodeBody t), hread, Option.map_some]

end Quoted

end Lowering
