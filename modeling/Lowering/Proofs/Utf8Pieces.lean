import Lowering.Text.Utf8
import Mathlib.Tactic.SplitIfs

namespace Lowering.Utf8

variable {a b c d : UInt8} {bs rest : List UInt8} {code : Nat}

theorem isTail_iff : isTail b = true ↔ 0x80 ≤ b.toNat ∧ b.toNat ≤ 0xBF := by
  simp [isTail, UInt8.le_iff_toNat_le]

theorem secondOk_iff : secondOk a b = true ↔ 0x80 ≤ b.toNat ∧ b.toNat ≤ 0xBF ∧
    (a.toNat = 0xE0 → 0xA0 ≤ b.toNat) ∧ (a.toNat = 0xED → b.toNat ≤ 0x9F) ∧
    (a.toNat = 0xF0 → 0x90 ≤ b.toNat) ∧ (a.toNat = 0xF4 → b.toNat ≤ 0x8F) := by
  unfold secondOk isTail
  simp only [← UInt8.toNat_inj, UInt8.le_iff_toNat_le, UInt8.reduceToNat]
  split_ifs <;> simp only [decide_eq_true_eq] <;> omega

theorem encode_two (ha : 0xC2 ≤ a ∧ a ≤ 0xDF) (hb : isTail b = true) (h : code =
    a.toNat % 0x20 * 0x40 + low b) : isScalar code = true ∧ encode code = [a, b] := by
  rw [isTail_iff] at hb
  simp only [UInt8.le_iff_toNat_le, UInt8.reduceToNat] at ha
  unfold low at h
  have h1 : 0xC0 + code / 0x40 = a.toNat := by omega
  have h2 : 0x80 + code % 0x40 = b.toNat := by omega
  unfold isScalar encode
  rw [if_neg (by omega), if_pos (by omega), h1, h2]
  exact ⟨by simp; omega, by simp⟩

theorem encode_three (ha : 0xE0 ≤ a ∧ a ≤ 0xEF) (hb : secondOk a b = true) (hc : isTail c = true)
    (h : code = (a.toNat % 0x10 * 0x40 + low b) * 0x40 + low c) :
    isScalar code = true ∧ encode code = [a, b, c] := by
  rw [secondOk_iff] at hb
  rw [isTail_iff] at hc
  simp only [UInt8.le_iff_toNat_le, UInt8.reduceToNat] at ha
  unfold low at h
  have h1 : 0xE0 + code / 0x1000 = a.toNat := by omega
  have h2 : 0x80 + code / 0x40 % 0x40 = b.toNat := by omega
  have h3 : 0x80 + code % 0x40 = c.toNat := by omega
  unfold isScalar encode
  rw [if_neg (by omega), if_neg (by omega), if_pos (by omega), h1, h2, h3]
  exact ⟨by simp; omega, by simp⟩

theorem encode_four (ha : 0xF0 ≤ a ∧ a ≤ 0xF4) (hb : secondOk a b = true) (hc : isTail c = true)
    (hd : isTail d = true)
    (h : code = ((a.toNat % 0x08 * 0x40 + low b) * 0x40 + low c) * 0x40 + low d) :
    isScalar code = true ∧ encode code = [a, b, c, d] := by
  rw [secondOk_iff] at hb
  rw [isTail_iff] at hc hd
  simp only [UInt8.le_iff_toNat_le, UInt8.reduceToNat] at ha
  unfold low at h
  have h1 : 0xF0 + code / 0x40000 = a.toNat := by omega
  have h2 : 0x80 + code / 0x1000 % 0x40 = b.toNat := by omega
  have h3 : 0x80 + code / 0x40 % 0x40 = c.toNat := by omega
  have h4 : 0x80 + code % 0x40 = d.toNat := by omega
  unfold isScalar encode
  rw [if_neg (by omega), if_neg (by omega), if_neg (by omega), h1, h2, h3, h4]
  exact ⟨by simp; omega, by simp⟩

/-- A piece as it stands in a text. -/
inductive Piece.Proper : Piece → Prop where
  | point {code : Nat} (scalar : isScalar code = true) : Proper (.point code (encode code))
  | stray {byte : UInt8} (high : 0x80 ≤ byte) : Proper (.stray byte)

theorem Piece.proper_point (h : isScalar code = true ∧ encode code = spelling) :
    Piece.Proper (.point code spelling) :=
  h.2 ▸ .point h.1

/-- A byte starts a code point that the next bytes complete, or it is stray. -/
theorem first_proper (a : UInt8) (rest : List UInt8) :
    (first a rest).Proper ∧ ∃ tail after, rest = tail ++ after ∧
    (first a rest).bytes = a :: tail := by
  have alone : ∀ {rest : List UInt8}, ¬ a < 0x80 → (Piece.stray a).Proper ∧
      ∃ tail after, rest = tail ++ after ∧ (Piece.stray a).bytes = a :: tail := by
    intro rest ha
    exact ⟨.stray (UInt8.not_lt.mp ha), [], rest, rfl, rfl⟩
  unfold first
  split
  · rename_i ha
    have ha : a.toNat < 0x80 := ha
    refine ⟨Piece.proper_point ⟨?_, ?_⟩, [], rest, rfl, rfl⟩
    · simp [isScalar]
      omega
    · simp [encode, ha]
  rename_i ha
  split
  · rename_i ha'
    split
    · rename_i b after
      split
      · rename_i hb
        exact ⟨Piece.proper_point (encode_two ha' hb rfl), [b], after, rfl, rfl⟩
      · exact alone ha
    · exact alone ha
  split
  · rename_i ha'
    split
    · rename_i b c after
      split
      · rename_i h
        obtain ⟨hb, hc⟩ := Bool.and_eq_true_iff.mp h
        exact ⟨Piece.proper_point (encode_three ha' hb hc rfl), [b, c], after, rfl, rfl⟩
      · exact alone ha
    · exact alone ha
  split
  · rename_i ha'
    split
    · rename_i b c d after
      split
      · rename_i h
        obtain ⟨h, hd⟩ := Bool.and_eq_true_iff.mp h
        obtain ⟨hb, hc⟩ := Bool.and_eq_true_iff.mp h
        exact ⟨Piece.proper_point (encode_four ha' hb hc hd rfl), [b, c, d], after, rfl, rfl⟩
      · exact alone ha
    · exact alone ha
  · exact alone ha

/-- The first byte of an encoded code point starts it, whatever follows. -/
theorem first_encode (h : isScalar code = true) (rest : List UInt8) : ∃ a tail,
    encode code = a :: tail ∧ first a (tail ++ rest) = .point code (a :: tail) := by
  have toNat : ∀ n < 256, (Nat.toUInt8 n).toNat = n := fun n hn => UInt8.toNat_ofNat_of_lt hn
  simp only [isScalar, Bool.or_eq_true, Bool.and_eq_true, decide_eq_true_eq] at h
  unfold encode
  split
  · have ha := toNat code (by omega)
    refine ⟨_, _, rfl, ?_⟩
    unfold first
    rw [if_pos (by simpa only [UInt8.lt_iff_toNat_lt, ha]), ha]
  split
  · have ha := toNat (0xC0 + code / 0x40) (by omega)
    have hb := toNat (0x80 + code % 0x40) (by omega)
    refine ⟨_, _, rfl, ?_⟩
    unfold first
    simp only [UInt8.lt_iff_toNat_lt, UInt8.le_iff_toNat_le, ha, UInt8.reduceToNat]
    rw [if_neg (by omega), if_pos (by omega)]
    simp only [List.cons_append]
    rw [if_pos (isTail_iff.mpr (by omega))]
    simp only [low, hb]
    congr 1
    omega
  split
  · have ha := toNat (0xE0 + code / 0x1000) (by omega)
    have hb := toNat (0x80 + code / 0x40 % 0x40) (by omega)
    have hc := toNat (0x80 + code % 0x40) (by omega)
    refine ⟨_, _, rfl, ?_⟩
    unfold first
    simp only [UInt8.lt_iff_toNat_lt, UInt8.le_iff_toNat_le, ha, UInt8.reduceToNat]
    rw [if_neg (by omega), if_neg (by omega), if_pos (by omega)]
    simp only [List.cons_append]
    rw [if_pos (by simp only [Bool.and_eq_true, secondOk_iff, isTail_iff]; omega)]
    simp only [low, hb, hc]
    congr 1
    omega
  · have ha := toNat (0xF0 + code / 0x40000) (by omega)
    have hb := toNat (0x80 + code / 0x1000 % 0x40) (by omega)
    have hc := toNat (0x80 + code / 0x40 % 0x40) (by omega)
    have hd := toNat (0x80 + code % 0x40) (by omega)
    refine ⟨_, _, rfl, ?_⟩
    unfold first
    simp only [UInt8.lt_iff_toNat_lt, UInt8.le_iff_toNat_le, ha, UInt8.reduceToNat]
    rw [if_neg (by omega), if_neg (by omega), if_neg (by omega), if_pos (by omega)]
    simp only [List.cons_append]
    rw [if_pos (by simp only [Bool.and_eq_true, secondOk_iff, isTail_iff]; omega)]
    simp only [low, hb, hc, hd]
    congr 1
    omega

theorem piecesFrom_eq (skip : Nat) (bs : List UInt8) :
    piecesFrom skip bs = pieces (bs.drop skip) := by
  induction skip generalizing bs with
  | zero => rfl
  | succ skip ih =>
    cases bs with
    | nil => rfl
    | cons b bs => exact ih bs

theorem pieces_cons (a : UInt8) (rest : List UInt8) : ∃ after,
    a :: rest = (first a rest).bytes ++ after ∧
      pieces (a :: rest) = first a rest :: pieces after := by
  obtain ⟨-, tail, after, hrest, hbytes⟩ := first_proper a rest
  refine ⟨after, by rw [hbytes, hrest, List.cons_append], ?_⟩
  rw [pieces, piecesFrom, piecesFrom_eq, hbytes, List.length_cons, Nat.add_sub_cancel]
  conv => lhs; rw [hrest, List.drop_left]
  rw [← hrest]

/-- Induction over the pieces of a text, from the front. -/
theorem induct_pieces {P : List UInt8 → List Piece → Prop} (nil : P [] [])
    (cons : ∀ p bs, p.Proper → P bs (pieces bs) → P (p.bytes ++ bs) (p :: pieces bs))
    (bs : List UInt8) : P bs (pieces bs) := by
  cases bs with
  | nil => exact nil
  | cons a rest =>
    obtain ⟨after, hbytes, hpieces⟩ := pieces_cons a rest
    obtain ⟨hproper, tail, _, -, hfirst⟩ := first_proper a rest
    have hlt : after.length ≤ rest.length := by
      have hlen := congrArg List.length hbytes
      rw [hfirst, List.cons_append, List.length_cons, List.length_cons, List.length_append] at hlen
      omega
    rw [hpieces, hbytes]
    exact cons (first a rest) after hproper (induct_pieces nil cons after)
termination_by bs.length

/-- A code point is read as it was written. -/
theorem pieces_encode_append (h : isScalar code = true) (rest : List UInt8) :
    pieces (encode code ++ rest) = .point code (encode code) :: pieces rest := by
  obtain ⟨a, tail, hcode, hfirst⟩ := first_encode h rest
  obtain ⟨after, hbytes, hpieces⟩ := pieces_cons a (tail ++ rest)
  rw [hfirst] at hbytes hpieces
  have hafter : after = rest := by simpa [Piece.bytes] using hbytes.symm
  rw [hcode, List.cons_append, hpieces, hafter]

/-- Valid texts in a row are a valid text, and a valid text has code points only. -/
theorem isValid_iff : isValid bs = true ↔
    ∃ codes : List Nat, (∀ code ∈ codes, isScalar code = true) ∧ bs = codes.flatMap encode := by
  constructor
  · intro h
    have hpoints : ∀ p ∈ pieces bs, ∀ b, p ≠ .stray b := by
      rintro p hp b rfl
      simpa using List.all_eq_true.mp h _ hp
    revert hpoints
    apply induct_pieces (P := fun bs ps => (∀ p ∈ ps, ∀ b, p ≠ .stray b) →
      ∃ codes : List Nat, (∀ code ∈ codes, isScalar code = true) ∧ bs = codes.flatMap encode)
    · exact fun _ => ⟨[], by simp, rfl⟩
    · intro p bs hp ih hpoints
      cases hp with
      | point scalar =>
        obtain ⟨codes, hcodes, rfl⟩ := ih fun p hp => hpoints p (List.mem_cons_of_mem _ hp)
        exact ⟨_ :: codes, List.forall_mem_cons.mpr ⟨scalar, hcodes⟩, rfl⟩
      | stray high => exact absurd rfl (hpoints _ List.mem_cons_self _)
  · rintro ⟨codes, hcodes, rfl⟩
    induction codes with
    | nil => rfl
    | cons code codes ih =>
      obtain ⟨hcode, hcodes⟩ := List.forall_mem_cons.mp hcodes
      rw [List.flatMap_cons, isValid, pieces_encode_append hcode]
      exact ih hcodes

theorem isValid_append (h : isValid bs = true) (h' : isValid bs' = true) :
    isValid (bs ++ bs') = true := by
  obtain ⟨codes, hcodes, rfl⟩ := isValid_iff.mp h
  obtain ⟨codes', hcodes', rfl⟩ := isValid_iff.mp h'
  refine isValid_iff.mpr ⟨codes ++ codes', ?_, (List.flatMap_append ..).symm⟩
  exact List.forall_mem_append.mpr ⟨hcodes, hcodes'⟩

/-- Bytes in UTF-8 stay as they are. -/
theorem sanitize_of_isValid (h : isValid bs = true) : sanitize bs = bs := by
  obtain ⟨codes, hcodes, rfl⟩ := isValid_iff.mp h
  clear h
  induction codes with
  | nil => rfl
  | cons code codes ih =>
    obtain ⟨hcode, hcodes⟩ := List.forall_mem_cons.mp hcodes
    rw [List.flatMap_cons, sanitize, pieces_encode_append hcode, List.flatMap_cons]
    exact congrArg (encode code ++ ·) (ih hcodes)

end Lowering.Utf8
