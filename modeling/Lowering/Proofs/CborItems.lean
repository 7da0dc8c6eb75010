import Lowering.Cbor.Decode
import Mathlib.Algebra.Group.Nat.Defs

namespace Lowering.Cbor

theorem bind_eq_ok {x : Except ε α} : (x >>= k) = .ok b ↔ ∃ a, x = .ok a ∧ k a = .ok b := by
  cases x <;> simp [bind, Except.bind]

variable {n : Nat} {major : Major} {rest : List UInt8} {item : Item}

theorem splitBytes_append (h : bs.length = n) : splitBytes n (bs ++ rest) = .ok (bs, rest) := by
  simp [splitBytes, List.take_left' h, List.drop_left' h, h]

theorem ofByte_head (major : Major) (h : k < 32) :
    Major.ofByte (32 * major.code + k).toUInt8 = major ∧
      (32 * major.code + k).toUInt8.toNat % 32 = k := by
  have hcode : major.code ≤ 7 := by cases major <;> decide
  have hnat : (32 * major.code + k).toUInt8.toNat = 32 * major.code + k :=
    UInt8.toNat_ofNat_of_lt (show _ < 256 by omega)
  refine ⟨?_, by omega⟩
  unfold Major.ofByte
  rw [hnat, show (32 * major.code + k) / 32 = major.code by omega]
  cases major <;> rfl

theorem decodeHead_long (hk : k ≤ 3) (hn : n < Nat.pow 256 (Nat.pow 2 k)) (hs : major ≠ .simple) :
    decodeHead ((32 * major.code + (24 + k)).toUInt8 ::
      (BigEndian.encode (Nat.pow 2 k) n ++ rest)) = .ok (⟨major, 24 + k, n⟩, rest) := by
  obtain ⟨hmajor, hinfo⟩ := ofByte_head major (k := 24 + k) (by omega)
  have hsplit : splitBytes (Nat.pow 2 k) (BigEndian.encode (Nat.pow 2 k) n ++ rest) =
      .ok (BigEndian.encode (Nat.pow 2 k) n, rest) := splitBytes_append (by simp)
  simp only [decodeHead, hmajor, hinfo, Nat.add_sub_cancel_left, hsplit]
  rw [if_neg (by omega), if_pos (by omega)]
  simp only [bind, Except.bind, hs, false_and, if_false, BigEndian.decode_encode hn]

/-- A head is read as it was written. -/
theorem decodeHead_head (major : Major) (hn : n < 2 ^ 64) (hs : major = .simple → n < 24)
    (rest : List UInt8) :
    ∃ info, info ≠ 31 ∧ (n < 24 → info = n) ∧
      decodeHead (head major n ++ rest) = .ok (⟨major, info, n⟩, rest) := by
  unfold head
  split
  · rename_i hlt
    obtain ⟨hmajor, hinfo⟩ := ofByte_head major (k := n) (by omega)
    refine ⟨n, by omega, fun _ => rfl, ?_⟩
    simp only [List.cons_append, List.nil_append, decodeHead, hmajor, hinfo, if_pos hlt]
  rename_i hge
  have hs : major ≠ .simple := fun h => hge (hs h)
  split
  · exact ⟨24, by decide, fun h => absurd h hge, decodeHead_long (k := 0) (by decide) ‹_› hs⟩
  split
  · exact ⟨25, by decide, fun h => absurd h hge, decodeHead_long (k := 1) (by decide) ‹_› hs⟩
  split
  · exact ⟨26, by decide, fun h => absurd h hge, decodeHead_long (k := 2) (by decide) ‹_› hs⟩
  · exact ⟨27, by decide, fun h => absurd h hge, decodeHead_long (k := 3) (by decide) hn hs⟩

theorem length_head_pos (major : Major) (n : Nat) : 0 < (head major n).length := by
  unfold head
  split
  · simp
  split
  · simp
  split
  · simp
  split <;> simp

/-- An item of definite pieces that a reader takes, with at most `levels` containers in one
another. -/
inductive Item.Definite : Nat → Item → Prop where
  | unsigned {levels n : Nat} (fits : n < 2 ^ 64) : Definite levels (.unsigned n)
  | negative {levels n : Nat} (fits : n < 2 ^ 64) : Definite levels (.negative n)
  | text {levels : Nat} {t : List UInt8} (fits : t.length < lengthLimit) :
      Definite levels (.text [t])
  | null {levels : Nat} : Definite levels .null
  | array {levels : Nat} {items : List Item} (fits : items.length ≤ maxCount)
      (each : ∀ i ∈ items, Definite levels i) : Definite (levels + 1) (.array items)
  | map {levels : Nat} {items : List Item} (fits : items.length ≤ 2 * maxCount)
      (even : items.length % 2 = 0) (each : ∀ i ∈ items, Definite levels i) :
      Definite (levels + 1) (.map items)

theorem encode_pos (item : Item) : 0 < item.encode.length := by
  cases item with
  | unsigned | negative | simple => exact length_head_pos ..
  | bytes | text =>
    unfold Item.encode encodeString
    split
    · rw [List.length_append]
      exact Nat.add_pos_left (length_head_pos ..) _
    · simp
  | array | map | tagged =>
    rw [Item.encode, List.length_append]
    exact Nat.add_pos_left (length_head_pos ..) _
  | float => decide

theorem decodeCount_encodeAll {read : List UInt8 → Result (Item × List UInt8)}
    (each : ∀ i ∈ items, ∀ rest, read (i.encode ++ rest) = .ok (i, rest)) (rest : List UInt8) :
    decodeCount read items.length (encodeAll items ++ rest) = .ok (items, rest) := by
  induction items with
  | nil => rfl
  | cons item items ih =>
    obtain ⟨hone, hmore⟩ := List.forall_mem_cons.mp each
    rw [encodeAll, List.append_assoc, List.length_cons, decodeCount, hone]
    simp only [bind, Except.bind, ih hmore]
    rfl

theorem length_encodeAll_le (h : item ∈ items) : item.encode.length ≤ (encodeAll items).length := by
  induction items with
  | nil => cases h
  | cons first items ih =>
    rw [encodeAll, List.length_append]
    obtain rfl | h := List.mem_cons.mp h
    · exact Nat.le_add_right ..
    · exact Nat.le_add_left_of_le (ih h)

/-- An item is read as it was written. -/
theorem decodeItem_encode {levels fuel depth : Nat} (h : item.Definite levels)
    (hdepth : depth + levels ≤ maxNesting) (hfuel : item.encode.length ≤ fuel)
    (rest : List UInt8) : decodeItem fuel depth (item.encode ++ rest) = .ok (item, rest) := by
  -- The recursion of the reader is on the fuel; an item within another one is a head shorter.
  induction fuel generalizing item levels depth rest with
  | zero => exact absurd hfuel (Nat.not_le.mpr (encode_pos item))
  | succ fuel ih =>
    have hitems {major : Major} {n levels : Nat} {items : List Item}
        (each : ∀ i ∈ items, i.Definite levels) (hdepth : depth + (levels + 1) ≤ maxNesting)
        (hfuel : (head major n ++ encodeAll items).length ≤ fuel + 1) :
        decodeCount (decodeItem fuel (depth + 1)) items.length (encodeAll items ++ rest) =
          .ok (items, rest) := by
      have hpos := length_head_pos major n
      rw [List.length_append] at hfuel
      refine decodeCount_encodeAll (fun i hi rest => ?_) rest
      have hi' := length_encodeAll_le hi
      exact ih (each i hi) (by omega) (by omega) rest
    cases h with
    | @unsigned _ n fits =>
      obtain ⟨info, -, -, hhead⟩ := decodeHead_head .unsigned fits (by simp) rest
      rw [Item.encode, decodeItem, hhead]
      rfl
    | @negative _ n fits =>
      obtain ⟨info, -, -, hhead⟩ := decodeHead_head .negative fits (by simp) rest
      rw [Item.encode, decodeItem, hhead]
      rfl
    | @text _ t fits =>
      have hlength : t.length < 2 ^ 64 := Nat.lt_trans fits (by decide)
      obtain ⟨info, hinfo, -, hhead⟩ :=
        decodeHead_head .text hlength (by simp) (t ++ rest)
      have hpiece : decodePiece ⟨.text, info, t.length⟩ (t ++ rest) = .ok (t, rest) := by
        rw [decodePiece, if_neg (Nat.not_le.mpr fits), splitBytes_append rfl]
      rw [Item.encode, encodeString, List.append_assoc, decodeItem, hhead]
      simp only [bind, Except.bind, decodeString, if_neg hinfo, hpiece]
      rfl
    | null =>
      obtain ⟨info, -, hinfo, hhead⟩ :=
        decodeHead_head .simple (n := 22) (by decide) (by decide) rest
      rw [Item.null, Item.encode, decodeItem, hhead, hinfo (by decide)]
      rfl
    | @array levels items fits each =>
      have hcount : items.length < 2 ^ 64 := Nat.lt_of_le_of_lt fits (by decide)
      have hlimit : items.length < lengthLimit := Nat.lt_of_le_of_lt fits (by decide)
      obtain ⟨info, hinfo, -, hhead⟩ :=
        decodeHead_head .array hcount (by simp) (encodeAll items ++ rest)
      rw [Item.encode] at hfuel
      rw [Item.encode, List.append_assoc, decodeItem, hhead]
      simp only [bind, Except.bind, if_neg (show ¬maxNesting ≤ depth by omega), decodeArray,
        if_neg hinfo, if_neg (Nat.not_le.mpr hlimit), if_neg (Nat.not_lt.mpr fits),
        hitems each hdepth hfuel]
      rfl
    | @map levels items fits even each =>
      have fits : items.length / 2 ≤ maxCount := by omega
      have hcount : items.length / 2 < 2 ^ 64 := Nat.lt_of_le_of_lt fits (by decide)
      have hlimit : items.length / 2 < lengthLimit := Nat.lt_of_le_of_lt fits (by decide)
      obtain ⟨info, hinfo, -, hhead⟩ :=
        decodeHead_head .map hcount (by simp) (encodeAll items ++ rest)
      rw [Item.encode] at hfuel
      rw [Item.encode, List.append_assoc, decodeItem, hhead]
      simp only [bind, Except.bind, if_neg (show ¬maxNesting ≤ depth by omega), decodeMap,
        if_neg hinfo, if_neg (Nat.not_le.mpr hlimit), if_neg (Nat.not_lt.mpr fits),
        show 2 * (items.length / 2) = items.length by omega, hitems each hdepth hfuel]
      rfl

/-- A plain item is what its encoding is read as. -/
theorem decode_encode (h : item.Definite levels) (hdepth : levels ≤ maxNesting) :
    decode item.encode = .ok item := by
  have hone : decodeItem item.encode.length 0 item.encode = .ok (item, []) := by
    have hzero : 0 + levels ≤ maxNesting := by omega
    have hrest := decodeItem_encode h hzero Nat.le.refl []
    rwa [List.append_nil] at hrest
  have hpos : ¬item.encode.isEmpty = true := by
    rw [List.isEmpty_iff_length_eq_zero]
    exact Nat.ne_of_gt (encode_pos item)
  rw [decode, if_neg hpos, hone]
  rfl

/-- No text in an item has more than `size` bytes, and no container has more items than a reader
takes. -/
inductive Item.SizedBy (size : Nat) : Item → Prop where
  | unsigned (n : Nat) : SizedBy size (.unsigned n)
  | negative (n : Nat) : SizedBy size (.negative n)
  | bytes (pieces : List (List UInt8)) : SizedBy size (.bytes pieces)
  | text {pieces : List (List UInt8)} (fits : pieces.flatten.length ≤ size) :
      SizedBy size (.text pieces)
  | array {items : List Item} (fits : items.length ≤ maxCount)
      (each : ∀ i ∈ items, SizedBy size i) :
      SizedBy size (.array items)
  | map {items : List Item} (fits : items.length ≤ 2 * maxCount)
      (each : ∀ i ∈ items, SizedBy size i) : SizedBy size (.map items)
  | tagged {item : Item} (tag : Nat) (inner : SizedBy size item) : SizedBy size (.tagged tag item)
  | simple (n : Nat) : SizedBy size (.simple n)
  | float : SizedBy size .float

theorem Item.SizedBy.mono (h : item.SizedBy size) (hle : size ≤ size') : item.SizedBy size' := by
  induction h with
  | unsigned n => exact .unsigned n
  | negative n => exact .negative n
  | bytes pieces => exact .bytes pieces
  | text fits => exact .text (Nat.le_trans fits hle)
  | array fits _ ih => exact .array fits ih
  | map fits _ ih => exact .map fits ih
  | tagged tag _ ih => exact .tagged tag ih
  | simple n => exact .simple n
  | float => exact .float

section
variable {bs bs' : List UInt8} {h : Head} {piece : List UInt8} {pieces : List (List UInt8)}
  {read : List UInt8 → Result (Item × List UInt8)} {items : List Item}

theorem length_splitBytes (hsplit : splitBytes n bs = .ok (piece, bs')) :
    piece.length + bs'.length = bs.length := by
  simp only [splitBytes] at hsplit
  split at hsplit
  · cases hsplit
    rw [← List.length_append, List.take_append_drop]
  · cases hsplit

theorem length_decodeHead (hhead : decodeHead bs = .ok (h, bs')) : bs'.length ≤ bs.length := by
  cases bs with
  | nil => cases hhead
  | cons b rest =>
    rw [List.length_cons]
    simp only [decodeHead] at hhead
    split at hhead
    · cases hhead
      exact Nat.le_succ _
    split at hhead
    · obtain ⟨⟨number, after⟩, hsplit, hhead⟩ := bind_eq_ok.mp hhead
      have hlength := length_splitBytes hsplit
      dsimp only at hhead
      split at hhead <;> cases hhead
      omega
    split at hhead
    · unfold openHead at hhead
      split at hhead <;> cases hhead <;> exact Nat.le_succ _
    · cases hhead

theorem length_decodePiece (hpiece : decodePiece h bs = .ok (piece, bs')) :
    piece.length + bs'.length = bs.length := by
  unfold decodePiece at hpiece
  split at hpiece
  · cases hpiece
  · exact length_splitBytes hpiece

theorem length_decodePieces {fuel : Nat}
    (hpieces : decodePieces major fuel bs = .ok (pieces, bs')) :
    pieces.flatten.length + bs'.length ≤ bs.length := by
  induction fuel generalizing bs pieces with
  | zero => cases hpieces
  | succ fuel ih =>
    cases bs with
    | nil => cases hpieces
    | cons b rest =>
      simp only [decodePieces] at hpieces
      split at hpieces
      · cases hpieces
        simp
      split at hpieces
      · cases hpieces
      split at hpieces
      · cases hpieces
      obtain ⟨⟨h, after⟩, hhead, hpieces⟩ := bind_eq_ok.mp hpieces
      obtain ⟨⟨piece, after'⟩, hpiece, hpieces⟩ := bind_eq_ok.mp hpieces
      obtain ⟨⟨more, after''⟩, hmore, hpieces⟩ := bind_eq_ok.mp hpieces
      dsimp only at hpieces
      cases hpieces
      have hhead : after.length ≤ (b :: rest).length := length_decodeHead hhead
      have hpiece : piece.length + after'.length = after.length := length_decodePiece hpiece
      have hmore : more.flatten.length + bs'.length ≤ after'.length := ih hmore
      rw [List.flatten_cons, List.length_append]
      omega

theorem length_decodeString (hstring : decodeString h bs = .ok (pieces, bs')) :
    pieces.flatten.length + bs'.length ≤ bs.length := by
  unfold decodeString at hstring
  split at hstring
  · exact length_decodePieces hstring
  · obtain ⟨⟨piece, rest⟩, hpiece, hstring⟩ := bind_eq_ok.mp hstring
    dsimp only at hstring
    cases hstring
    simpa using Nat.le_of_eq (length_decodePiece hpiece)

/-- A reader takes bytes from the front, and what it reads is no larger than they are. -/
def Bounded (read : List UInt8 → Result (Item × List UInt8)) : Prop :=
  ∀ ⦃bs item bs'⦄, read bs = .ok (item, bs') → bs'.length ≤ bs.length ∧ item.SizedBy bs.length

theorem Bounded.decodeCount (hread : Bounded read)
    (hitems : decodeCount read n bs = .ok (items, bs')) :
    items.length = n ∧ bs'.length ≤ bs.length ∧ ∀ i ∈ items, i.SizedBy bs.length := by
  induction n generalizing bs items with
  | zero =>
    cases hitems
    simp
  | succ n ih =>
    obtain ⟨⟨first, rest⟩, hfirst, hitems⟩ := bind_eq_ok.mp hitems
    obtain ⟨⟨more, rest'⟩, hmore, hitems⟩ := bind_eq_ok.mp hitems
    dsimp only at hitems
    cases hitems
    obtain ⟨hle, hwithin⟩ := hread hfirst
    obtain ⟨hcount, hle', heach⟩ := ih hmore
    exact ⟨congrArg (· + 1) hcount, Nat.le_trans hle' hle,
      List.forall_mem_cons.mpr ⟨hwithin, fun i hi => (heach i hi).mono hle⟩⟩

theorem Bounded.decodeUntilBreak (hread : Bounded read) {full : Malformed} {fuel room : Nat}
    (hitems : decodeUntilBreak read full fuel room bs = .ok (items, bs')) :
    items.length ≤ room ∧ bs'.length ≤ bs.length ∧ ∀ i ∈ items, i.SizedBy bs.length := by
  induction fuel generalizing bs room items with
  | zero => cases hitems
  | succ fuel ih =>
    cases bs with
    | nil => cases hitems
    | cons b rest =>
      simp only [Cbor.decodeUntilBreak] at hitems
      split at hitems
      · cases hitems
        simp
      obtain ⟨⟨first, rest⟩, hfirst, hitems⟩ := bind_eq_ok.mp hitems
      dsimp only at hitems
      split at hitems
      · cases hitems
      obtain ⟨⟨more, rest'⟩, hmore, hitems⟩ := bind_eq_ok.mp hitems
      dsimp only at hitems
      cases hitems
      obtain ⟨hle, hwithin⟩ := hread hfirst
      obtain ⟨hcount, hle', heach⟩ := ih hmore
      refine ⟨?_, Nat.le_trans hle' hle,
        List.forall_mem_cons.mpr ⟨hwithin, fun i hi => (heach i hi).mono hle⟩⟩
      rw [List.length_cons]
      omega

theorem Bounded.decodeArray (hread : Bounded read)
    (hitems : decodeArray read h bs = .ok (items, bs')) :
    items.length ≤ maxCount ∧ bs'.length ≤ bs.length ∧ ∀ i ∈ items, i.SizedBy bs.length := by
  unfold Cbor.decodeArray at hitems
  split at hitems
  · exact hread.decodeUntilBreak hitems
  split at hitems
  · cases hitems
  split at hitems
  · cases hitems
  · obtain ⟨hcount, hrest⟩ := hread.decodeCount hitems
    exact ⟨by omega, hrest⟩

theorem Bounded.decodeMap (hread : Bounded read)
    (hitems : decodeMap read h bs = .ok (items, bs')) :
    items.length ≤ 2 * maxCount ∧ bs'.length ≤ bs.length ∧ ∀ i ∈ items, i.SizedBy bs.length := by
  unfold Cbor.decodeMap at hitems
  split at hitems
  · -- There is room for one item too many, which would leave a key without a value.
    obtain ⟨⟨found, rest⟩, hfound, hitems⟩ := bind_eq_ok.mp hitems
    obtain ⟨hcount, hrest⟩ := hread.decodeUntilBreak hfound
    dsimp only at hitems
    split at hitems
    · cases hitems
    · cases hitems
      exact ⟨by omega, hrest⟩
  split at hitems
  · cases hitems
  split at hitems
  · cases hitems
  · obtain ⟨hcount, hrest⟩ := hread.decodeCount hitems
    exact ⟨by omega, hrest⟩

/-- Whatever is read, nothing in it is longer than what it was read from. -/
theorem bounded_decodeItem (fuel depth : Nat) : Bounded (decodeItem fuel depth) := by
  induction fuel generalizing depth with
  | zero =>
    intro bs item bs' hitem
    cases hitem
  | succ fuel ih =>
    intro bs item bs' hitem
    obtain ⟨⟨h, rest⟩, hhead, hitem⟩ := bind_eq_ok.mp hitem
    have hle := length_decodeHead hhead
    dsimp only at hitem
    split at hitem
    · cases hitem
      exact ⟨hle, .unsigned _⟩
    · cases hitem
      exact ⟨hle, .negative _⟩
    · obtain ⟨⟨pieces, rest'⟩, hpieces, hitem⟩ := bind_eq_ok.mp hitem
      dsimp only at hitem
      cases hitem
      have hlength := length_decodeString hpieces
      exact ⟨by omega, .bytes _⟩
    · obtain ⟨⟨pieces, rest'⟩, hpieces, hitem⟩ := bind_eq_ok.mp hitem
      dsimp only at hitem
      cases hitem
      have hlength := length_decodeString hpieces
      exact ⟨by omega, .text (by omega)⟩
    · split at hitem
      · cases hitem
      obtain ⟨⟨items, rest'⟩, hitems, hitem⟩ := bind_eq_ok.mp hitem
      dsimp only at hitem
      cases hitem
      obtain ⟨hcount, hle', heach⟩ := (ih _).decodeArray hitems
      exact ⟨by omega, .array hcount fun i hi => (heach i hi).mono hle⟩
    · split at hitem
      · cases hitem
      obtain ⟨⟨items, rest'⟩, hitems, hitem⟩ := bind_eq_ok.mp hitem
      dsimp only at hitem
      cases hitem
      obtain ⟨hcount, hle', heach⟩ := (ih _).decodeMap hitems
      exact ⟨by omega, .map hcount fun i hi => (heach i hi).mono hle⟩
    · -- A tag may start one level deeper, which changes nothing about the size.
      obtain ⟨deeper, hinner⟩ : ∃ deeper, (decodeItem fuel deeper rest >>= fun inner =>
          pure (Item.tagged h.value inner.1, inner.2)) = .ok (item, bs') := by
        split at hitem
        · obtain ⟨-, -, hitem⟩ := bind_eq_ok.mp hitem
          split at hitem
          · cases hitem
          · exact ⟨_, hitem⟩
        · exact ⟨_, hitem⟩
      obtain ⟨⟨inner, rest'⟩, hinner, hitem⟩ := bind_eq_ok.mp hinner
      dsimp only at hitem
      cases hitem
      obtain ⟨hle', hwithin⟩ := ih deeper hinner
      exact ⟨by omega, .tagged _ (hwithin.mono hle)⟩
    · cases hitem
      refine ⟨hle, ?_⟩
      split
      · exact .simple _
      · exact .float

/-- No text in an item is longer than the input. -/
theorem sizedBy_of_decode (hdecode : decode bs = .ok item) : item.SizedBy bs.length := by
  unfold decode at hdecode
  split at hdecode
  · cases hdecode
  obtain ⟨⟨found, rest⟩, hitem, hdecode⟩ := bind_eq_ok.mp hdecode
  dsimp only at hdecode
  split at hdecode
  · cases hdecode
    exact (bounded_decodeItem _ _ hitem).2
  · cases hdecode

end

end Lowering.Cbor
