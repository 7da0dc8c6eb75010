import Lowering.Cbor.Field
import Lowering.Proofs.CborItems
import Lowering.Proofs.Utf8Pieces

namespace Lowering.Cbor.Read

variable {α β : Type} {name : Text} {item : Item} {size : Nat}

theorem int_ofInt (h : range.low ≤ n ∧ n ≤ range.high) : int range (.ofInt n) = .ok n := by
  cases n with
  | ofNat n =>
    show ranged range .unsigned (n : Int) = .ok (n : Int)
    exact if_pos h
  | negSucc n =>
    show ranged range .negative (-1 - (n : Int)) = .ok (Int.negSucc n)
    rw [show -1 - (n : Int) = Int.negSucc n by omega]
    exact if_pos h

theorem byte_unsigned (b : UInt8) : byte name (.unsigned b.toNat) = .ok b := by
  have hb := b.toNat_lt
  have h : int ⟨name, 0, 255⟩ (.unsigned b.toNat) = .ok (b.toNat : Int) :=
    int_ofInt (n := (b.toNat : Int)) ⟨by simp, by show (b.toNat : Int) ≤ 255; omega⟩
  rw [byte, h]
  simp [Except.map]

theorem textOr_ofText (h : Utf8.isValid t.bytes = true) : textOr usual (.ofText t) = .ok t := by
  simp [textOr, Item.ofText, Item.content, bind, Except.bind, stringText, h]

theorem mapM_of_reads {read : Item → Except Fault α} {xs : List α} {write : α → Item}
    (h : ∀ x ∈ xs, read (write x) = .ok x) : (xs.map write).mapM read = .ok xs := by
  induction xs with
  | nil => rfl
  | cons x xs ih =>
    obtain ⟨hx, hxs⟩ := List.forall_mem_cons.mp h
    rw [List.map_cons, List.mapM_cons, hx]
    simp only [bind, Except.bind, ih hxs]
    rfl

/-- A list is read as it was written. -/
theorem list_array {read : Item → Except Fault α} {xs : List α} {write : α → Item}
    (h : ∀ x ∈ xs, read (write x) = .ok x) :
    list name read (.array (xs.map write)) = .ok (some xs) := by
  have hread := mapM_of_reads h
  simp [list, Item.content, bind, Except.bind, hread, pure, Except.pure]

theorem pairs_flatMap (xs : List α) (key value : α → Item) :
    pairs (xs.flatMap fun x => [key x, value x]) = xs.map fun x => (key x, value x) := by
  induction xs with
  | nil => rfl
  | cons x xs ih => simp [pairs, ih]

theorem length_flatMap_pair (xs : List α) (key value : α → Item) :
    (xs.flatMap fun x => [key x, value x]).length = 2 * xs.length := by
  induction xs with
  | nil => rfl
  | cons x xs ih =>
    simp only [List.flatMap_cons, List.length_append, ih, List.length_cons, List.length_nil]
    omega

theorem keyed_of_reads {write : α → Item} (before : Text)
    (h : ∀ e ∈ entries, Utf8.isValid e.1.bytes = true ∧ value (write e.2) = .ok e.2) :
    keyed value before (entries.map fun e => (.ofText e.1, write e.2)) = .ok entries := by
  induction entries generalizing before with
  | nil => rfl
  | cons e entries ih =>
    obtain ⟨⟨hkey, hvalue⟩, hrest⟩ := List.forall_mem_cons.mp h
    simp only [List.map_cons, keyed, bind, Except.bind, textOr_ofText hkey, hvalue,
      ih e.1 hrest]
    rfl

/-- A dictionary is read as it was written. -/
theorem dictionary_map {write : α → Item}
    (h : ∀ e ∈ entries, Utf8.isValid e.1.bytes = true ∧ value (write e.2) = .ok e.2) :
    dictionary name value (.map (entries.flatMap fun e => [.ofText e.1, write e.2])) =
      .ok entries := by
  have hentries := keyed_of_reads Text.empty h
  simp [dictionary, entriesFor, Item.content, bind, Except.bind, pure, Except.pure, pairs_flatMap,
    hentries]

/-- Fields that make one value out of another when they are read in turn. They are some of the
fields in `all`; the rest has been left out. -/
structure Written (read : α → Nat → Item → Except Fault α) (all fields : List (Nat × Item))
    (a b : α) : Prop where
  part : fields.Sublist all
  leads : fields.foldlM (fun a field => read a field.1 field.2) a = .ok b

section
variable {read : α → Nat → Item → Except Fault α} {all all' fields fields' : List (Nat × Item)}
  {a b c : α}

theorem Written.one (h : read a key item = .ok b) :
    Written read [(key, item)] [(key, item)] a b where
  part := .refl _
  leads := bind_eq_ok.mpr ⟨b, h, rfl⟩

theorem Written.none : Written read all [] a a := ⟨List.nil_sublist _, rfl⟩

theorem Written.append (h : Written read all fields a b) (h' : Written read all' fields' b c) :
    Written read (all ++ all') (fields ++ fields') a c where
  part := h.part.append h'.part
  leads := by
    rw [List.foldlM_append, h.leads]
    exact h'.leads

theorem fieldsFrom_of_leads (distinct : (fields.map Prod.fst).Nodup)
    (new : ∀ key ∈ fields.map Prod.fst, key ∉ seen)
    (h : fields.foldlM (fun a field => read a field.1 field.2) a = .ok b) :
    fieldsFrom name read seen a (fields.map fun field => (.unsigned field.1, field.2)) =
      .ok b := by
  induction fields generalizing seen a with
  | nil => exact h
  | cons field fields ih =>
    obtain ⟨hfield, hdistinct⟩ := List.nodup_cons.mp distinct
    obtain ⟨hnew, hrest⟩ := List.forall_mem_cons.mp new
    obtain ⟨next, hnext, h⟩ := bind_eq_ok.mp h
    have hseen : seen.contains field.1 = false := by simpa using hnew
    simp only [List.map_cons, fieldsFrom, fieldNumber?, bind, Except.bind, hseen, hnext,
      Except.mapError]
    refine ih hdistinct (fun key hkey => ?_) h
    intro hmem
    obtain rfl | hmem := List.mem_cons.mp hmem
    · exact hfield hkey
    · exact hrest key hkey hmem

/-- A record is read from the fields that were written. -/
theorem Written.record (h : Written read all fields a b) (distinct : (all.map Prod.fst).Nodup) :
    record name read a (.record fields) = .ok b := by
  have hdistinct : (fields.map Prod.fst).Nodup := distinct.sublist (h.part.map _)
  have hfields : fieldsFrom name read [] a (fields.map fun field => (.unsigned field.1, field.2)) =
      .ok b := fieldsFrom_of_leads hdistinct (by simp) h.leads
  simp [Read.record, Item.record, entriesFor, Item.content, bind, Except.bind, pure, Except.pure,
    pairs_flatMap, hfields]

theorem Written.plain (h : Written read all fields a b) (fits : all.length ≤ maxCount)
    (each : ∀ field ∈ all, field.1 < 2 ^ 64 ∧ field.2.Definite levels) :
    (Item.record fields).Definite (levels + 1) := by
  have hlength : (fields.flatMap fun field => [Item.unsigned field.1, field.2]).length =
      2 * fields.length := length_flatMap_pair ..
  have hle := h.part.length_le
  refine .map (by rw [hlength]; omega) (by rw [hlength]; omega) fun i hi => ?_
  obtain ⟨field, hfield, hi⟩ := List.mem_flatMap.mp hi
  obtain ⟨hkey, hvalue⟩ := each field (h.part.subset hfield)
  obtain rfl | hi := List.mem_cons.mp hi
  · exact .unsigned hkey
  · rw [List.mem_singleton.mp hi]
    exact hvalue

end

theorem mapError_eq_ok {x : Except ε α} : x.mapError f = .ok a ↔ x = .ok a := by
  cases x <;> simp [Except.mapError]

theorem isValid_flatten {pieces : List (List UInt8)} (h : ∀ p ∈ pieces, Utf8.isValid p = true) :
    Utf8.isValid pieces.flatten = true := by
  induction pieces with
  | nil => rfl
  | cons piece pieces ih =>
    obtain ⟨hpiece, hpieces⟩ := List.forall_mem_cons.mp h
    exact Utf8.isValid_append hpiece (ih hpieces)

theorem sizedBy_content {inner : Item} (hitem : item.SizedBy size)
    (h : item.content = .ok (found, inner)) : inner.SizedBy size := by
  induction hitem with
  | tagged tag hinner ih =>
    unfold Item.content at h
    split at h
    · split at h <;> cases h
      exact hinner
    split at h
    · split at h <;> cases h <;> exact hinner
    split at h
    · split at h <;> cases h
      exact .unsigned _
    split at h
    · split at h <;> cases h
      exact .negative _
    · exact ih h
  | unsigned | negative | bytes | simple | float =>
    cases h
    constructor
  | text fits =>
    cases h
    exact .text fits
  | array fits each =>
    cases h
    exact .array fits each
  | map fits each =>
    cases h
    exact .map fits each

theorem refuse_ne_ok : refuse target found item ≠ .ok a := by
  intro h
  simp only [refuse] at h
  split at h
  · obtain ⟨-, -, h⟩ := bind_eq_ok.mp h
    cases h
  · cases h

theorem ranged_in_range (h : ranged range found m = .ok n) : range.low ≤ n ∧ n ≤ range.high := by
  unfold ranged at h
  split at h
  · cases h
    assumption
  · cases h

/-- A number is in its range, which the number of a missing item must be in too. -/
theorem int_in_range (hzero : range.low ≤ 0 ∧ 0 ≤ range.high) (h : int range item = .ok n) :
    range.low ≤ n ∧ n ≤ range.high := by
  obtain ⟨⟨found, inner⟩, -, h⟩ := bind_eq_ok.mp h
  dsimp only at h
  split at h
  · exact ranged_in_range h
  · exact ranged_in_range h
  · split at h
    · cases h
      exact hzero
    split at h
    · exact absurd h refuse_ne_ok
    · exact ranged_in_range h
  · exact absurd h refuse_ne_ok

/-- A text is UTF-8, and no longer than the item it is read from. -/
theorem textOr_valid {usual t : Text}
    (husual : Utf8.isValid usual.bytes = true ∧ usual.length ≤ size) (hitem : item.SizedBy size)
    (h : textOr usual item = .ok t) : Utf8.isValid t.bytes = true ∧ t.length ≤ size := by
  obtain ⟨⟨found, inner⟩, hcontent, h⟩ := bind_eq_ok.mp h
  have hinner := sizedBy_content hitem hcontent
  dsimp only at h
  split at h
  · rename_i pieces
    unfold stringText at h
    split at h
    · rename_i hall
      cases h
      cases hinner with
      | text fits => exact ⟨isValid_flatten (List.all_eq_true.mp hall), fits⟩
    · cases h
  split at h
  · cases h
    exact husual
  · exact absurd h refuse_ne_ok

theorem mem_mapM {read : Item → Except Fault α} {items : List Item} {xs : List α}
    (h : items.mapM read = .ok xs) :
    xs.length = items.length ∧ ∀ x ∈ xs, ∃ i ∈ items, read i = .ok x := by
  induction items generalizing xs with
  | nil =>
    cases h
    simp
  | cons item items ih =>
    rw [List.mapM_cons] at h
    obtain ⟨x, hx, h⟩ := bind_eq_ok.mp h
    obtain ⟨rest, hrest, h⟩ := bind_eq_ok.mp h
    cases h
    obtain ⟨hlength, heach⟩ := ih hrest
    refine ⟨congrArg (· + 1) hlength, List.forall_mem_cons.mpr ⟨⟨item, by simp, hx⟩, ?_⟩⟩
    intro y hy
    obtain ⟨i, hi, hread⟩ := heach y hy
    exact ⟨i, List.mem_cons_of_mem _ hi, hread⟩

/-- What is read as a list comes from the items of it. -/
theorem list_elements {read : Item → Except Fault α} {xs : List α} (hitem : item.SizedBy size)
    (h : list name read item = .ok (some xs)) :
    xs.length ≤ maxCount ∧ ∀ x ∈ xs, ∃ i : Item, i.SizedBy size ∧ read i = .ok x := by
  obtain ⟨⟨found, inner⟩, hcontent, h⟩ := bind_eq_ok.mp h
  have hinner := sizedBy_content hitem hcontent
  dsimp only at h
  split at h
  · obtain ⟨found, hfound, h⟩ := bind_eq_ok.mp h
    cases h
    obtain ⟨hlength, heach⟩ := mem_mapM hfound
    cases hinner with
    | array fits each =>
      refine ⟨hlength ▸ fits, fun x hx => ?_⟩
      obtain ⟨i, hi, hread⟩ := heach x hx
      exact ⟨i, each i hi, hread⟩
  split at h
  · cases h
  · exact absurd h refuse_ne_ok

theorem pairs_sizedBy (h : ∀ i ∈ items, i.SizedBy size) : 2 * (pairs items).length ≤ items.length ∧
      ∀ e ∈ pairs items, e.1.SizedBy size ∧ e.2.SizedBy size := by
  fun_induction pairs items with
  | case1 key value rest ih =>
    obtain ⟨hkey, h⟩ := List.forall_mem_cons.mp h
    obtain ⟨hvalue, h⟩ := List.forall_mem_cons.mp h
    obtain ⟨hlength, heach⟩ := ih h
    refine ⟨?_, List.forall_mem_cons.mpr ⟨⟨hkey, hvalue⟩, heach⟩⟩
    simp only [List.length_cons]
    omega
  | case2 => simp

theorem entriesFor_sizedBy (hitem : item.SizedBy size) (h : entriesFor target item = .ok entries) :
    entries.length ≤ maxCount ∧ ∀ e ∈ entries, e.1.SizedBy size ∧ e.2.SizedBy size := by
  obtain ⟨⟨found, inner⟩, hcontent, h⟩ := bind_eq_ok.mp h
  have hinner := sizedBy_content hitem hcontent
  dsimp only at h
  split at h
  · cases h
    cases hinner with
    | map fits each =>
      obtain ⟨hlength, heach⟩ := pairs_sizedBy each
      exact ⟨by omega, heach⟩
  split at h
  · cases h
    simp
  · exact absurd h refuse_ne_ok

/-- A missing key repeats the one before, so it is as good as that one. -/
theorem keyed_entries (hbefore : Utf8.isValid before.bytes = true ∧ before.length ≤ size)
    (hitems : ∀ e ∈ items, e.1.SizedBy size ∧ e.2.SizedBy size)
    (h : keyed value before items = .ok entries) : entries.length = items.length ∧ ∀ e ∈ entries,
      (Utf8.isValid e.1.bytes = true ∧ e.1.length ≤ size) ∧
        ∃ i : Item, i.SizedBy size ∧ value i = .ok e.2 := by
  induction items generalizing before entries with
  | nil =>
    cases h
    simp
  | cons e items ih =>
    obtain ⟨⟨hfirst, hsecond⟩, hitems⟩ := List.forall_mem_cons.mp hitems
    obtain ⟨key, hkey, h⟩ := bind_eq_ok.mp h
    obtain ⟨a, ha, h⟩ := bind_eq_ok.mp h
    obtain ⟨rest, hrest, h⟩ := bind_eq_ok.mp h
    cases h
    have hvalid := textOr_valid hbefore hfirst hkey
    obtain ⟨hlength, heach⟩ := ih hvalid hitems hrest
    exact ⟨congrArg (· + 1) hlength, List.forall_mem_cons.mpr ⟨⟨hvalid, e.2, hsecond, ha⟩, heach⟩⟩

/-- What is read as a dictionary comes from its items. -/
theorem dictionary_entries (hitem : item.SizedBy size)
    (h : dictionary name value item = .ok entries) : entries.length ≤ maxCount ∧ ∀ e ∈ entries,
      (Utf8.isValid e.1.bytes = true ∧ e.1.length ≤ size) ∧
        ∃ i : Item, i.SizedBy size ∧ value i = .ok e.2 := by
  obtain ⟨items, hitems, h⟩ := bind_eq_ok.mp h
  obtain ⟨hcount, hwithin⟩ := entriesFor_sizedBy hitem hitems
  obtain ⟨hlength, heach⟩ := keyed_entries ⟨by decide, Nat.zero_le _⟩ hwithin h
  exact ⟨hlength ▸ hcount, heach⟩

section
variable {read : α → Nat → Item → Except Fault α} {P : α → Prop} {a b : α}

theorem fieldsFrom_keeps (keep : ∀ {a n i b}, P a → i.SizedBy size → read a n i = .ok b → P b)
    {seen : List Nat} {items : List (Item × Item)} (hitems : ∀ e ∈ items, e.2.SizedBy size)
    (initial : P a) (h : fieldsFrom name read seen a items = .ok b) : P b := by
  induction items generalizing seen a with
  | nil =>
    cases h
    exact initial
  | cons e items ih =>
    obtain ⟨hfirst, hitems⟩ := List.forall_mem_cons.mp hitems
    obtain ⟨number, -, h⟩ := bind_eq_ok.mp h
    split at h
    · exact ih hitems initial h
    split at h
    · exact ih hitems initial h
    obtain ⟨next, hnext, h⟩ := bind_eq_ok.mp h
    have hread := mapError_eq_ok.mp hnext
    exact ih hitems (keep initial hfirst hread) h

/-- What every field keeps is true of a whole record. -/
theorem record_keeps (keep : ∀ {a n i b}, P a → i.SizedBy size → read a n i = .ok b → P b)
    (initial : P a) (hitem : item.SizedBy size) (h : record name read a item = .ok b) : P b := by
  obtain ⟨items, hitems, h⟩ := bind_eq_ok.mp h
  obtain ⟨-, hwithin⟩ := entriesFor_sizedBy hitem hitems
  exact fieldsFrom_keeps keep (fun e he => (hwithin e he).2) initial h

end

end Lowering.Cbor.Read
