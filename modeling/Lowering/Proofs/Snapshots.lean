import Lowering.Snapshot
import Lowering.Proofs.CborFields
import Mathlib.Tactic.MkIffOfInductiveProp

namespace Lowering

open Cbor (maxCount lengthLimit Item)

/-- A text that a snapshot can hold. -/
@[mk_iff]
structure Text.Storable (t : Text) : Prop where
  valid : Utf8.isValid t.bytes = true
  fits : t.length < lengthLimit

/-- An operand that a snapshot can hold: the number of a node takes 32 bits. -/
@[mk_iff]
structure Operand.Storable (v : Operand) : Prop where
  text : v.text.Storable
  target : -0x80000000 ≤ v.target ∧ v.target ≤ 0x7FFFFFFF

/-- A position that a snapshot can hold. -/
@[mk_iff]
structure Position.Storable (p : Position) : Prop where
  file : p.file.Storable
  line : -0x8000000000000000 ≤ p.line ∧ p.line ≤ 0x7FFFFFFFFFFFFFFF
  column : -0x8000000000000000 ≤ p.column ∧ p.column ≤ 0x7FFFFFFFFFFFFFFF

/-- A list of names, which may be absent. -/
def Note.Storable : Note → Prop
  | .names none => True
  | .names (some list) => list.length ≤ maxCount ∧ ∀ name ∈ list, name.Storable
  | .other => False

/-- Annotations that a snapshot can hold. -/
@[mk_iff]
structure Notes.Storable (notes : Notes) : Prop where
  fits : notes.entries.length ≤ maxCount
  each : ∀ e ∈ notes.entries, e.1.Storable ∧ e.2.Storable

/-- A node that a snapshot can hold. -/
@[mk_iff]
structure Node.Storable (n : Node) : Prop where
  fits : n.args.length ≤ maxCount
  args : ∀ v ∈ n.args, v.Storable
  pos : n.pos.Storable
  notes : n.notes.Storable

/-- A forest that a snapshot can hold. -/
@[mk_iff]
structure Forest.Storable (f : Forest) : Prop where
  fits : f.size ≤ maxCount
  nodes : ∀ n ∈ f.nodes, n.Storable

/-- Every operand that is a node has a number that exists. -/
def Forest.Complete (f : Forest) : Prop := ∀ n ∈ f.nodes, ∀ id ∈ n.children, f.isValid id = true

section
variable {t : Text} {v : Operand} {p : Position} {note : Note} {notes : Notes} {n : Node}
  {f : Forest}

instance : Decidable t.Storable := decidable_of_iff' _ t.storable_iff

instance : Decidable v.Storable := decidable_of_iff' _ v.storable_iff

instance : Decidable p.Storable := decidable_of_iff' _ p.storable_iff

instance : Decidable note.Storable :=
  match note with
  | .names none => inferInstanceAs (Decidable True)
  | .names (some list) =>
    inferInstanceAs (Decidable (list.length ≤ maxCount ∧ ∀ name ∈ list, name.Storable))
  | .other => inferInstanceAs (Decidable False)

instance : Decidable notes.Storable := decidable_of_iff' _ notes.storable_iff

instance : Decidable n.Storable := decidable_of_iff' _ n.storable_iff

instance : Decidable f.Storable := decidable_of_iff' _ f.storable_iff

instance : Decidable f.Complete :=
  inferInstanceAs (Decidable (∀ n ∈ f.nodes, ∀ id ∈ n.children, f.isValid id = true))

end

namespace Notes

variable {key : Text} {value : Note} {entries : List (Text × Note)}

/-- A key after all others is added at the end. -/
theorem insertEntry_last (h : ∀ e ∈ entries, before e.1 key = true) :
    insertEntry key value entries = entries ++ [(key, value)] := by
  induction entries with
  | nil => rfl
  | cons e entries ih =>
    obtain ⟨hfirst, hrest⟩ := List.forall_mem_cons.mp h
    have hne : ¬e.1 = key := fun heq => before_irrefl key (heq ▸ hfirst)
    have hnot : ¬before key e.1 = true := fun hback =>
      before_irrefl key (before_trans hback hfirst)
    rw [insertEntry, if_neg hne, if_neg hnot, ih hrest]
    rfl

theorem length_insertEntry_le (key : Text) (value : Note) (entries : List (Text × Note)) :
    (insertEntry key value entries).length ≤ entries.length + 1 := by
  induction entries with
  | nil => exact Nat.le.refl
  | cons first entries ih =>
    unfold insertEntry
    grind

end Notes

namespace Snapshot

open Cbor Cbor.Read

variable {levels : Nat}

theorem definite_ofText (h : t.Storable) : (Item.ofText t).Definite levels := .text h.fits

theorem definite_ofInt (h : -0x8000000000000000 ≤ n ∧ n ≤ 0x7FFFFFFFFFFFFFFF) :
    (Item.ofInt n).Definite levels := by
  cases n with
  | ofNat n =>
    have hn : (n : Int) ≤ 0x7FFFFFFFFFFFFFFF := h.2
    exact .unsigned (by omega)
  | negSucc n => exact .negative (by have := h.1; omega)

theorem definite_byte (b : UInt8) : (Item.unsigned b.toNat).Definite levels :=
  .unsigned (Nat.lt_trans b.toNat_lt (by decide))

theorem int64_range (n : Int64) :
    -0x8000000000000000 ≤ n.toInt ∧ n.toInt ≤ 0x7FFFFFFFFFFFFFFF :=
  ⟨n.le_toInt, Int.le_of_lt_add_one n.toInt_lt⟩

theorem eq_empty_of_isEmpty (h : t.isEmpty = true) : t = Text.empty :=
  Text.ext_bytes (List.isEmpty_iff.mp h)

theorem written_optional {read : α → Nat → Item → Except Cbor.Fault α}
    (h : read a key value = .ok b) (hdefault : isDefault = true → a = b) :
    Written read [(key, value)] (optional isDefault key value) a b := by
  unfold optional
  split
  · rename_i his
    rw [hdefault his]
    exact .none
  · exact .one h

/-- The fields of an operand, with the value each of them makes. -/
theorem written_operand {v : Operand} (h : v.Storable) :
    ∃ fields, operandItem v = .record fields ∧
      Written operandField [(1, .unsigned v.kind.toNat), (2, .ofText v.text),
        (3, .ofInt v.number.toInt), (4, .ofInt v.target)] fields Operand.nil v := by
  have hkind : operandField Operand.nil 1 (.unsigned v.kind.toNat) =
      .ok ⟨v.kind, Text.empty, 0, 0⟩ :=
    bind_eq_ok.mpr ⟨_, byte_unsigned _, rfl⟩
  have htext : operandField ⟨v.kind, Text.empty, 0, 0⟩ 2 (.ofText v.text) =
      .ok ⟨v.kind, v.text, 0, 0⟩ :=
    bind_eq_ok.mpr ⟨_, textOr_ofText h.text.valid, rfl⟩
  have hnumber : operandField ⟨v.kind, v.text, 0, 0⟩ 3 (.ofInt v.number.toInt) =
      .ok ⟨v.kind, v.text, v.number, 0⟩ := by
    refine bind_eq_ok.mpr ⟨_, int_ofInt (int64_range v.number), ?_⟩
    rw [Int64.ofInt_toInt]
    rfl
  have htarget : operandField ⟨v.kind, v.text, v.number, 0⟩ 4 (.ofInt v.target) = .ok v :=
    bind_eq_ok.mpr ⟨_, int_ofInt h.target, rfl⟩
  refine ⟨_, rfl, ((Written.one hkind).append (written_optional htext fun hempty => ?_)).append
    (written_optional hnumber fun hzero => ?_) |>.append
    (written_optional htarget fun hzero => ?_)⟩
  · rw [eq_empty_of_isEmpty hempty]
  · rw [of_decide_eq_true hzero]
  · rw [← of_decide_eq_true hzero]

theorem definite_operand (h : v.Storable) : (operandItem v).Definite (levels + 1) := by
  obtain ⟨fields, hfields, hwritten⟩ := written_operand h
  rw [hfields]
  have htarget := h.target
  apply hwritten.plain
  · exact Nat.le_of_ble_eq_true rfl
  simp only [List.forall_mem_cons]
  exact ⟨⟨by decide, definite_byte _⟩, ⟨by decide, definite_ofText h.text⟩,
    ⟨by decide, definite_ofInt (int64_range _)⟩, ⟨by decide, definite_ofInt (by omega)⟩, by simp⟩

/-- An operand is read as it was written. -/
theorem operand_operandItem (h : v.Storable) : operand (operandItem v) = .ok v := by
  obtain ⟨fields, hfields, hwritten⟩ := written_operand h
  rw [hfields]
  exact hwritten.record (by simp)

theorem definite_namesItem {list : Option (List Text)} (h : (Note.names list).Storable) :
    (namesItem list).Definite (levels + 1) := by
  cases list with
  | none => exact .null
  | some list =>
    refine .array (by simpa using h.1) fun i hi => ?_
    obtain ⟨name, hname, rfl⟩ := List.mem_map.mp hi
    exact definite_ofText (h.2 name hname)

theorem texts_namesItem {list : Option (List Text)} (h : (Note.names list).Storable) :
    texts (namesItem list) = .ok list := by
  cases list with
  | none => rfl
  | some list => exact list_array fun name hname => textOr_ofText (h.2 name hname).valid

/-- A list of names as an annotation. -/
def listed (e : Text × Option (List Text)) : Text × Note := (e.1, .names e.2)

theorem exists_listed (h : ∀ e ∈ entries, e.2.Storable) :
    ∃ lists, entries = List.map listed lists := by
  induction entries with
  | nil => exact ⟨[], rfl⟩
  | cons e entries ih =>
    obtain ⟨hfirst, hrest⟩ := List.forall_mem_cons.mp h
    obtain ⟨lists, rfl⟩ := ih hrest
    obtain ⟨key, note⟩ := e
    cases note with
    | names list => exact ⟨(key, list) :: lists, rfl⟩
    | other => exact hfirst.elim

theorem noteItems_listed (lists : List (Text × Option (List Text))) :
    noteItems (lists.map listed) = lists.flatMap fun e => [.ofText e.1, namesItem e.2] := by
  induction lists with
  | nil => rfl
  | cons e lists ih =>
    rw [List.map_cons, listed, noteItems, ih]
    rfl

/-- Lists in order come out as they went in: each key is put after all those before. -/
theorem foldl_insert_listed {lists : List (Text × Option (List Text))} (notes : Notes)
    (h : Notes.Sorted (notes.entries ++ lists.map listed)) :
    (lists.foldl (fun notes e => notes.insert e.1 (.names e.2)) notes).entries =
      notes.entries ++ lists.map listed := by
  induction lists generalizing notes with
  | nil => simp
  | cons e lists ih =>
    have hlast : ∀ earlier ∈ notes.entries, Notes.before earlier.1 e.1 = true := fun earlier hmem =>
      (List.pairwise_append.mp h).2.2 earlier hmem (listed e) (by simp)
    have hinsert : (notes.insert e.1 (.names e.2)).entries = notes.entries ++ [listed e] :=
      Notes.insertEntry_last hlast
    rw [List.map_cons, List.append_cons, ← hinsert] at h ⊢
    exact ih _ h

/-- Setting lists one after the other makes at most one more entry each. -/
theorem foldl_insert_keeps {lists : List (Text × Option (List Text))} (notes : Notes)
    (hentries : ∀ e ∈ notes.entries, e.1.Storable ∧ e.2.Storable)
    (hlists : ∀ e ∈ lists, e.1.Storable ∧ (Note.names e.2).Storable) :
    let made := lists.foldl (fun notes e => notes.insert e.1 (.names e.2)) notes
    made.entries.length ≤ notes.entries.length + lists.length ∧
      ∀ e ∈ made.entries, e.1.Storable ∧ e.2.Storable := by
  induction lists generalizing notes with
  | nil => exact ⟨Nat.le.refl, hentries⟩
  | cons e lists ih =>
    obtain ⟨hfirst, hlists⟩ := List.forall_mem_cons.mp hlists
    have hmore : (notes.insert e.1 (.names e.2)).entries.length ≤ notes.entries.length + 1 :=
      Notes.length_insertEntry_le ..
    obtain ⟨hfits, hentries⟩ := ih (notes.insert e.1 (.names e.2))
      (fun entry hmem => (Notes.mem_insertEntry hmem).elim (fun heq => heq ▸ hfirst)
        (hentries entry))
      hlists
    refine ⟨Nat.le_trans hfits ?_, hentries⟩
    rw [List.length_cons]
    omega

/-- Annotations are read as they were written. -/
theorem notes_noteItems {notes : Notes} (h : notes.Storable) :
    Snapshot.notes (.map (noteItems notes.entries)) = .ok notes := by
  obtain ⟨entries, hsorted⟩ := notes
  obtain ⟨lists, rfl⟩ := exists_listed fun e he => (h.each e he).2
  have hread : dictionary "map[string][]string" texts
      (.map (lists.flatMap fun e => [.ofText e.1, namesItem e.2])) = .ok lists :=
    dictionary_map fun e he =>
      have hentry := h.each (listed e) (List.mem_map_of_mem he)
      ⟨hentry.1.valid, texts_namesItem hentry.2⟩
  have hmade : notesOf lists = ⟨lists.map listed, hsorted⟩ :=
    Notes.ext (foldl_insert_listed {} hsorted)
  rw [noteItems_listed, Snapshot.notes, hread, Except.map, hmade]

theorem definite_noteItems {notes : Notes} (h : notes.Storable) :
    (Item.map (noteItems notes.entries)).Definite (levels + 2) := by
  obtain ⟨entries, hsorted⟩ := notes
  obtain ⟨lists, rfl⟩ := exists_listed fun e he => (h.each e he).2
  have hcount : lists.length ≤ maxCount := by simpa using h.fits
  have hlength := length_flatMap_pair lists (fun e => .ofText e.1) fun e => namesItem e.2
  rw [noteItems_listed]
  refine .map (by omega) (by omega) fun i hi => ?_
  obtain ⟨e, he, hi⟩ := List.mem_flatMap.mp hi
  obtain ⟨hkey, hnames⟩ := h.each (listed e) (List.mem_map_of_mem he)
  obtain rfl | hi := List.mem_cons.mp hi
  · exact definite_ofText hkey
  · rw [List.mem_singleton.mp hi]
    exact definite_namesItem hnames

theorem eq_empty_of_noteItems {notes : Notes} (h : notes.Storable)
    (hempty : (noteItems notes.entries).isEmpty = true) : notes = {} := by
  obtain ⟨entries, hsorted⟩ := notes
  obtain ⟨lists, rfl⟩ := exists_listed fun e he => (h.each e he).2
  cases lists with
  | nil => rfl
  | cons e lists => simp [listed, noteItems] at hempty

theorem written_node {n : Node} (h : n.Storable) :
    ∃ fields, nodeItem n = .record fields ∧
      Written nodeField [(1, .unsigned n.tag.byte.toNat), (2, .array (n.args.map operandItem)),
        (3, .ofText n.pos.file), (4, .ofInt n.pos.line), (5, .ofInt n.pos.column),
        (6, .map (noteItems n.notes.entries))] fields emptyNode n := by
  have htag : nodeField emptyNode 1 (.unsigned n.tag.byte.toNat) =
      .ok ⟨n.tag, [], Position.unknown, {}⟩ := by
    refine bind_eq_ok.mpr ⟨_, byte_unsigned _, ?_⟩
    rw [Tag.ofByte_byte]
    rfl
  have hargs : nodeField ⟨n.tag, [], Position.unknown, {}⟩ 2 (.array (n.args.map operandItem)) =
      .ok ⟨n.tag, n.args, Position.unknown, {}⟩ :=
    bind_eq_ok.mpr ⟨_, list_array fun v hv => operand_operandItem (h.args v hv), rfl⟩
  have hfile : nodeField ⟨n.tag, n.args, Position.unknown, {}⟩ 3 (.ofText n.pos.file) =
      .ok ⟨n.tag, n.args, ⟨n.pos.file, 0, 0⟩, {}⟩ :=
    bind_eq_ok.mpr ⟨_, textOr_ofText h.pos.file.valid, rfl⟩
  have hline : nodeField ⟨n.tag, n.args, ⟨n.pos.file, 0, 0⟩, {}⟩ 4 (.ofInt n.pos.line) =
      .ok ⟨n.tag, n.args, ⟨n.pos.file, n.pos.line, 0⟩, {}⟩ :=
    bind_eq_ok.mpr ⟨_, int_ofInt h.pos.line, rfl⟩
  have hcolumn : nodeField ⟨n.tag, n.args, ⟨n.pos.file, n.pos.line, 0⟩, {}⟩ 5
      (.ofInt n.pos.column) = .ok ⟨n.tag, n.args, n.pos, {}⟩ :=
    bind_eq_ok.mpr ⟨_, int_ofInt h.pos.column, rfl⟩
  have hnotes : nodeField ⟨n.tag, n.args, n.pos, {}⟩ 6 (.map (noteItems n.notes.entries)) = .ok n :=
    bind_eq_ok.mpr ⟨_, notes_noteItems h.notes, rfl⟩
  refine ⟨_, rfl, ((Written.one htag).append (written_optional hargs fun hempty => ?_)).append
    (written_optional hfile fun hempty => ?_) |>.append (written_optional hline fun hzero => ?_)
    |>.append (written_optional hcolumn fun hzero => ?_) |>.append
    (written_optional hnotes fun hempty => ?_)⟩
  · rw [List.isEmpty_iff.mp hempty]
  · rw [eq_empty_of_isEmpty hempty]
    rfl
  · rw [of_decide_eq_true hzero]
  · rw [← of_decide_eq_true hzero]
  · rw [← eq_empty_of_noteItems h.notes hempty]

theorem definite_node (h : n.Storable) : (nodeItem n).Definite (levels + 3) := by
  obtain ⟨fields, hfields, hwritten⟩ := written_node h
  rw [hfields]
  have hargs : (Item.array (n.args.map operandItem)).Definite (levels + 2) := by
    refine .array (by simpa using h.fits) fun i hi => ?_
    obtain ⟨v, hv, rfl⟩ := List.mem_map.mp hi
    exact definite_operand (h.args v hv)
  apply hwritten.plain
  · exact Nat.le_of_ble_eq_true rfl
  simp only [List.forall_mem_cons]
  exact ⟨⟨by decide, definite_byte _⟩, ⟨by decide, hargs⟩, ⟨by decide, definite_ofText h.pos.file⟩,
    ⟨by decide, definite_ofInt h.pos.line⟩, ⟨by decide, definite_ofInt h.pos.column⟩,
    ⟨by decide, definite_noteItems h.notes⟩, by simp⟩

/-- A node is read as it was written. -/
theorem node_nodeItem (h : n.Storable) : node (nodeItem n) = .ok n := by
  obtain ⟨fields, hfields, hwritten⟩ := written_node h
  rw [hfields]
  exact hwritten.record (by simp)

section
variable {f : Forest} {root : Int}

theorem root_range (h : f.Storable) (hroot : f.isValid root = true) :
    -0x80000000 ≤ root ∧ root ≤ 0x7FFFFFFF := by
  have hfits := h.fits
  simp only [Forest.isValid, Bool.and_eq_true, decide_eq_true_eq] at hroot
  simp only [maxCount] at hfits
  omega

theorem written_content (h : f.Storable) (hroot : f.isValid root = true) :
    Written contentField [(1, .unsigned Shape.version.toNat), (2, .ofInt root),
        (3, .array (f.nodes.toList.map nodeItem))]
      [(1, .unsigned Shape.version.toNat), (2, .ofInt root),
        (3, .array (f.nodes.toList.map nodeItem))] {} ⟨Shape.version, root, f.nodes.toList⟩ := by
  have hversion : contentField {} 1 (.unsigned Shape.version.toNat) = .ok ⟨Shape.version, 0, []⟩ :=
    bind_eq_ok.mpr ⟨_, byte_unsigned _, rfl⟩
  have hnumber : contentField ⟨Shape.version, 0, []⟩ 2 (.ofInt root) =
      .ok ⟨Shape.version, root, []⟩ :=
    bind_eq_ok.mpr ⟨_, int_ofInt (root_range h hroot), rfl⟩
  have hnodes : contentField ⟨Shape.version, root, []⟩ 3 (.array (f.nodes.toList.map nodeItem)) =
      .ok ⟨Shape.version, root, f.nodes.toList⟩ :=
    bind_eq_ok.mpr
      ⟨_, list_array fun n hn => node_nodeItem (h.nodes n (Array.mem_toList_iff.mp hn)), rfl⟩
  exact ((Written.one hversion).append (.one hnumber)).append (.one hnodes)

theorem definite_item (h : f.Storable) (hroot : f.isValid root = true) :
    (item f root).Definite 5 := by
  have hrange := root_range h hroot
  have hnodes : (Item.array (f.nodes.toList.map nodeItem)).Definite 4 := by
    refine .array (by simpa [Forest.size] using h.fits) fun i hi => ?_
    obtain ⟨n, hn, rfl⟩ := List.mem_map.mp hi
    exact definite_node (h.nodes n (Array.mem_toList_iff.mp hn))
  apply (written_content h hroot).plain
  · exact Nat.le_of_ble_eq_true rfl
  simp only [List.forall_mem_cons]
  exact ⟨⟨by decide, definite_byte _⟩, ⟨by decide, definite_ofInt (by omega)⟩, ⟨by decide, hnodes⟩,
    by simp⟩

/-- The content of a snapshot is read as it was written. -/
theorem read_encode (h : f.Storable) (hroot : f.isValid root = true) :
    read content (encode f root) = .ok ⟨Shape.version, root, f.nodes.toList⟩ := by
  refine bind_eq_ok.mpr ⟨item f root, mapError_eq_ok.mpr ?_, ?_⟩
  · exact Cbor.decode_encode (definite_item h hroot) (by decide)
  · exact (written_content h hroot).record (by simp)

theorem firstMissing_eq_none : firstMissing f = none ↔ f.Complete := by
  simp [firstMissing, Forest.Complete]

theorem decode_eq_ok : decode bytes = .ok (f, root) ↔
    read content bytes = .ok ⟨Shape.version, root, f.nodes.toList⟩ ∧ f.Complete ∧
      f.isValid root = true := by
  constructor
  · intro h
    unfold decode at h
    split at h
    · cases h
    split at h
    · cases h
    dsimp only at h
    split at h
    · cases h
    split at h
    · rename_i c hread hversion _ hcomplete hroot
      cases h
      refine ⟨?_, firstMissing_eq_none.mp hcomplete, hroot⟩
      rw [hread, ← Decidable.not_not.mp hversion]
    · cases h
  · intro h
    obtain ⟨hread, hcomplete, hroot⟩ := h
    have hmissing := firstMissing_eq_none.mpr hcomplete
    simp only [decode, hread, ne_eq, not_true, if_false, Array.toArray_toList, hmissing, hroot,
      if_true]

/-- A forest comes back from its snapshot. -/
theorem decode_encode_complete (h : f.Storable) (hcomplete : f.Complete)
    (hroot : f.isValid root = true) : decode (encode f root) = .ok (f, root) :=
  decode_eq_ok.mpr ⟨read_encode h hroot, hcomplete, hroot⟩

end

section
variable {size : Nat} {item : Item} (hsize : size < lengthLimit) (hitem : item.SizedBy size)
include hsize hitem

theorem storable_text (h : text item = .ok t) : t.Storable := by
  obtain ⟨hvalid, hlength⟩ := textOr_valid ⟨by decide, Nat.zero_le _⟩ hitem h
  exact ⟨hvalid, Nat.lt_of_le_of_lt hlength hsize⟩

theorem storable_operand (h : operand item = .ok v) : v.Storable := by
  refine record_keeps (P := Operand.Storable) (fun {a n i b} ha hi h => ?_) ?_ hitem h
  · unfold operandField at h
    split at h
    · obtain ⟨kind, -, h⟩ := bind_eq_ok.mp h
      cases h
      exact ⟨ha.text, ha.target⟩
    · obtain ⟨t, ht, h⟩ := bind_eq_ok.mp h
      cases h
      exact ⟨storable_text hsize hi ht, ha.target⟩
    · obtain ⟨number, -, h⟩ := bind_eq_ok.mp h
      cases h
      exact ⟨ha.text, ha.target⟩
    · obtain ⟨target, htarget, h⟩ := bind_eq_ok.mp h
      cases h
      exact ⟨ha.text, int_in_range ⟨by decide, by decide⟩ htarget⟩
    · cases h
      exact ha
  · exact ⟨⟨by decide, by decide⟩, by decide⟩

theorem storable_names {list : Option (List Text)} (h : texts item = .ok list) :
    (Note.names list).Storable := by
  cases list with
  | none => trivial
  | some list =>
    obtain ⟨hcount, heach⟩ := list_elements hitem h
    refine ⟨hcount, fun name hname => ?_⟩
    obtain ⟨i, hi, hname⟩ := heach name hname
    exact storable_text hsize hi hname

theorem storable_notes {notes : Notes} (h : Snapshot.notes item = .ok notes) : notes.Storable := by
  unfold Snapshot.notes at h
  cases hread : dictionary "map[string][]string" texts item with
  | error fault =>
    rw [hread] at h
    cases h
  | ok lists =>
    rw [hread] at h
    cases h
    obtain ⟨hcount, heach⟩ := dictionary_entries hitem hread
    have hlists : ∀ e ∈ lists, e.1.Storable ∧ (Note.names e.2).Storable := by
      intro e he
      obtain ⟨⟨hvalid, hlength⟩, i, hi, hnames⟩ := heach e he
      exact ⟨⟨hvalid, Nat.lt_of_le_of_lt hlength hsize⟩, storable_names hsize hi hnames⟩
    obtain ⟨hfits, hentries⟩ := foldl_insert_keeps {} (by simp) hlists
    exact ⟨Nat.le_trans hfits (by simpa using hcount), hentries⟩

theorem storable_node (h : node item = .ok n) : n.Storable := by
  refine record_keeps (P := Node.Storable) (fun {a key i b} ha hi h => ?_) ?_ hitem h
  · unfold nodeField at h
    split at h
    · obtain ⟨tag, -, h⟩ := bind_eq_ok.mp h
      cases h
      exact ⟨ha.fits, ha.args, ha.pos, ha.notes⟩
    · obtain ⟨args, hargs, h⟩ := bind_eq_ok.mp h
      cases h
      cases args with
      | none => exact ⟨Nat.zero_le _, by simp, ha.pos, ha.notes⟩
      | some args =>
        obtain ⟨hcount, heach⟩ := list_elements hi hargs
        refine ⟨hcount, fun v hv => ?_, ha.pos, ha.notes⟩
        obtain ⟨j, hj, hv⟩ := heach v hv
        exact storable_operand hsize hj hv
    · obtain ⟨file, hfile, h⟩ := bind_eq_ok.mp h
      cases h
      exact ⟨ha.fits, ha.args, ⟨storable_text hsize hi hfile, ha.pos.line, ha.pos.column⟩, ha.notes⟩
    · obtain ⟨line, hline, h⟩ := bind_eq_ok.mp h
      cases h
      have hrange := int_in_range ⟨by decide, by decide⟩ hline
      exact ⟨ha.fits, ha.args, ⟨ha.pos.file, hrange, ha.pos.column⟩, ha.notes⟩
    · obtain ⟨column, hcolumn, h⟩ := bind_eq_ok.mp h
      cases h
      have hrange := int_in_range ⟨by decide, by decide⟩ hcolumn
      exact ⟨ha.fits, ha.args, ⟨ha.pos.file, ha.pos.line, hrange⟩, ha.notes⟩
    · obtain ⟨notes, hnotes, h⟩ := bind_eq_ok.mp h
      cases h
      exact ⟨ha.fits, ha.args, ha.pos, storable_notes hsize hi hnotes⟩
    · cases h
      exact ha
  · exact ⟨Nat.zero_le _, by simp [emptyNode], ⟨⟨by decide, by decide⟩, by decide, by decide⟩,
      ⟨Nat.zero_le _, by simp [emptyNode]⟩⟩

theorem storable_content (h : content item = .ok c) :
    c.nodes.length ≤ maxCount ∧ ∀ n ∈ c.nodes, n.Storable := by
  refine record_keeps (P := fun c : Content => c.nodes.length ≤ maxCount ∧
    ∀ n ∈ c.nodes, n.Storable)
    (fun {a key i b} ha hi h => ?_) ⟨Nat.zero_le _, by simp⟩ hitem h
  unfold contentField at h
  split at h
  · obtain ⟨version, -, h⟩ := bind_eq_ok.mp h
    cases h
    exact ha
  · obtain ⟨root, -, h⟩ := bind_eq_ok.mp h
    cases h
    exact ha
  · obtain ⟨nodes, hnodes, h⟩ := bind_eq_ok.mp h
    cases h
    cases nodes with
    | none => exact ⟨Nat.zero_le _, by simp⟩
    | some nodes =>
      obtain ⟨hcount, heach⟩ := list_elements hi hnodes
      refine ⟨hcount, fun n hn => ?_⟩
      obtain ⟨j, hj, hn⟩ := heach n hn
      exact storable_node hsize hj hn
  · cases h
    exact ha

end

/-- What comes from a snapshot can be stored in one. -/
theorem decode_storable (hsize : bytes.length < lengthLimit) (h : decode bytes = .ok (f, root)) :
    f.Storable ∧ f.Complete ∧ f.isValid root = true := by
  obtain ⟨hread, hcomplete, hroot⟩ := decode_eq_ok.mp h
  obtain ⟨item, hitem, hcontent⟩ := bind_eq_ok.mp hread
  have hwithin := sizedBy_of_decode (mapError_eq_ok.mp hitem)
  obtain ⟨hcount, heach⟩ := storable_content hsize hwithin hcontent
  exact ⟨⟨hcount, fun n hn => heach n (Array.mem_toList_iff.mpr hn)⟩, hcomplete, hroot⟩

/-- A forest that can be stored, refers to nothing missing and has the root comes back from its
snapshot as it was, every field of every node included. Whatever bytes are read as a snapshot, they
hold such a forest with such a root, which a snapshot of it gives back. -/
theorem decode_snapshot :
    (∀ (f : Forest) (root : Int), f.Storable → f.Complete → f.isValid root = true →
      decode (encode f root) = .ok (f, root)) ∧
    ∀ (bytes : List UInt8) (f : Forest) (root : Int), bytes.length < lengthLimit →
      decode bytes = .ok (f, root) →
        f.Storable ∧ f.Complete ∧ f.isValid root = true ∧
        decode (encode f root) = .ok (f, root) := by
  refine ⟨fun f root h hcomplete hroot => decode_encode_complete h hcomplete hroot, ?_⟩
  intro bytes f root hsize h
  obtain ⟨hstorable, hcomplete, hroot⟩ := decode_storable hsize h
  exact ⟨hstorable, hcomplete, hroot, decode_encode_complete hstorable hcomplete hroot⟩

/-- Two nodes that refer to each other, with an unknown tag, an unknown operand that carries every
payload, an absent list of names, and a third node that hangs nowhere. -/
def tangled : Forest :=
  ⟨#[⟨Tag.ofByte 0xEE, [.ref 2, ⟨9, "é", -5, -7⟩], ⟨"t", 1, 2⟩,
      (({} : Notes).insert "aa" (.names (some ["x", Text.empty]))).insert "b" (.names none)⟩,
    ⟨.call, [.ref 1, .ref 1, .nil], Position.unknown, {}⟩,
    ⟨.list, [], ⟨Text.empty, -1, 0⟩, {}⟩]⟩

/-- A snapshot that is not in the shortest form: a map without a length, tagged, with the text of
a number as a key and a field that does not exist. -/
def loose : List UInt8 :=
  [0xD9, 0xD9, 0xF7, 0xBF, 0x61, 0x31, 0x01, 0x02, 0x18, 0x01, 0x18, 0x63, 0xF6, 0x03, 0x81, 0xA1,
    0x02, 0x81, 0xA2, 0x01, 0x04, 0x04, 0x01, 0xFF]

theorem decode_snapshot_tangled :
    (tangled.Storable ∧ tangled.Complete ∧ tangled.isValid 2 = true ∧
      decode (encode tangled 2) = .ok (tangled, 2)) ∧
    loose.length < lengthLimit ∧
    decode loose = .ok (⟨#[⟨Tag.ofByte 0, [.ref 1], Position.unknown, {}⟩]⟩, 1) ∧
    (Forest.mk #[⟨Tag.ofByte 0, [.ref 1], Position.unknown, {}⟩]).Complete := by
  have hstorable : tangled.Storable := by decide +kernel
  have hcomplete : tangled.Complete := by decide +kernel
  have hloose : decode loose = .ok (⟨#[⟨Tag.ofByte 0, [.ref 1], Position.unknown, {}⟩]⟩, 1) := by
    rfl
  refine ⟨⟨hstorable, hcomplete,
    by decide, decode_snapshot.1 tangled 2 hstorable hcomplete (by decide)⟩,
    by decide, hloose, (decode_snapshot.2 loose _ 1 (by decide) hloose).2.1⟩

end Snapshot

end Lowering
