import Lowering.Proofs.LayoutNames

namespace Lowering

namespace Classes

open Cbor Cbor.Read

/-- No list is longer than the decoder takes. -/
structure ClassLayout.Fits (c : ClassLayout) : Prop where
  methods : c.methods.length ≤ maxCount
  ivars : c.ivars.length ≤ maxCount
  constants : c.constants.length ≤ maxCount

/-- No list is longer than the decoder takes. -/
structure Layout.Fits (l : Layout) : Prop where
  offsets : l.offsets.length ≤ maxCount
  classes : l.classes.length ≤ maxCount
  each : ∀ c ∈ l.classes, c.Fits

/-- The texts in the layout of a class. -/
def ClassLayout.words (c : ClassLayout) : List Text :=
  c.name :: c.kind :: c.super :: (c.methods.map (·.name) ++ (c.ivars ++ c.constants))

/-- The texts in a layout. -/
def Layout.words (l : Layout) : List Text := l.offsets ++ l.classes.flatMap (·.words)

/-- A slot is a number of 64 bits. -/
def MethodSlot.InRange (m : MethodSlot) : Prop :=
  -0x8000000000000000 ≤ m.offset ∧ m.offset ≤ 0x7FFFFFFFFFFFFFFF

/-- A class whose layout can be stored. -/
structure ClassLayout.Storable (c : ClassLayout) : Prop where
  fits : c.Fits
  words : ∀ t ∈ c.words, t.Storable
  slots : ∀ m ∈ c.methods, m.InRange

namespace Layout

theorem texts_textsItem (h : ∀ name ∈ names, Text.Storable name) :
    texts (textsItem names) = .ok names := by
  have hread : Read.texts (textsItem names) = .ok (some names) :=
    list_array fun name hname => textOr_ofText (h name hname).valid
  rw [texts, hread]
  rfl

theorem definite_textsItem (hfits : names.length ≤ maxCount)
    (h : ∀ name ∈ names, Text.Storable name) : (textsItem names).Definite (levels + 1) := by
  refine .array (by simpa using hfits) fun i hi => ?_
  obtain ⟨name, hname, rfl⟩ := List.mem_map.mp hi
  exact Snapshot.definite_ofText (h name hname)

theorem written_slot (hname : m.name.Storable) (hslot : m.InRange) :
    Written slotField [(1, .ofText m.name), (2, .ofInt m.offset)]
      [(1, .ofText m.name), (2, .ofInt m.offset)] ⟨.empty, 0⟩ m := by
  have hfirst : slotField ⟨.empty, 0⟩ 1 (.ofText m.name) = .ok ⟨m.name, 0⟩ :=
    bind_eq_ok.mpr ⟨_, textOr_ofText hname.valid, rfl⟩
  have hsecond : slotField ⟨m.name, 0⟩ 2 (.ofInt m.offset) = .ok m :=
    bind_eq_ok.mpr ⟨_, int_ofInt hslot, rfl⟩
  exact (Written.one hfirst).append (.one hsecond)

theorem definite_slot (hname : m.name.Storable) (hslot : m.InRange) :
    (slotItem m).Definite (levels + 1) := by
  have hrange := hslot
  apply (written_slot hname hslot).plain
  · exact Nat.le_of_ble_eq_true rfl
  simp only [List.forall_mem_cons]
  unfold MethodSlot.InRange at hrange
  exact ⟨⟨by decide, Snapshot.definite_ofText hname⟩,
    ⟨by decide, Snapshot.definite_ofInt (by omega)⟩, by simp⟩

section
variable {c : ClassLayout} (h : c.Storable)
include h

theorem written_class : ∃ fields, classItem c = .record fields ∧
    Written classField [(1, .ofText c.name), (2, .ofText c.kind), (3, .ofText c.super),
      (4, .array (c.methods.map slotItem)), (5, textsItem c.ivars), (6, textsItem c.constants)]
      fields ⟨.empty, .empty, .empty, [], [], []⟩ c := by
  have hwords := h.words
  simp only [ClassLayout.words, List.forall_mem_cons, List.forall_mem_append, List.forall_mem_map]
    at hwords
  obtain ⟨hname, hkind, hsuper, hmethods, hivars, hconstants⟩ := hwords
  have hname : classField ⟨.empty, .empty, .empty, [], [], []⟩ 1 (.ofText c.name) =
      .ok ⟨c.name, .empty, .empty, [], [], []⟩ :=
    bind_eq_ok.mpr ⟨_, textOr_ofText hname.valid, rfl⟩
  have hkind : classField ⟨c.name, .empty, .empty, [], [], []⟩ 2 (.ofText c.kind) =
      .ok ⟨c.name, c.kind, .empty, [], [], []⟩ :=
    bind_eq_ok.mpr ⟨_, textOr_ofText hkind.valid, rfl⟩
  have hsuper : classField ⟨c.name, c.kind, .empty, [], [], []⟩ 3 (.ofText c.super) =
      .ok ⟨c.name, c.kind, c.super, [], [], []⟩ :=
    bind_eq_ok.mpr ⟨_, textOr_ofText hsuper.valid, rfl⟩
  have hmethods : classField ⟨c.name, c.kind, c.super, [], [], []⟩ 4
      (.array (c.methods.map slotItem)) = .ok ⟨c.name, c.kind, c.super, c.methods, [], []⟩ :=
    bind_eq_ok.mpr ⟨_, list_array fun m hm =>
      (written_slot (hmethods m hm) (h.slots m hm)).record (by simp), rfl⟩
  have hivars : classField ⟨c.name, c.kind, c.super, c.methods, [], []⟩ 5 (textsItem c.ivars) =
      .ok ⟨c.name, c.kind, c.super, c.methods, c.ivars, []⟩ :=
    bind_eq_ok.mpr ⟨_, texts_textsItem hivars, rfl⟩
  have hconstants : classField ⟨c.name, c.kind, c.super, c.methods, c.ivars, []⟩ 6
      (textsItem c.constants) = .ok c :=
    bind_eq_ok.mpr ⟨_, texts_textsItem hconstants, rfl⟩
  refine ⟨_, rfl, ((Written.one hname).append (.one hkind)).append
    (Snapshot.written_optional hsuper fun hempty => ?_) |>.append
    (Snapshot.written_optional hmethods fun hempty => ?_) |>.append
    (Snapshot.written_optional hivars fun hempty => ?_) |>.append
    (Snapshot.written_optional hconstants fun hempty => ?_)⟩
  · rw [Snapshot.eq_empty_of_isEmpty hempty]
  · rw [List.isEmpty_iff.mp hempty]
  · rw [List.isEmpty_iff.mp hempty]
  · rw [← List.isEmpty_iff.mp hempty]

theorem definite_class : (classItem c).Definite (levels + 3) := by
  obtain ⟨fields, hfields, hwritten⟩ := written_class h
  have hwords := h.words
  simp only [ClassLayout.words, List.forall_mem_cons, List.forall_mem_append, List.forall_mem_map]
    at hwords
  obtain ⟨hname, hkind, hsuper, hmethods, hivars, hconstants⟩ := hwords
  have hslots : (Item.array (c.methods.map slotItem)).Definite (levels + 2) := by
    refine .array (by simpa using h.fits.methods) fun i hi => ?_
    obtain ⟨m, hm, rfl⟩ := List.mem_map.mp hi
    exact definite_slot (hmethods m hm) (h.slots m hm)
  rw [hfields]
  apply hwritten.plain
  · exact Nat.le_of_ble_eq_true rfl
  simp only [List.forall_mem_cons]
  exact ⟨⟨by decide, Snapshot.definite_ofText hname⟩, ⟨by decide, Snapshot.definite_ofText hkind⟩,
    ⟨by decide, Snapshot.definite_ofText hsuper⟩, ⟨by decide, hslots⟩,
    ⟨by decide, definite_textsItem h.fits.ivars hivars⟩,
    ⟨by decide, definite_textsItem h.fits.constants hconstants⟩, by simp⟩

theorem classOf_classItem : classOf (classItem c) = .ok c := by
  obtain ⟨fields, hfields, hwritten⟩ := written_class h
  rw [hfields]
  exact hwritten.record (by simp)

end

theorem decode_eq_ok : decode bytes = .ok l ↔
    Cbor.read ofItem bytes = .ok l ∧ l.version = currentVersion := by
  unfold decode
  cases Cbor.read ofItem bytes with
  | error fault => simp
  | ok l' => grind

theorem decode_encode {l : Layout} (hversion : l.version = currentVersion) (hfits : l.Fits)
    (hwords : ∀ t ∈ l.words, t.Storable) (hslots : ∀ c ∈ l.classes, ∀ m ∈ c.methods, m.InRange) :
    decode l.encode = .ok l := by
  obtain ⟨hoffsets, hclasses⟩ := List.forall_mem_append.mp hwords
  have heach : ∀ c ∈ l.classes, c.Storable := fun c hc =>
    ⟨hfits.each c hc, fun t ht => hclasses t (List.mem_flatMap.mpr ⟨c, hc, ht⟩), hslots c hc⟩
  have hone : layoutField ⟨0, [], []⟩ 1 (.ofInt l.version) = .ok ⟨l.version, [], []⟩ :=
    bind_eq_ok.mpr ⟨_, int_ofInt (by rw [hversion]; decide), rfl⟩
  have htwo : layoutField ⟨l.version, [], []⟩ 2
      (if l.offsets.isEmpty then .null else textsItem l.offsets) =
      .ok ⟨l.version, l.offsets, []⟩ := by
    split
    · rename_i hempty
      rw [List.isEmpty_iff.mp hempty]
      rfl
    · exact bind_eq_ok.mpr ⟨_, texts_textsItem hoffsets, rfl⟩
  have hthree : layoutField ⟨l.version, l.offsets, []⟩ 3
      (if l.classes.isEmpty then .null else .array (l.classes.map classItem)) = .ok l := by
    split
    · rename_i hempty
      obtain ⟨version, offsets, classes⟩ := l
      obtain rfl := List.isEmpty_iff.mp hempty
      rfl
    · exact bind_eq_ok.mpr ⟨_, list_array fun c hc => classOf_classItem (heach c hc), rfl⟩
  have hwritten := ((Written.one hone).append (.one htwo)).append (.one hthree)
  have hplain : l.item.Definite 5 := by
    apply hwritten.plain
    · exact Nat.le_of_ble_eq_true rfl
    simp only [List.cons_append, List.nil_append, List.forall_mem_cons]
    refine ⟨⟨by decide, Snapshot.definite_ofInt (by rw [hversion]; decide)⟩, ⟨by decide, ?_⟩,
      ⟨by decide, ?_⟩, by simp⟩
    · split
      · exact .null
      · exact definite_textsItem hfits.offsets hoffsets
    · split
      · exact .null
      · refine .array (by simpa using hfits.classes) fun i hi => ?_
        obtain ⟨c, hc, rfl⟩ := List.mem_map.mp hi
        exact definite_class (heach c hc)
  refine decode_eq_ok.mpr ⟨bind_eq_ok.mpr ⟨l.item, mapError_eq_ok.mpr ?_, ?_⟩, hversion⟩
  · exact Cbor.decode_encode hplain (by decide)
  · exact hwritten.record (by simp)

section
variable {size : Nat} {item : Item} (hitem : item.SizedBy size)
include hitem

theorem length_getD_le {read : Item → Except Cbor.Fault α} {xs : Option (List α)}
    (h : list name read item = .ok xs) : (xs.getD []).length ≤ maxCount := by
  cases xs with
  | none => exact Nat.zero_le _
  | some xs => exact (list_elements hitem h).1

theorem length_texts_le (h : texts item = .ok names) : names.length ≤ maxCount := by
  unfold texts at h
  cases hread : Read.texts item with
  | error fault =>
    rw [hread] at h
    cases h
  | ok list =>
    rw [hread] at h
    cases h
    exact length_getD_le hitem hread

theorem fits_classOf (h : classOf item = .ok c) : c.Fits := by
  refine record_keeps (P := ClassLayout.Fits) (fun {a n i b} ha hi h => ?_) ?_ hitem h
  · unfold classField at h
    split at h
    iterate 3
      obtain ⟨_, -, h⟩ := bind_eq_ok.mp h
      cases h
      exact ⟨ha.methods, ha.ivars, ha.constants⟩
    · obtain ⟨methods, hmethods, h⟩ := bind_eq_ok.mp h
      cases h
      exact ⟨length_getD_le hi hmethods, ha.ivars, ha.constants⟩
    · obtain ⟨ivars, hivars, h⟩ := bind_eq_ok.mp h
      cases h
      exact ⟨ha.methods, length_texts_le hi hivars, ha.constants⟩
    · obtain ⟨constants, hconstants, h⟩ := bind_eq_ok.mp h
      cases h
      exact ⟨ha.methods, ha.ivars, length_texts_le hi hconstants⟩
    · cases h
      exact ha
  · exact ⟨Nat.zero_le _, Nat.zero_le _, Nat.zero_le _⟩

theorem fits_ofItem (h : ofItem item = .ok l) : l.Fits := by
  refine record_keeps (P := Layout.Fits) (fun {a n i b} ha hi h => ?_) ?_ hitem h
  · unfold layoutField at h
    split at h
    · obtain ⟨_, -, h⟩ := bind_eq_ok.mp h
      cases h
      exact ⟨ha.offsets, ha.classes, ha.each⟩
    · obtain ⟨offsets, hoffsets, h⟩ := bind_eq_ok.mp h
      cases h
      exact ⟨length_texts_le hi hoffsets, ha.classes, ha.each⟩
    · obtain ⟨classes, hclasses, h⟩ := bind_eq_ok.mp h
      cases h
      refine ⟨ha.offsets, length_getD_le hi hclasses, fun c hc => ?_⟩
      cases classes with
      | none => cases hc
      | some classes =>
        obtain ⟨j, hj, hc⟩ := (list_elements hi hclasses).2 c hc
        exact fits_classOf hj hc
    · cases h
      exact ha
  · exact ⟨Nat.zero_le _, Nat.zero_le _, by simp⟩

end

/-- What has been read back is within what the decoder takes. -/
theorem fits_of_decode (h : decode bytes = .ok l) : l.Fits := by
  obtain ⟨item, hitem, h⟩ := bind_eq_ok.mp (decode_eq_ok.mp h).1
  exact fits_ofItem (sizedBy_of_decode (mapError_eq_ok.mp hitem)) h

end Layout

namespace Table

/-- The names in a table: of methods, classes and instance variables. -/
def names (t : Table) : List Text := t.slots ++ t.classes.flatMap fun c => c.name :: c.ivars

variable {t : Table}

theorem isValid_join (hsep : Utf8.isValid sep.bytes = true)
    (h : ∀ part ∈ parts, Utf8.isValid part.bytes = true) :
    Utf8.isValid (Text.join sep parts).bytes = true := by
  induction parts with
  | nil => rfl
  | cons part parts ih =>
    obtain ⟨hpart, hparts⟩ := List.forall_mem_cons.mp h
    cases parts with
    | nil => simpa [Text.join] using hpart
    | cons next parts =>
      rw [Text.join_cons]
      exact Utf8.isValid_append hpart (Utf8.isValid_append hsep (ih hparts))

variable (ho : t.WellBuilt) (hnames : ∀ name ∈ t.names, Utf8.isValid name.bytes = true)
include hnames

theorem isValid_name (hc : c ∈ t.classes) : Utf8.isValid c.name.bytes = true := by
  apply hnames
  exact List.mem_append_right _ (List.mem_flatMap.mpr ⟨c, hc, List.mem_cons_self⟩)

theorem isValid_ivars (h : x ∈ t.ivars name) : Utf8.isValid x.bytes = true := by
  obtain ⟨k, hk, hx⟩ := List.mem_flatMap.mp (List.mem_eraseDups.mp h)
  obtain ⟨_, hfind⟩ := mem_ancestry (List.mem_reverse.mp hk)
  apply hnames
  exact List.mem_append_right _
    (List.mem_flatMap.mpr ⟨k, List.mem_of_find?_eq_some hfind, List.mem_cons_of_mem _ hx⟩)

include ho

theorem isValid_fullName (hc : c ∈ t.classes) : Utf8.isValid (t.fullName c.name).bytes = true := by
  refine isValid_join (by decide) fun part hpart => ?_
  obtain rfl | ⟨k, hk, rfl⟩ := ho.mem_path hpart
  · exact isValid_name hnames hc
  · exact isValid_name hnames hk

/-- The layout of a table has only what the names of the table are made into. -/
theorem isValid_words (hs : t.NamesKnown) (hu : t.Uniform) (h : x ∈ t.layout.words) :
    Utf8.isValid x.bytes = true := by
  have hstands : ∀ {text s}, t.ListedAs text s → Utf8.isValid text.bytes = true := by
    rintro text s ⟨i, c, hi, -, htext⟩
    obtain rfl : t.fullName c.name = text := by simpa [layout, classLayout, hi] using htext
    exact isValid_fullName ho hnames (List.mem_of_getElem? hi)
  obtain h | h := List.mem_append.mp h
  · exact hnames x (List.mem_append_left _ h)
  obtain ⟨l, hl, h⟩ := List.mem_flatMap.mp h
  obtain ⟨c, hc, rfl⟩ := List.mem_map.mp hl
  have hrefers := hs.refers hu hc
  simp only [ClassLayout.words, List.mem_cons, List.mem_append] at h
  obtain rfl | rfl | rfl | h | h | h := h
  · exact isValid_fullName ho hnames hc
  · show Utf8.isValid c.kind.text.bytes = true
    cases c.kind <;> decide
  · cases hsuper : c.super with
    | none =>
      rw [hrefers.without hsuper]
      decide
    | some s => exact hstands (hrefers.super s hsuper)
  · obtain ⟨m, hm, rfl⟩ := List.mem_map.mp h
    obtain ⟨x, hx, rfl⟩ := List.mem_map.mp hm
    exact hnames x (List.mem_append_left _ (ho.methods c hc x hx))
  · exact isValid_ivars hnames h
  · obtain ⟨i, hi, rfl⟩ := List.getElem_of_mem h
    obtain ⟨hlength, heach⟩ := List.forall₂_iff_get.mp hrefers.constants
    obtain ⟨s, -, htext⟩ := heach i (hlength ▸ hi) hi
    exact hstands htext

end Table

end Classes

namespace Pass.ClassScopes

open Classes Classes.Table

/-- Whatever sources are read into one context: if superclasses make no circle and the names of the
class table are in UTF-8, it has a layout, and that comes back from its record exactly if none of
its lists is too long for the decoder. -/
theorem layout_stored (forest : Forest) (options : Options) (sources : List (Text × Text)) :
    let t := (collected (.ofForest forest options) sources).classes
    t.Rooted → (∀ name ∈ t.names, Utf8.isValid name.bytes = true) →
      (∀ word ∈ t.layout.words, word.length < Cbor.lengthLimit) →
      t.layout? = some t.layout ∧
        (Layout.decode t.layout.encode = .ok t.layout ↔ t.layout.Fits) := by
  intro t hrooted hnames hlengths
  have ho : t.WellBuilt := (wellBuilt_ofReserved options.reserved).history
    (history_collected (.ofForest forest options) sources)
  have hs : t.NamesKnown := namesKnown_collected forest options sources
  have hu : t.Uniform := uniform_collected forest options sources
  refine ⟨ho.layout? hrooted, Layout.fits_of_decode,
    fun hfits => Layout.decode_encode rfl hfits ?_ ?_⟩
  · exact fun word hword => ⟨isValid_words ho hnames hs hu hword, hlengths word hword⟩
  · intro c hc m hm
    obtain ⟨hlow, hhigh, -⟩ := ho.consistent.slots c hc m hm
    have hcount := hfits.offsets
    unfold Cbor.maxCount at hcount
    unfold MethodSlot.InRange
    omega

/-- A class in a module with an attribute and a superclass. -/
def attributed : Text × Text :=
  ("",
    "(do (class Base _ ((defm größe () (@größe)))) " ++
      "(module M ((class A Base ((call attr_accessor (:x)))))))")

theorem layout_stored_attributed :
    let t := (collected (.ofForest {} { reserved := ["new"] }) [attributed]).classes
    t.layout.classes.map (·.name) = ["Base", "M", "M::A"] ∧ t.layout? = some t.layout ∧
      Layout.decode t.layout.encode = .ok t.layout := by
  intro t
  have hnames : ∀ name ∈ t.names, Utf8.isValid name.bytes = true := by decide +kernel
  have hlengths : ∀ word ∈ t.layout.words, word.length < Cbor.lengthLimit := by decide +kernel
  have hrooted : t.Rooted := by decide +kernel
  have hcounts : ∀ c ∈ t.layout.classes, c.methods.length ≤ Cbor.maxCount ∧
      c.ivars.length ≤ Cbor.maxCount ∧ c.constants.length ≤ Cbor.maxCount := by decide +kernel
  obtain ⟨hlayout, hiff⟩ := layout_stored _ _ _ hrooted hnames hlengths
  refine
    ⟨by decide +kernel, hlayout, hiff.mpr ⟨by decide +kernel, by decide +kernel, fun c hc => ?_⟩⟩
  obtain ⟨hmethods, hivars, hconstants⟩ := hcounts c hc
  exact ⟨hmethods, hivars, hconstants⟩

/-- One method name more than the decoder takes. -/
def tooMany : List Text := (List.range (Cbor.maxCount + 1)).map Decimal.ofNat

/-- The layout of a class does not come back if so many names are reserved. -/
theorem not_stored_tooMany :
    let t := (collected (.ofForest {} { reserved := tooMany }) [("", "(class A)")]).classes
    t.Rooted ∧ (∀ name ∈ t.names, Utf8.isValid name.bytes = true) ∧
      Layout.decode t.layout.encode ≠ .ok t.layout := by
  have htable : ∀ reserved : List Text,
      let t := (collected (.ofForest {} { reserved }) [("", "(class A)")]).classes
      t.isRooted = true ∧ t.slots = reserved.foldl Names.add [] ∧
        t.names = reserved.foldl Names.add [] ++ [("A" : Text)] := fun _ => ⟨rfl, rfl, rfl⟩
  have hdistinct : tooMany.Nodup := List.nodup_range.map Decimal.ofNat_injective
  have hkept : tooMany.foldl Names.add [] = [] ++ tooMany :=
    Names.foldl_add_of_nodup (by rwa [List.nil_append])
  intro t
  obtain ⟨hrooted, hslots, hnames⟩ := htable tooMany
  rw [hkept, List.nil_append] at hslots hnames
  refine ⟨rooted_iff.mpr hrooted, fun name hname => ?_, fun hdecode => ?_⟩
  · rw [hnames, List.mem_append, List.mem_singleton] at hname
    obtain hname | rfl := hname
    · obtain ⟨i, -, rfl⟩ := List.mem_map.mp hname
      refine Utf8.isValid_of_ascii fun b hb => ?_
      have hdigit := Decimal.isDigit_of_mem_digits hb
      grind [Decimal.isDigit]
    · decide
  · have hoffsets : ∀ t : Table, t.layout.offsets = t.slots := fun _ => rfl
    have hcount := (Layout.fits_of_decode hdecode).offsets
    rw [hoffsets, hslots, tooMany, List.length_map, List.length_range] at hcount
    omega

end Pass.ClassScopes

end Lowering
