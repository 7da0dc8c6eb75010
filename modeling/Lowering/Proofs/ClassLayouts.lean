import Lowering.Classes.Layout
import Lowering.Proofs.ClassHistory

namespace Lowering

namespace Classes

/-- What becomes of a class: it keeps its place, and methods are added at the end. -/
structure ClassScope.Grows (c c' : ClassScope) : Prop where
  name : c'.name = c.name
  kind : c'.kind = c.kind
  parent : c'.parent = c.parent
  methods : c.methods <+: c'.methods

namespace ClassScope.Grows

variable {a b c : ClassScope}

theorem refl (c : ClassScope) : c.Grows c := ⟨rfl, rfl, rfl, List.prefix_refl _⟩

theorem trans (h : a.Grows b) (h' : b.Grows c) : a.Grows c where
  name := h'.name.trans h.name
  kind := h'.kind.trans h.kind
  parent := h'.parent.trans h.parent
  methods := h.methods.trans h'.methods

end ClassScope.Grows

namespace Table

/-- What becomes of a table: slots and classes are added at the end. -/
structure Grows (t t' : Table) : Prop where
  slots : t.slots <+: t'.slots
  classes : ∀ (i : Nat) (c : ClassScope), t.classes[i]? = some c →
    ∃ c', t'.classes[i]? = some c' ∧ c.Grows c'

variable {t t' t'' : Table} {scope : Scope} {x name : Text}

theorem Grows.refl (t : Table) : t.Grows t :=
  ⟨List.prefix_refl _, fun _ c hc => ⟨c, hc, .refl c⟩⟩

theorem Grows.trans (h : t.Grows t') (h' : t'.Grows t'') : t.Grows t'' where
  slots := h.slots.trans h'.slots
  classes i c hc := by
    obtain ⟨c', hc', hgrows⟩ := h.classes i c hc
    obtain ⟨c'', hc'', hgrows'⟩ := h'.classes i c' hc'
    exact ⟨c'', hc'', hgrows.trans hgrows'⟩

theorem grows_update (h : ∀ c : ClassScope, c.Grows (change c)) :
    t.Grows (t.update name change) where
  slots := List.prefix_refl _
  classes i c hc := by
    refine ⟨if c.name = name then change c else c, by simp [update, hc], ?_⟩
    split
    · exact h c
    · exact .refl c

theorem grows_addConstant : t.Grows (t.addConstant scope x target) := by
  cases scope with
  | global => exact ⟨List.prefix_refl _, fun _ c hc => ⟨c, hc, .refl c⟩⟩
  | named name => exact grows_update fun _ => ⟨rfl, rfl, rfl, List.prefix_refl _⟩

theorem grows_linked : t.Grows (t.linked kind name parent super) := by
  unfold linked
  split
  · refine ⟨List.prefix_refl _, fun i c hc => ⟨c, ?_, .refl c⟩⟩
    obtain ⟨hi, -⟩ := List.getElem?_eq_some_iff.mp hc
    rw [List.getElem?_append_left hi, hc]
  · split
    · exact grows_update fun _ => ⟨rfl, rfl, rfl, List.prefix_refl _⟩
    · exact .refl t

theorem Step.grows (h : Step t t') : t.Grows t' := by
  cases h with
  | method scope name =>
    have hintern : t.Grows (t.intern name) :=
      ⟨Names.prefix_add _ _, fun _ c hc => ⟨c, hc, .refl c⟩⟩
    cases scope with
    | global => exact hintern
    | named c => exact hintern.trans (grows_update fun _ => ⟨rfl, rfl, rfl, Names.prefix_add _ _⟩)
  | ivar scope name =>
    cases scope with
    | global => exact .refl t
    | named c => exact grows_update fun _ => ⟨rfl, rfl, rfl, List.prefix_refl _⟩
  | opening named known name super =>
    rw [enter_eq]
    exact (grows_linked.trans grows_addConstant).trans grows_addConstant

/-- A table only grows. -/
theorem History.grows (h : History t t') : t.Grows t' := by
  induction h with
  | refl => exact .refl t
  | tail _ hstep ih => exact ih.trans hstep.grows

/-- The slots of a table are distinct and its classes have their methods among them; a class stands
in the global scope or in a class that was opened before it, and its constants are classes. -/
structure WellBuilt (t : Table) : Prop where
  slots : t.slots.Nodup
  methods : ∀ c ∈ t.classes, ∀ m ∈ c.methods, m ∈ t.slots
  bound : ∀ c ∈ t.classes, ∀ k ∈ c.constants, k.2.isSome = true
  parents : ∀ (i : Nat) (c : ClassScope), t.classes[i]? = some c → ∃ scope, c.parent = some scope ∧
    ∀ p, scope = .named p → ∃ (j : Nat) (k : ClassScope), j < i ∧ t.classes[j]? = some k ∧
      k.name = p

theorem wellBuilt_ofReserved (reserved : List Text) : (ofReserved reserved).WellBuilt where
  slots := by
    have hfold : ∀ (rest acc : List Text), acc.Nodup → (rest.foldl Names.add acc).Nodup := by
      intro rest
      induction rest with
      | nil => exact fun _ h => h
      | cons x rest ih => exact fun acc h => ih _ (Names.nodup_add h)
    exact hfold reserved [] List.nodup_nil
  methods := by simp [ofReserved]
  bound := by simp [ofReserved]
  parents := by simp [ofReserved]

/-- A change of one class that leaves its name and its place, with methods that have slots. -/
theorem WellBuilt.update (h : t.WellBuilt) (hname : ∀ c, (change c).name = c.name)
    (hparent : ∀ c, (change c).parent = c.parent)
    (hmethods : ∀ c ∈ t.classes, ∀ m ∈ (change c).methods, m ∈ t.slots)
    (hbound : ∀ c ∈ t.classes, ∀ k ∈ (change c).constants, k.2.isSome = true) :
    (t.update name change).WellBuilt where
  slots := h.slots
  methods c' hc' := by
    obtain ⟨c, hc, rfl⟩ := List.mem_map.mp hc'
    split
    · exact hmethods c hc
    · exact h.methods c hc
  bound c' hc' := by
    obtain ⟨c, hc, rfl⟩ := List.mem_map.mp hc'
    split
    · exact hbound c hc
    · exact h.bound c hc
  parents i c' hc' := by
    obtain ⟨c, hc, rfl⟩ : ∃ c, t.classes[i]? = some c ∧
        (if c.name = name then change c else c) = c' := by
      simpa [Table.update] using hc'
    obtain ⟨scope, hscope, hbefore⟩ := h.parents i c hc
    refine ⟨scope, by split <;> simp [hparent, hscope], fun p hp => ?_⟩
    obtain ⟨j, k, hj, hk, hkp⟩ := hbefore p hp
    exact ⟨j, if k.name = name then change k else k, hj, by simp [Table.update, hk],
      by split <;> simp [hname, hkp]⟩

theorem WellBuilt.addConstant (h : t.WellBuilt) (s : Text) :
    (t.addConstant scope x (some s)).WellBuilt := by
  cases scope with
  | global => exact ⟨h.slots, h.methods, h.bound, h.parents⟩
  | named name =>
    refine WellBuilt.update h ?_ ?_ h.methods ?_
    · exact fun _ => rfl
    · exact fun _ => rfl
    intro c hc k hk
    obtain hk | rfl := mem_put hk
    · exact h.bound c hc k hk
    · rfl

theorem WellBuilt.linked (h : t.WellBuilt) (hknown : t.knows scope = true) :
    (t.linked kind name (some scope) super).WellBuilt := by
  unfold Table.linked
  split
  · refine ⟨h.slots, ?_, ?_, fun i c hc => ?_⟩
    · intro c hc
      obtain hc | rfl := List.mem_append.mp hc |>.imp_right List.mem_singleton.mp
      · exact h.methods c hc
      · simp
    · intro c hc
      obtain hc | rfl := List.mem_append.mp hc |>.imp_right List.mem_singleton.mp
      · exact h.bound c hc
      · simp
    · have keep : ∀ {j : Nat} {k : ClassScope}, t.classes[j]? = some k → ∀ more : List ClassScope,
          (t.classes ++ more)[j]? = some k := by
        intro j k hk more
        rw [List.getElem?_append_left (List.getElem?_eq_some_iff.mp hk).1, hk]
      rw [List.getElem?_append] at hc
      split at hc
      · obtain ⟨scope', hscope, hbefore⟩ := h.parents i c hc
        refine ⟨scope', hscope, fun p hp => ?_⟩
        obtain ⟨j, k, hj, hk, hkp⟩ := hbefore p hp
        exact ⟨j, k, hj, keep hk _, hkp⟩
      · rename_i hi
        obtain rfl := List.mem_singleton.mp (List.mem_of_getElem? hc)
        refine ⟨scope, rfl, fun p hp => ?_⟩
        subst hp
        obtain ⟨k, hk⟩ := Option.isSome_iff_exists.mp (show (t.find? p).isSome = true from hknown)
        obtain ⟨j, hj⟩ := List.getElem?_of_mem (List.mem_of_find?_eq_some hk)
        have hlt := (List.getElem?_eq_some_iff.mp hj).1
        exact ⟨j, k, by omega, keep hj _, name_of_find? hk⟩
  · split
    · exact h.update (fun _ => rfl) (fun _ => rfl) h.methods h.bound
    · exact h

theorem WellBuilt.step (h : t.WellBuilt) (hstep : Step t t') : t'.WellBuilt := by
  cases hstep with
  | method scope name =>
    have hsub : ∀ m ∈ t.slots, m ∈ Names.add t.slots name := fun m hm => Names.mem_add.mpr (.inl hm)
    have hintern : (t.intern name).WellBuilt :=
      ⟨Names.nodup_add h.slots, fun c hc m hm => hsub m (h.methods c hc m hm), h.bound, h.parents⟩
    cases scope with
    | global => exact hintern
    | named c =>
      refine WellBuilt.update hintern ?_ ?_ ?_ hintern.bound
      · exact fun _ => rfl
      · exact fun _ => rfl
      intro c hc m hm
      obtain hm | rfl := Names.mem_add.mp hm
      · exact hintern.methods c hc m hm
      · exact Names.mem_add.mpr (.inr rfl)
  | ivar scope name =>
    cases scope with
    | global => exact h
    | named c => exact h.update (fun _ => rfl) (fun _ => rfl) h.methods h.bound
  | opening named known name super =>
    rw [enter_eq]
    exact ((h.linked known).addConstant name).addConstant name

theorem WellBuilt.history (h : t.WellBuilt) (hh : History t t') : t'.WellBuilt := by
  induction hh with
  | refl => exact h
  | tail _ hstep ih => exact ih.step hstep

/-- The class that is found is the first one with the name. -/
theorem find?_eq_some_iff : t.find? x = some c ↔
    ∃ i : Nat, t.classes[i]? = some c ∧ c.name = x ∧
      ∀ (j : Nat) (k : ClassScope), t.classes[j]? = some k → k.name = x → i ≤ j := by
  unfold find?
  rw [List.find?_eq_some_iff_getElem]
  constructor
  · rintro ⟨hc, i, hi, rfl, hfirst⟩
    refine ⟨i, List.getElem?_eq_getElem hi, by simpa using hc, fun j k hk hkx => ?_⟩
    by_contra hlt
    obtain ⟨hj, rfl⟩ := List.getElem?_eq_some_iff.mp hk
    simpa [hkx] using hfirst j (by omega)
  · rintro ⟨i, hc, hname, hfirst⟩
    obtain ⟨hi, rfl⟩ := List.getElem?_eq_some_iff.mp hc
    refine ⟨by simpa using hname, i, hi, rfl, fun j hj => ?_⟩
    have hlen : j < t.classes.length := by omega
    simp only [Bool.not_eq_true', decide_eq_false_iff_not]
    intro hjx
    have := hfirst j _ (List.getElem?_eq_getElem hlen) hjx
    omega

theorem Grows.find? (h : t.Grows t') (hc : t.find? x = some c) :
    ∃ c', t'.find? x = some c' ∧ c.Grows c' := by
  obtain ⟨i, hi, hname, hfirst⟩ := find?_eq_some_iff.mp hc
  obtain ⟨c', hc', hgrows⟩ := h.classes i c hi
  refine ⟨c', find?_eq_some_iff.mpr ⟨i, hc', hgrows.name.trans hname, fun j k hk hkx => ?_⟩, hgrows⟩
  by_contra hlt
  have hlen := (List.getElem?_eq_some_iff.mp hi).1
  obtain ⟨k', hk', hgrows'⟩ := h.classes j _ (List.getElem?_eq_getElem (by omega))
  obtain rfl := Option.mem_unique hk hk'
  exact hlt (hfirst j _ (List.getElem?_eq_getElem (by omega)) (hgrows'.name ▸ hkx))

theorem WellBuilt.parent {i : Nat} (ho : t.WellBuilt) (hc : t.classes[i]? = some c)
    (hx : t.find? x = some c) : t.parentOf (.named x) = some .global ∨
      ∃ p j k, t.parentOf (.named x) = some (.named p) ∧ j < i ∧ t.classes[j]? = some k ∧
        t.find? p = some k := by
  obtain ⟨scope, hscope, hbefore⟩ := ho.parents i c hc
  have hparent : t.parentOf (.named x) = some scope := by simp [parentOf, hx, hscope]
  cases scope with
  | global => exact .inl hparent
  | named p =>
    obtain ⟨j, m, hj, hm, hmp⟩ := hbefore p rfl
    obtain ⟨k, hk⟩ : ∃ k, t.find? p = some k := by
      apply Option.isSome_iff_exists.mp
      exact List.find?_isSome.mpr ⟨m, List.mem_of_getElem? hm, by simpa using hmp⟩
    obtain ⟨j', hj', -, hfirst⟩ := find?_eq_some_iff.mp hk
    have hle := hfirst j m hm hmp
    exact .inr ⟨p, j', k, hparent, by omega, hj', hk⟩

theorem outward_global (t : Table) (k : Nat) : t.outward (k + 1) .global = [.global] := rfl

theorem outward_parent (h : t.parentOf scope = some around) :
    t.outward (k + 1) scope = scope :: t.outward k around := by
  rw [outward, h]

/-- The scopes around a class stay the same, and of the same kinds; the last is the global one. -/
theorem Grows.outward (h : t.Grows t') (ho : t.WellBuilt) {i k k' : Nat}
    (hc : t.classes[i]? = some c) (hx : t.find? x = some c) (hk : i + 2 ≤ k) (hk' : i + 2 ≤ k') :
    t'.outward k' (.named x) = t.outward k (.named x) ∧
      (∀ s ∈ t.outward k (.named x), t'.kindOf s = t.kindOf s) ∧
      (t.outward k (.named x)).getLast? = some .global := by
  induction i using Nat.strongRecOn generalizing x c k k' with
  | ind i ih =>
    obtain ⟨c', hc', hgrows⟩ := h.find? hx
    obtain ⟨k, rfl⟩ := Nat.exists_eq_add_of_le' (show 2 ≤ k by omega)
    obtain ⟨k', rfl⟩ := Nat.exists_eq_add_of_le' (show 2 ≤ k' by omega)
    have hsame : t'.parentOf (.named x) = t.parentOf (.named x) := by
      simp [parentOf, hx, hc', hgrows.parent]
    have hkind : t'.kindOf (.named x) = t.kindOf (.named x) := by
      simp [kindOf, hx, hc', hgrows.kind]
    rcases ho.parent hc hx with hparent | ⟨p, j, m, hparent, hj, hm, hp⟩
    · rw [outward_parent hparent, outward_parent (hsame.trans hparent), outward_global,
        outward_global]
      exact ⟨rfl, by simpa using ⟨hkind, rfl⟩, rfl⟩
    · rw [outward_parent hparent, outward_parent (hsame.trans hparent)]
      obtain ⟨heq, hkinds, hlast⟩ := ih j hj hm hp (show j + 2 ≤ k + 1 by omega)
        (show j + 2 ≤ k' + 1 by omega)
      refine ⟨congrArg _ heq, fun s hs => ?_, by simp [List.getLast?_cons, hlast]⟩
      obtain rfl | hs := List.mem_cons.mp hs
      · exact hkind
      · exact hkinds s hs

theorem takeWhile_congr {l : List α} (h : ∀ a ∈ l, p a = q a) : l.takeWhile p = l.takeWhile q := by
  induction l with
  | nil => rfl
  | cons a l ih =>
    rw [List.takeWhile_cons, List.takeWhile_cons, h a List.mem_cons_self,
      ih fun b hb => h b (List.mem_cons_of_mem _ hb)]

/-- The full name of a class stays. -/
theorem Grows.fullName {c : ClassScope} (h : t.Grows t') (ho : t.WellBuilt) (hc : c ∈ t.classes) :
    t'.fullName c.name = t.fullName c.name := by
  obtain ⟨k, hk⟩ : ∃ k, t.find? c.name = some k := by
    apply Option.isSome_iff_exists.mp
    exact List.find?_isSome.mpr ⟨c, hc, by simp⟩
  obtain ⟨i, hi, -⟩ := find?_eq_some_iff.mp hk
  have hlen := (List.getElem?_eq_some_iff.mp hi).1
  obtain ⟨k', hk', -⟩ := h.classes i k hi
  have hlen' := (List.getElem?_eq_some_iff.mp hk').1
  obtain ⟨houtward, hkinds, -⟩ := h.outward ho hi hk (show i + 2 ≤ t.classes.length + 1 by omega)
    (show i + 2 ≤ t'.classes.length + 1 by omega)
  have htake := takeWhile_congr (p := fun s => decide (t'.kindOf s ≠ .global))
    (q := fun s => decide (t.kindOf s ≠ .global))
    (l := (t.outward (t.classes.length + 1) (.named c.name)).tail)
    fun s hs => by rw [hkinds s (List.mem_of_mem_tail hs)]
  unfold Table.fullName path
  rw [houtward, htake]

theorem slotOf_of_mem (h : x ∈ t.slots) : t.slotOf x = (t.slots.idxOf x : Int) := by
  obtain ⟨i, hi⟩ := Option.isSome_iff_exists.mp (List.isSome_idxOf?.mpr h)
  rw [slotOf, List.idxOf_eq_getD_idxOf?, hi]
  rfl

/-- The slot of a method stays. -/
theorem Grows.slotOf (h : t.Grows t') (hx : x ∈ t.slots) : t'.slotOf x = t.slotOf x := by
  obtain ⟨more, hmore⟩ := h.slots
  have hx' : x ∈ t'.slots := hmore ▸ List.mem_append_left more hx
  rw [slotOf_of_mem hx, slotOf_of_mem hx', ← hmore, List.idxOf_append_of_mem hx]

theorem ancestry_super (hx : t.find? x = some c) (hs : c.super = some s) :
    t.ancestry (fuel + 1) x = c :: t.ancestry fuel s := by
  simp [ancestry, hx, hs]

/-- A chain of superclasses that has been followed to its end is not followed further. -/
theorem ancestry_succ (h : (t.ancestry fuel x).getLast? = some top)
    (htop : top.super.bind t.find? = none) : t.ancestry (fuel + 1) x = t.ancestry fuel x := by
  induction fuel generalizing x with
  | zero => cases h
  | succ fuel ih =>
    cases hx : t.find? x with
    | none => simp [ancestry, hx]
    | some c =>
      cases hsuper : c.super with
      | none => simp [ancestry, hx, hsuper]
      | some s =>
        rw [ancestry_super hx hsuper] at h ⊢
        rw [ancestry_super hx hsuper]
        -- the last one is further up, since this class has a superclass
        cases hrest : t.ancestry fuel s with
        | nil =>
          obtain rfl : c = top := by simpa [hrest] using h
          rw [hsuper, Option.bind_some] at htop
          simp [ancestry, htop]
        | cons k ks =>
          have hlast : (t.ancestry fuel s).getLast? = some top := by
            simpa [hrest, List.getLast?_cons_cons] using h
          rw [ih hlast, hrest]

/-- Where the chain of a superclass ends, the ancestors of a class are the class and those of its
superclass. -/
theorem ancestors_super (h : t.NamesKnown) (hends : Ends t.superOf s) (hc : t.find? name = some c)
    (hsuper : c.super = some s) : t.ancestors name = c :: t.ancestors s := by
  have hs : t.superOf name = some s := by simp [superOf, hc, hsuper]
  obtain ⟨k, hk⟩ := Option.isSome_iff_exists.mp (h.super hs)
  obtain ⟨n, hn⟩ : ∃ n, t.classes.length = n + 1 :=
    Nat.exists_eq_add_one.mpr (List.length_pos_of_mem (List.mem_of_find?_eq_some hc))
  obtain ⟨top, hlast, htop⟩ := ancestry_top hends hk (by simp)
    (by simpa [hc] using ⟨s, hs, .refl⟩) (show t.classes.length ≤ [name].length + n by simp; omega)
  have hsame : t.ancestors s = t.ancestry n s := by
    rw [ancestors, hn, ancestry_succ hlast htop]
  rw [hsame, ancestors, hn, ancestry_super hc hsuper]

/-- A method has one slot in a class and in its superclass. -/
theorem offset_of_super (h : t.NamesKnown) (hrooted : t.Rooted) (hs : t.superOf name = some s)
    (hx : 0 ≤ t.offset s x) : t.offset name x = t.offset s x := by
  obtain ⟨c, hc, hsuper⟩ := Option.bind_eq_some_iff.mp hs
  have hany : ((t.ancestors s).any fun c => c.methods.contains x) = true := by
    by_contra hno
    rw [offset, if_neg hno] at hx
    omega
  rw [offset, offset, ancestors_super h (hrooted s) hc hsuper, List.any_cons, hany, Bool.or_true]

end Table

/-- Every method of a layout has its name at its slot, and no name stands at two slots. -/
structure Layout.Consistent (l : Layout) : Prop where
  distinct : l.offsets.Nodup
  slots : ∀ c ∈ l.classes, ∀ m ∈ c.methods, 0 ≤ m.offset ∧ m.offset < l.offsets.length ∧
    l.offsets[m.offset.toNat]? = some m.name
  agree : ∀ c ∈ l.classes, ∀ d ∈ l.classes, ∀ m ∈ c.methods, ∀ k ∈ d.methods,
    m.name = k.name → m.offset = k.offset

/-- What becomes of a layout: slots are added at the end, classes keep their places and names, and
their methods are added at the end, too. -/
structure Layout.Grows (l l' : Layout) : Prop where
  offsets : l.offsets <+: l'.offsets
  classes : ∀ (i : Nat) (c : ClassLayout), l.classes[i]? = some c →
    ∃ c', l'.classes[i]? = some c' ∧ c'.name = c.name ∧ c'.kind = c.kind ∧ c.methods <+: c'.methods

namespace Table

variable {t t' : Table}

/-- There is a layout if superclasses end. -/
theorem WellBuilt.layout? (h : t.WellBuilt) (hr : t.Rooted) : t.layout? = some t.layout := by
  have hbound : t.isBound = true :=
    List.all_eq_true.mpr fun c hc => List.all_eq_true.mpr fun k hk => h.bound c hc k hk
  rw [Table.layout?, hbound, hr.isRooted]
  rfl

theorem WellBuilt.consistent (h : t.WellBuilt) : t.layout.Consistent := by
  have hslot : ∀ c ∈ t.layout.classes, ∀ m ∈ c.methods,
      m.name ∈ t.slots ∧ m.offset = (t.slots.idxOf m.name : Int) := by
    intro c hc m hm
    obtain ⟨k, hk, rfl⟩ := List.mem_map.mp hc
    obtain ⟨x, hx, rfl⟩ := List.mem_map.mp hm
    have hmem := h.methods k hk x hx
    exact ⟨hmem, slotOf_of_mem hmem⟩
  refine ⟨h.slots, fun c hc m hm => ?_, fun c hc d hd m hm k hk hname => ?_⟩
  · obtain ⟨hmem, hoffset⟩ := hslot c hc m hm
    have hlt := List.idxOf_lt_length_of_mem hmem
    refine ⟨by omega, by rw [hoffset]; exact_mod_cast hlt, ?_⟩
    rw [hoffset, Int.toNat_natCast]
    exact List.getElem?_eq_some_iff.mpr ⟨hlt, List.getElem_idxOf hlt⟩
  · rw [(hslot c hc m hm).2, (hslot d hd k hk).2, hname]

/-- A layout grows with its table. -/
theorem Grows.layout (h : t.Grows t') (ho : t.WellBuilt) : t.layout.Grows t'.layout where
  offsets := h.slots
  classes i l hl := by
    obtain ⟨c, hc, rfl⟩ : ∃ c, t.classes[i]? = some c ∧ t.classLayout c = l := by
      simpa [Table.layout] using hl
    obtain ⟨c', hc', hgrows⟩ := h.classes i c hc
    have hmem := List.mem_of_getElem? hc
    refine ⟨t'.classLayout c', by simp [Table.layout, hc'], ?_, ?_, ?_⟩
    · exact (congrArg t'.fullName hgrows.name).trans (h.fullName ho hmem)
    · exact congrArg Kind.text hgrows.kind
    · obtain ⟨more, hmore⟩ := hgrows.methods
      have hold : (c.methods.map fun m => (⟨m, t.slotOf m⟩ : MethodSlot)) =
          c.methods.map fun m => ⟨m, t'.slotOf m⟩ :=
        List.map_congr_left fun m hm => by rw [h.slotOf (ho.methods c hmem m hm)]
      refine ⟨more.map fun m => ⟨m, t'.slotOf m⟩, ?_⟩
      simp only [classLayout, ← hmore, List.map_append, hold]

end Table

end Classes

namespace Pass.ClassScopes

open Classes Classes.Table

/-- The state after one more source, a file with its text, has been read into a context and its
classes have been collected, however that ends. -/
def collect (c : Context) (source : Text × Text) : Context :=
  match Reader.read source.1 source.2 c.forest with
  | .ok root forest => stateOf (run root { c with forest })
  | .error _ forest => { c with forest }

/-- A context into which some sources have been read, one after the other. -/
def collected (c : Context) (sources : List (Text × Text)) : Context := sources.foldl collect c

theorem history_collected (c : Context) (sources : List (Text × Text)) :
    History c.classes (collected c sources).classes := by
  induction sources generalizing c with
  | nil => exact .refl
  | cons source sources ih =>
    have hone : History c.classes (collect c source).classes := by
      unfold collect
      split
      · rename_i root forest _
        exact history_run root { c with forest }
      · exact .refl
    exact hone.trans (ih (collect c source))

/-- Slots stay: whatever sources are read into one context, the layout after some of them is
consistent, starts with the reserved names and is only added to by later ones, and a class has the
slots of its superclass. -/
theorem layouts_grow (forest : Forest) (options : Options) (earlier later : List (Text × Text))
    (hrooted : (collected (.ofForest forest options) (earlier ++ later)).classes.Rooted) :
    let t := (collected (.ofForest forest options) earlier).classes
    let t' := (collected (.ofForest forest options) (earlier ++ later)).classes
    ∃ l l', t.layout? = some l ∧ t'.layout? = some l' ∧ l.Consistent ∧
      options.reserved.eraseDups <+: l.offsets ∧ l.Grows l' ∧
      ∀ name s m, t.superOf name = some s → 0 ≤ t.offset s m → t.offset name m = t.offset s m := by
  intro t t'
  have hearlier : History (ofReserved options.reserved) t :=
    history_collected (.ofForest forest options) earlier
  have hlater : History t t' := by
    have h := history_collected (collected (.ofForest forest options) earlier) later
    rwa [collected, collected, ← List.foldl_append] at h
  have ho : t.WellBuilt := (wellBuilt_ofReserved options.reserved).history hearlier
  have hsound : t.NamesKnown := by
    obtain ⟨changes, hchanges⟩ := hearlier.exists_changes
    rw [hchanges]
    exact (namesKnown_ofReserved options.reserved).after changes
  have hbefore : t.Rooted := by
    obtain ⟨changes, hchanges⟩ := hlater.exists_changes
    exact ((rooted_after_iff hsound).mp (hchanges ▸ show t'.Rooted from hrooted)).1
  refine ⟨_, _, ho.layout? hbefore, (ho.history hlater).layout? hrooted,
    ho.consistent, ?_, hlater.grows.layout ho, fun name s m => offset_of_super hsound hbefore⟩
  rw [← Names.foldl_add_nil]
  exact hearlier.grows.slots

/-- A class with a method and an attribute. -/
def opened : Text × Text := ("a", "(class A _ ((defm f () ()) (call attr_reader (:x))))")

/-- A second class under it, which defines one of its methods anew, and more of the first. -/
def reopened : Text × Text :=
  ("b", "(do (class B A ((defm g () ()) (defm f () ()))) (class A _ ((defm h () ()))))")

/-- A context with one word reserved twice. -/
def reserving : Context := .ofForest {} { reserved := ["new", "new"] }

theorem layouts_grow_reopened : ∃ l l', (collected reserving [opened]).classes.layout? = some l ∧
    (collected reserving ([opened] ++ [reopened])).classes.layout? = some l' ∧
    (collected reserving ([opened] ++ [reopened])).classes.Rooted ∧ l.Consistent ∧ l.Grows l' ∧
    l.offsets = ["new", "f", "x"] ∧ l'.offsets = ["new", "f", "x", "g", "h"] ∧
    l'.classes.map (·.methods) = [[⟨"f", 1⟩, ⟨"x", 2⟩, ⟨"h", 4⟩], [⟨"g", 3⟩, ⟨"f", 1⟩]] := by
  have hrooted : (collected reserving ([opened] ++ [reopened])).classes.Rooted := by decide +kernel
  have hoffsets : ∀ l ∈ (collected reserving [opened]).classes.layout?,
      l.offsets = ["new", "f", "x"] := by decide +kernel
  have hslots : ∀ l ∈ (collected reserving ([opened] ++ [reopened])).classes.layout?,
      l.offsets = ["new", "f", "x", "g", "h"] ∧
      l.classes.map (·.methods) = [[⟨"f", 1⟩, ⟨"x", 2⟩, ⟨"h", 4⟩], [⟨"g", 3⟩, ⟨"f", 1⟩]] := by
    decide +kernel
  obtain ⟨l, l', hl, hl', hconsistent, -, hgrows, -⟩ :=
    layouts_grow {} { reserved := ["new", "new"] } [opened] [reopened] hrooted
  exact ⟨l, l', hl, hl', hrooted, hconsistent, hgrows, hoffsets l hl, hslots l' hl'⟩

end Pass.ClassScopes

end Lowering
