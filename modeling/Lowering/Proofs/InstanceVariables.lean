import Lowering.Proofs.ClassLayouts

namespace Lowering.Classes.Table

variable {t : Table} {name x s : Text}

/-- The variables that a class has been given itself. -/
def ownIvars (t : Table) (name : Text) : List Text := ((t.find? name).map (·.ivars)).getD []

/-- At some point of a sequence of changes a class that was there has been given a variable. -/
def Gives (t : Table) (changes : List Change) (name x : Text) : Prop :=
  ∃ earlier later, changes = earlier ++ .ivar (.named name) x :: later ∧
    ((t.after earlier).find? name).isSome

theorem ownIvars_update (hname : ∀ c, (change c).name = c.name)
    (hivars : ∀ c, (change c).ivars = c.ivars) :
    (t.update other change).ownIvars name = t.ownIvars name := by
  unfold ownIvars
  rw [find?_update hname, Option.map_map]
  congr 2
  funext c
  dsimp only [Function.comp]
  split
  · exact hivars c
  · rfl

theorem ownIvars_addConstant :
    (t.addConstant scope key target).ownIvars name = t.ownIvars name := by
  cases scope with
  | global => rfl
  | named c => exact ownIvars_update (fun _ => rfl) fun _ => rfl

theorem ownIvars_linked : (t.linked kind other parent super).ownIvars name = t.ownIvars name := by
  cases h : t.find? other with
  | none =>
    -- a new class starts without variables
    unfold ownIvars
    rw [find?_linked_new h]
    split
    · rename_i hname
      simp [hname, h]
    · rfl
  | some c =>
    unfold linked
    simp only [h]
    split
    · exact ownIvars_update (fun _ => rfl) fun _ => rfl
    · rfl

theorem mem_ownIvars_apply (t : Table) (change : Change) : x ∈ (t.apply change).ownIvars name ↔
    x ∈ t.ownIvars name ∨ change = .ivar (.named name) x ∧ (t.find? name).isSome := by
  cases change with
  | opening kind other parent super =>
    have hsame : (t.enter kind other parent super).ownIvars name = t.ownIvars name := by
      rw [enter_eq]
      cases parent with
      | none => exact ownIvars_addConstant.trans ownIvars_linked
      | some p => exact ownIvars_addConstant.trans (ownIvars_addConstant.trans ownIvars_linked)
    simp [apply, hsame]
  | method scope m =>
    have hsame : (t.addMethod scope m).ownIvars name = t.ownIvars name := by
      cases scope with
      | global => rfl
      | named c => exact ownIvars_update (t := t.intern m) (fun _ => rfl) fun _ => rfl
    simp [apply, hsame]
  | ivar scope y =>
    cases scope with
    | global => simp [apply, addIvar]
    | named other =>
      simp only [apply, addIvar, ownIvars, Change.ivar.injEq, Scope.named.injEq]
      rw [find?_update (by simp)]
      cases h : t.find? name with
      | none => simp
      | some c =>
        obtain rfl := name_of_find? h
        by_cases hc : c.name = other
        · simp [hc, Names.mem_add, eq_comm]
        · simp [hc, Ne.symm hc]

theorem mem_ownIvars_after :
    x ∈ (t.after changes).ownIvars name ↔ x ∈ t.ownIvars name ∨ t.Gives changes name x := by
  induction changes generalizing t with
  | nil => simp [after, Gives]
  | cons change rest ih =>
    have hgives : t.Gives (change :: rest) name x ↔ (change = .ivar (.named name) x ∧
        (t.find? name).isSome) ∨ (t.apply change).Gives rest name x := by
      constructor
      · rintro ⟨_ | ⟨first, earlier⟩, later, heq, hknown⟩
        · obtain ⟨rfl, rfl⟩ := List.cons.inj heq
          exact .inl ⟨rfl, hknown⟩
        · obtain ⟨rfl, rfl⟩ := List.cons.inj heq
          exact .inr ⟨earlier, later, rfl, hknown⟩
      · rintro (⟨rfl, hknown⟩ | ⟨earlier, later, rfl, hknown⟩)
        · exact ⟨[], rest, rfl, hknown⟩
        · exact ⟨change :: earlier, later, rfl, hknown⟩
    rw [hgives, ← or_assoc, ← mem_ownIvars_apply]
    exact ih

/-- A class has the variables of its superclass, in their places, and then its own. -/
theorem ivars_of_super (h : t.NamesKnown) (hends : Ends t.superOf s)
    (hs : t.superOf name = some s) :
    t.ivars name = (t.ownIvars name).foldl Names.add (t.ivars s) := by
  obtain ⟨c, hc, hsuper⟩ := Option.bind_eq_some_iff.mp hs
  simp only [ivars, ← Names.foldl_add_nil]
  rw [ancestors_super h hends hc hsuper, List.reverse_cons, List.flatMap_append, List.foldl_append]
  simp [ownIvars, hc]

theorem ivars_of_top (hs : t.superOf name = none) :
    t.ivars name = (t.ownIvars name).foldl Names.add [] := by
  simp only [ivars, ← Names.foldl_add_nil, ancestors, ownIvars]
  cases hc : t.find? name with
  | none => cases t.classes.length <;> simp [ancestry, hc]
  | some c =>
    obtain ⟨n, hn⟩ : ∃ n, t.classes.length = n + 1 :=
      Nat.exists_eq_add_one.mpr (List.length_pos_of_mem (List.mem_of_find?_eq_some hc))
    have hsuper : c.super = none := by simpa [superOf, hc] using hs
    simp [ancestry, hn, hc, hsuper]

theorem prefix_ivars (h : t.NamesKnown) (hends : Ends t.superOf name)
    (hs : t.superOf name = some s) : t.ivars s <+: t.ivars name := by
  rw [ivars_of_super h (hends.of_leads (.single hs)) hs]
  exact Names.prefix_foldl_add _ _

theorem mem_ivars (h : t.NamesKnown) (hends : Ends t.superOf name) :
    x ∈ t.ivars name ↔ ∃ s, Leads t.superOf name s ∧ x ∈ t.ownIvars s := by
  have hfold : ∀ names acc : List Text, x ∈ names.foldl Names.add acc ↔ x ∈ acc ∨ x ∈ names := by
    intro names
    induction names with
    | nil => simp
    | cons y names ih => intro acc; rw [List.foldl_cons, ih, Names.mem_add, List.mem_cons, or_assoc]
  induction hends with
  | @last name hnone =>
    rw [ivars_of_top hnone, hfold]
    constructor
    · rintro (hx | hx)
      · cases hx
      · exact ⟨name, .refl, hx⟩
    · rintro ⟨s, hl, hx⟩
      rcases Relation.ReflTransGen.cases_head hl with rfl | ⟨k, hk, -⟩
      · exact .inr hx
      · rw [hnone] at hk
        cases hk
  | @step name s hs rest ih =>
    rw [ivars_of_super h rest hs]
    refine ((hfold _ _).trans (or_congr_left ih)).trans ⟨?_, ?_⟩
    · rintro (⟨k, hl, hx⟩ | hx)
      · exact ⟨k, .head hs hl, hx⟩
      · exact ⟨name, .refl, hx⟩
    · rintro ⟨k, hl, hx⟩
      rcases Relation.ReflTransGen.cases_head hl with rfl | ⟨y, hy, hl⟩
      · exact .inr hx
      · obtain rfl := Option.mem_unique hy hs
        exact .inl ⟨k, hl, hx⟩

/-- The variables of a class from which another class descends come first in it, each in its
slot. -/
theorem prefix_ivars_of_leads (h : t.NamesKnown) (hends : Ends t.superOf name)
    (hl : Leads t.superOf name s) : t.ivars s <+: t.ivars name := by
  induction hl with
  | refl => exact List.prefix_refl _
  | tail hl hs ih => exact (prefix_ivars h (hends.of_leads hl) hs).trans ih

/-- Whatever has been done to a table, where the superclasses of a class come to an end: no variable
is repeated, there are exactly those that the class or a superclass has been given, and the list of
a superclass is a first part of that of the class, so that a variable has one slot all the way
down. -/
theorem ivars_extend (reserved : List Text) (changes : List Change) (name : Text)
    (hends : Ends ((ofReserved reserved).after changes).superOf name) :
    let t := (ofReserved reserved).after changes
    (t.ivars name).Nodup ∧
      (∀ x, x ∈ t.ivars name ↔
        ∃ s, Leads t.superOf name s ∧ (ofReserved reserved).Gives changes s x) ∧
      (∀ s, t.superOf name = some s → t.ivars s <+: t.ivars name) ∧
      ∀ s x, Leads t.superOf name s → x ∈ t.ivars s →
        (t.ivars name).idxOf x = (t.ivars s).idxOf x := by
  intro t
  have hsound : t.NamesKnown := (namesKnown_ofReserved reserved).after changes
  refine ⟨?_, fun x => ?_, fun s hs => prefix_ivars hsound hends hs, fun s x hl hx => ?_⟩
  · rw [ivars, ← Names.foldl_add_nil]
    exact Names.nodup_foldl_add _ List.nodup_nil
  · have hown : ∀ s, x ∈ t.ownIvars s ↔ (ofReserved reserved).Gives changes s x := by
      intro s
      rw [mem_ownIvars_after]
      exact or_iff_right (fun hx => by cases hx)
    simp only [mem_ivars hsound hends, hown]
  · obtain ⟨more, hmore⟩ := prefix_ivars_of_leads hsound hends hl
    rw [← hmore, List.idxOf_append_of_mem hx]

/-- Three classes, of which the second gets its superclass late and the first a variable that the
second has, too. -/
def layered : List Change :=
  [.opening .ofClass "B" (some .global) "A", .ivar (.named "B") "@y", .ivar (.named "B") "@x",
    .opening .ofClass "A" (some .global) "", .ivar (.named "A") "@x",
    .opening .ofClass "B" (some .global) "A", .opening .ofClass "C" none "B",
    .ivar (.named "C") "@w", .ivar (.named "A") "@z"]

theorem ivars_extend_layered :
    let t := (ofReserved []).after layered
    Ends t.superOf "C" ∧ t.superOf "C" = some "B" ∧ t.ivars "B" = ["@x", "@z", "@y"] ∧
      t.ivars "C" = ["@x", "@z", "@y", "@w"] ∧ t.ivars "B" <+: t.ivars "C" := by
  intro t
  have hrooted : t.Rooted := by decide +kernel
  have hsuper : t.superOf "C" = some "B" := by decide +kernel
  obtain ⟨-, -, hprefix, -⟩ := ivars_extend [] layered "C" (hrooted "C")
  exact ⟨hrooted "C", hsuper, by decide +kernel, by decide +kernel, hprefix "B" hsuper⟩

end Lowering.Classes.Table
