import Lowering.Classes.Table
import Mathlib.Data.List.Perm.Subperm
import Mathlib.Data.Option.Basic
import Mathlib.Logic.Relation

namespace Lowering

section Chains

variable {α : Type} {next : α → Option α} {a b x : α}

/-- Going from one to the next, again and again, comes to an end. -/
inductive Ends (next : α → Option α) : α → Prop where
  | last {x : α} (none : next x = none) : Ends next x
  | step {x y : α} (some : next x = some y) (rest : Ends next y) : Ends next x

/-- Going from one to the next, any number of times, leads to another. -/
def Leads (next : α → Option α) : α → α → Prop :=
  Relation.ReflTransGen fun x y => next x = some y

theorem Ends.of_leads (h : Ends next a) (hl : Leads next a b) : Ends next b := by
  induction hl with
  | refl => exact h
  | tail _ hstep ih =>
    cases ih with
    | last none =>
      rw [none] at hstep
      cases hstep
    | step some rest =>
      obtain rfl := Option.mem_unique hstep some
      exact rest

/-- Where one comes to an end, nothing comes back. -/
theorem Ends.not_leads (h : Ends next a) : ∀ {b}, next a = some b → ¬ Leads next b a := by
  induction h with
  | last none =>
    intro b hb
    rw [none] at hb
    cases hb
  | @step x y some rest ih =>
    intro b hb hl
    obtain rfl := Option.mem_unique hb some
    -- the circle through `x` is also one through what comes after `x`
    rcases Relation.ReflTransGen.cases_head hl with rfl | ⟨c, hc, hl⟩
    · exact ih some .refl
    · exact ih hc (hl.tail some)

variable [DecidableEq α]

theorem Leads.update (hnone : next a = none) (h : Leads next x b) (c : α) :
    Leads (Function.update next a (some c)) x b := by
  apply Relation.ReflTransGen.mono ?_ _ _ h
  intro y z hyz
  have hne : y ≠ a := by
    rintro rfl
    rw [hnone] at hyz
    cases hyz
  rw [Function.update_of_ne hne]
  exact hyz

/-- With one link less one still comes to an end. -/
theorem Ends.of_update (hnone : next a = none) (h : Ends (Function.update next a (some c)) x) :
    Ends next x := by
  induction h with
  | @last x none =>
    by_cases hx : x = a
    · subst hx
      exact .last hnone
    · rw [Function.update_of_ne hx] at none
      exact .last none
  | @step x y some _ ih =>
    by_cases hx : x = a
    · subst hx
      exact .last hnone
    · rw [Function.update_of_ne hx] at some
      exact .step some ih

/-- A new link changes nothing for what ends without it. -/
theorem Ends.update (h : Ends next x)
    (hc : ¬ Leads next x a ∨ Ends (Function.update next a (some c)) a) :
    Ends (Function.update next a (some c)) x := by
  induction h with
  | @last x none =>
    by_cases hx : x = a
    · subst hx
      exact hc.resolve_left (· .refl)
    · exact .last (by rw [Function.update_of_ne hx, none])
  | @step x y some _ ih =>
    by_cases hx : x = a
    · subst hx
      exact hc.resolve_left (· .refl)
    · refine .step (by rw [Function.update_of_ne hx, some]) (ih ?_)
      exact hc.imp_left fun hn hl => hn (.head some hl)

/-- Chains go on ending with one more link exactly if its target does not lead to its source. -/
theorem ends_update_iff (hnone : next a = none) :
    (∀ x, Ends (Function.update next a (some b)) x) ↔ (∀ x, Ends next x) ∧ ¬ Leads next b a := by
  constructor
  · intro h
    refine ⟨fun x => (h x).of_update hnone, fun hl => ?_⟩
    exact (h a).not_leads (Function.update_self ..) (hl.update hnone b)
  · intro h x
    have ha : Ends (Function.update next a (some b)) a :=
      .step (Function.update_self ..) ((h.1 b).update (.inl h.2))
    exact (h.1 x).update (.inr ha)

end Chains

namespace Classes

/-- One change of a class table. -/
inductive Change where
  | opening (kind : Kind) (name : Text) (parent : Option Scope) (super : Text)
  | method (scope : Scope) (name : Text)
  | ivar (scope : Scope) (name : Text)

namespace Table

/-- A table after one change. -/
def apply (t : Table) : Change → Table
  | .opening kind name parent super => t.enter kind name parent super
  | .method scope name => t.addMethod scope name
  | .ivar scope name => t.addIvar scope name

/-- A table after some changes. -/
def after (t : Table) (changes : List Change) : Table := changes.foldl apply t

theorem after_append (t : Table) (changes more : List Change) :
    t.after (changes ++ more) = (t.after changes).after more := List.foldl_append ..

/-- The superclass of a class. -/
def superOf (t : Table) (name : Text) : Option Text := (t.find? name).bind (·.super)

/-- Going up from any class one comes to an end. -/
def Rooted (t : Table) : Prop := ∀ name, Ends t.superOf name

/-- A change that gives a class a superclass from which the class itself is reached. -/
def Closes (t : Table) : Change → Prop
  | .opening _ name parent super =>
    t.superOf name = none ∧ ∃ s, t.findSuper parent super = some s ∧ s ≠ name ∧
      Leads t.superOf s name
  | _ => False

/-- No change closes a circle when its turn comes. -/
def NeverCloses : Table → List Change → Prop
  | _, [] => True
  | t, change :: rest => ¬ t.Closes change ∧ NeverCloses (t.apply change) rest

/-- Whatever a table names, as a superclass or by a constant, is one of its classes. -/
structure NamesKnown (t : Table) : Prop where
  super : ∀ {name s}, t.superOf name = some s → (t.find? s).isSome
  constant : ∀ {scope name s}, (name, some s) ∈ t.constantsOf scope → (t.find? s).isSome

variable {t : Table} {name x s : Text} {scope : Scope}

theorem name_of_find? (h : t.find? x = some c) : c.name = x := by
  simpa using List.find?_some h

theorem find?_update (h : ∀ c, (change c).name = c.name) :
    (t.update name change).find? x = (t.find? x).map fun c => if x = name then change c else c := by
  have hnames : (fun c : ClassScope => decide (c.name = x)) ∘
      (fun c => if c.name = name then change c else c) = fun c => decide (c.name = x) := by
    funext c
    by_cases hc : c.name = name <;> simp [hc, h]
  unfold update find?
  rw [List.find?_map, hnames]
  cases hc : t.classes.find? fun c => decide (c.name = x) with
  | none => rfl
  | some c => rw [Option.map_some, Option.map_some, name_of_find? hc]

theorem isSome_find?_update (h : ∀ c, (change c).name = c.name) :
    ((t.update name change).find? x).isSome = (t.find? x).isSome := by
  rw [find?_update h, Option.isSome_map]

theorem superOf_update (h : ∀ c, (change c).name = c.name) (hs : ∀ c, (change c).super = c.super) :
    (t.update name change).superOf = t.superOf := by
  funext x
  unfold superOf
  rw [find?_update h]
  cases t.find? x with
  | none => rfl
  | some c => by_cases hx : x = name <;> simp [hx, hs]

theorem constantsOf_update (h : ∀ c, (change c).name = c.name)
    (hs : ∀ c, (change c).constants = c.constants) :
    (t.update name change).constantsOf = t.constantsOf := by
  funext scope
  cases scope with
  | global => rfl
  | named x =>
    unfold constantsOf
    simp only [find?_update h]
    cases t.find? x with
    | none => rfl
    | some c => by_cases hx : x = name <;> simp [hx, hs]

theorem NamesKnown.of_eq {t' : Table} (h : t.NamesKnown) (hsuper : t'.superOf = t.superOf)
    (hconst : t'.constantsOf = t.constantsOf)
    (hknown : ∀ x, (t'.find? x).isSome = (t.find? x).isSome) : t'.NamesKnown where
  super hs := by rw [hknown]; exact h.super (hsuper ▸ hs)
  constant hc := by rw [hknown]; exact h.constant (hconst ▸ hc)

theorem superOf_addIvar : (t.addIvar scope name).superOf = t.superOf := by
  cases scope with
  | global => rfl
  | named c => exact superOf_update (fun _ => rfl) fun _ => rfl

theorem NamesKnown.addIvar (h : t.NamesKnown) : (t.addIvar scope name).NamesKnown := by
  cases scope with
  | global => exact h
  | named c =>
    exact h.of_eq superOf_addIvar (constantsOf_update (fun _ => rfl) fun _ => rfl)
      fun _ => isSome_find?_update fun _ => rfl

theorem superOf_addMethod : (t.addMethod scope name).superOf = t.superOf := by
  cases scope with
  | global => rfl
  | named c => exact superOf_update (t := t.intern name) (fun _ => rfl) fun _ => rfl

theorem NamesKnown.addMethod (h : t.NamesKnown) : (t.addMethod scope name).NamesKnown := by
  have hintern : (t.intern name).NamesKnown := h.of_eq rfl rfl fun _ => rfl
  cases scope with
  | global => exact hintern
  | named c =>
    exact hintern.of_eq superOf_addMethod (constantsOf_update (fun _ => rfl) fun _ => rfl)
      fun _ => isSome_find?_update fun _ => rfl

theorem mem_put {cs : Constants} (h : entry ∈ cs.put name target) :
    entry ∈ cs ∨ entry = (name, target) := by
  induction cs with
  | nil => exact .inr (List.mem_singleton.mp h)
  | cons c cs ih =>
    unfold Constants.put at h
    split at h <;> grind

theorem superOf_addConstant : (t.addConstant scope name target).superOf = t.superOf := by
  cases scope with
  | global => rfl
  | named c => exact superOf_update (fun _ => rfl) fun _ => rfl

theorem isSome_find?_addConstant :
    ((t.addConstant scope name target).find? x).isSome = (t.find? x).isSome := by
  cases scope with
  | global => rfl
  | named c => exact isSome_find?_update fun _ => rfl

theorem mem_constantsOf_addConstant {other : Scope}
    (h : entry ∈ (t.addConstant scope name target).constantsOf other) :
    entry ∈ t.constantsOf other ∨ entry = (name, target) := by
  cases scope with
  | global =>
    cases other with
    | global => exact mem_put h
    | named c => exact .inl h
  | named c =>
    cases other with
    | global => exact .inl h
    | named d =>
      simp only [addConstant, constantsOf] at h ⊢
      rw [find?_update (by simp)] at h
      cases hd : t.find? d with
      | none => simp [hd] at h
      | some k =>
        by_cases hdc : d = c
        · simp only [hd, if_pos hdc, Option.map_some, Option.getD_some] at h
          exact mem_put h
        · simp only [hd, if_neg hdc, Option.map_some, Option.getD_some] at h
          exact .inl h

theorem NamesKnown.addConstant (h : t.NamesKnown) (hname : (t.find? s).isSome) :
    (t.addConstant scope name (some s)).NamesKnown where
  super hs := by
    rw [superOf_addConstant] at hs
    rw [isSome_find?_addConstant]
    exact h.super hs
  constant hc := by
    rw [isSome_find?_addConstant]
    rcases mem_constantsOf_addConstant hc with hc | hc
    · exact h.constant hc
    · cases hc
      exact hname

theorem mem_ancestry (h : c ∈ t.ancestry fuel name) : ∃ x, t.find? x = some c := by
  induction fuel generalizing name with
  | zero => cases h
  | succ fuel ih =>
    unfold ancestry at h
    cases hname : t.find? name with
    | none => simp [hname] at h
    | some k =>
      simp only [hname] at h
      rcases List.mem_cons.mp h with rfl | h
      · exact ⟨name, hname⟩
      · cases hsuper : k.super with
        | none => simp [hsuper] at h
        | some s =>
          rw [hsuper] at h
          exact ih h

theorem mem_of_lookup {cs : Constants} (h : cs.lookup name = some target) :
    (name, target) ∈ cs := by
  obtain ⟨l1, l2, rfl, -⟩ := List.lookup_eq_some_iff.mp h
  simp

/-- What a name is set to, from wherever it is searched, is one of its settings. -/
theorem mem_of_setting {target : Option Text} (h : t.setting scope name = some target) :
    ∃ s, (name, target) ∈ t.constantsOf s := by
  cases scope with
  | global => exact ⟨.global, mem_of_lookup h⟩
  | named c =>
    unfold setting at h
    rcases (Option.orElse_eq_some _ _ _).mp h with hout | ⟨-, h⟩
    · obtain ⟨around, -, hc⟩ := List.exists_of_findSome?_eq_some hout
      exact ⟨around, mem_of_lookup hc⟩
    · rcases (Option.orElse_eq_some _ _ _).mp h with hup | ⟨-, h⟩
      · obtain ⟨k, hk, hc⟩ := List.exists_of_findSome?_eq_some hup
        obtain ⟨x, hx⟩ := mem_ancestry (List.mem_of_mem_tail hk)
        refine ⟨.named x, ?_⟩
        rw [constantsOf, hx]
        exact mem_of_lookup hc
      · exact ⟨.global, mem_of_lookup h⟩

theorem NamesKnown.resolve (h : t.NamesKnown) (hs : t.resolve scope name = some s) :
    (t.find? s).isSome := by
  obtain ⟨scope, hmem⟩ := mem_of_setting (Option.join_eq_some_iff.mp hs)
  exact h.constant hmem

/-- A superclass that is found is a class. -/
theorem NamesKnown.findSuper {parent : Option Scope} {super : Text} (h : t.NamesKnown)
    (hs : t.findSuper parent super = some s) : (t.find? s).isSome := by
  unfold Table.findSuper at hs
  split at hs
  · cases hs
  · rcases (Option.orElse_eq_some _ _ _).mp hs with hs | ⟨-, hs⟩
    · obtain ⟨p, -, hs⟩ := Option.bind_eq_some_iff.mp hs
      exact h.resolve hs
    · obtain ⟨c, hc, rfl⟩ := Option.map_eq_some_iff.mp hs
      rw [name_of_find? hc, hc]
      rfl

/-- The table with a class and its superclass, before the name of the class is set. -/
def linked (t : Table) (kind : Kind) (name : Text) (parent : Option Scope) (super : Text) : Table :=
  match t.find? name with
  | none =>
    { t with classes := t.classes ++ [{ name, kind, parent, super := t.findSuper parent super }] }
  | some c =>
    if c.super = none ∧ t.findSuper parent super ≠ none ∧ t.findSuper parent super ≠ some name then
      t.update name fun c => { c with super := t.findSuper parent super }
    else t

variable {kind : Kind} {parent : Option Scope} {super : Text}

theorem enter_eq : t.enter kind name parent super =
    match parent with
    | some p => ((t.linked kind name parent super).addConstant .global name (some name)).addConstant
        p name (some name)
    | none => (t.linked kind name parent super).addConstant .global name (some name) := rfl

theorem find?_linked_new (h : t.find? name = none) :
    (t.linked kind name parent super).find? x =
      if x = name then some { name, kind, parent, super := t.findSuper parent super }
      else t.find? x := by
  unfold linked
  simp only [h]
  unfold find? at h ⊢
  rw [List.find?_append]
  by_cases hx : x = name
  · subst hx
    simp [h]
  · simp [hx, Ne.symm hx]

/-- A class without a superclass takes one that is not itself. -/
theorem superOf_linked_take (hnone : t.superOf name = none)
    (hs : t.findSuper parent super = some s) (hne : s ≠ name) :
    (t.linked kind name parent super).superOf = Function.update t.superOf name (some s) := by
  funext x
  cases hname : t.find? name with
  | none =>
    unfold superOf
    rw [find?_linked_new hname]
    by_cases hx : x = name <;> simp [hx, hs]
  | some c =>
    have hc : c.super = none := by simpa [superOf, hname] using hnone
    unfold superOf linked
    simp only [hname, hc, hs]
    rw [if_pos (by simpa using hne), find?_update (by simp)]
    by_cases hx : x = name
    · subst hx
      simp [hname]
    · simp [hx]

/-- A class that has a superclass keeps it, and without another to take it has none. -/
theorem superOf_linked_keep (h : t.NamesKnown)
    (hkeep : t.superOf name = none → ∀ s, t.findSuper parent super = some s → s = name) :
    (t.linked kind name parent super).superOf = t.superOf := by
  cases hname : t.find? name with
  | none =>
    have hnone : t.superOf name = none := by simp [superOf, hname]
    have hsuper : t.findSuper parent super = none := by
      -- what is found is in the table, the new class is not
      apply Option.eq_none_iff_forall_ne_some.mpr
      intro s hs
      have hknown := h.findSuper hs
      rw [hkeep hnone s hs, hname] at hknown
      cases hknown
    funext x
    unfold superOf
    rw [find?_linked_new hname]
    by_cases hx : x = name <;> simp [hx, hname, hsuper]
  | some c =>
    have hguard : ¬ (c.super = none ∧ t.findSuper parent super ≠ none ∧
        t.findSuper parent super ≠ some name) := by
      rintro ⟨hc, hsome, hne⟩
      obtain ⟨s, hs⟩ := Option.ne_none_iff_exists'.mp hsome
      exact hne (hs.trans (congrArg some (hkeep (by simp [superOf, hname, hc]) s hs)))
    unfold linked
    simp only [hname, if_neg hguard]

theorem isSome_find?_linked :
    ((t.linked kind name parent super).find? x).isSome = ((t.find? x).isSome || x = name) := by
  cases hname : t.find? name with
  | none =>
    rw [find?_linked_new hname]
    by_cases hx : x = name <;> simp [hx]
  | some c =>
    have hx : (t.find? x).isSome = ((t.find? x).isSome || decide (x = name)) := by
      by_cases hx : x = name <;> simp [hx, hname]
    unfold linked
    simp only [hname]
    split
    · rw [isSome_find?_update (by simp), ← hx]
    · exact hx

theorem mem_constantsOf_linked (h : entry ∈ (t.linked kind name parent super).constantsOf scope) :
    entry ∈ t.constantsOf scope := by
  cases hname : t.find? name with
  | none =>
    cases scope with
    | global => simpa [linked, hname, constantsOf] using h
    | named x =>
      simp only [constantsOf, find?_linked_new hname] at h ⊢
      by_cases hx : x = name
      · simp [hx] at h
      · simpa [hx] using h
  | some c =>
    unfold linked at h
    simp only [hname] at h
    split at h
    · rwa [constantsOf_update (by simp) (by simp)] at h
    · exact h

theorem superOf_enter :
    (t.enter kind name parent super).superOf = (t.linked kind name parent super).superOf := by
  rw [enter_eq]
  cases parent with
  | none => exact superOf_addConstant
  | some p => exact superOf_addConstant.trans superOf_addConstant

theorem NamesKnown.linked (h : t.NamesKnown) : (t.linked kind name parent super).NamesKnown where
  super {x s} hs := by
    rw [isSome_find?_linked, Bool.or_eq_true]
    left
    by_cases htake : t.superOf name = none ∧ ∃ s, t.findSuper parent super = some s ∧ s ≠ name
    · obtain ⟨hnone, s', hs', hne⟩ := htake
      rw [superOf_linked_take hnone hs' hne] at hs
      by_cases hx : x = name
      · rw [hx, Function.update_self] at hs
        cases hs
        exact h.findSuper hs'
      · rw [Function.update_of_ne hx] at hs
        exact h.super hs
    · rw [superOf_linked_keep h (by grind)] at hs
      exact h.super hs
  constant hc := by
    rw [isSome_find?_linked, Bool.or_eq_true]
    exact .inl (h.constant (mem_constantsOf_linked hc))

theorem NamesKnown.enter (h : t.NamesKnown) : (t.enter kind name parent super).NamesKnown := by
  have hname : ((t.linked kind name parent super).find? name).isSome := by
    simp [isSome_find?_linked]
  have hglobal : ((t.linked kind name parent super).addConstant .global name
    (some name)).NamesKnown :=
    h.linked.addConstant hname
  rw [enter_eq]
  cases parent with
  | none => exact hglobal
  | some p => exact hglobal.addConstant (by rwa [isSome_find?_addConstant])

theorem NamesKnown.apply (h : t.NamesKnown) (change : Change) : (t.apply change).NamesKnown := by
  cases change with
  | opening kind name parent super => exact h.enter
  | method scope name => exact h.addMethod
  | ivar scope name => exact h.addIvar

theorem namesKnown_ofReserved (reserved : List Text) : (ofReserved reserved).NamesKnown where
  super hs := by cases hs
  constant {scope _ _} hc := by cases scope <;> cases hc

/-- One change: chains go on ending unless the change closes a circle. -/
theorem rooted_apply_iff (h : t.NamesKnown) (change : Change) :
    (t.apply change).Rooted ↔ t.Rooted ∧ ¬ t.Closes change := by
  have hsame : (t.apply change).superOf = t.superOf → ¬ t.Closes change →
      ((t.apply change).Rooted ↔ t.Rooted ∧ ¬ t.Closes change) := by
    intro heq hno
    rw [Rooted, heq]
    exact (and_iff_left hno).symm
  cases change with
  | opening kind name parent super =>
    by_cases htake : t.superOf name = none ∧ ∃ s, t.findSuper parent super = some s ∧ s ≠ name
    · obtain ⟨hnone, s, hs, hne⟩ := htake
      have hcloses : t.Closes (.opening kind name parent super) ↔ Leads t.superOf s name := by
        simp [Closes, hnone, hs, hne]
      rw [hcloses, Rooted, apply, superOf_enter, superOf_linked_take hnone hs hne]
      exact ends_update_iff hnone
    · apply hsame
      · exact superOf_enter.trans (superOf_linked_keep h (by grind))
      · rintro ⟨hnone, s, hs, hne, -⟩
        exact htake ⟨hnone, s, hs, hne⟩
  | method scope name => exact hsame superOf_addMethod id
  | ivar scope name => exact hsame superOf_addIvar id

/-- Superclasses end if they did before and no change closes a circle. -/
theorem rooted_after_iff (h : t.NamesKnown) :
    (t.after changes).Rooted ↔ t.Rooted ∧ t.NeverCloses changes := by
  induction changes generalizing t with
  | nil => simp [after, NeverCloses]
  | cons change rest ih =>
    rw [NeverCloses, ← and_assoc, ← rooted_apply_iff h]
    exact ih (h.apply change)

theorem NamesKnown.after (h : t.NamesKnown) (changes : List Change) :
    (t.after changes).NamesKnown := by
  induction changes generalizing t with
  | nil => exact h
  | cons change rest ih => exact ih (h.apply change)

/-- A chain that ends is followed to its end from every place on it, with as many steps left as
there are classes that do not come before. -/
theorem ancestry_top {p : List Text} (hends : Ends t.superOf name)
    (hc : t.find? name = some c) (hd : p.Nodup)
    (hp : ∀ x ∈ p, (t.find? x).isSome ∧ ∃ y, t.superOf x = some y ∧ Leads t.superOf y name)
    (hfuel : t.classes.length ≤ p.length + fuel) :
    ∃ top, (t.ancestry fuel name).getLast? = some top ∧ top.super.bind t.find? = none := by
  have hnew : name ∉ p := by
    intro hm
    obtain ⟨-, y, hy, hl⟩ := hp name hm
    exact hends.not_leads hy hl
  have hd' : (name :: p).Nodup := List.nodup_cons.mpr ⟨hnew, hd⟩
  induction fuel generalizing name c p with
  | zero =>
    -- there are more names on the way than classes
    have hsub : name :: p ⊆ t.classes.map (·.name) := by
      intro x hx
      have hx : (t.find? x).isSome := by
        rcases List.mem_cons.mp hx with rfl | hx
        · rw [hc]
          rfl
        · exact (hp x hx).1
      obtain ⟨k, hk⟩ := Option.isSome_iff_exists.mp hx
      exact List.mem_map.mpr ⟨k, List.mem_of_find?_eq_some hk, name_of_find? hk⟩
    have hlen := (List.Nodup.subperm hd' hsub).length_le
    simp only [List.length_cons, List.length_map] at hlen
    omega
  | succ fuel ih =>
    unfold ancestry
    simp only [hc]
    cases hsuper : c.super with
    | none => exact ⟨c, rfl, by rw [hsuper]; rfl⟩
    | some s =>
      have hs : t.superOf name = some s := by simp [superOf, hc, hsuper]
      cases hk : t.find? s with
      | none =>
        have hnil : t.ancestry fuel s = [] := by cases fuel <;> simp [ancestry, hk]
        exact ⟨c, by simp [hnil], by simp [hsuper, hk]⟩
      | some k =>
        have hends' : Ends t.superOf s := hends.of_leads (.single hs)
        have hp' : ∀ x ∈ name :: p,
            (t.find? x).isSome ∧ ∃ y, t.superOf x = some y ∧ Leads t.superOf y s := by
          intro x hx
          rcases List.mem_cons.mp hx with rfl | hx
          · exact ⟨by rw [hc]; rfl, s, hs, .refl⟩
          · obtain ⟨hknown, y, hy, hl⟩ := hp x hx
            exact ⟨hknown, y, hy, hl.tail hs⟩
        have hnew' : s ∉ name :: p := by
          intro hm
          obtain ⟨-, y, hy, hl⟩ := hp' s hm
          exact hends'.not_leads hy hl
        obtain ⟨top, htop, hnone⟩ := ih hends' hk hd' hp' (by rw [List.length_cons]; omega) hnew'
          (List.nodup_cons.mpr ⟨hnew', hd'⟩)
        exact ⟨top, by simp [List.getLast?_cons, htop], hnone⟩

theorem ancestors_last {c : ClassScope} (hends : Ends t.superOf name) (hc : t.find? name = some c) :
    ∃ top, (t.ancestors name).getLast? = some top ∧ top.super.bind t.find? = none :=
  ancestry_top (p := []) hends hc List.nodup_nil (by simp) (by simp)

/-- Where chains end, the ancestors of a class go up to one without a superclass. -/
theorem ancestors_top {c : ClassScope} (h : t.NamesKnown) (hends : Ends t.superOf name)
    (hc : t.find? name = some c) :
    ∃ top, (t.ancestors name).getLast? = some top ∧ top.super = none := by
  obtain ⟨top, hlast, hnone⟩ := ancestors_last hends hc
  obtain ⟨x, hx⟩ := mem_ancestry (List.mem_of_getLast? hlast)
  refine ⟨top, hlast, Option.eq_none_iff_forall_ne_some.mpr fun s hs => ?_⟩
  have hknown := h.super (show t.superOf x = some s by simp [superOf, hx, hs])
  rw [hs, Option.bind_some] at hnone
  rw [hnone] at hknown
  cases hknown

theorem Rooted.ends (h : t.Rooted) (name : Text) : t.ends name = true := by
  cases hc : t.find? name with
  | none =>
    have hnil : t.ancestors name = [] := by
      unfold ancestors
      cases t.classes.length <;> simp [ancestry, hc]
    simp [Table.ends, hnil]
  | some c =>
    obtain ⟨top, hlast, hnone⟩ := ancestors_last (h name) hc
    simp [Table.ends, hlast, hnone]

theorem Rooted.isRooted (h : t.Rooted) : t.isRooted = true :=
  List.all_eq_true.mpr fun c _ => h.ends c.name

theorem ends_of_ancestry {c : ClassScope} (hlast : (t.ancestry fuel name).getLast? = some c)
    (hnone : c.super.bind t.find? = none) : Ends t.superOf name := by
  induction fuel generalizing name with
  | zero => simp [ancestry] at hlast
  | succ fuel ih =>
    unfold ancestry at hlast
    cases hk : t.find? name with
    | none => exact .last (by simp [superOf, hk])
    | some k =>
      cases hs : k.super with
      | none => exact .last (by simp [superOf, hk, hs])
      | some s =>
        simp only [hk, hs] at hlast
        refine .step (y := s) (by simp [superOf, hk, hs]) ?_
        cases hrest : t.ancestry fuel s with
        | nil =>
          obtain rfl : k = c := by simpa [hrest] using hlast
          rw [hs, Option.bind_some] at hnone
          exact .last (by simp [superOf, hnone])
        | cons a rest => exact ih (by simpa [hrest, List.getLast?_cons] using hlast)

/-- Whether chains of superclasses end is found by going up from every class. -/
theorem rooted_iff : t.Rooted ↔ t.isRooted = true := by
  refine ⟨Rooted.isRooted, fun h name => ?_⟩
  cases hc : t.find? name with
  | none => exact .last (by simp [superOf, hc])
  | some c =>
    have hmem := List.mem_of_find?_eq_some hc
    have hends := List.all_eq_true.mp h c hmem
    rw [name_of_find? hc, Table.ends] at hends
    cases hlast : (t.ancestors name).getLast? with
    | some top => exact ends_of_ancestry hlast (by simpa [hlast] using hends)
    | none =>
      obtain ⟨k, hk⟩ := Nat.exists_eq_succ_of_ne_zero (Nat.ne_of_gt (List.length_pos_of_mem hmem))
      rw [ancestors, hk] at hlast
      simp [ancestry, hc] at hlast

instance : Decidable t.Rooted := decidable_of_iff _ rooted_iff.symm

/-- Where chains of superclasses end, so does every search. -/
theorem Rooted.settles (h : t.Rooted) (scope : Scope) (name : Text) :
    t.settles scope name = true := by
  cases scope with
  | global => rfl
  | named c => simp [Table.settles, h.ends c]

theorem Rooted.findsSuper (h : t.Rooted) (parent : Option Scope) (super : Text) :
    t.findsSuper parent super = true := by
  cases parent with
  | none => simp [Table.findsSuper]
  | some p => simp [Table.findsSuper, h.settles p super]

end Table

end Classes

end Lowering
