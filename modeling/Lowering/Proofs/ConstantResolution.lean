import Lowering.Proofs.ClassLayouts
import Lowering.Proofs.ReopenedClasses

namespace Lowering

namespace Classes.Table

variable {t t' : Table} {scope : Scope} {name x s : Text}

/-- Every scope has a name only for the class of that name, the global scope has the names of all
classes, and no two classes have one name. -/
structure Uniform (t : Table) : Prop where
  own : ∀ {scope name target}, (name, target) ∈ t.constantsOf scope → target = some name
  known : ∀ {name}, (t.find? name).isSome → t.Opened name
  distinct : (t.classes.map (·.name)).Nodup

theorem uniform_ofReserved (reserved : List Text) : (ofReserved reserved).Uniform where
  own {scope _ _} h := by cases scope <;> cases h
  known h := by cases h
  distinct := List.nodup_nil

theorem names_update (h : ∀ c, (change c).name = c.name) :
    (t.update name change).classes.map (·.name) = t.classes.map (·.name) := by
  rw [update, List.map_map]
  refine List.map_congr_left fun c _ => ?_
  rw [Function.comp_apply]
  split
  · exact h c
  · rfl

theorem names_addConstant :
    (t.addConstant scope x target).classes.map (·.name) = t.classes.map (·.name) := by
  cases scope with
  | global => rfl
  | named c => exact names_update fun _ => rfl

theorem nodup_linked (h : (t.classes.map (·.name)).Nodup) :
    ((t.linked kind name parent super).classes.map (·.name)).Nodup := by
  unfold linked
  split
  · rename_i hnone
    rw [List.map_append, List.nodup_append]
    refine ⟨h, List.nodup_singleton _, fun a ha b hb => ?_⟩
    obtain rfl := List.mem_singleton.mp hb
    obtain ⟨c, hc, rfl⟩ := List.mem_map.mp ha
    simpa using List.find?_eq_none.mp hnone c hc
  · split
    · rw [names_update]
      · exact h
      · exact fun _ => rfl
    · exact h

/-- A change of one class that leaves its name and its constants. -/
theorem Uniform.update (h : t.Uniform) (hname : ∀ c, (change c).name = c.name)
    (hconst : ∀ c, (change c).constants = c.constants) : (t.update name change).Uniform where
  own hm := h.own (constantsOf_update hname hconst ▸ hm)
  known {x} hx := by
    rw [isSome_find?_update hname] at hx
    exact ⟨(isSome_find?_update hname).trans hx, (h.known hx).constant⟩
  distinct := by
    rw [names_update hname]
    exact h.distinct

/-- Opening a class keeps names uniform. -/
theorem Uniform.enter (h : t.Uniform) : (t.enter kind name parent super).Uniform where
  own hm := by
    have hlinked : ∀ {scope entry}, entry ∈ ((t.linked kind name parent super).addConstant .global
        name (some name)).constantsOf scope → entry.2 = some entry.1 := by
      intro scope entry hm
      rcases mem_constantsOf_addConstant hm with hm | rfl
      · exact h.own (mem_constantsOf_linked hm)
      · rfl
    rw [enter_eq] at hm
    cases parent with
    | none => exact hlinked hm
    | some p =>
      rcases mem_constantsOf_addConstant hm with hm | hm
      · exact hlinked hm
      · cases hm
        rfl
  known {x} hx := by
    rw [find?_isSome_enter, Bool.or_eq_true, decide_eq_true_eq] at hx
    by_cases hname : x = name
    · subst hname
      exact opened_enter
    · have hold := hx.resolve_right hname
      exact ⟨by simp [knows, find?_isSome_enter,
        hold], constant_enter (.inr (h.known hold).constant)⟩
  distinct := by
    rw [enter_eq]
    cases parent <;> simp only [names_addConstant] <;> exact nodup_linked h.distinct

/-- A step keeps names uniform. -/
theorem Uniform.step (h : t.Uniform) (hstep : Step t t') : t'.Uniform := by
  cases hstep with
  | method scope name =>
    have hintern : (t.intern name).Uniform := by
      have hconst (s : Scope) : (t.intern name).constantsOf s = t.constantsOf s := by
        cases s <;> rfl
      refine ⟨fun hm => h.own (hconst _ ▸ hm), fun hx => ?_, h.distinct⟩
      · exact ⟨(h.known hx).found, (h.known hx).constant⟩
    cases scope with
    | global => exact hintern
    | named c => exact Uniform.update hintern (fun _ => rfl) fun _ => rfl
  | ivar scope name =>
    cases scope with
    | global => exact h
    | named c => exact Uniform.update h (fun _ => rfl) fun _ => rfl
  | opening => exact h.enter

theorem Uniform.history (h : t.Uniform) (hh : History t t') : t'.Uniform := by
  induction hh with
  | refl => exact h
  | tail _ hstep ih => exact ih.step hstep

/-- A superclass that is known stays. -/
theorem Step.superOf (h : Step t t') (hs : t.superOf x = some s) : t'.superOf x = some s := by
  cases h with
  | method scope name => rwa [superOf_addMethod]
  | ivar scope name => rwa [superOf_addIvar]
  | opening named known name super =>
    obtain ⟨c, hc, hsuper⟩ := Option.bind_eq_some_iff.mp hs
    rw [superOf_enter, Table.superOf]
    cases hname : t.find? name with
    | none =>
      have hne : x ≠ name := fun heq => by simp [heq, hname] at hc
      rw [find?_linked_new hname, if_neg hne]
      exact hs
    | some k =>
      unfold linked
      simp only [hname]
      split
      · rename_i hguard
        have hne : x ≠ name := fun heq => by simp_all
        rw [find?_update (by simp)]
        simpa [Table.superOf, hne] using hs
      · exact hs

theorem History.superOf (h : History t t') (hs : t.superOf x = some s) : t'.superOf x = some s := by
  induction h with
  | refl => exact hs
  | tail _ hstep ih => exact hstep.superOf ih

/-- A class that there is is found from every scope. -/
theorem Uniform.resolve_found (h : t.Uniform) (hk : t.find? name = some k) :
    t.resolve scope name = some k.name := by
  have hglobal := (h.known (Option.isSome_of_eq_some hk)).constant
  have hset : t.setting scope name ≠ none := by
    cases scope with
    | global => simp [setting, hglobal]
    | named c => simp [setting, hglobal]
  obtain ⟨target, htarget⟩ := Option.ne_none_iff_exists'.mp hset
  obtain ⟨s, hmem⟩ := mem_of_setting htarget
  rw [resolve, htarget, h.own hmem, name_of_find? hk]
  rfl

/-- A class that there is not is found from no scope. -/
theorem Uniform.resolve_missing (h : t.Uniform) (hs : t.NamesKnown) (hnone : t.find? name = none) :
    t.resolve scope name = none := by
  refine Option.eq_none_iff_forall_ne_some.mpr fun s hres => ?_
  obtain ⟨around, hmem⟩ := mem_of_setting (Option.join_eq_some_iff.mp hres)
  cases h.own hmem
  have hknown := hs.resolve hres
  rw [hnone] at hknown
  cases hknown

/-- A search for a name finds the class of that name from every scope; where there is none it finds
nothing, if chains of superclasses end. It goes outwards to the global scope, and up to a class
without a superclass. -/
structure Coherent (t : Table) : Prop where
  distinct : (t.classes.map (·.name)).Nodup
  found : ∀ scope name k, t.knows scope = true → t.find? name = some k →
    t.resolve scope name = some k.name
  missing : t.Rooted → ∀ scope name, t.knows scope = true → t.find? name = none →
    t.resolve scope name = none
  outward : ∀ scope, t.knows scope = true →
    (t.outward (t.classes.length + 1) scope).getLast? = some .global
  upward : t.Rooted → ∀ name k, t.find? name = some k →
    ∃ top, (t.ancestors name).getLast? = some top ∧ top.super = none

/-- A later table finds each class in its place, of the same name and kind and in the same scope,
and under the superclass that was known of it. -/
structure KeepsClasses (t t' : Table) : Prop where
  classes : ∀ (name : Text) (i : Nat) (c : ClassScope), t.find? name = some c →
    t.classes[i]? = some c → ∃ c', t'.find? name = some c' ∧ t'.classes[i]? = some c' ∧
      c'.name = c.name ∧ c'.kind = c.kind ∧ c'.parent = c.parent
  supers : ∀ name s, t.superOf name = some s → t'.superOf name = some s

theorem Uniform.coherent (h : t.Uniform) (hs : t.NamesKnown) (ho : t.WellBuilt) : t.Coherent where
  distinct := h.distinct
  found _ _ _ _ := h.resolve_found
  missing _ _ _ _ := h.resolve_missing hs
  outward scope hknown := by
    cases scope with
    | global => rfl
    | named x =>
      obtain ⟨c, hc⟩ := Option.isSome_iff_exists.mp hknown
      obtain ⟨i, hi, -⟩ := find?_eq_some_iff.mp hc
      have hlen := (List.getElem?_eq_some_iff.mp hi).1
      exact ((Grows.refl t).outward ho hi hc
        (show i + 2 ≤ t.classes.length + 1 by omega) le_rfl).2.2
  upward hrooted name _ := ancestors_top hs (hrooted name)

theorem Uniform.find? {i : Nat} (h : t.Uniform) (hc : t.classes[i]? = some c) :
    t.find? c.name = some c := by
  refine find?_eq_some_iff.mpr ⟨i, hc, rfl, fun j k hk hname => le_of_eq ?_⟩
  have hlen : i < (t.classes.map (·.name)).length := by
    simpa using (List.getElem?_eq_some_iff.mp hc).1
  exact (List.getElem?_inj hlen h.distinct).mp (by simp [hc, hk, hname])

/-- A history keeps what is known of classes. -/
theorem History.keeps (h : History t t') (hu : t'.Uniform) : t.KeepsClasses t' where
  classes name i c hc hi := by
    obtain ⟨c', hc', hgrows⟩ := h.grows.classes i c hi
    have hfind := hu.find? hc'
    rw [hgrows.name, name_of_find? hc] at hfind
    exact ⟨c', hfind, hc', hgrows.name, hgrows.kind, hgrows.parent⟩
  supers _ _ := h.superOf

end Classes.Table

namespace Pass.ClassScopes

open Classes Classes.Table

theorem uniform_collected (forest : Forest) (options : Options) (sources : List (Text × Text)) :
    (collected (.ofForest forest options) sources).classes.Uniform :=
  (uniform_ofReserved options.reserved).history
    (history_collected (.ofForest forest options) sources)

theorem namesKnown_collected (forest : Forest) (options : Options) (sources : List (Text × Text)) :
    (collected (.ofForest forest options) sources).classes.NamesKnown := by
  obtain ⟨changes, hchanges⟩ :=
    (history_collected (.ofForest forest options) sources).exists_changes
  rw [hchanges]
  exact (namesKnown_ofReserved options.reserved).after changes

/-- Whatever sources are read into one context, names are resolved alike from every scope, and what
is known of a class stays. -/
theorem resolved_alike (forest : Forest) (options : Options) (earlier later : List (Text × Text)) :
    let t := (collected (.ofForest forest options) earlier).classes
    t.Coherent ∧
    t.KeepsClasses (collected (.ofForest forest options) (earlier ++ later)).classes := by
  intro t
  have ho : t.WellBuilt := (wellBuilt_ofReserved options.reserved).history
    (history_collected (.ofForest forest options) earlier)
  have hlater := history_collected (collected (.ofForest forest options) earlier) later
  rw [collected, collected, ← List.foldl_append] at hlater
  refine ⟨?_, hlater.keeps (uniform_collected forest options (earlier ++ later))⟩
  exact (uniform_collected forest options earlier).coherent
    (namesKnown_collected forest options earlier) ho

/-- A class in a class, and a class whose superclass is not known. -/
def inside : Text × Text := ("a", "(do (class A _ ((class B A))) (class C D))")

/-- A class with a class in it that is named like its superclass. -/
def elsewhere : Text × Text := ("b", "(module M ((class D) (class B C ((class C D)))))")

theorem resolved_alike_elsewhere :
    let t := (collected (.ofForest {} {}) [inside]).classes
    let t' := (collected (.ofForest {} {}) ([inside] ++ [elsewhere])).classes
    t.Coherent ∧ t.KeepsClasses t' ∧ t.resolve (.named "B") "C" = some "C" ∧
    t.resolve (.named "C") "D" = none ∧
      t'.resolve (.named "A") "D" = some "D" ∧ t.superOf "C" = none ∧ t'.superOf "C" = some "D" ∧
      t'.superOf "B" = some "A" := by
  intro t t'
  have hfacts : t.resolve (.named "B") "C" = some "C" ∧ t.resolve (.named "C") "D" = none ∧
      t'.resolve (.named "A") "D" = some "D" ∧ t.superOf "C" = none ∧ t'.superOf "C" = some "D" ∧
      t'.superOf "B" = some "A" := by decide +kernel
  obtain ⟨hcoherent, hkeeps⟩ := resolved_alike {} {} [inside] [elsewhere]
  exact ⟨hcoherent, hkeeps, hfacts⟩

end Pass.ClassScopes

end Lowering
