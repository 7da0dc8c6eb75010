import Lowering.Proofs.ConstantResolution
import Mathlib.Data.List.Induction

namespace Lowering

namespace Text

/-- A name that is never taken for more than one, or for the end of one and the start of another. -/
def Simple (name : Text) : Prop :=
  ¬ (ofString "::").bytes <:+: name.bytes ∧ name.startsWith ":" = false

instance (name : Text) : Decidable name.Simple := inferInstanceAs (Decidable (_ ∧ _))

theorem bytes_colon : (ofString ":").bytes = [0x3A] := by decide

theorem bytes_colons : (ofString "::").bytes = [0x3A, 0x3A] := by decide

/-- What comes before the last of some names when they are joined. -/
def lead (sep : Text) (names : List Text) : List UInt8 :=
  if names = [] then [] else (join sep names).bytes ++ sep.bytes

theorem join_cons (sep name next : Text) (names : List Text) :
    (join sep (name :: next :: names)).bytes =
      name.bytes ++ (sep.bytes ++ (join sep (next :: names)).bytes) := by
  simp [join]

theorem join_concat (sep : Text) (names : List Text) (last : Text) :
    (join sep (names ++ [last])).bytes = lead sep names ++ last.bytes := by
  induction names with
  | nil => simp [join, lead]
  | cons name names ih =>
    cases names with
    | nil => simp [join, lead]
    | cons next names =>
      rw [List.cons_append, List.cons_append, join_cons, ← List.cons_append, ih]
      simp [lead, join_cons]

theorem lead_ends (names : List Text) :
    lead "::" names = [] ∨ (ofString "::").bytes <:+ lead "::" names := by
  unfold lead
  split
  · exact .inl rfl
  · exact .inr ⟨_, rfl⟩

/-- The two colons before the last name are no part of it. -/
theorem Simple.eq_of_append {a b : Text} (hb : b.Simple) (hp : p = [] ∨ (ofString "::").bytes <:+ p)
    (h : p ++ a.bytes = q ++ b.bytes) (hle : a.bytes.length ≤ b.bytes.length) : a = b ∧ p = q := by
  obtain ⟨c, hc⟩ : a.bytes <:+ b.bytes := List.suffix_of_suffix_length_le ⟨p, rfl⟩ ⟨q, h.symm⟩ hle
  rw [← hc, ← List.append_assoc, List.append_left_inj] at h
  subst h
  match c, hc with
  | [], hc => exact ⟨ext_bytes hc, by simp⟩
  | [x], hc =>
    -- the colon in front of `a` would begin `b`
    obtain ⟨r, hr⟩ := hp.resolve_left (by simp)
    have hx : x = 0x3A := by
      have hlast := congrArg List.getLast? hr
      simpa [bytes_colons] using hlast.symm
    subst hx
    exact absurd hb.2 (by simp [startsWith, ← hc, bytes_colon])
  | x :: y :: c, hc =>
    have hsuffix : (ofString "::").bytes <:+ x :: y :: c :=
      List.suffix_of_suffix_length_le (hp.resolve_left (by simp)) ⟨q, rfl⟩ (by simp [bytes_colons])
    exact absurd (hsuffix.isInfix.trans ⟨[], a.bytes, by simpa using hc⟩) hb.1

theorem join_injective {p q : List Text} (hp : ∀ n ∈ p, Simple n) (hq : ∀ n ∈ q, Simple n)
    (hp' : p ≠ []) (hq' : q ≠ []) (h : join "::" p = join "::" q) : p = q := by
  induction p using List.reverseRecOn generalizing q with
  | nil => exact absurd rfl hp'
  | append_singleton p a ih =>
    obtain ⟨q, b, rfl⟩ := (List.eq_nil_or_concat' q).resolve_left hq'
    have hbytes := congrArg bytes h
    rw [join_concat, join_concat] at hbytes
    obtain ⟨rfl, hlead⟩ : a = b ∧ lead "::" p = lead "::" q := by
      rcases Nat.le_total a.bytes.length b.bytes.length with hle | hle
      · exact (hq b (by simp)).eq_of_append (lead_ends p) hbytes hle
      · exact ((hp a (by simp)).eq_of_append (lead_ends q) hbytes.symm hle).imp Eq.symm Eq.symm
    congr 1
    by_cases hpn : p = [] <;> by_cases hqn : q = []
    · rw [hpn, hqn]
    · simp [lead, hpn, hqn, bytes_colons] at hlead
    · simp [lead, hpn, hqn, bytes_colons] at hlead
    · simp only [lead, if_neg hpn, if_neg hqn, List.append_left_inj] at hlead
      exact ih (fun n hn => hp n (List.mem_append_left _ hn))
        (fun n hn => hq n (List.mem_append_left _ hn)) hpn hqn (ext_bytes hlead)

end Text

namespace Classes.Table

variable {t : Table} {scope s : Scope} {name : Text}

/-- The scopes around a class are classes of the table, or the global one. -/
theorem WellBuilt.mem_outward (ho : t.WellBuilt) (h : .named name ∈ t.outward k scope) :
    scope = .named name ∨ ∃ c ∈ t.classes, c.name = name := by
  induction k generalizing scope with
  | zero => cases h
  | succ k ih =>
    rw [outward] at h
    rcases List.mem_cons.mp h with h | h
    · exact .inl h.symm
    · cases hp : t.parentOf scope with
      | none => simp [hp] at h
      | some parent =>
        simp only [hp] at h
        rcases ih h with rfl | hc
        · cases scope with
          | global => cases hp
          | named x =>
            obtain ⟨c, hc, hparent⟩ := Option.bind_eq_some_iff.mp hp
            obtain ⟨i, hi⟩ := List.getElem?_of_mem (List.mem_of_find?_eq_some hc)
            obtain ⟨around, haround, hbefore⟩ := ho.parents i c hi
            obtain ⟨j, m, -, hm, hmp⟩ :=
              hbefore name (Option.mem_unique haround hparent)
            exact .inr ⟨m, List.mem_of_getElem? hm, hmp⟩
        · exact .inr hc

theorem WellBuilt.mem_path (ho : t.WellBuilt) (h : n ∈ t.path name) :
    n = name ∨ ∃ c ∈ t.classes, c.name = n := by
  rcases List.mem_append.mp h with h | h
  · obtain ⟨s, hs, hn⟩ := List.mem_filterMap.mp (List.mem_reverse.mp h)
    cases s with
    | global => cases hn
    | named x =>
      obtain rfl := Option.some.inj hn
      rcases ho.mem_outward (List.mem_of_mem_tail ((List.takeWhile_sublist _).subset hs))
        with heq | hc
      · exact .inl (Scope.named.inj heq).symm
      · exact .inr hc
  · exact .inl (List.mem_singleton.mp h)

theorem WellBuilt.fullName_injective (ho : t.WellBuilt) (hsimple : ∀ k ∈ t.classes, k.name.Simple)
    (hc : c ∈ t.classes) (hd : d ∈ t.classes) (h : t.fullName c.name = t.fullName d.name) :
    c.name = d.name := by
  have hpath : ∀ {k}, k ∈ t.classes → ∀ n ∈ t.path k.name, n.Simple := by
    intro k hk n hn
    obtain rfl | ⟨m, hm, rfl⟩ := ho.mem_path hn
    · exact hsimple k hk
    · exact hsimple m hm
  have heq := Text.join_injective (hpath hc) (hpath hd) (by simp [path]) (by simp [path]) h
  simpa [path] using congrArg List.getLast? heq

/-- A text by which the layout gives the class `name`. -/
def ListedAs (t : Table) (text name : Text) : Prop :=
  ∃ (i : Nat) (c : ClassScope), t.classes[i]? = some c ∧ c.name = name ∧
    (t.layout.classes[i]?).map (·.name) = some text

/-- The superclass and the constants of a class are given by the names of the classes meant. -/
structure Refers (t : Table) (c : ClassScope) : Prop where
  without : c.super = none → (t.classLayout c).super = Text.empty
  super : ∀ s, c.super = some s → t.ListedAs (t.classLayout c).super s
  constants : List.Forall₂ (fun entry text => ∃ s, entry.2 = some s ∧ t.ListedAs text s) c.constants
    (t.classLayout c).constants

/-- No two classes of the layout have one name, so what stands for a class stands for it alone. -/
structure Unambiguous (t : Table) : Prop where
  distinct : (t.layout.classes.map (·.name)).Nodup
  unique : ∀ text name, t.ListedAs text name →
    ∃! i : Nat, (t.layout.classes[i]?).map (·.name) = some text

theorem listedAs_fullName (h : (t.find? name).isSome) : t.ListedAs (t.fullName name) name := by
  obtain ⟨c, hc⟩ := Option.isSome_iff_exists.mp h
  obtain ⟨i, hi, hname, -⟩ := find?_eq_some_iff.mp hc
  exact ⟨i, c, hi, hname, by simp [layout, classLayout, hi, hname]⟩

theorem NamesKnown.refers (h : t.NamesKnown) (hu : t.Uniform) (hc : c ∈ t.classes) :
    t.Refers c := by
  obtain ⟨i, hi⟩ := List.getElem?_of_mem hc
  have hfind := hu.find? hi
  refine ⟨fun hs => by simp [classLayout, hs], fun s hs => ?_, ?_⟩
  · have hknown := h.super (show t.superOf c.name = some s by simp [superOf, hfind, hs])
    simpa [classLayout, hs] using listedAs_fullName hknown
  · have hentry : ∀ entry ∈ c.constants, ∃ s, entry.2 = some s ∧ t.ListedAs (t.fullName s) s := by
      intro entry hentry
      have hmem : entry ∈ t.constantsOf (.named c.name) := by
        simpa [constantsOf, hfind] using hentry
      obtain ⟨x, target⟩ := entry
      obtain rfl := hu.own hmem
      exact ⟨x, rfl, listedAs_fullName (h.constant hmem)⟩
    simp only [classLayout]
    generalize c.constants = entries at hentry
    induction entries with
    | nil => exact .nil
    | cons entry rest ih =>
      obtain ⟨s, hs, hstands⟩ := hentry entry List.mem_cons_self
      rw [List.filterMap_cons, hs]
      exact .cons ⟨s, hs, hstands⟩ (ih fun e he => hentry e (List.mem_cons_of_mem _ he))

theorem WellBuilt.unambiguous (ho : t.WellBuilt) (hu : t.Uniform)
    (hsimple : ∀ k ∈ t.classes, k.name.Simple) : t.Unambiguous := by
  have hnodup : (t.layout.classes.map (·.name)).Nodup := by
    have hnames : t.layout.classes.map (·.name) = (t.classes.map fun c => t.fullName c.name) := by
      simp [layout, classLayout]
    rw [hnames]
    refine (List.nodup_map_iff_inj_on (List.Nodup.of_map _ hu.distinct)).mpr fun c hc d hd h => ?_
    exact List.inj_on_of_nodup_map hu.distinct hc hd (ho.fullName_injective hsimple hc hd h)
  refine ⟨hnodup, fun text name h => ?_⟩
  obtain ⟨i, -, -, -, htext⟩ := h
  refine ⟨i, htext, fun j hj => ?_⟩
  rw [← List.getElem?_map] at htext hj
  exact ((List.getElem?_inj (List.getElem?_eq_some_iff.mp hj).1 hnodup).mp (hj.trans htext.symm))

end Classes.Table

namespace Pass.ClassScopes

open Classes Classes.Table

/-- Whatever sources are read into one context, the layout gives superclasses and constants by the
names of the classes meant, and the names tell the classes apart if all classes have simple ones. -/
theorem layout_names (forest : Forest) (options : Options) (sources : List (Text × Text)) :
    let t := (collected (.ofForest forest options) sources).classes
    (∀ c ∈ t.classes, t.Refers c) ∧ ((∀ c ∈ t.classes, c.name.Simple) → t.Unambiguous) := by
  intro t
  have ho : t.WellBuilt := (wellBuilt_ofReserved options.reserved).history
    (history_collected (.ofForest forest options) sources)
  have hu : t.Uniform := uniform_collected forest options sources
  exact ⟨fun _ => (namesKnown_collected forest options sources).refers hu, ho.unambiguous hu⟩

/-- A name that ends with a colon, a class inside, and a class under that one. -/
def colonAtEnd : Text × Text := ("", "(do (class A: _ ((class B))) (class C B))")

theorem layout_names_colonAtEnd :
    let t := (collected (.ofForest {} {}) [colonAtEnd]).classes
    (∀ c ∈ t.classes, c.name.Simple) ∧ t.Unambiguous ∧
      t.layout.classes.map (·.name) = ["A:", "A:::B", "C"] ∧
      t.layout.classes.map (·.super) = ["", "", "A:::B"] := by
  intro t
  have hsimple : ∀ c ∈ t.classes, c.name.Simple := by decide +kernel
  have hlayout : t.layout.classes.map (·.name) = ["A:", "A:::B", "C"] ∧
      t.layout.classes.map (·.super) = ["", "", "A:::B"] := by decide +kernel
  exact ⟨hsimple, (layout_names {} {} [colonAtEnd]).2 hsimple, hlayout⟩

/-- Two classes with one full name. -/
def clashing : Text := "(do (class A::B) (class A _ ((class B))))"

/-- Two classes have one name in the layout. -/
theorem one_name_clashing : ∃ f root c, Forest.parse "" clashing = .ok (f, root) ∧
    run root (.ofForest f {}) = .ok () c ∧ c.classes.Rooted ∧
    ¬ (c.classes.layout.classes.map (·.name)).Nodup := by
  have htest : testRun "" clashing (fun f root => run root (.ofForest f {}))
      (fun _ _ c => c.classes.Rooted ∧
        ¬ (c.classes.layout.classes.map (·.name)).Nodup) = true := by decide +kernel
  obtain ⟨f, root, ⟨⟩, c, hparse, hrun, htest⟩ := of_testRun htest
  exact ⟨f, root, c, hparse, hrun, of_decide_eq_true htest⟩

end Pass.ClassScopes

end Lowering
