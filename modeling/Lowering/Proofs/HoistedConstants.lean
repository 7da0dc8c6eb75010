import Lowering.Proofs.TreePreservation

namespace Lowering

open Forest PassM
open Pass.ClassScopes (stateOf)

namespace Tree

variable {p q : Atom → Option Constant} {label : Constant → Text}

theorem constant?_fetching (t : Tree Unit) : (t.fetching p label).constant? q = t.constant? q := by
  cases t with
  | leaf a => rfl
  | node _ tag args =>
    unfold fetching
    split <;> rfl

theorem constant?_fetched (tag : Tag) (i : Nat) (k : Constant) (name : Text) :
    (fetched tag i k name).constant? q = none := by
  unfold fetched
  split <;> rfl

theorem constant?_or (t : Tree α) :
    t.constant? (fun a => (p a).or (q a)) = (t.constant? p).or (t.constant? q) := by
  cases t with
  | leaf a => rfl
  | node _ _ _ => rfl

mutual
theorem fetching_fetching (t : Tree Unit) : (t.fetching p label).fetching q label =
    t.fetching (fun a => (p a).or (q a)) label := by
  cases t with
  | leaf a => rfl
  | node _ tag args =>
    by_cases ht : tag = .sexp
    · subst ht
      rw [fetching_sexp, fetching_sexp, fetching_sexp]
    · simp only [fetching_node ht, fetchingEach_fetchingEach tag 0 args]

theorem fetchingEach_fetchingEach (tag : Tag) (i : Nat) (ts : List (Tree Unit)) :
    fetchingEach q label tag i (fetchingEach p label tag i ts) =
      fetchingEach (fun a => (p a).or (q a)) label tag i ts := by
  cases ts with
  | nil => simp only [fetchingEach]
  | cons t ts =>
    simp only [fetchingEach, fetchingEach_fetchingEach tag (i + 1) ts, constant?_or]
    congr 1
    cases hp : t.constant? p with
    | some k => simp only [constant?_fetched, fetching_fetched, Option.some_or]
    | none => simp only [constant?_fetching, fetching_fetching t, Option.none_or]
end

mutual
theorem mem_constants_or (t : Tree α) (hk : k ∈ t.constants fun a => (p a).or (q a)) :
    k ∈ t.constants p ∨ k ∈ t.constants q := by
  cases t with
  | leaf a => simp at hk
  | node mark tag args =>
    by_cases ht : tag = .sexp
    · subst ht
      simp at hk
    · rw [constants_node ht, List.mem_append] at hk
      rw [constants_node ht, constants_node ht, List.mem_append, List.mem_append]
      rcases hk with hk | hk
      · obtain ⟨t, ht, hk⟩ := List.mem_filterMap.mp hk
        rw [constant?_or, Option.or_eq_some_iff] at hk
        rcases hk with hk | ⟨-, hk⟩
        · exact .inl (.inl (List.mem_filterMap.mpr ⟨t, ht, hk⟩))
        · exact .inr (.inl (List.mem_filterMap.mpr ⟨t, ht, hk⟩))
      · exact (mem_constantsEach_or args hk).imp .inr .inr

theorem mem_constantsEach_or (ts : List (Tree α))
    (hk : k ∈ constantsEach (fun a => (p a).or (q a)) ts) :
    k ∈ constantsEach p ts ∨ k ∈ constantsEach q ts := by
  cases ts with
  | nil => simp [constantsEach] at hk
  | cons t ts =>
    rw [constantsEach, List.mem_append] at hk
    rw [constantsEach, constantsEach, List.mem_append, List.mem_append]
    rcases hk with hk | hk
    · exact (mem_constants_or t hk).imp .inl .inl
    · exact (mem_constantsEach_or ts hk).imp .inr .inr
end

/-- Constants that are fetched are not those of another kind. -/
theorem constants_fetched_call (tag : Tag) (i : Nat) (k : Constant) (name : Text) :
    (fetched tag i k name).constants q = [] := by
  unfold fetched fetchCall
  split <;> simp [constants, constantsEach, constant?]

mutual
theorem constants_fetching (hpq : ∀ a k, p a = some k → q a = none) (t : Tree Unit) :
    (t.fetching p label).constants q = t.constants q := by
  cases t with
  | leaf a => rfl
  | node _ tag args =>
    by_cases ht : tag = .sexp
    · subst ht
      rw [fetching_sexp]
    · obtain ⟨hhere, hbelow⟩ := constants_fetchingEach hpq tag 0 args
      rw [fetching_node ht, constants_node ht, constants_node ht, hhere, hbelow]

theorem constants_fetchingEach (hpq : ∀ a k, p a = some k → q a = none) (tag : Tag) (i : Nat)
    (ts : List (Tree Unit)) :
    (fetchingEach p label tag i ts).filterMap (constant? q) = ts.filterMap (constant? q) ∧
      constantsEach q (fetchingEach p label tag i ts) = constantsEach q ts := by
  cases ts with
  | nil => simp only [fetchingEach, and_self]
  | cons t ts =>
    obtain ⟨hhere, hbelow⟩ := constants_fetchingEach hpq tag (i + 1) ts
    cases hp : t.constant? p with
    | none =>
      simp only [fetchingEach, hp, constantsEach, constants_fetching hpq t, hbelow, and_true,
        List.filterMap_cons, constant?_fetching, hhere]
    | some k =>
      obtain ⟨a, rfl, ha⟩ : ∃ a, t = .leaf a ∧ p a = some k := by
        cases t with
        | leaf a => exact ⟨a, rfl, hp⟩
        | node _ _ _ => cases hp
      have hq : (leaf a : Tree Unit).constant? q = none := hpq a k ha
      simp only [fetchingEach, hp, constantsEach, constants_fetched_call, constants_leaf, hbelow,
        and_true, List.filterMap_cons, constant?_fetched, hq, hhere]
end

mutual
theorem constants_shape (t : Tree α) : t.shape.constants q = t.constants q := by
  cases t with
  | leaf a => rw [shape_leaf, constants_leaf, constants_leaf]
  | node mark tag args =>
    rw [shape]
    by_cases ht : tag = .sexp
    · subst ht
      rw [constants_sexp, constants_sexp]
    · obtain ⟨hhere, hbelow⟩ := constants_shapes args
      rw [constants_node ht, constants_node ht, hhere, hbelow]

theorem constants_shapes (ts : List (Tree α)) :
    (shapes ts).filterMap (constant? q) = ts.filterMap (constant? q) ∧
      constantsEach q (shapes ts) = constantsEach q ts := by
  cases ts with
  | nil => simp only [shapes, constantsEach, List.filterMap_nil, and_self]
  | cons t ts =>
    obtain ⟨hhere, hbelow⟩ := constants_shapes ts
    have hroot : t.shape.constant? q = t.constant? q := by
      cases t with
      | leaf a =>
        rw [shape_leaf]
        rfl
      | node _ _ _ => rw [shape, constant?, constant?]
    simp only [shapes, constantsEach, List.filterMap_cons, hroot, hhere, hbelow, constants_shape t,
      and_self]
end

end Tree

/-- The constant that an atom is. -/
def Constant.ofAtom? : Atom → Option Constant
  | .str text => some (.str text)
  | .int value => some (.int value)
  | _ => none

theorem Constant.ofAtom?_eq : ofAtom? = fun a =>
    (Pass.Hoist.Family.strings.atom? a).or (Pass.Hoist.Family.ints.atom? a) := by
  funext a
  cases a <;> rfl

namespace Literals

variable {l : Literals} {k k' : Constant} {stem : Text}

/-- A constant that is in the table is found under its label, if no label stands there twice. -/
theorem find?_label (hnodup : (l.entries.map (·.label)).Nodup) (hk : l.labelOf? k ≠ none) :
    l.find? (l.label k) = some ⟨l.label k, k⟩ := by
  obtain ⟨name, hname⟩ := Option.ne_none_iff_exists'.mp hk
  obtain ⟨e, he, rfl⟩ := Option.map_eq_some_iff.mp hname
  have hmem : e ∈ l.entries := List.mem_of_find?_eq_some he
  obtain rfl : e.value = k := by simpa using List.find?_some he
  have hlabel : l.label e.value = e.label := by rw [label, hname, Option.getD_some]
  rw [hlabel]
  unfold find?
  cases hf : l.entries.reverse.find? fun e' => e'.label = e.label with
  | none =>
    have := List.find?_eq_none.mp hf e (List.mem_reverse.mpr hmem)
    simp at this
  | some e' =>
    have hmem' : e' ∈ l.entries := List.mem_reverse.mp (List.mem_of_find?_eq_some hf)
    have heq : e'.label = e.label := by simpa using List.find?_some hf
    rw [List.inj_on_of_nodup_map hnodup hmem' hmem heq]

theorem label_inj (hnodup : (l.entries.map (·.label)).Nodup) (hk : l.labelOf? k ≠ none)
    (hk' : l.labelOf? k' ≠ none) : l.label k = l.label k' ↔ k = k' := by
  refine ⟨fun h => ?_, fun h => h ▸ rfl⟩
  have hfound := find?_label hnodup hk
  rw [h, find?_label hnodup hk'] at hfound
  cases hfound
  rfl

theorem labelOf?_takeEach (hk : k ∈ ks) : (takeEach stem s ks).1.labelOf? k ≠ none := by
  induction ks generalizing s with
  | nil => cases hk
  | cons k' ks ih =>
    rcases List.mem_cons.mp hk with rfl | hk
    · obtain ⟨name, hname⟩ : ∃ name, (take stem s k).1.labelOf? k = some name := labelOf?_take s k
      have hext : (take stem s k).1.Extends (takeEach stem s (k :: ks)).1 := extends_takeEach _ ks
      simp [hext.labelOf? hname]
    · exact ih hk

end Literals

section Reading

variable {c : Context} {f : Forest} {x : Int} {n : Node}

/-- A node was there before, or it is a new one over new ones. -/
theorem Forest.Sprung.cases (h : Sprung base f) (hn : f.get? x = some n) :
    base.get? x = some n ∨ (base.size : Int) < x ∧ ∀ y ∈ n.children, (base.size : Int) < y ∧
    y < x := by
  by_cases hx : x ≤ base.size
  · obtain ⟨m, hm⟩ := has_iff.mpr ⟨(get?_eq_some_bounds hn).1, hx⟩
    rw [h.grows x m hm] at hn
    exact .inl (hn ▸ hm)
  · exact .inr ⟨by omega, h.ordered x n (by omega) hn⟩

theorem Forest.Sprung.has (h : Sprung base f) (hx : base.Has x) : f.Has x := by
  obtain ⟨m, hm⟩ := hx
  exact ⟨m, h.grows x m hm⟩

theorem Context.Orderly.read (h : c.Orderly) (hs : Sprung c.forest f) :
    { c with forest := f }.Orderly := by
  obtain ⟨grade, hgrade⟩ := h
  have hold : ∀ {y}, c.forest.Has y →
      (if y ≤ (c.forest.size : Int) then grade y else (y : ℚ)) = grade y :=
    fun hy => if_pos (has_iff.mp hy).2
  refine ⟨fun y => if y ≤ (c.forest.size : Int) then grade y else y, ?_, fun g hg y hy z hz => ?_,
    hgrade.apart⟩
  · intro y n hn child hchild
    rcases hs.cases hn with hn' | ⟨hy, hbelow⟩
    · obtain ⟨hhas, hlt⟩ := hgrade.below hn' child hchild
      refine ⟨hs.has hhas, ?_⟩
      rwa [hold hhas, hold ⟨n, hn'⟩]
    · obtain ⟨hnew, hlt⟩ := hbelow child hchild
      have hsize := (get?_eq_some_bounds hn).2
      refine ⟨has_iff.mpr ⟨by omega, by omega⟩, ?_⟩
      rw [if_neg (by omega), if_neg (by omega)]
      exact_mod_cast hlt
  · obtain ⟨n, m, hn, hm, hargs, heq⟩ := hgrade.alike g hg y hy z hz
    refine ⟨n, m, hs.grows y n hn, hs.grows z m hm, hargs, ?_⟩
    rwa [hold ⟨n, hn⟩, hold ⟨m, hm⟩]

theorem Recorded.ordinary_of_new (h : Recorded r c) (hx : (c.forest.size : Int) < x) :
    r.Ordinary x := by
  refine ⟨fun ha => ?_, fun hf => ?_⟩
  · have := (has_iff.mp (h.anchors x ha)).2
    omega
  · have := (has_iff.mp (h.functions x hf)).2
    omega

/-- What is read does not know of the functions of closures. -/
theorem Registered.read (h : Registered r c) (hs : Sprung c.forest f) :
    Registered r { c with forest := f } := by
  refine ⟨⟨fun y n hn => ?_, fun y hy => hs.has (h.functions y hy),
    fun y hy => hs.has (h.anchors y hy), h.groups⟩, h.literals, h.labels, h.stem, h.hoisted⟩
  rcases hs.cases hn with hn' | ⟨hy, hbelow⟩
  · exact h.nodes y n hn'
  · refine Register.knows_of_ordinary (h.ordinary_of_new hy) fun v hv child hchild => ?_
    exact (h.ordinary_of_new (hbelow child (List.mem_filterMap.mpr ⟨v, hv, hchild⟩)).1).2

end Reading

/-- What has been read is a tree of new nodes. -/
theorem Reader.read_tree (h : Reader.read file source base = .ok root f) :
    ∃ t, Denotes f (.ref root) t ∧ t.ids.Nodup ∧ (∀ x ∈ t.ids, (base.size : Int) < x) ∧
      root ∈ t.ids := by
  obtain ⟨ts, hts, hnodup, hnew⟩ := (read_grown h).trees
  obtain ⟨t, _, ht, hnil, rfl⟩ := List.forall₂_cons_left_iff.mp hts
  cases hnil
  simp only [List.flatMap_cons, List.flatMap_nil, List.append_nil] at hnodup hnew
  exact ⟨t, ht, hnodup, hnew, ht.child_mem_ids (Operand.child?_ref root)⟩

namespace Pass.Hoist

open Std.Do

set_option mvcgen.warning false

variable {base f : Forest} {family : Family} {id : Int}

/-- The nodes of a forest are there, as they were but for their operands. -/
def Refits (base f : Forest) : Prop :=
  ∀ x n, base.get? x = some n → ∃ args, f.get? x = some { n with args }

theorem Refits.grow (h : Refits base f) (hg : Grows f f') : Refits base f' := by
  intro x n hn
  obtain ⟨args, hx⟩ := h x n hn
  exact ⟨args, hg x _ hx⟩

theorem Refits.set (h : Refits base f) (hm : f.get? id = some m) :
    Refits base (f.set id { m with args }) := by
  intro x n hn
  obtain ⟨args', hx⟩ := h x n hn
  rw [get?_set]
  by_cases heq : x = id
  · subst heq
    obtain rfl : m = _ := Option.mem_unique hm hx
    exact ⟨args, by simp [hm]⟩
  · exact ⟨args', by simp [heq, hx]⟩

/-- A computation that changes no more than the operands of nodes. -/
abbrev Refitting (base : Forest) {α : Type} (x : PassM α) : Prop :=
  Keeps (fun c => Refits base c.forest) (fun _ => True) (fun _ => True) x

theorem refitting_fetch (id : Int) : Refitting base (fetch id) := by mvcgen [fetch]

theorem refitting_node : Refitting base (node tag pos args) := by
  mvcgen [node, alloc]
  exact Refits.grow ‹_› (grows_push _ _)

theorem refitting_setArgs (id : Int) (args : List Operand) : Refitting base (setArgs id args) := by
  have update : ∀ x, Refitting base (update x ({ · with args })) := by
    intro x
    mvcgen [update, fetch]
    exact Refits.set ‹_› ‹_›
  have each : ∀ xs : List Int, Refitting base (xs.forM fun x => PassM.update x ({ · with args })) :=
    fun _ => Keeps.forM fun x _ => update x
  mvcgen [setArgs, each]

theorem refitting_run (family : Family) (root : Int) : Refitting base (run family root) := by
  have fetched := @refitting_fetch base
  have made := @refitting_node base
  have set := @refitting_setArgs base
  have operand : ∀ n v i, Refitting base (operand family n v i) := by
    intro n v i
    mvcgen [operand, intern, newLabel, sexpCall, list, made] <;> assumption
  have operands : ∀ n : Node, Keeps (fun c => Refits base c.forest) (fun _ => True)
      (fun bs => ∀ b ∈ bs, True) (n.args.zipIdx.mapM fun p => Hoist.operand family n p.1 p.2) :=
    fun n => Keeps.mapM fun p _ => operand n p.1 p.2
  have walk : ∀ k x, Refitting base (Walk.run (.fault .endless)
      (fun id => return (← fetch id).children)
        (fun id => do visit family id (← fetch id)) k x) := by
    refine Keeps.walk trivial (fun x => ?_) (fun x => ?_)
    · mvcgen [fetched]
    · mvcgen [fetched, visit, operands, set] <;> simp_all
  change Refitting base (PassM.walk _ _ >>= fun _ => pure ())
  mvcgen [PassM.walk, walk]

end Pass.Hoist

namespace Pipeline

variable {options : Options} {roots : List Int} {c : Context}

/-- The states that a compilation goes through, with the roots of the units it has read. Reading a
unit may fail, and so may what is asked of the passes for the units that have been read. -/
inductive Worked (options : Options) : List Int → Context → Prop where
  | start : Worked options [] (Context.ofForest {} options)
  | read {roots : List Int} {c : Context} {file source : Text} {root : Int} {f : Forest}
      (before : Worked options roots c) (h : Reader.read file source c.forest = .ok root f) :
      Worked options (root :: roots) { c with forest := f }
  | unread {roots : List Int} {c : Context} {file source : Text} {e : ReadError} {f : Forest}
      (before : Worked options roots c) (h : Reader.read file source c.forest = .error e f) :
      Worked options roots { c with forest := f }
  | call {roots : List Int} {c : Context} {root : Int} (before : Worked options roots c)
      (h : root ∈ roots) (call : Call) : Worked options roots (stateOf (call.run root c))

/-- A state in order, with its labels accounted for. -/
structure LabelledInOrder (stem : Text) (roots : List Int) (c : Context) : Prop where
  orderly : c.Orderly
  labelled : Labelled stem roots c

variable {stem : Text} {root : Int}

theorem labelledInOrder_start (options : Options) :
    LabelledInOrder options.withDefaults.labelStem [] (Context.ofForest {} options) := by
  have hempty : ∀ {x n}, ¬ ({} : Forest).get? x = some n := by
    intro x n hn
    have := get?_eq_some_bounds hn
    have hsize : ({} : Forest).size = 0 := rfl
    omega
  refine ⟨⟨fun _ => 0, fun hn => absurd hn hempty, nofun, .nil⟩, ⟨{}, 0, _, [], fun _ => False⟩,
    rfl, nofun,
    ⟨nofun, .nil, .nil⟩, ⟨fun x n hn => absurd hn hempty, ?_, nofun, nofun⟩, rfl, rfl, rfl, rfl⟩
  rintro x ⟨_, h⟩
  cases h

theorem LabelledInOrder.read (h : LabelledInOrder stem roots c) (hs : Sprung c.forest f) :
    LabelledInOrder stem roots { c with forest := f } := by
  obtain ⟨r, hstem, hroots, hdistinct, hr⟩ := h.labelled
  exact ⟨h.orderly.read hs, r, hstem, fun x hx => ⟨hs.has (hroots x hx).1, (hroots x hx).2⟩,
    hdistinct, hr.read hs⟩

theorem LabelledInOrder.addRoot (h : LabelledInOrder stem roots c)
    (hread : Reader.read file source c.forest = .ok root f) :
    LabelledInOrder stem (root :: roots) { c with forest := f } := by
  have hs := (Reader.read_grown hread).toSprung
  obtain ⟨r, hstem, hroots, hdistinct, hr⟩ := h.labelled
  obtain ⟨t, ht, -, hnew, hroot⟩ := Reader.read_tree hread
  refine ⟨h.orderly.read hs, r, hstem, List.forall_mem_cons.mpr ⟨?_, fun x hx => ?_⟩, hdistinct,
    hr.read hs⟩
  · exact ⟨has_iff.mpr (ht.ids_bounds root hroot), hr.ordinary_of_new (hnew root hroot)⟩
  · exact ⟨hs.has (hroots x hx).1, (hroots x hx).2⟩

/-- No pass gives a label that has been given before, or takes one away. -/
theorem sturdy_labelledInOrder (hroot : root ∈ roots) :
    Sturdy root (LabelledInOrder stem roots) fun _ _ => True := by
  refine sturdy_of_passes fun p c hc => ?_
  obtain ⟨grade, hgrade⟩ := hc.orderly
  obtain ⟨r, hstem, hroots, hdistinct, hr⟩ := hc.labelled
  have hsurveyed : c.Surveyed ⟨r, grade⟩ := ⟨hgrade, hr.toRecorded⟩
  have lands := p.lands hsurveyed (hroots root hroot).1 (hroots root hroot).2
  have later : ∀ {d grade1}, Onward .none c ⟨r, grade⟩ d grade1 → LabelledInOrder stem roots d := by
    intro d grade1 ho
    obtain ⟨hdistinct, hledger⟩ := ho.booked.ledger ⟨hdistinct, hr.toLedger⟩
    exact ⟨⟨grade1, ho.graded.toGraded⟩, grade1.toRegister, ho.booked.stem.trans hstem,
      fun x hx => ⟨ho.kept x (hroots x hx).1, ho.booked.plain (hroots x hx).1 (hroots x hx).2⟩,
      hdistinct, ho.graded.toRecorded, hledger⟩
  unfold runPass
  cases h : p.run root c with
  | ok a d =>
    obtain ⟨grade1, ho, -⟩ := lands.ok h
    exact .success (later ho)
  | error e d =>
    obtain ⟨-, grade1, ho⟩ := lands.error h
    exact .failure (later ho) trivial

theorem LabelledInOrder.run_ok {p : Pass} (h : LabelledInOrder stem roots c) (hroot : root ∈ roots)
    (hrun : p.run root c = .ok u d) : LabelledInOrder stem roots d := by
  refine ((sturdy_labelledInOrder hroot).pass p).ok (a := u) h ?_
  unfold runPass
  rw [hrun]

theorem Worked.sorted (h : Worked options roots c) :
    LabelledInOrder options.withDefaults.labelStem roots c := by
  induction h with
  | start => exact labelledInOrder_start options
  | read _ hread ih => exact ih.addRoot hread
  | unread _ hread ih => exact ih.read (Reader.read_sprung hread)
  | call _ hroot call ih => exact ((sturdy_labelledInOrder hroot).call call _ ih).state

theorem hoist_run (family : Pass.Hoist.Family) (ho : c.Orderly) (hh : Bears U c [.ref root] [t]) :
    ∃ c' t', Pass.Hoist.run family root c = .ok ⟨⟩ c' ∧
      Reworks U c [t] c' [.ref root] [t'] ∧ Pass.Hoist.Fetches family c t c' t' := by
  obtain ⟨grade, hgrade, -⟩ := ho.surveyed
  have hroot : c.forest.Has root := by
    apply hh.has
    simpa using (List.forall₂_cons.mp hh.denotes).1.child_mem_ids (Operand.child?_ref root)
  have hwalk := (Pass.Hoist.rewrites family).walk hh (Operand.child?_ref root)
  cases h : Pass.Hoist.run family root c with
  | ok u c' =>
    obtain ⟨b, hb⟩ := discard_ok.mp h
    obtain ⟨t', hr, hf⟩ := hwalk.1 b c' hb
    exact ⟨c', t', rfl, hr, hf⟩
  | error e c' =>
    obtain ⟨hexcused, -⟩ :=
      (lands_walk (Pass.Hoist.visits_land family) (Pass.Hoist.visits_sink family)
        hgrade hroot).discard.error h
    exact (hwalk.2 e c' (discard_error.mp h) hexcused.not_fault).2.elim

/-- A function of a closure has its name for its first operand. -/
def Names (f : Forest) (x : Int) (name : Text) : Prop :=
  ∃ n, f.get? x = some n ∧ n.tag = .defun ∧ n.args.head? = some (.sym name)

/-- The nodes of a tree that has been read share their operands with no other; next to it, any one
node may be in use. -/
theorem bears_read (ho : c.Orderly) (hread : Reader.read file source c.forest = .ok root f)
    (ht : Denotes f (.ref root) t) (hnodup : t.ids.Nodup)
    (hnew : ∀ x ∈ t.ids, (c.forest.size : Int) < x) {U : Int → Prop} (hU : ∀ x y, U x → U y → x = y)
    (hhas : ∀ x, U x → c.forest.Has x) :
    Bears (fun y => U y ∨ y ∈ t.ids) { c with forest := f } [.ref root] [t] := by
  have hs := (Reader.read_grown hread).toSprung
  obtain ⟨grade, hgrade⟩ := ho
  have hold : ∀ g ∈ c.shared, ∀ x ∈ g, x ∉ t.ids := by
    intro g hg x hx hmem
    have hbound := (has_iff.mp (hgrade.has_of_mem hg hx)).2
    have := hnew x hmem
    omega
  refine ⟨⟨fun y hy => ?_, fun g hg y hy => hs.has (hgrade.has_of_mem hg hy),
    fun g hg y hy z hz hUy hUz => ?_⟩,
    .cons ht .nil, by simpa using hnodup, fun y hy => .inr (by simpa using hy)⟩
  · rcases hy with hy | hy
    · exact hs.has (hhas y hy)
    · exact has_iff.mpr (ht.ids_bounds y hy)
  · exact hU y z (hUy.resolve_right (hold g hg y hy)) (hUz.resolve_right (hold g hg z hz))

theorem others_kept {u u' : Unit} (ho : c.Orderly)
    (hread : Reader.read file source c.forest = .ok root f)
    (hstrings : Pass.Hoist.run .strings root { c with forest := f } = .ok u c1) (ho1 : c1.Orderly)
    (hints : Pass.Hoist.run .ints root c1 = .ok u' c2) (hn : c.forest.get? x = some n) :
    c2.forest.get? x = some n := by
  have hs := (Reader.read_grown hread).toSprung
  obtain ⟨t, ht, hnodup, hnew, -⟩ := Reader.read_tree hread
  have hx : x ≤ c.forest.size := (get?_eq_some_bounds hn).2
  have hxt : x ∉ Tree.idsOf [t] := by
    intro hmem
    have := hnew x (by simpa using hmem)
    omega
  have hb : Bears (fun y => y = x ∨ y ∈ t.ids) { c with forest := f } [.ref root] [t] :=
    bears_read ho hread ht hnodup hnew (fun _ _ h h' => h.trans h'.symm) fun y hy => hy ▸ ⟨n, hn⟩
  obtain ⟨d1, t1, hd1, hr1, -⟩ := hoist_run .strings (ho.read hs) hb
  rw [hstrings] at hd1
  cases hd1
  obtain ⟨d2, t2, hd2, hr2, -⟩ := hoist_run .ints ho1 hr1.bears
  rw [hints] at hd2
  cases hd2
  have hxt1 : x ∉ Tree.idsOf [t1] := by
    intro hmem
    rcases hr1.own x hmem with h | h
    · exact hxt h
    · have hsize : c.forest.size ≤ f.size := hs.grows.size
      have hlt : (f.size : Int) < x := h
      omega
  have hfirst := hr1.same x n (hs.grows x n hn) (.inl rfl) hxt
  exact hr2.same x n hfirst (.inl ⟨.inl rfl, hxt⟩) hxt1

/-- In whatever state a compilation is: the strings and then the integers of what is read next are
replaced by calls that fetch them, and nothing else changes: every node stays in its place, and only
operands of its are other than before. The table finds each constant under its label, and a label
stands for one constant or one function. -/
theorem constants_fetched {file source : Text} {f : Forest} (hw : Worked options roots c)
    (hread : Reader.read file source c.forest = .ok root f) :
    ∃ t c1 c2 t2 names, f.tree root = .ok t ∧
      Pass.strings.run root { c with forest := f } = .ok ⟨⟩ c1 ∧ Pass.ints.run root c1 = .ok ⟨⟩ c2 ∧
      c2.forest.tree root = .ok t2 ∧
      t2.shape = t.shape.fetching Constant.ofAtom? c2.literals.label ∧
      (∀ p mark, t.markAt p = some mark → t2.markAt p = some mark) ∧
      (∀ x n, f.get? x = some n → ∃ args, c2.forest.get? x = some { n with args }) ∧
      (∀ x n, c.forest.get? x = some n → c2.forest.get? x = some n) ∧
      c2.options = c.options ∧ c2.hoisted = c.hoisted ∧ c2.classes = c.classes ∧
      (c2.literals, c2.labels) = Literals.takeEach c.options.labelStem (c.literals, c.labels)
        (t.constants Pass.Hoist.Family.strings.atom? ++ t.constants Pass.Hoist.Family.ints.atom?) ∧
      (∀ k ∈ t.constants Constant.ofAtom?,
        c2.literals.find? (c2.literals.label k) = some ⟨c2.literals.label k, k⟩) ∧
      (∀ k ∈ t.constants Constant.ofAtom?, ∀ k' ∈ t.constants Constant.ofAtom?,
        (c2.literals.label k = c2.literals.label k' ↔ k = k')) ∧
      List.Forall₂ (Names c2.forest) c2.hoisted names ∧
      (c2.literals.entries.map (·.label) ++ names).Nodup := by
  obtain ⟨t, ht, hnodup, hnew, -⟩ := Reader.read_tree hread
  have hsorted := hw.sorted
  have hnext := hsorted.addRoot hread
  have hh : Bears (fun y => False ∨ y ∈ t.ids) { c with forest := f } [.ref root] [t] :=
    bears_read hsorted.orderly hread ht hnodup hnew nofun nofun
  obtain ⟨c1, t1, hstrings, hr1, hf1⟩ := hoist_run .strings hnext.orderly hh
  have hsorted1 := hnext.run_ok (p := .strings) List.mem_cons_self hstrings
  obtain ⟨c2, t2, hints, hr2, hf2⟩ := hoist_run .ints hsorted1.orderly hr1.bears
  have hsorted2 := hsorted1.run_ok (p := .ints) List.mem_cons_self hints
  have hshape1 := hf1.shape c2.literals hf2.takes.literals
  have hshape2 := hf2.shape c2.literals (.refl _)
  have hconstants : t1.constants Pass.Hoist.Family.ints.atom? =
      t.constants Pass.Hoist.Family.ints.atom? := by
    rw [← Tree.constants_shape, hshape1, Tree.constants_fetching, Tree.constants_shape]
    intro a k ha
    cases a with
    | str _ => rfl
    | _ => cases ha
  have htakes := hf1.takes.trans hf2.takes
  rw [hconstants] at htakes
  obtain ⟨r, -, -, hdistinct, hr⟩ := hsorted2.labelled
  have hlabels : (c2.literals.entries.map (·.label)).Nodup := by
    rw [hr.literals]
    exact hdistinct.names.of_append_left
  have hknown : ∀ k ∈ t.constants Constant.ofAtom?, c2.literals.labelOf? k ≠ none := by
    intro k hk
    rw [Constant.ofAtom?_eq] at hk
    have htable := congrArg Prod.fst htakes.table
    dsimp only at htable
    rw [htable]
    exact Literals.labelOf?_takeEach (List.mem_append.mpr (Tree.mem_constants_or t hk))
  have hrefits : Pass.Hoist.Refits f c2.forest := by
    have hstart : Pass.Hoist.Refits f f := fun x n hn => ⟨n.args, hn⟩
    have hfirst := ((Pass.Hoist.refitting_run .strings root).ok hstart hstrings).1
    exact ((Pass.Hoist.refitting_run .ints root).ok hfirst hints).1
  obtain ⟨ht2, -⟩ := List.forall₂_cons.mp hr2.bears.denotes
  refine ⟨t, c1, c2, t2, r.functions.map Prod.snd, ht.operandTree hnodup, hstrings, hints,
    ht2.operandTree (by simpa using hr2.bears.nodup), ?_,
    fun p mark hp => hf2.marks p mark (hf1.marks p mark hp), hrefits,
    fun _ _ => others_kept hsorted.orderly hread hstrings hsorted1.orderly hints, htakes.options,
    htakes.hoisted, htakes.classes, htakes.table,
    fun k hk => Literals.find?_label hlabels (hknown k hk),
    fun k hk k' hk' => Literals.label_inj hlabels (hknown k hk) (hknown k' hk'), ?_, ?_⟩
  · rw [hshape2, hshape1, Tree.fetching_fetching, Constant.ofAtom?_eq]
  · rw [hr.hoisted, List.forall₂_map_left_iff, List.forall₂_map_right_iff, List.forall₂_same]
    intro p hp
    obtain ⟨n, hn⟩ := hr.functions p.1 ⟨p.2, hp⟩
    exact ⟨n, hn, (hr.nodes p.1 n hn).name p.2 hp⟩
  · rw [hr.literals]
    exact hdistinct.names

/-- A closure next to constants, one of them in its body. -/
def firstUnit : Text := "(do (f \"a\" 1) (g (lambda (x) (x \"b\"))))"

/-- A string that the first unit has too, a new integer, one that is the argument of a call, and
constants in lowered code. -/
def secondUnit : Text := "(do (assign y \"a\") (f 7 1) (sexp (h \"c\" 8)))"

/-- Whether both units are read, and the states before the second one and after it pass a test. -/
def testUnits (test : Context → Context → Bool) : Bool :=
  match Reader.read "t" firstUnit {} with
  | .ok first f1 =>
    let c := stateOf (Call.run first .enabled { Context.ofForest {} {} with forest := f1 })
    match Reader.read "u" secondUnit c.forest with
    | .ok root f =>
      test c (stateOf (Pass.ints.run root (stateOf (Pass.strings.run root { c with forest := f }))))
    | .error _ _ => false
  | .error _ _ => false

theorem constants_fetched_secondUnit : ∃ first c root f c1 c2 names, Worked {} [first] c ∧
    c.labels = 4 ∧ c.hoisted.length = 1 ∧ Reader.read "u" secondUnit c.forest = .ok root f ∧
    Pass.strings.run root { c with forest := f } = .ok ⟨⟩ c1 ∧ Pass.ints.run root c1 = .ok ⟨⟩ c2 ∧
    c2.labels = 5 ∧ List.Forall₂ (Names c2.forest) c2.hoisted names ∧
    (c2.literals.entries.map (·.label) ++ names).Nodup := by
  have hrun : testUnits (fun c c2 => c.labels = 4 ∧ c.hoisted.length = 1 ∧ c2.labels = 5) =
      true := by
    decide +kernel
  unfold testUnits at hrun
  cases hfirst : Reader.read "t" firstUnit {} with
  | error e f => simp [hfirst] at hrun
  | ok first f1 =>
    simp only [hfirst] at hrun
    have hw : Worked {} [first] _ := .call (.read .start hfirst) List.mem_cons_self .enabled
    generalize stateOf (Call.run first .enabled { Context.ofForest {} {} with forest := f1 }) = c
      at hrun hw
    cases hsecond : Reader.read "u" secondUnit c.forest with
    | error e f => simp [hsecond] at hrun
    | ok root f =>
      obtain ⟨t, c1, c2, t2, names, -, hstrings, hints, -, -, -, -, -, -, -, -, -, -, -, hnames,
        hnodup⟩ :=
        constants_fetched hw hsecond
      simp only [hsecond, hstrings, hints, stateOf, decide_eq_true_eq] at hrun
      obtain ⟨hlabels, hhoisted, hlast⟩ := hrun
      exact ⟨first, c, root, f, c1, c2, names, hw, hlabels, hhoisted, hsecond, hstrings, hints,
        hlast, hnames, hnodup⟩

end Pipeline

end Lowering
