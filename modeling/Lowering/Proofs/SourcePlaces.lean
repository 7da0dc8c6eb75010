import Lowering.Proofs.BlindPasses
import Lowering.Proofs.TreePreservation

namespace Lowering

namespace Tree

variable {α : Type}

mutual
/-- Puts a tree into a forest, the nodes below a node before it: the forest and the operand that
stands for the tree. -/
def store : Tree α → Forest → Forest × Operand
  | leaf a, f => (f, a.operand)
  | node _ tag args, f =>
    let stored := storeEach args f
    (stored.1.push { tag, args := stored.2, pos := Position.unknown },
      .ref ((stored.1.size : Int) + 1))

def storeEach : List (Tree α) → Forest → Forest × List Operand
  | [], f => (f, [])
  | t :: ts, f =>
    let first := store t f
    let rest := storeEach ts first.1
    (rest.1, first.2 :: rest.2)
end

theorem storeEach_append (ts us : List (Tree α)) (f : Forest) :
    storeEach (ts ++ us) f = ((storeEach us (storeEach ts f).1).1,
      (storeEach ts f).2 ++ (storeEach us (storeEach ts f).1).2) := by
  induction ts generalizing f with
  | nil => rfl
  | cons t ts ih => rw [List.cons_append, storeEach, ih]; rfl

mutual
theorem store_shape (t : Tree α) (f : Forest) : t.shape.store f = t.store f := by
  cases t with
  | leaf a => rfl
  | node mark tag args => rw [shape, store, store, storeEach_shapes]

theorem storeEach_shapes (ts : List (Tree α)) (f : Forest) :
    storeEach (shapes ts) f = storeEach ts f := by
  cases ts with
  | nil => rfl
  | cons t ts => rw [shapes, storeEach, storeEach, store_shape, storeEach_shapes]
end

theorem length_storeEach (ts : List (Tree α)) (f : Forest) :
    (storeEach ts f).2.length = ts.length := by
  induction ts generalizing f with
  | nil => rfl
  | cons t ts ih => rw [storeEach, List.length_cons, List.length_cons, ih]

/-- Only the operand that refers to a node has its number. -/
theorem store_child {t : Tree α} {f : Forest} {id : Int} (h : (t.store f).2.child? = some id) :
    (t.store f).2 = .ref id := by
  cases t with
  | leaf a =>
    cases a with
    | unknown kind =>
      by_cases hk : kind = 4
      · subst hk
        cases h
        rfl
      · simp [store, Atom.operand, Operand.child?, Operand.isNode, hk] at h
    | _ => cases h
  | node mark tag args =>
    cases h
    rfl

end Tree

namespace Forest

/-- Operands and the trees they stand for, of which the forest consists. -/
structure Stored (f : Forest) (vs : List Operand) (ts : List (Tree Mark)) : Prop where
  trees : List.Forall₂ (Denotes f) vs ts
  all : Tree.storeEach ts {} = (f.unplaced, vs)

/-- A symbol takes no room in a forest. -/
theorem storeEach_of_pre (hpre : pre = [] ∨ ∃ v, pre = [v] ∧ v.isSymbol)
    (hp : List.Forall₂ (Denotes f) pre tp) (hall : Tree.storeEach (tp ++ ta) g = (h, pre ++ vs)) :
    Tree.storeEach ta g = (h, vs) := by
  rcases hpre with rfl | ⟨v, rfl, hv⟩
  · cases hp
    exact hall
  · obtain ⟨t, _, ht, hnil, rfl⟩ := List.forall₂_cons_left_iff.mp hp
    cases hnil
    cases t with
    | node mark tag args =>
      have hview := (denotes_node.mp ht).1
      rw [Operand.isSymbol, decide_eq_true_eq] at hv
      simp [Operand.view, hv] at hview
    | leaf a =>
      have hrest : (Tree.storeEach ta g).1 = h ∧ (Tree.storeEach ta g).2 = vs := by
        rw [List.singleton_append, List.singleton_append, Tree.storeEach] at hall
        exact ⟨congrArg Prod.fst hall, (List.cons.inj (congrArg Prod.snd hall)).2⟩
      exact Prod.ext hrest.1 hrest.2

theorem keptByReader_stored : Reader.KeptByReader fun f vs => ∃ ts, Stored f vs.reverse ts where
  atom := by
    rintro f vs a ⟨ts, hts, hall⟩ hview -
    refine ⟨ts ++ [.leaf a], ?_, ?_⟩
    · rw [List.reverse_cons]
      exact List.rel_append hts (.cons hview .nil)
    · rw [Tree.storeEach_append, hall, List.reverse_cons]
      rfl
  node := by
    rintro f elems rest pre n ⟨ts, hts, hall⟩ hargs hpre hnotes -
    rw [List.reverse_append, hargs] at hts hall
    obtain ⟨ts1, ts2, h1, h2, rfl⟩ := forall₂_append_left hts
    obtain ⟨tp, ta, hp, ha, rfl⟩ := forall₂_append_left h2
    rw [Tree.storeEach_append] at hall
    have hforest : (Tree.storeEach (tp ++ ta) (Tree.storeEach ts1 {}).1).1 = f.unplaced :=
      congrArg Prod.fst hall
    have hsplit := List.append_inj (congrArg Prod.snd hall)
      ((Tree.length_storeEach ts1 {}).trans h1.length_eq.symm)
    have hlast : Tree.storeEach ta (Tree.storeEach ts1 {}).1 = (f.unplaced, n.args) :=
      storeEach_of_pre hpre hp (Prod.ext hforest hsplit.2)
    have hn : n.unplaced = { tag := n.tag, args := n.args, pos := Position.unknown } := by
      rw [Node.unplaced, hnotes]
    have old : ∀ {vs : List Operand} {ss : List (Tree Mark)}, List.Forall₂ (Denotes f) vs ss →
        List.Forall₂ (Denotes (f.push n)) vs ss :=
      fun hss => hss.imp fun _ _ hd => hd.grow (grows_push f n)
    refine ⟨ts1 ++ [.node ⟨(f.size : Int) + 1, n.pos⟩ n.tag ta], ?_, ?_⟩
    · rw [List.reverse_cons]
      refine List.rel_append (old h1) (.cons ?_ .nil)
      exact denotes_node.mpr ⟨rfl, n, get?_push_self f n, rfl, rfl, old ha⟩
    · rw [Tree.storeEach_append, List.reverse_cons, ← hsplit.1, push_unplaced, hn]
      simp only [Tree.storeEach, Tree.store, hlast, size_unplaced]

/-- A source is read into its tree and nothing else. -/
theorem parse_stored {root : Int} (h : parse file source = .ok (f, root))
    (ht : Denotes f (.ref root) t) : t.store {} = (f.unplaced, .ref root) := by
  have hr := parse_ok.mp h
  have hempty : Stored {} [] [] := ⟨.nil, by simp [Tree.storeEach, unplaced]⟩
  obtain ⟨v, hv, ts, hts, hall⟩ := keptByReader_stored.read ⟨[], hempty⟩ hr
  obtain ⟨u, _, hu, hnil, rfl⟩ := List.forall₂_cons_left_iff.mp hts
  cases hnil
  obtain rfl : u = t := (Denotes.congr (w := .ref root) hu (Operand.view_eq_child.mpr hv)).unique ht
  have hforest : (u.store {}).1 = f.unplaced := congrArg Prod.fst hall
  have hfirst : (u.store {}).2 = v := (List.cons.inj (congrArg Prod.snd hall)).1
  refine Prod.ext hforest ?_
  exact Tree.store_child (hfirst ▸ hv)

/-- Two nodes stand for trees of the same shape. It is enough that these are encoded alike, if the
length of each text and of each operand list is written in full. -/
def SameShape (f : Forest) (root : Int) (f' : Forest) (root' : Int) : Prop :=
  (∃ t t', f.tree root = .ok t ∧ f'.tree root' = .ok t' ∧ t.shape = t'.shape) ∨
    f.encode root = f'.encode root' ∧ f.AllBelow Node.Short root ∧ f'.AllBelow Node.Short root'

variable {file file' source source' : Text} {f f' : Forest} {root root' : Int}

theorem SameShape.shape (h : SameShape f root f' root') (ht : f.tree root = .ok t)
    (ht' : f'.tree root' = .ok t') : t.shape = t'.shape := by
  rcases h with ⟨u, u', hu, hu', hshape⟩ | ⟨hencode, hshort, hshort'⟩
  · obtain rfl : t = u := Except.ok.inj (ht.symm.trans hu)
    obtain rfl : t' = u' := Except.ok.inj (ht'.symm.trans hu')
    exact hshape
  · have hd : Denotes f (.ref root) t := denotes_of_operandFrom (k := f.size + 1) ht
    have hd' : Denotes f' (.ref root') t' := denotes_of_operandFrom (k := f'.size + 1) ht'
    have hbytes : t.encode = t'.encode := by
      rw [encode, encode, ht, ht'] at hencode
      exact Except.ok.inj hencode
    refine (Tree.payload_inj (r := []) (s := []) (hd.legible hshort) (hd'.legible hshort') ?_ ?_).1
    · rw [hd.kindByte, hd'.kindByte]
    · simpa [Tree.encode] using hbytes

/-- Two sources that are read as trees of the same shape are read alike, but for the places. -/
theorem parse_unplaced (h : parse file source = .ok (f, root))
    (h' : parse file' source' = .ok (f', root')) (hsame : SameShape f root f' root') :
    f.unplaced = f'.unplaced ∧ root = root' := by
  obtain ⟨t, ht, hnodup⟩ := parse_tree h
  obtain ⟨t', ht', hnodup'⟩ := parse_tree h'
  have hshape : t.shape = t'.shape :=
    hsame.shape (ht.operandTree hnodup) (ht'.operandTree hnodup')
  have hstore : (f.unplaced, Operand.ref root) = (f'.unplaced, Operand.ref root') := by
    rw [← parse_stored h ht, ← parse_stored h' ht', ← t.store_shape, ← t'.store_shape, hshape]
  exact ⟨congrArg Prod.fst hstore, congrArg (·.2.target) hstore⟩

end Forest

namespace Pipeline

/-- Two outcomes of the passes that differ in places alone: both succeed, with the same formatted
tree, the same functions, constants, classes and annotations and the same number of nodes, or both
fail in the same pass for the same reason. -/
inductive EqualUpToPlaces (root root' : Int) : EStateM.Result PipelineError Context Unit →
    EStateM.Result PipelineError Context Unit → Prop where
  | success {c c' : Context} {text : Text} (tree : c.forest.format root = .ok text)
      (tree' : c'.forest.format root' = .ok text)
      (functions : c.hoisted.map c.forest.format = c'.hoisted.map c'.forest.format)
      (literals : c.literals = c'.literals) (classes : c.classes = c'.classes)
      (size : c.forest.size = c'.forest.size)
      (notes : ∀ id, (c.forest.get? id).map (·.notes) = (c'.forest.get? id).map (·.notes)) :
      EqualUpToPlaces root root' (.ok ⟨⟩ c) (.ok ⟨⟩ c')
  | unknownPass {c c' : Context} {name : Text} :
      EqualUpToPlaces root root' (.error (.unknownPass name) c) (.error (.unknownPass name) c')
  | refusal {c c' : Context} {pass : Pass} {d d' : Diagnostic} (tag : d.tag = d'.tag)
      (kind : d.complaint.kind = d'.complaint.kind) (text : d.text = d'.text) :
      EqualUpToPlaces root root' (.error (.inPass pass (.rejected d)) c)
        (.error (.inPass pass (.rejected d')) c')

/-- A run that does not end, since the superclasses of a class come back to one of them. -/
def Circles (r : EStateM.Result PipelineError Context Unit) : Prop :=
  ∃ pass c, r = .error (.inPass pass .circular) c ∧ ¬ c.classes.Rooted

variable {root : Int}

theorem equalUpToPlaces_of_unplaced (h : c.unplaced = c'.unplaced) (hready : Ready root c) :
    EqualUpToPlaces root root (.ok ⟨⟩ c) (.ok ⟨⟩ c') := by
  have hforest : c.forest.unplaced = c'.forest.unplaced := congrArg Context.forest h
  have hformat : c.forest.format = c'.forest.format := by
    funext x
    rw [← c.forest.format_unplaced, hforest, c'.forest.format_unplaced]
  have hhoisted : c.hoisted = c'.hoisted :=
    show c.unplaced.hoisted = c'.unplaced.hoisted from congrArg Context.hoisted h
  obtain ⟨grade, hgrade⟩ := hready.orderly
  obtain ⟨t, ht, -⟩ := (hgrade.unfolds hready.root).tree
  have htext : c.forest.format root = .ok t.format := by rw [Forest.format, ht]; rfl
  refine .success htext (hformat ▸ htext) (by rw [hformat, hhoisted]) ?_ ?_ ?_ fun x => ?_
  · exact show c.unplaced.literals = c'.unplaced.literals from congrArg Context.literals h
  · exact show c.unplaced.classes = c'.unplaced.classes from congrArg Context.classes h
  · rw [← c.forest.size_unplaced, hforest, c'.forest.size_unplaced]
  · have hget := congrArg (fun f => (Forest.get? f x).map (·.notes)) hforest
    simpa [Option.map_map, Function.comp_def] using hget

theorem refused_equalUpToPlaces (h : e.unplaced = e'.unplaced) (hclasses : c.classes = c'.classes)
    (he : e.Excused c) : EqualUpToPlaces root root (.error e c) (.error e' c') ∨
      (Circles (.error e c) ∧ Circles (.error e' c')) := by
  cases e with
  | unknownPass name =>
    cases e' with
    | unknownPass name' =>
      cases h
      exact .inl .unknownPass
    | inPass pass' e' => cases h
    | fault f' => cases h
  | inPass pass e =>
    cases e' with
    | unknownPass name' => cases h
    | fault f' => cases h
    | inPass pass' e' =>
      obtain ⟨rfl, hpass⟩ : pass = pass' ∧ e.unplaced = e'.unplaced := by
        injection h with hp he
        exact ⟨hp, he⟩
      cases e with
      | fault f => exact absurd trivial he.not_fault
      | circular =>
        have hcircle := (he.resolve_left id).2
        cases e' with
        | fault f' => cases hpass
        | rejected d' => cases hpass
        | circular => exact .inr ⟨⟨_, c, rfl, hcircle⟩, ⟨_, c', rfl, hclasses ▸ hcircle⟩⟩
      | rejected d =>
        cases e' with
        | fault f' => cases hpass
        | circular => cases hpass
        | rejected d' =>
          obtain ⟨-, htag, hcomplaint⟩ := Diagnostic.mk.inj (PassError.rejected.inj hpass)
          exact .inl (.refusal htag (by rw [hcomplaint])
            (by rw [Diagnostic.text, htag, hcomplaint]; rfl))
  | fault f => exact he.elim

/-- Two sources that are read as trees of the same shape have the same outcome, whatever the
options: nothing depends on where a node comes from. Or neither run ends, once superclasses come
back to one of them. -/
theorem run_alike {file file' source source' : Text} {f f' : Forest} {root root' : Int}
    (h : Forest.parse file source = .ok (f, root))
    (h' : Forest.parse file' source' = .ok (f', root'))
    (hsame : Forest.SameShape f root f' root') (options : Options) :
    EqualUpToPlaces root root' (run root (Context.ofForest f options))
        (run root' (Context.ofForest f' options)) ∨
      (Circles (run root (Context.ofForest f options)) ∧
        Circles (run root' (Context.ofForest f' options))) := by
  obtain ⟨hforest, rfl⟩ := Forest.parse_unplaced h h' hsame
  have hcontext : (Context.ofForest f options).unplaced = (Context.ofForest f' options).unplaced :=
    congrArg (Context.ofForest · options) hforest
  have hruns : outcomeUnplaced (run root (Context.ofForest f options)) =
      outcomeUnplaced (run root (Context.ofForest f' options)) := by
    rw [← run_unplaced, ← run_unplaced, hcontext]
  have hsafe := sturdy_ready.run (.ofForest f options)
    (planted_of_parse h (.ofForest f options)).ready
  cases hrun : run root (Context.ofForest f options) with
  | ok u c =>
    cases hrun' : run root (Context.ofForest f' options) with
    | error e' c' =>
      rw [hrun, hrun'] at hruns
      cases hruns
    | ok u' c' =>
      rw [hrun, hrun'] at hruns
      injection hruns with _ hc
      rw [hrun] at hsafe
      exact .inl (equalUpToPlaces_of_unplaced hc hsafe.state)
  | error e c =>
    cases hrun' : run root (Context.ofForest f' options) with
    | ok u' c' =>
      rw [hrun, hrun'] at hruns
      cases hruns
    | error e' c' =>
      rw [hrun, hrun'] at hruns
      injection hruns with he hc
      rw [hrun] at hsafe
      obtain - | ⟨-, hexcused⟩ := hsafe
      have hclasses : c.classes = c'.classes :=
        show c.unplaced.classes = c'.unplaced.classes from congrArg Context.classes hc
      exact refused_equalUpToPlaces he hclasses hexcused

/-- Whether two sources are read as trees of one shape and pass a test. -/
def readAlike (source source' : Text) (test : Forest → Int → Forest → Int → Bool) : Bool :=
  (Forest.parse "" source).toOption.any fun p =>
    (Forest.parse "lib/f" source').toOption.any fun p' =>
      ((p.1.tree p.2).toOption.any fun t => (p'.1.tree p'.2).toOption.any fun t' =>
        t.shape = t'.shape) && test p.1 p.2 p'.1 p'.2

theorem exists_of_readAlike (h : readAlike source source' test = true) : ∃ f root f' root',
    Forest.parse "" source = .ok (f, root) ∧ Forest.parse "lib/f" source' = .ok (f', root') ∧
      Forest.SameShape f root f' root' ∧ test f root f' root' = true := by
  unfold readAlike at h
  cases hparse : Forest.parse "" source with
  | error e => simp [hparse, Except.toOption] at h
  | ok read =>
    cases hparse' : Forest.parse "lib/f" source' with
    | error e => simp [hparse, hparse', Except.toOption] at h
    | ok read' =>
      obtain ⟨f, root⟩ := read
      obtain ⟨f', root'⟩ := read'
      simp only [hparse, hparse', Except.toOption, Option.any_some, Bool.and_eq_true] at h
      refine ⟨f, root, f', root', rfl, rfl, ?_, h.2⟩
      cases ht : f.tree root with
      | error e => simp [ht] at h
      | ok t =>
        cases ht' : f'.tree root' with
        | error e => simp [ht, ht'] at h
        | ok t' =>
          simp only [ht, ht', Option.any_some, decide_eq_true_eq] at h
          exact .inl ⟨t, t', ht, ht', h.1⟩

/-- Two forms in one line. -/
def inOneLine : Text :=
  "(do (defm f (a) ((proc (x) (return (add a x))))) (assign (destruct p q) \"s\"))"

/-- The same forms in several lines with remarks. -/
def laidOut : Text :=
  "; two forms\n(defm f (a)\n  ((proc (x), (return (add a x)))))\n\n" ++
    "(assign (destruct p q)\n  \"\\163\") ; done"

theorem run_alike_laidOut : ∃ f root f' root' c c', Forest.parse "" inOneLine = .ok (f, root) ∧
    Forest.parse "lib/f" laidOut = .ok (f', root') ∧
    (f.get? root).map (·.pos) ≠ (f'.get? root').map (·.pos) ∧ Forest.SameShape f root f' root' ∧
    run root (Context.ofForest f { wordSize := 8 }) = .ok ⟨⟩ c ∧
    run root' (Context.ofForest f' { wordSize := 8 }) = .ok ⟨⟩ c' ∧
    EqualUpToPlaces root root' (.ok ⟨⟩ c) (.ok ⟨⟩ c') := by
  have hread : readAlike inOneLine laidOut (fun f root f' root' =>
      decide ((f.get? root).map (·.pos) ≠ (f'.get? root').map (·.pos)) &&
        succeeds (run root (Context.ofForest f { wordSize := 8 }))) = true := by decide +kernel
  obtain ⟨f, root, f', root', hparse, hparse', hsame, htest⟩ := exists_of_readAlike hread
  obtain ⟨hplaces, hsucceeds⟩ := Bool.and_eq_true_iff.mp htest
  obtain ⟨u, c, hrun⟩ := exists_ok hsucceeds
  have halike := run_alike hparse hparse' hsame { wordSize := 8 }
  rw [hrun] at halike
  rcases halike with halike | ⟨⟨pass, d, hcircles, -⟩, -⟩
  · cases hrun' : run root' (Context.ofForest f' { wordSize := 8 }) with
    | error e' c' =>
      rw [hrun'] at halike
      cases halike
    | ok u' c' =>
      rw [hrun'] at halike
      exact ⟨f, root, f', root', c, c', hparse, hparse', of_decide_eq_true hplaces, hsame, hrun,
        hrun', halike⟩
  · cases hcircles

/-- A run that goes round in a circle. -/
def isCircular : EStateM.Result PipelineError Context Unit → Bool
  | .error (.inPass _ .circular) _ => true
  | _ => false

/-- A class whose superclasses come back to it. -/
def circling : Text := "(class C _ ((class B C) (class C B) (class D Unknown)))"

/-- The same class in two lines. -/
def circlingAnew : Text := "(class C _, ((class B C) ; a circle\n (class C B) (class D Unknown)))"

/-- Where superclasses come back to one of them, a run neither succeeds nor fails. -/
theorem run_not_alike_circling : ∃ f root f' root', Forest.parse "" circling = .ok (f, root) ∧
    Forest.parse "lib/f" circlingAnew = .ok (f', root') ∧ Forest.SameShape f root f' root' ∧
    ¬ EqualUpToPlaces root root' (run root (Context.ofForest f {}))
    (run root' (Context.ofForest f' {})) := by
  have hread : readAlike circling circlingAnew (fun f root _ _ =>
      isCircular (run root (Context.ofForest f {}))) = true := by decide +kernel
  obtain ⟨f, root, f', root', hparse, hparse', hsame, hcircular⟩ := exists_of_readAlike hread
  refine ⟨f, root, f', root', hparse, hparse', hsame, fun halike => ?_⟩
  generalize run root (Context.ofForest f {}) = one at halike hcircular
  generalize run root' (Context.ofForest f' {}) = two at halike
  cases halike <;> cases hcircular

end Pipeline

end Lowering
