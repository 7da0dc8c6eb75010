import Lowering.Proofs.Constants
import Lowering.Proofs.Expansions

namespace Lowering

open Forest PassM

namespace Literals

/-- The label of a constant. -/
def label (l : Literals) (k : Constant) : Text := (l.labelOf? k).getD Text.empty

/-- Takes up a constant: one that is new gets the next label. -/
def take (stem : Text) (s : Literals × Nat) (k : Constant) : Literals × Nat :=
  match s.1.labelOf? k with
  | some _ => s
  | none => (s.1.add (stem ++ Decimal.ofNat (s.2 + 1)) k, s.2 + 1)

/-- Takes constants up, one after the other. -/
def takeEach (stem : Text) (s : Literals × Nat) (ks : List Constant) : Literals × Nat :=
  ks.foldl (take stem) s

/-- A table has at least the entries of another one, and those first. -/
def Extends (l l' : Literals) : Prop := l.entries <+: l'.entries

variable {l l' l'' : Literals} {k : Constant} {name stem : Text}

theorem Extends.refl (l : Literals) : l.Extends l := List.prefix_refl _

theorem Extends.trans (h : l.Extends l') (h' : l'.Extends l'') : l.Extends l'' :=
  List.IsPrefix.trans h h'

theorem extends_add (l : Literals) (name : Text) (k : Constant) : l.Extends (l.add name k) :=
  List.prefix_append _ _

/-- A label that has been given stays. -/
theorem Extends.labelOf? (h : l.Extends l') (hk : l.labelOf? k = some name) :
    l'.labelOf? k = some name := by
  obtain ⟨more, h⟩ := h
  unfold Literals.labelOf? at hk ⊢
  obtain ⟨e, he, rfl⟩ := Option.map_eq_some_iff.mp hk
  rw [← h, List.find?_append, he]
  rfl

theorem labelOf?_add (h : l.labelOf? k = none) : (l.add name k).labelOf? k = some name := by
  unfold Literals.labelOf? Literals.add at *
  rw [List.find?_append, Option.map_eq_none_iff.mp h]
  simp

theorem extends_take (s : Literals × Nat) (k : Constant) : s.1.Extends (take stem s k).1 := by
  unfold take
  split
  · exact .refl _
  · exact extends_add _ _ _

theorem labelOf?_take (s : Literals × Nat) (k : Constant) :
    ∃ name, (take stem s k).1.labelOf? k = some name := by
  unfold take
  split
  · exact ⟨_, ‹_›⟩
  · exact ⟨_, labelOf?_add ‹_›⟩

theorem extends_takeEach (s : Literals × Nat) (ks : List Constant) :
    s.1.Extends (takeEach stem s ks).1 := by
  induction ks generalizing s with
  | nil => exact .refl _
  | cons k ks ih => exact (extends_take s k).trans (ih _)

theorem Extends.label (h : l.Extends l') (hk : l.labelOf? k = some name) : l'.label k = name := by
  rw [Literals.label, h.labelOf? hk]
  rfl

end Literals

/-- The function that fetches a constant. -/
def Constant.fetcher : Constant → Text
  | str _ => "__get_string"
  | int _ => "__get_fixnum"

namespace Tree

/-- The constant that a tree is. -/
def constant? {α : Type} (pick : Atom → Option Constant) : Tree α → Option Constant
  | leaf a => pick a
  | node _ _ _ => none

/-- `(sexp (call __get_string L))` -/
def fetchCall (k : Constant) (label : Text) : Tree Unit :=
  .node () .sexp [.node () .call [.leaf (.sym k.fetcher), .leaf (.sym label)]]

/-- What stands for a constant that is operand `i` of a node: in a list, if it is an argument of a
call. -/
def fetched (tag : Tag) (i : Nat) (k : Constant) (label : Text) : Tree Unit :=
  if (tag = .call ∨ tag = .callm) ∧ 0 < i then .node () .list [fetchCall k label]
  else fetchCall k label

mutual
/-- The tree in which the constants outside lowered code are fetched by their labels. -/
def fetching (pick : Atom → Option Constant) (label : Constant → Text) : Tree Unit → Tree Unit
  | leaf a => leaf a
  | node _ tag args =>
    if tag = .sexp then node () tag args else node () tag (fetchingEach pick label tag 0 args)

def fetchingEach (pick : Atom → Option Constant) (label : Constant → Text) (tag : Tag) :
    Nat → List (Tree Unit) → List (Tree Unit)
  | _, [] => []
  | i, t :: ts =>
    (match t.constant? pick with
      | some k => fetched tag i k (label k)
      | none => fetching pick label t) :: fetchingEach pick label tag (i + 1) ts
end

mutual
/-- The constants outside lowered code: those of a node before those of the nodes below it. -/
def constants {α : Type} (pick : Atom → Option Constant) : Tree α → List Constant
  | leaf _ => []
  | node _ tag args =>
    if tag = .sexp then [] else args.filterMap (constant? pick) ++ constantsEach pick args

def constantsEach {α : Type} (pick : Atom → Option Constant) : List (Tree α) → List Constant
  | [] => []
  | t :: ts => constants pick t ++ constantsEach pick ts
end

/-- The number and position of the node that a path leads to. -/
def markAt : Tree Mark → List Nat → Option Mark
  | leaf _, _ => none
  | node mark _ _, [] => some mark
  | node _ _ args, i :: p => (args[i]?).bind (markAt · p)

variable {pick : Atom → Option Constant} {label : Constant → Text}

theorem shape_leaf (a : Atom) : (leaf a : Tree α).shape = leaf a := by rw [shape]

@[simp] theorem fetching_leaf (a : Atom) : fetching pick label (.leaf a) = .leaf a := by
  rw [fetching]

@[simp] theorem constants_leaf (a : Atom) :
    constants pick (.leaf a : Tree α) = [] := by rw [constants]

theorem fetching_sexp (args : List (Tree Unit)) :
    fetching pick label (.node () .sexp args) = .node () .sexp args := by
  rw [fetching, if_pos rfl]

theorem fetching_node (ht : tag ≠ .sexp) (args : List (Tree Unit)) :
    fetching pick label (.node () tag args) =
      .node () tag (fetchingEach pick label tag 0 args) := by
  rw [fetching, if_neg ht]

theorem constants_node (ht : tag ≠ .sexp) (mark : α) (args : List (Tree α)) :
    constants pick (.node mark tag args) =
      args.filterMap (constant? pick) ++ constantsEach pick args := by
  rw [constants, if_neg ht]

@[simp] theorem constants_sexp (mark : α) (args : List (Tree α)) :
    constants pick (.node mark .sexp args) = [] := by
  rw [constants, if_pos rfl]

/-- A tree that the pass has put in the place of a constant. -/
inductive Inserted (tag : Tag) (i : Nat) (k : Constant) (name : Text) : Tree Mark → Prop where
  | bare (sexp call : Mark) (h : ¬ ((tag = .call ∨ tag = .callm) ∧ 0 < i)) :
      Inserted tag i k name
        (.node sexp .sexp [.node call .call [.leaf (.sym k.fetcher), .leaf (.sym name)]])
  | listed (list sexp call : Mark) (h : (tag = .call ∨ tag = .callm) ∧ 0 < i) :
      Inserted tag i k name (.node list .list
        [.node sexp .sexp [.node call .call [.leaf (.sym k.fetcher), .leaf (.sym name)]]])

section

variable {tag : Tag} {i : Nat} {k : Constant} {name : Text} {u : Tree Mark}

theorem Inserted.shape (h : Inserted tag i k name u) : u.shape = fetched tag i k name := by
  cases h with
  | bare sexp call h => simp [fetched, h, fetchCall, shape_node, shape_leaf]
  | listed list sexp call h => simp [fetched, h, fetchCall, shape_node, shape_leaf]

theorem Inserted.constants (h : Inserted tag i k name u) : u.constants pick = [] := by
  cases h with
  | bare sexp call h => simp
  | listed list sexp call h => simp [constants_node, constant?, constantsEach]

/-- What fetches a constant holds none. -/
theorem fetching_fetched : fetching pick label (fetched tag i k name) = fetched tag i k name := by
  unfold fetched fetchCall
  split
  · rw [fetching_node (by simp), fetchingEach, fetchingEach]
    simp [constant?, fetching_sexp]
  · rw [fetching_sexp]

end

end Tree

/-- Constants have been taken up, and apart from that only the forest may have changed. -/
structure Context.Takes (c : Context) (ks : List Constant) (c' : Context) : Prop where
  table : (c'.literals, c'.labels) =
    Literals.takeEach c.options.labelStem (c.literals, c.labels) ks
  options : c'.options = c.options
  hoisted : c'.hoisted = c.hoisted
  classes : c'.classes = c.classes

namespace Context.Takes

variable {c c1 c' : Context} {ks ks' : List Constant} {k : Constant}

theorem refl (c : Context) : c.Takes [] c := ⟨rfl, rfl, rfl, rfl⟩

theorem trans (h : c.Takes ks c1) (h' : c1.Takes ks' c') : c.Takes (ks ++ ks') c' where
  table := by rw [h'.table, h.options, h.table, Literals.takeEach, Literals.takeEach,
    Literals.takeEach, List.foldl_append]
  options := h'.options.trans h.options
  hoisted := h'.hoisted.trans h.hoisted
  classes := h'.classes.trans h.classes

theorem aside (h : c.Takes ks c1) (hf : ∃ f shared, c' = { c1 with forest := f, shared }) :
    c.Takes ks c' := by
  obtain ⟨f, shared, rfl⟩ := hf
  exact ⟨h.table, h.options, h.hoisted, h.classes⟩

theorem literals (h : c.Takes ks c') : c.literals.Extends c'.literals := by
  have hl : c'.literals = (Literals.takeEach c.options.labelStem (c.literals, c.labels) ks).1 :=
    congrArg Prod.fst h.table
  rw [hl]
  exact Literals.extends_takeEach (c.literals, c.labels) ks

/-- A constant that has been looked up has its label. -/
theorem of_intern (h : PassM.intern k c = .ok name c') :
    c.Takes [k] c' ∧ c'.literals.labelOf? k = some name := by
  unfold PassM.intern at h
  have h := get_bind_ok.mp h
  cases hk : c.literals.labelOf? k with
  | some old =>
    rw [hk] at h
    obtain ⟨rfl, rfl⟩ := pure_ok.mp h
    exact ⟨⟨by simp [Literals.takeEach, Literals.take, hk], rfl, rfl, rfl⟩, hk⟩
  | none =>
    simp only [hk, newLabel, bind_ok, get_ok, set_ok, modify_ok, pure_ok] at h
    obtain ⟨_, _, ⟨_, _, ⟨rfl, rfl⟩, _, _, rfl, rfl, rfl⟩, _, _, rfl, rfl, rfl⟩ := h
    exact ⟨⟨by simp [Literals.takeEach, Literals.take, hk], rfl, rfl, rfl⟩,
      Literals.labelOf?_add hk⟩

end Context.Takes

theorem Makes.overLeaf (h : Makes c [] c' vs ts) : Makes c [.leaf a] c' vs ts :=
  ⟨h.grows, h.shared, h.denotes, by simpa using h.ids⟩

namespace Pass.Hoist

/-- The constant of a family that an atom is. -/
def Family.atom? : Family → Atom → Option Constant
  | .strings, .str text => some (.str text)
  | .ints, .int value => some (.int value)
  | _, _ => none

variable {family : Family} {c c1 c' : Context} {v w : Operand} {vs ws : List Operand}
variable {t : Tree Mark} {ts us : List (Tree Mark)} {n : Node} {i j : Nat} {k : Constant}

theorem Family.constant?_eq (h : Denotes f v t) :
    family.constant? v = t.constant? family.atom? := by
  cases t with
  | leaf a =>
    have hv : v.view = .atom a := h
    unfold Family.constant? Family.atom? Tree.constant?
    rw [hv]
    cases family <;> cases a <;> rfl
  | node mark tag args =>
    have hv : v.view = .child mark.id := (Forest.denotes_node.mp h).1
    unfold Family.constant? Tree.constant?
    rw [hv]
    cases family <;> rfl

theorem Family.fetcher_eq (h : family.atom? a = some k) : family.fetcher = k.fetcher := by
  cases family <;> cases a <;> simp_all [Family.atom?] <;> subst h <;> rfl

/-- Operands with trees put in the places of their constants. -/
inductive Replaced (family : Family) (tag : Tag) (l : Literals) :
    Nat → List (Tree Mark) → List (Tree Mark) → Prop where
  | nil (i : Nat) : Replaced family tag l i [] []
  | keep {i : Nat} {t : Tree Mark} {ts us : List (Tree Mark)}
      (h : t.constant? family.atom? = none) (rest : Replaced family tag l (i + 1) ts us) :
      Replaced family tag l i (t :: ts) (t :: us)
  | fetch {i : Nat} {k : Constant} {name : Text} {t u : Tree Mark} {ts us : List (Tree Mark)}
      (h : t.constant? family.atom? = some k) (label : l.labelOf? k = some name)
      (inserted : Tree.Inserted tag i k name u) (rest : Replaced family tag l (i + 1) ts us) :
      Replaced family tag l i (t :: ts) (u :: us)

namespace Replaced

variable {tag : Tag} {l l' : Literals}

theorem extend (h : Replaced family tag l i ts us) (hl : l.Extends l') :
    Replaced family tag l' i ts us := by
  induction h with
  | nil i => exact .nil i
  | keep h _ ih => exact .keep h ih
  | fetch h label inserted _ ih => exact .fetch h (hl.labelOf? label) inserted ih

/-- What has been put in has no constants of its own. -/
theorem constants (h : Replaced family tag l i ts us) :
    Tree.constantsEach family.atom? us = Tree.constantsEach family.atom? ts := by
  induction h with
  | nil i => rfl
  | keep h _ ih => rw [Tree.constantsEach, Tree.constantsEach, ih]
  | @fetch i k name t u ts us h label inserted _ ih =>
    cases t with
    | node mark tag args => cases h
    | leaf a => rw [Tree.constantsEach, Tree.constantsEach, ih, inserted.constants,
        Tree.constants_leaf]

end Replaced

theorem fetched_makes {name : Text} (h : sexpCall n.pos family.fetcher [.sym name] c = .ok w c1)
    (hk : family.atom? a = some k) : ∃ sexp call, Makes c [.leaf a] c1 [w]
      [.node sexp .sexp [.node call .call [.leaf (.sym k.fetcher), .leaf (.sym name)]]] := by
  obtain ⟨call, c2, hnode, h⟩ := bind_ok.mp h
  rw [Family.fetcher_eq hk] at hnode
  have hargs : Makes c [] c [.sym k.fetcher, .sym name]
      [.leaf (.sym k.fetcher), .leaf (.sym name)] :=
    (Makes.sym c k.fetcher).append (Makes.sym c name)
  exact ⟨_, _, ((hargs.node hnode).node h).overLeaf⟩

/-- An operand becomes what fetches its constant, or stays. -/
theorem operand_makes (ht : Denotes c.forest v t) (h : operand family n v i c = .ok w c') :
    ∃ u, Makes c [t] c' [w] [u] ∧ c.Takes ([t].filterMap (Tree.constant? family.atom?)) c' ∧
      Replaced family n.tag c'.literals i [t] [u] := by
  unfold operand at h
  rw [Family.constant?_eq ht] at h
  cases hk : t.constant? family.atom? with
  | none =>
    rw [hk] at h
    obtain ⟨rfl, rfl⟩ := pure_ok.mp h
    exact ⟨t, .keep (.cons ht .nil), by simpa [hk] using Context.Takes.refl c, .keep hk (.nil _)⟩
  | some k =>
    obtain ⟨a, rfl⟩ : ∃ a, t = .leaf a := by
      cases t with
      | leaf a => exact ⟨a, rfl⟩
      | node mark tag args => cases hk
    rw [hk] at h
    obtain ⟨name, c1, hintern, h⟩ := bind_ok.mp h
    obtain ⟨fetched, c2, hcall, h⟩ := bind_ok.mp h
    obtain ⟨htakes, hname⟩ := Context.Takes.of_intern hintern
    obtain ⟨hf, hs⟩ := intern_ok hintern
    obtain ⟨sexp, call, hmade⟩ := fetched_makes hcall hk
    have hmade : Makes c [.leaf a] c2 [fetched]
        [.node sexp .sexp [.node call .call [.leaf (.sym k.fetcher), .leaf (.sym name)]]] :=
      ((Makes.keep .nil).congr hf hs).append hmade
    have htakes : c.Takes [k] c2 := htakes.aside ⟨_, _, (sexpCall_ok.mp hcall).2⟩
    have hname : c2.literals.labelOf? k = some name := by rwa [(sexpCall_ok.mp hcall).2]
    have hkeys : [(.leaf a : Tree Mark)].filterMap (Tree.constant? family.atom?) = [k] := by
      simp [hk]
    rw [hkeys]
    split at h
    · next harg =>
      have hlist := list_ok.mp h
      refine ⟨_, hmade.list h, htakes.aside ⟨_, _, hlist.2⟩, .fetch hk ?_ (.listed _ _ _ harg)
        (.nil _)⟩
      rwa [hlist.2]
    · next harg =>
      obtain ⟨rfl, rfl⟩ := pure_ok.mp h
      exact ⟨_, hmade, htakes, .fetch hk hname (.bare _ _ harg) (.nil _)⟩

theorem Replaced.cons (h : Replaced family tag l i [t] [u])
    (hrest : Replaced family tag l (i + 1) ts us) :
    Replaced family tag l i (t :: ts) (u :: us) := by
  cases h with
  | keep h _ => exact .keep h hrest
  | fetch h label inserted _ => exact .fetch h label inserted hrest

/-- Operands become what fetches their constants, one after the other. -/
theorem operands_makes (ht : List.Forall₂ (Denotes c.forest) vs ts)
    (h : (vs.zipIdx i).mapM (fun p => operand family n p.1 p.2) c = .ok ws c') :
    ∃ us, Makes c ts c' ws us ∧ c.Takes (ts.filterMap (Tree.constant? family.atom?)) c' ∧
      Replaced family n.tag c'.literals i ts us := by
  induction vs generalizing c ts i ws with
  | nil =>
    cases ht
    obtain ⟨rfl, rfl⟩ := pure_ok.mp h
    exact ⟨[], .keep .nil, .refl c, .nil i⟩
  | cons v vs ih =>
    obtain ⟨t, ts, hv, hvs, rfl⟩ := List.forall₂_cons_left_iff.mp ht
    rw [List.zipIdx_cons] at h
    obtain ⟨w, c1, ws, hw, hws, rfl⟩ := mapM_cons_ok.mp h
    obtain ⟨u, hmade, htakes, hhead⟩ := operand_makes hv hw
    obtain ⟨us, hmade', htakes', hrest⟩ := ih (Denotes.growEach hvs hmade.grows) hws
    refine ⟨u :: us, hmade.append hmade', ?_, (hhead.extend htakes'.literals).cons hrest⟩
    have hkeys : (t :: ts).filterMap (Tree.constant? family.atom?) =
        [t].filterMap (Tree.constant? family.atom?) ++
          ts.filterMap (Tree.constant? family.atom?) :=
      List.filterMap_append (l := [t])
    rw [hkeys]
    exact htakes.trans htakes'

/-- The tree that a walk has left fetches the constants of the one that was there. -/
structure Fetches (family : Family) (c : Context) (t : Tree Mark) (c' : Context)
    (t' : Tree Mark) : Prop where
  takes : c.Takes (t.constants family.atom?) c'
  shape : ∀ l, c'.literals.Extends l → t'.shape = t.shape.fetching family.atom? l.label
  marks : ∀ p mark, t.markAt p = some mark → t'.markAt p = some mark

theorem fetches_threads (h : Threads (Fetches family) c us c' ts) :
    c.Takes (Tree.constantsEach family.atom? us) c' := by
  induction h with
  | nil c => exact .refl c
  | cons head _ ih => exact head.takes.trans ih

theorem constant?_shape : t.shape.constant? family.atom? = t.constant? family.atom? := by
  cases t with
  | leaf a => rw [Tree.shape_leaf]; rfl
  | node mark tag args => rw [Tree.shape_node]; rfl

theorem Replaced.shapes (h : Replaced family tag l i ts us)
    (hthreads : Threads (Fetches family) c us c' us') (hl : l.Extends c.literals)
    (hl' : c'.literals.Extends l') : us'.map Tree.shape =
      Tree.fetchingEach family.atom? l'.label tag i (ts.map Tree.shape) := by
  induction h generalizing c us' with
  | nil i =>
    cases hthreads
    rw [List.map_nil, Tree.fetchingEach]
  | @keep i t ts us hk _ ih =>
    obtain - | ⟨head, tail⟩ := hthreads
    have hend := (fetches_threads tail).literals
    have hhead := head.shape l' (hend.trans hl')
    rw [List.map_cons, List.map_cons, Tree.fetchingEach, constant?_shape, hk, ← hhead,
      ih tail (hl.trans head.takes.literals)]
  | @fetch i k name t u ts us hk label inserted _ ih =>
    obtain - | ⟨head, tail⟩ := hthreads
    have hend := (fetches_threads tail).literals
    have hhead := head.shape l' (hend.trans hl')
    have hname : l'.label k = name :=
      (((hl.trans head.takes.literals).trans hend).trans hl').label label
    rw [List.map_cons, List.map_cons, Tree.fetchingEach, constant?_shape, hk, hhead,
      inserted.shape, Tree.fetching_fetched, ih tail (hl.trans head.takes.literals), ← hname]

/-- What is no constant stays where it is. -/
theorem Replaced.marks (h : Replaced family tag l i ts us)
    (hthreads : Threads (Fetches family) c us c' us')
    (hm : (ts[j]?).bind (Tree.markAt · p) = some mark) :
    (us'[j]?).bind (Tree.markAt · p) = some mark := by
  induction h generalizing c us' j with
  | nil i => simp at hm
  | keep _ _ ih =>
    obtain - | ⟨head, tail⟩ := hthreads
    cases j with
    | zero => exact head.marks p mark hm
    | succ j =>
      have hrest := ih tail (j := j) hm
      exact hrest
  | @fetch i k name t u ts us hk _ _ _ ih =>
    obtain - | ⟨-, tail⟩ := hthreads
    cases j with
    | succ j =>
      have hrest := ih tail (j := j) hm
      exact hrest
    | zero =>
      cases t with
      | leaf a => simp [Tree.markAt] at hm
      | node mark tag args => cases hk

theorem quiet_operand (v : Operand) (i : Nat) : Quiet (operand family n v i) := by
  unfold operand
  split
  · exact quiet_pure _
  · refine (quiet_intern _).bind fun _ => (quiet_sexpCall _ _ _).bind fun _ => ?_
    split
    · exact quiet_list _ _
    · exact quiet_pure _

/-- The visits take the constants out of a tree. -/
theorem rewrites (family : Family) :
    Rewrites (visit family) (Fetches family) (fun _ => False) where
  leaf c a := by
    refine ⟨?_, fun l _ => ?_, fun _ _ h => h⟩
    · rw [Tree.constants_leaf]
      exact .refl c
    · rw [Tree.shape_leaf, Tree.fetching_leaf]
  ok {U c v mark tag args n act c1} hh hn h := by
    obtain ⟨-, hU, -, m, hm, rfl, hpos, hargs⟩ := hh.node
    obtain rfl : n = m := Option.mem_unique hn hm
    by_cases ht : n.tag = .sexp
    · rw [visit, ht] at h
      obtain ⟨rfl, rfl⟩ := pure_ok.mp h
      refine ⟨n.tag, args, .refl hh, .inl ⟨rfl, ?_, fun l _ => ?_, fun _ _ h => h⟩⟩
      · rw [ht, Tree.constants_sexp]
        exact .refl c
      · rw [ht, Tree.shape_node, Tree.fetching_sexp]
    · rw [visit_open ht] at h
      obtain ⟨ws, c2, hmap, h⟩ := bind_ok.mp h
      obtain ⟨_, hset, rfl⟩ := bind_pure_ok.mp h
      obtain ⟨us, hmade, htakes, hreplaced⟩ := operands_makes hargs.denotes hmap
      have hr := setArgs_reworks hh (hmade.reworks hargs (.refl _)) hset
      obtain ⟨f, haside⟩ := setArgs_aside hset
      have htakes : c.Takes (args.filterMap (Tree.constant? family.atom?)) c1 :=
        htakes.aside ⟨f, c2.shared, haside⟩
      have hreplaced : Replaced family n.tag c1.literals 0 args us := by rwa [haside]
      refine ⟨n.tag, us, hr, .inr ⟨rfl, fun _ _ h => h.elim, fun c' args' hthreads => ?_⟩⟩
      refine ⟨?_, fun l hl => ?_, fun p at_ hat => ?_⟩
      · rw [Tree.constants_node ht, ← hreplaced.constants]
        exact htakes.trans (fetches_threads hthreads)
      · rw [Tree.shape_node, Tree.shape_node, Tree.fetching_node ht,
          hreplaced.shapes hthreads (.refl _) hl]
      · cases p with
        | nil => exact hat
        | cons j p => exact hreplaced.marks hthreads hat
  refused {U c v mark tag args n e c1} hh hn h he := by
    have hquiet : Quiet (visit family mark.id n) := by
      unfold visit
      split
      · exact quiet_pure _
      · exact (Quiet.mapM (fun p : Operand × Nat => quiet_operand p.1 p.2) _).bind fun _ =>
          (quiet_setArgs _ _).bind fun _ => quiet_pure _
    exact absurd (hquiet c e c1 h) he

end Pass.Hoist

end Lowering
