import Lowering.Proofs.Grading
import Lowering.Proofs.Trees

namespace Lowering

open Forest

/-- The numbers in some trees. -/
def Tree.idsOf (ts : List (Tree Mark)) : List Int := ts.flatMap Tree.ids

@[simp] theorem Tree.idsOf_nil : Tree.idsOf [] = [] := rfl

@[simp] theorem Tree.idsOf_cons (t : Tree Mark) (ts : List (Tree Mark)) :
    Tree.idsOf (t :: ts) = t.ids ++ Tree.idsOf ts := List.flatMap_cons

@[simp] theorem Tree.idsOf_append (ts us : List (Tree Mark)) :
    Tree.idsOf (ts ++ us) = Tree.idsOf ts ++ Tree.idsOf us := List.flatMap_append

@[simp] theorem Tree.ids_leaf (a : Atom) : (Tree.leaf a).ids = [] := by rw [Tree.ids]

theorem Tree.ids_node' (mark : Mark) (tag : Tag) (args : List (Tree Mark)) :
    (Tree.node mark tag args).ids = mark.id :: Tree.idsOf args := Tree.ids_node mark tag args

theorem Tree.mem_idsOf : x ∈ Tree.idsOf ts ↔ ∃ t ∈ ts, x ∈ t.ids := List.mem_flatMap

/-- Some nodes are in use: they are there, and no two of them have one operand list. -/
structure Context.Uses (c : Context) (U : Int → Prop) : Prop where
  has : ∀ x, U x → c.forest.Has x
  groups : ∀ g ∈ c.shared, ∀ x ∈ g, c.forest.Has x
  apart : ∀ g ∈ c.shared, ∀ x ∈ g, ∀ y ∈ g, U x → U y → x = y

theorem Context.Uses.mono {c : Context} (h : c.Uses U) (hv : ∀ x, V x → U x) : c.Uses V where
  has x hx := h.has x (hv x hx)
  groups := h.groups
  apart g hg x hx y hy hVx hVy := h.apart g hg x hx y hy (hv x hVx) (hv y hVy)

/-- Of the nodes that have an operand list in common one at most is in use. -/
theorem Context.Uses.sharer {c : Context} {U : Int → Prop} {id : Int} (h : c.Uses U) (hid : U id) :
    ∀ x ∈ c.sharers id, U x → x = id := by
  intro x hmem hx
  unfold Context.sharers at hmem
  cases hg : c.shared.find? (·.contains id) with
  | none =>
    rw [hg] at hmem
    simpa using hmem
  | some g =>
    rw [hg, Option.getD_some] at hmem
    have hin : id ∈ g := by simpa using List.find?_some hg
    exact h.apart g (List.mem_of_find?_eq_some hg) x hmem id hin hx hid

/-- Operands stand for trees all of whose nodes are in use, none of them twice. -/
structure Bears (U : Int → Prop) (c : Context) (vs : List Operand) (ts : List (Tree Mark)) :
    Prop where
  uses : c.Uses U
  denotes : List.Forall₂ (Denotes c.forest) vs ts
  nodup : (Tree.idsOf ts).Nodup
  used : ∀ x ∈ Tree.idsOf ts, U x

/-- What is in use once some trees have taken the place of others. -/
def InUse (U : Int → Prop) (ts ts' : List (Tree Mark)) (x : Int) : Prop :=
  (U x ∧ x ∉ Tree.idsOf ts) ∨ x ∈ Tree.idsOf ts'

/-- Some trees have taken the place of others. They consist of nodes of those and of new ones, and
what else was in use is as it was. -/
structure Reworks (U : Int → Prop) (c : Context) (ts : List (Tree Mark)) (c' : Context)
    (vs' : List Operand) (ts' : List (Tree Mark)) : Prop where
  bears : Bears (InUse U ts ts') c' vs' ts'
  own : ∀ x ∈ Tree.idsOf ts', x ∈ Tree.idsOf ts ∨ (c.forest.size : Int) < x
  same : ∀ x n, c.forest.get? x = some n → U x → x ∉ Tree.idsOf ts → c'.forest.get? x = some n
  size : c.forest.size ≤ c'.forest.size

variable {U V : Int → Prop} {c c1 c2 : Context} {v : Operand} {vs ws vs' ws' : List Operand}
variable {t : Tree Mark} {ts us ts' us' ts1 ts2 : List (Tree Mark)} {mark : Mark} {tag : Tag}
variable {n : Node}

theorem Bears.has (h : Bears U c vs ts) (hx : x ∈ Tree.idsOf ts) : c.forest.Has x :=
  h.uses.has x (h.used x hx)

/-- Where operand lists are not shared, a tree with no node twice can be held. -/
theorem bears_of_denotes (hs : c.shared = []) (ht : Denotes c.forest v t) (hd : t.ids.Nodup) :
    Bears (· ∈ t.ids) c [v] [t] where
  uses := {
    has := fun x hx => has_iff.mpr (ht.ids_bounds x hx)
    groups := by simp [hs]
    apart := by simp [hs] }
  denotes := .cons ht .nil
  nodup := by simpa using hd
  used x hx := by simpa using hx

theorem Bears.of_append_right (h : Bears U c (vs ++ ws) (ts ++ us))
    (hl : vs.length = ts.length) : Bears U c ws us where
  uses := h.uses
  denotes := by
    have hd := List.forall₂_drop vs.length h.denotes
    rwa [List.drop_left, hl, List.drop_left] at hd
  nodup := by
    have hn := h.nodup
    rw [Tree.idsOf_append] at hn
    exact hn.of_append_right
  used x hx := h.used x (by simp [hx])

theorem Bears.head (h : Bears U c (v :: vs) (t :: ts)) : Bears U c [v] [t] where
  uses := h.uses
  denotes := .cons (List.forall₂_cons.mp h.denotes).1 .nil
  nodup := by
    have hnodup := h.nodup
    rw [Tree.idsOf_cons] at hnodup
    simpa using hnodup.of_append_left
  used x hx := h.used x (by simp_all)

theorem Bears.node (h : Bears U c [v] [.node mark tag ts]) :
    v.view = .child mark.id ∧ U mark.id ∧ mark.id ∉ Tree.idsOf ts ∧
      ∃ n, c.forest.get? mark.id = some n ∧ n.tag = tag ∧ n.pos = mark.pos ∧
        Bears U c n.args ts := by
  have hnodup := h.nodup
  have hused := h.used
  simp only [Tree.idsOf_cons, Tree.idsOf_nil, List.append_nil, Tree.ids_node',
    List.nodup_cons, List.forall_mem_cons] at hnodup hused
  obtain ⟨hv, n, hn, ht, hp, hargs⟩ := denotes_node.mp (List.forall₂_cons.mp h.denotes).1
  exact ⟨hv, hused.1, hnodup.1, n, hn, ht, hp, h.uses, hargs, hnodup.2, hused.2⟩

theorem Bears.stored (h : Bears U c [v] [.node mark tag ts]) {n : Node}
    (hn : c.forest.get? mark.id = some n) :
    n.tag = tag ∧ n.pos = mark.pos ∧ Bears U c n.args ts := by
  obtain ⟨-, -, -, m, hm, hm'⟩ := h.node
  exact Option.mem_unique hn hm ▸ hm'

namespace Reworks

/-- What is not in use need not be kept. -/
theorem mono (h : Reworks U c ts c1 vs' ts') (hV : ∀ x, V x → U x) :
    Reworks V c ts c1 vs' ts' where
  bears := {
    uses := h.bears.uses.mono fun x hx => hx.imp_left fun hx => ⟨hV x hx.1, hx.2⟩
    denotes := h.bears.denotes
    nodup := h.bears.nodup
    used := fun _ hx => .inr hx }
  own := h.own
  same x n hn hx := h.same x n hn (hV x hx)
  size := h.size

theorem refl (h : Bears U c vs ts) : Reworks U c ts c vs ts where
  bears := {
    uses := h.uses.mono fun x hx => hx.elim And.left (h.used x)
    denotes := h.denotes
    nodup := h.nodup
    used := fun _ hx => .inr hx }
  own _ hx := .inl hx
  same _ _ hn _ _ := hn
  size := Nat.le_refl _

/-- A tree of nodes that are in use and belong to none of the old trees is still there. -/
theorem keeps (h : Reworks U c ts c1 vs' ts') (ht : Denotes c.forest v t)
    (hU : ∀ x ∈ t.ids, U x ∧ x ∉ Tree.idsOf ts) : Denotes c1.forest v t := by
  refine ht.frame fun x hx => ?_
  obtain ⟨hl, hu⟩ := ht.ids_bounds x hx
  obtain ⟨n, hn⟩ := get?_of_bounds hl hu
  rw [hn, h.same x n hn (hU x hx).1 (hU x hx).2]

theorem keepsEach (h : Reworks U c ts c1 vs' ts') (hus : List.Forall₂ (Denotes c.forest) ws us)
    (hU : ∀ x ∈ Tree.idsOf us, U x ∧ x ∉ Tree.idsOf ts) :
    List.Forall₂ (Denotes c1.forest) ws us := by
  refine List.forall₂_iff_get.mpr ⟨hus.length_eq, fun i hi hi' => ?_⟩
  refine h.keeps (hus.get hi hi') fun x hx => hU x ?_
  exact Tree.mem_idsOf.mpr ⟨_, List.get_mem us ⟨i, hi'⟩, hx⟩

theorem has (h : Reworks U c ts c1 vs' ts') (hx : c.forest.Has x) : c1.forest.Has x := by
  have hbounds := has_iff.mp hx
  have hsize := h.size
  exact has_iff.mpr (by omega)

theorem not_mem_of_new (h : Reworks U c ts c1 vs' ts') (hx : c.forest.Has x)
    (hts : x ∉ Tree.idsOf ts) : x ∉ Tree.idsOf ts' := by
  intro hx'
  have hbounds := has_iff.mp hx
  rcases h.own x hx' with hx' | hx'
  · exact hts hx'
  · omega

/-- Trees that take the place of others can be put aside for others in turn. -/
theorem trans (hU : c.Uses U) (h : Reworks U c ts c1 vs' ts')
    (h' : Reworks (InUse U ts ts') c1 ts' c2 ws' us') : Reworks U c ts c2 ws' us' where
  bears := {
    uses := h'.bears.uses.mono fun x hx => hx.imp
      (fun hx => ⟨.inl hx, h.not_mem_of_new (hU.has x hx.1) hx.2⟩) id
    denotes := h'.bears.denotes
    nodup := h'.bears.nodup
    used := fun _ hx => .inr hx }
  own x hx := by
    have hsize := h.size
    rcases h'.own x hx with hx | hx
    · exact h.own x hx
    · exact .inr (by omega)
  same x n hn hx hts :=
    h'.same x n (h.same x n hn hx hts) (.inl ⟨hx, hts⟩) (h.not_mem_of_new (hU.has x hx) hts)
  size := Nat.le_trans h.size h'.size

/-- What is held beside the trees that are put aside is still held. -/
theorem rest (hh : Bears U c (vs ++ ws) (ts ++ us)) (hl : vs.length = ts.length)
    (h : Reworks U c ts c1 vs' ts') : Bears (InUse U ts ts') c1 ws us := by
  have hws := hh.of_append_right hl
  have hnodup := hh.nodup
  rw [Tree.idsOf_append] at hnodup
  have hmem : ∀ x ∈ Tree.idsOf us, U x ∧ x ∉ Tree.idsOf ts := fun x hx =>
    ⟨hws.used x hx, fun hx' => hnodup.disjoint hx' hx⟩
  exact {
    uses := h.bears.uses
    denotes := h.keepsEach hws.denotes hmem
    nodup := hws.nodup
    used := fun x hx => .inl (hmem x hx) }

/-- Trees can be put aside one after the other. -/
theorem append (hh : Bears U c (vs ++ ws) (ts ++ us)) (hl : vs.length = ts.length)
    (h : Reworks U c ts c1 vs' ts') (h' : Reworks (InUse U ts ts') c1 us c2 ws' us') :
    Reworks U c (ts ++ us) c2 (vs' ++ ws') (ts' ++ us') := by
  have hws := hh.of_append_right hl
  have hnodup := hh.nodup
  rw [Tree.idsOf_append] at hnodup
  have hold : ∀ x ∈ Tree.idsOf ts', x ∉ Tree.idsOf us := fun x hx hx' =>
    h.not_mem_of_new (hws.has hx') (fun hts => hnodup.disjoint hts hx') hx
  refine ⟨⟨h'.bears.uses.mono ?_, ?_, ?_, fun _ hx => .inr hx⟩, ?_, ?_, h.size.trans h'.size⟩
  · rintro x (⟨hx, hnot⟩ | hx)
    · simp only [Tree.idsOf_append, List.mem_append, not_or] at hnot
      exact .inl ⟨.inl ⟨hx, hnot.1⟩, hnot.2⟩
    · rw [Tree.idsOf_append, List.mem_append] at hx
      rcases hx with hx | hx
      · exact .inl ⟨.inr hx, hold x hx⟩
      · exact .inr hx
  · exact List.rel_append (h'.keepsEach h.bears.denotes fun x hx => ⟨.inr hx, hold x hx⟩)
      h'.bears.denotes
  · rw [Tree.idsOf_append]
    refine h.bears.nodup.append h'.bears.nodup fun x hx hx' => ?_
    have hbounds := has_iff.mp (h.bears.has hx)
    rcases h'.own x hx' with hx' | hx'
    · exact hold x hx hx'
    · omega
  · intro x hx
    have hsize := h.size
    rw [Tree.idsOf_append, List.mem_append] at hx ⊢
    rcases hx with hx | hx
    · exact (h.own x hx).imp_left .inl
    · rcases h'.own x hx with hx | hx
      · exact .inl (.inr hx)
      · exact .inr (by omega)
  · intro x n hn hx hnot
    simp only [Tree.idsOf_append, List.mem_append, not_or] at hnot
    exact h'.same x n (h.same x n hn hx hnot.1) (.inl ⟨hx, hnot.1⟩) hnot.2

/-- Of the trees that take the place of others, some may be left out, and their order may change. -/
theorem select (h : Reworks U c ts c1 vs' ts') (hd : List.Forall₂ (Denotes c1.forest) ws us)
    (hsub : (Tree.idsOf us).Subperm (Tree.idsOf ts')) : Reworks U c ts c1 ws us where
  bears := {
    uses := h.bears.uses.mono fun _ hx => hx.imp_right fun hx => hsub.subset hx
    denotes := hd
    nodup := by
      obtain ⟨l, hl, hsublist⟩ := hsub
      exact hl.nodup_iff.mp (h.bears.nodup.sublist hsublist)
    used := fun _ hx => .inr hx }
  own x hx := h.own x (hsub.subset hx)
  same := h.same
  size := h.size

theorem sym (name : Text) (h : Reworks U c ts c1 vs' ts') :
    Reworks U c ts c1 (.sym name :: vs') (.leaf (.sym name) :: ts') :=
  h.select (.cons rfl h.bears.denotes) (by rw [Tree.idsOf_cons, Tree.ids_leaf, List.nil_append])

theorem tail (hh : Bears U c (v :: vs) (t :: ts)) (h : Reworks U c [t] c1 vs' ts') :
    Bears (InUse U [t] ts') c1 vs ts := by
  have hh' : Bears U c ([v] ++ vs) ([t] ++ ts) := hh
  exact rest hh' rfl h

theorem cons (hh : Bears U c (v :: vs) (t :: ts)) (h : Reworks U c [t] c1 vs' ts')
    (h' : Reworks (InUse U [t] ts') c1 ts c2 ws' us') :
    Reworks U c (t :: ts) c2 (vs' ++ ws') (ts' ++ us') := by
  have hh' : Bears U c ([v] ++ vs) ([t] ++ ts) := hh
  exact append hh' rfl h h'

end Reworks

/-- Only nodes have been made. Some operands stand for trees of these and of the nodes of other
trees, each of which is in one place. -/
structure Makes (c : Context) (us : List (Tree Mark)) (c' : Context) (vs : List Operand)
    (ts : List (Tree Mark)) : Prop where
  grows : Grows c.forest c'.forest
  shared : c'.shared = c.shared
  denotes : List.Forall₂ (Denotes c'.forest) vs ts
  ids : ∃ made : List Int, made.Nodup ∧
    (∀ x ∈ made, (c.forest.size : Int) < x ∧ x ≤ c'.forest.size) ∧
    (Tree.idsOf ts).Perm (made ++ Tree.idsOf us)

theorem Forest.Denotes.growEach (h : List.Forall₂ (Denotes f) vs ts) (hg : Grows f f') :
    List.Forall₂ (Denotes f') vs ts :=
  h.imp fun _ _ ht => ht.grow hg

namespace Makes

theorem keep (h : List.Forall₂ (Denotes c.forest) vs ts) : Makes c ts c vs ts where
  grows := .refl _
  shared := rfl
  denotes := h
  ids := ⟨[], List.nodup_nil, by simp, .refl _⟩

theorem atom (c : Context) (hv : v.view = .atom a) : Makes c [] c [v] [.leaf a] where
  grows := .refl _
  shared := rfl
  denotes := .cons hv .nil
  ids := ⟨[], List.nodup_nil, by simp, by simp⟩

theorem sym (c : Context) (name : Text) : Makes c [] c [.sym name] [.leaf (.sym name)] :=
  .atom c rfl

theorem int (c : Context) (value : Int64) : Makes c [] c [.int value] [.leaf (.int value)] :=
  .atom c rfl

/-- The parts of the state that no tree depends on do not count. -/
theorem congr (h : Makes c us c1 vs ts) (hf : c2.forest = c1.forest)
    (hs : c2.shared = c1.shared) : Makes c us c2 vs ts where
  grows := hf ▸ h.grows
  shared := hs.trans h.shared
  denotes := hf ▸ h.denotes
  ids := by
    rw [hf]
    exact h.ids

theorem append (h : Makes c us c1 vs ts) (h' : Makes c1 us' c2 vs' ts') :
    Makes c (us ++ us') c2 (vs ++ vs') (ts ++ ts') where
  grows := h.grows.trans h'.grows
  shared := h'.shared.trans h.shared
  denotes := List.rel_append (Denotes.growEach h.denotes h'.grows) h'.denotes
  ids := by
    obtain ⟨made, hnodup, hmade, hperm⟩ := h.ids
    obtain ⟨made', hnodup', hmade', hperm'⟩ := h'.ids
    have hsize := h.grows.size
    have hsize' := h'.grows.size
    refine ⟨made ++ made', hnodup.append hnodup' ?_, ?_, ?_⟩
    · intro x hx hx'
      have := hmade x hx
      have := hmade' x hx'
      omega
    · intro x hx
      rcases List.mem_append.mp hx with hx | hx
      · have := hmade x hx
        omega
      · have := hmade' x hx
        omega
    · rw [Tree.idsOf_append, Tree.idsOf_append]
      refine (hperm.append hperm').trans ?_
      simp only [List.append_assoc]
      refine List.Perm.append_left made ?_
      simp only [← List.append_assoc]
      exact List.Perm.append_right _ List.perm_append_comm

/-- What has been made can be taken in another order, with atoms put between. -/
theorem reorder (h : Makes c us c1 vs ts) (hd : List.Forall₂ (Denotes c1.forest) vs' ts')
    (hp : (Tree.idsOf ts').Perm (Tree.idsOf ts)) : Makes c us c1 vs' ts' where
  grows := h.grows
  shared := h.shared
  denotes := hd
  ids := by
    obtain ⟨made, hnodup, hmade, hperm⟩ := h.ids
    exact ⟨made, hnodup, hmade, hp.trans hperm⟩

theorem swap (h : Makes c us c1 (vs ++ ws) (ts ++ ts')) (hl : vs.length = ts.length) :
    Makes c us c1 (ws ++ vs) (ts' ++ ts) := by
  have hvs := List.forall₂_take vs.length h.denotes
  have hws := List.forall₂_drop vs.length h.denotes
  rw [List.take_left, hl, List.take_left] at hvs
  rw [List.drop_left, hl, List.drop_left] at hws
  refine h.reorder (List.rel_append hws hvs) ?_
  rw [Tree.idsOf_append, Tree.idsOf_append]
  exact List.perm_append_comm

/-- A new node over the last of what has been made. -/
theorem addOver (h : Makes c us c1 (ws ++ n.args) (ts' ++ ts)) (hl : ws.length = ts'.length) :
    Makes c us (c1.add n) (ws ++ [.ref ((c1.forest.size : Int) + 1)])
      (ts' ++ [.node ⟨(c1.forest.size : Int) + 1, n.pos⟩ n.tag ts]) := by
  have hgrows : Grows c1.forest (c1.add n).forest := grows_push _ _
  have hdenotes := Denotes.growEach h.denotes hgrows
  have hws := List.forall₂_take ws.length hdenotes
  have hvs := List.forall₂_drop ws.length hdenotes
  rw [List.take_left, hl, List.take_left] at hws
  rw [List.drop_left, hl, List.drop_left] at hvs
  obtain ⟨made, hnodup, hmade, hperm⟩ := h.ids
  refine ⟨h.grows.trans hgrows, h.shared, List.rel_append hws (.cons ?_ .nil),
    ((c1.forest.size : Int) + 1) :: made, ?_, ?_, ?_⟩
  · exact denotes_node.mpr ⟨rfl, _, get?_push_self _ _, rfl, rfl, hvs⟩
  · refine List.nodup_cons.mpr ⟨fun hx => ?_, hnodup⟩
    have := hmade _ hx
    omega
  · have hsize := h.grows.size
    simp only [Context.add_forest, size_push]
    refine List.forall_mem_cons.mpr ⟨by omega, fun x hx => ?_⟩
    have := hmade x hx
    omega
  · rw [Tree.idsOf_append] at hperm
    rw [Tree.idsOf_append, Tree.idsOf_cons, Tree.idsOf_nil, List.append_nil, Tree.ids_node']
    exact List.perm_middle.trans (hperm.cons _)

theorem nodeOver (h : Makes c us c1 (ws ++ vs) (ts' ++ ts)) (hl : ws.length = ts'.length)
    (hr : PassM.node tag pos vs c1 = .ok v c2) :
    Makes c us c2 (ws ++ [v]) (ts' ++ [.node ⟨(c1.forest.size : Int) + 1, pos⟩ tag ts]) := by
  obtain ⟨rfl, rfl⟩ := PassM.node_ok.mp hr
  exact addOver (n := { tag, args := vs, pos }) h hl

theorem add (h : Makes c us c1 n.args ts) : Makes c us (c1.add n)
    [.ref ((c1.forest.size : Int) + 1)] [.node ⟨(c1.forest.size : Int) + 1, n.pos⟩ n.tag ts] := by
  have h' : Makes c us c1 ([] ++ n.args) ([] ++ ts) := h
  exact h'.addOver rfl

theorem node (h : Makes c us c1 vs ts) (hr : PassM.node tag pos vs c1 = .ok v c2) :
    Makes c us c2 [v] [.node ⟨(c1.forest.size : Int) + 1, pos⟩ tag ts] := by
  obtain ⟨rfl, rfl⟩ := PassM.node_ok.mp hr
  exact add (n := { tag, args := vs, pos }) h

theorem list (h : Makes c us c1 vs ts) (hr : PassM.list pos vs c1 = .ok v c2) :
    Makes c us c2 [v] [.node ⟨(c1.forest.size : Int) + 1, pos⟩ .list ts] := h.node hr

/-- Trees that are made of trees that are held can take the place of these. -/
theorem reworks (h : Makes c us c1 vs' ts') (hh : Bears U c vs ts)
    (hsub : (Tree.idsOf us).Subperm (Tree.idsOf ts)) : Reworks U c ts c1 vs' ts' := by
  obtain ⟨made, hnodup, hmade, hperm⟩ := h.ids
  have hown : ∀ x ∈ Tree.idsOf ts', x ∈ Tree.idsOf ts ∨ (c.forest.size : Int) < x := by
    intro x hx
    rcases List.mem_append.mp (hperm.mem_iff.mp hx) with hx | hx
    · exact .inr (hmade x hx).1
    · exact .inl (hsub.subset hx)
  have hused : ∀ x, c.forest.Has x → InUse U ts ts' x → U x := by
    rintro x hx (⟨hU, -⟩ | hmem)
    · exact hU
    · have hbounds := has_iff.mp hx
      rcases hown x hmem with hmem | hmem
      · exact hh.used x hmem
      · omega
  have hhas : ∀ x, c.forest.Has x → c1.forest.Has x := fun x ⟨n, hn⟩ => ⟨n, h.grows x n hn⟩
  refine ⟨⟨⟨?_, ?_, ?_⟩, h.denotes, ?_, fun _ hx => .inr hx⟩, hown,
    fun x n hn _ _ => h.grows x n hn, h.grows.size⟩
  · rintro x (⟨hx, -⟩ | hx)
    · exact hhas x (hh.uses.has x hx)
    · obtain ⟨t, ht, hx⟩ := Tree.mem_idsOf.mp hx
      obtain ⟨w, -, hw⟩ := forall₂_mem_left h.denotes.flip ht
      exact has_iff.mpr (hw.ids_bounds x hx)
  · intro g hg x hx
    exact hhas x (hh.uses.groups g (h.shared ▸ hg) x hx)
  · intro g hg x hx y hy hUx hUy
    rw [h.shared] at hg
    have hgroups := hh.uses.groups g hg
    exact hh.uses.apart g hg x hx y hy (hused x (hgroups x hx) hUx) (hused y (hgroups y hy) hUy)
  · have hus : (Tree.idsOf us).Nodup := by
      obtain ⟨l, hl, hsublist⟩ := hsub
      exact hl.nodup_iff.mp (hh.nodup.sublist hsublist)
    refine hperm.nodup_iff.mpr (hnodup.append hus fun x hx hx' => ?_)
    have hbounds := has_iff.mp (hh.has (hsub.subset hx'))
    have := hmade x hx
    omega

end Makes

/-- A node that is in use has become another one. The others in use are as they were. -/
structure Writes (U : Int → Prop) (c : Context) (id : Int) (n : Node) (c' : Context) : Prop where
  get : c'.forest.get? id = some n
  same : ∀ x m, c.forest.get? x = some m → U x → x ≠ id → c'.forest.get? x = some m
  uses : c'.Uses U
  size : c'.forest.size = c.forest.size

/-- A node gets operands that have taken the place of its own, whatever has become of it since. -/
theorem Reworks.renew (h : Bears U c [v] [.node mark tag ts])
    (hr : Reworks (fun x => U x ∧ x ≠ mark.id) c ts c1 vs' ts')
    (hw : Writes (InUse U ts ts') c1 mark.id n c2) (hargs : n.args = vs') :
    Reworks U c [.node mark tag ts] c2 [v] [.node ⟨mark.id, n.pos⟩ n.tag ts'] := by
  obtain ⟨hview, hU, hid, -⟩ := h.node
  have hnew : mark.id ∉ Tree.idsOf ts' := hr.not_mem_of_new (h.uses.has _ hU) hid
  have hframe : List.Forall₂ (Denotes c2.forest) vs' ts' := by
    have hds := hr.bears.denotes
    refine List.forall₂_iff_get.mpr ⟨hds.length_eq, fun i hi hi' => ?_⟩
    refine (hds.get hi hi').frame fun x hx => ?_
    have hmem : x ∈ Tree.idsOf ts' := Tree.mem_idsOf.mpr ⟨_, List.get_mem ts' ⟨i, hi'⟩, hx⟩
    obtain ⟨m, hm⟩ := hr.bears.has hmem
    rw [hm, hw.same x m hm (.inr hmem) fun hxid => hnew (hxid ▸ hmem)]
  refine ⟨⟨hw.uses.mono ?_, .cons ?_ .nil, ?_, fun _ hx => .inr hx⟩, ?_, ?_, ?_⟩
  · rintro x (⟨hx, hnot⟩ | hx)
    · simp only [Tree.idsOf_cons, Tree.idsOf_nil, List.append_nil, Tree.ids_node',
        List.mem_cons, not_or] at hnot
      exact .inl ⟨hx, hnot.2⟩
    · simp only [Tree.idsOf_cons, Tree.idsOf_nil, List.append_nil, Tree.ids_node',
        List.mem_cons] at hx
      rcases hx with rfl | hx
      · exact .inl ⟨hU, hid⟩
      · exact .inr hx
  · exact denotes_node.mpr ⟨hview, n, hw.get, rfl, rfl, hargs ▸ hframe⟩
  · simpa [Tree.ids_node'] using ⟨hnew, hr.bears.nodup⟩
  · intro x hx
    simp only [Tree.idsOf_cons, Tree.idsOf_nil, List.append_nil, Tree.ids_node',
      List.mem_cons] at hx ⊢
    rcases hx with rfl | hx
    · exact .inl (.inl rfl)
    · exact (hr.own x hx).imp_left .inr
  · intro x m hm hx hnot
    simp only [Tree.idsOf_cons, Tree.idsOf_nil, List.append_nil, Tree.ids_node',
      List.mem_cons, not_or] at hnot
    exact hw.same x m (hr.same x m hm ⟨hx, hnot.1⟩ hnot.2) (.inl ⟨hx, hnot.2⟩) hnot.1
  · have hsize := hr.size
    rw [hw.size]
    exact hsize

theorem Reworks.write (h : Bears U c [v] [.node mark tag ts]) (hr : Reworks U c ts c1 vs' ts')
    (hw : Writes (InUse U ts ts') c1 mark.id n c2) (hargs : n.args = vs')
    (hpos : n.pos = mark.pos) :
    Reworks U c [.node mark tag ts] c2 [v] [.node mark n.tag ts'] := by
  have hnode := Reworks.renew h (hr.mono fun _ hx => hx.1) hw hargs
  rwa [hpos] at hnode

theorem Context.Uses.detach (hU : c.Uses U) (id : Int) : (c.detach id).Uses U where
  has := hU.has
  groups g hg x hx := by
    obtain ⟨g0, hg0, rfl⟩ := Context.mem_detach hg
    exact hU.groups g0 hg0 x (List.mem_filter.mp hx).1
  apart g hg x hx y hy := by
    obtain ⟨g0, hg0, rfl⟩ := Context.mem_detach hg
    exact hU.apart g0 hg0 x (List.mem_filter.mp hx).1 y (List.mem_filter.mp hy).1

theorem Writes.detach {id : Int} (h : Writes U c id n c1) : Writes U c id n (c1.detach id) where
  get := h.get
  same := h.same
  uses := h.uses.detach id
  size := h.size

/-- The operands of a node have been put aside without a change to the node. -/
theorem Reworks.below (h : Bears U c [v] [.node mark tag ts])
    (hn : c.forest.get? mark.id = some n) (hr : Reworks U c ts c1 n.args ts') :
    Reworks U c [.node mark tag ts] c1 [v] [.node mark tag ts'] := by
  obtain ⟨-, hU, hid, n', hn', htag, hpos, -⟩ := h.node
  obtain rfl : n = n' := Option.mem_unique hn hn'
  have hw : Writes (InUse U ts ts') c1 mark.id n c1 :=
    ⟨hr.same _ n hn hU hid, fun _ _ hm _ _ => hm, hr.bears.uses, rfl⟩
  have hwritten := Reworks.write h hr hw rfl hpos
  rwa [htag] at hwritten

theorem Reworks.args (hr : Reworks U c ts c1 [w] [.node mark' tag' ts']) :
    ∃ m, c1.forest.get? mark'.id = some m ∧ Reworks U c ts c1 m.args ts' := by
  obtain ⟨-, -, -, m, hm, -, -, hargs⟩ := hr.bears.node
  refine ⟨m, hm, hr.select hargs.denotes (List.Sublist.subperm ?_)⟩
  rw [Tree.idsOf_cons, Tree.idsOf_nil, List.append_nil, Tree.ids_node']
  exact List.sublist_cons_self _ _

namespace PassM

variable {id : Int} {m : Node} {args : List Operand} {u : Unit}

theorem writes_put (hU : c.Uses U) (hm : c.forest.get? id = some m) (n : Node) :
    Writes U c id n (c.put id n) where
  get := by rw [Context.put_forest, get?_set, if_pos rfl, hm, Option.map_some]
  same x k hk _ hx := by rw [Context.put_forest, get?_set, if_neg hx, hk]
  uses := {
    has := fun x hx => (hU.has x hx).set n
    groups := fun g hg x hx => (hU.groups g hg x hx).set n
    apart := hU.apart }
  size := by simp

theorem update_writes (hU : c.Uses U) (h : update id change c = .ok u c1) :
    ∃ m, c.forest.get? id = some m ∧ Writes U c id (change m) c1 := by
  obtain ⟨m, hm, rfl⟩ := update_ok.mp h
  exact ⟨m, hm, writes_put hU hm _⟩

theorem reshape_writes (hU : c.Uses U) (h : reshape id tag args c = .ok u c1) :
    ∃ m, c.forest.get? id = some m ∧ Writes U c id (m.reshape tag args) c1 := by
  obtain ⟨m, hm, rfl⟩ := reshape_ok.mp h
  exact ⟨m, hm, (writes_put hU hm _).detach⟩

theorem renewArgs_writes (hU : c.Uses U) (h : renewArgs id args c = .ok u c1) :
    ∃ m, c.forest.get? id = some m ∧ Writes U c id { m with args } c1 := by
  obtain ⟨m, hm, rfl⟩ := renewArgs_ok.mp h
  exact ⟨m, hm, (writes_put hU hm _).detach⟩

theorem replace_writes {src : Int} (hU : c.Uses U) (h : replace id src c = .ok u c1) :
    ∃ old new n, c.forest.get? id = some old ∧ c.forest.get? src = some new ∧
      Writes U c id n c1 ∧ n.tag = new.tag ∧ n.args = new.args ∧
      n.pos = if new.pos = Position.unknown then old.pos else new.pos := by
  obtain ⟨old, new, hold, hnew, rfl⟩ := replace_ok.mp h
  exact ⟨old, new, _, hold, hnew, (writes_put hU hold _).detach, rfl, rfl, rfl⟩

/-- A node that is held gets a tag and operands that have taken the place of its own. -/
theorem reshape_reworks (hh : Bears U c [v] [.node mark tag ts]) (hr : Reworks U c ts c1 vs' ts')
    (h : reshape mark.id tag' vs' c1 = .ok u c2) :
    Reworks U c [.node mark tag ts] c2 [v] [.node mark tag' ts'] := by
  obtain ⟨-, hU, hid, n, hn, -, hpos, -⟩ := hh.node
  obtain ⟨m, hm, hw⟩ := reshape_writes hr.bears.uses h
  obtain rfl : n = m := Option.some.inj ((hr.same _ n hn hU hid).symm.trans hm)
  exact Reworks.write hh hr hw rfl hpos

/-- A node that is held becomes a copy of one that has taken the place of its operands. -/
theorem replace_reworks (hh : Bears U c [v] [.node mark tag ts])
    (hr : Reworks U c ts c1 [w] [.node mark' tag' ts']) (hpos : mark'.pos = mark.pos)
    (h : replace mark.id w.target c1 = .ok u c2) :
    Reworks U c [.node mark tag ts] c2 [v] [.node mark tag' ts'] := by
  obtain ⟨-, hU, hid, n, hn, -, hn_pos, -⟩ := hh.node
  obtain ⟨hw, -, -, top, htop, htag, htop_pos, -⟩ := hr.bears.node
  rw [Operand.target_of_child? (Operand.view_eq_child.mp hw)] at h
  obtain ⟨top', htop', hbelow⟩ := hr.args
  obtain rfl : top = top' := Option.mem_unique htop htop'
  obtain ⟨old, new, n', hold, hnew, hwrite, htag', hargs', hpos'⟩ :=
    replace_writes hbelow.bears.uses h
  obtain rfl : n = old := Option.some.inj ((hr.same _ n hn hU hid).symm.trans hold)
  obtain rfl : top = new := Option.mem_unique htop hnew
  have hmark : n'.pos = mark.pos := by
    rw [hpos', hn_pos, htop_pos, hpos]
    exact ite_id _
  rw [← htag, ← htag']
  exact Reworks.write hh hbelow hwrite hargs' hmark

/-- Who else gets the operands is not in use. -/
theorem setArgs_writes (hU : c.Uses U) (hid : U id) (h : setArgs id args c = .ok u c1) :
    ∃ m, c.forest.get? id = some m ∧ Writes U c id { m with args } c1 := by
  obtain ⟨hshared, hex, hget⟩ := setArgs_frame h
  obtain ⟨m, hm⟩ := hex id (mem_sharers c id)
  have hhas : ∀ x, c.forest.Has x ↔ c1.forest.Has x := by
    intro x
    unfold Has
    rw [hget]
    split
    · cases c.forest.get? x <;> simp
    · rfl
  refine ⟨m, hm, ?_, ?_, ⟨?_, ?_, ?_⟩, ?_⟩
  · rw [hget, if_pos (mem_sharers c id), hm, Option.map_some]
  · intro x k hk hx hne
    rw [hget, if_neg fun hmem => hne (hU.sharer hid x hmem hx), hk]
  · exact fun x hx => (hhas x).mp (hU.has x hx)
  · rw [hshared]
    exact fun g hg x hx => (hhas x).mp (hU.groups g hg x hx)
  · rw [hshared]
    exact hU.apart
  · refine Nat.le_antisymm ?_ ?_
    · exact size_le_of_get? fun x k hk => (hhas x).mpr ⟨k, hk⟩
    · exact size_le_of_get? fun x k hk => (hhas x).mp ⟨k, hk⟩

/-- What becomes of the tree below a node whose operands have been changed. -/
theorem setArgs_reworks (hh : Bears U c [v] [.node mark tag ts]) (hr : Reworks U c ts c1 vs' ts')
    (h : setArgs mark.id vs' c1 = .ok u c2) :
    Reworks U c [.node mark tag ts] c2 [v] [.node mark tag ts'] := by
  obtain ⟨-, hU, hid, n, hn, rfl, hpos, -⟩ := hh.node
  obtain ⟨m, hm, hw⟩ := setArgs_writes hr.bears.uses (.inl ⟨hU, hid⟩) h
  obtain rfl : n = m := Option.some.inj ((hr.same _ _ hn hU hid).symm.trans hm)
  exact Reworks.write (n := { n with args := vs' }) hh hr hw rfl hpos

/-- The operands of a node go below a list, which also takes its place among those that share the
operands. -/
theorem moveArgs_reworks (h : Bears U c [v] [.node mark tag ts])
    (hn : c.forest.get? mark.id = some n) (hr : moveArgs mark.id n c = .ok w c1) :
    Reworks U c ts c1 [w] [.node ⟨(c.forest.size : Int) + 1, n.pos⟩ .list ts] ∧
      c1.forest.get? mark.id = some n := by
  obtain ⟨rfl, rfl⟩ := moveArgs_ok.mp hr
  obtain ⟨-, hU, -, n', hn', -, -, hholds⟩ := h.node
  obtain rfl : n = n' := Option.mem_unique hn hn'
  have hmade : node .list n.pos n.args c =
      .ok (.ref ((c.forest.size : Int) + 1))
        (c.add { tag := .list, args := n.args, pos := n.pos }) :=
    node_ok.mpr ⟨rfl, rfl⟩
  have hmakes := (Makes.keep hholds.denotes).node hmade
  have hreworks := hmakes.reworks hholds (List.Subperm.refl _)
  have hgrows := hmakes.grows
  refine ⟨⟨⟨⟨hreworks.bears.uses.has, ?_, ?_⟩, hreworks.bears.denotes, hreworks.bears.nodup,
    fun _ hx => .inr hx⟩, hreworks.own, hreworks.same, hreworks.size⟩, hgrows _ _ hn⟩
  · intro g hg x hx
    obtain ⟨g0, hg0, rfl⟩ := List.mem_map.mp hg
    obtain ⟨y, hy, rfl⟩ := List.mem_map.mp hx
    split
    · exact has_push_self _ _
    · exact (h.uses.groups g0 hg0 y hy).push _
  · intro g hg x hx y hy hUx hUy
    obtain ⟨g0, hg0, rfl⟩ := List.mem_map.mp hg
    obtain ⟨x, hx0, rfl⟩ := List.mem_map.mp hx
    obtain ⟨y, hy0, rfl⟩ := List.mem_map.mp hy
    -- A node of the group other than the one whose place is taken was in use before.
    have hbefore : ∀ z ∈ g0, InUse U ts
        [.node ⟨(c.forest.size : Int) + 1, n.pos⟩ .list ts] z → U z := by
      rintro z hz (⟨hUz, -⟩ | hmem)
      · exact hUz
      · simp only [Tree.idsOf_cons, Tree.idsOf_nil, List.append_nil, Tree.ids_node',
          List.mem_cons] at hmem
        rcases hmem with rfl | hmem
        · exact absurd rfl (h.uses.groups g0 hg0 _ hz).ne_new
        · exact hholds.used z hmem
    by_cases hxid : x = mark.id <;> by_cases hyid : y = mark.id
    · rw [hxid, hyid]
    · rw [if_neg hyid] at hUy
      exact absurd (h.uses.apart g0 hg0 y hy0 x hx0 (hbefore y hy0 hUy) (hxid ▸ hU))
        (fun heq => hyid (heq.trans hxid))
    · rw [if_neg hxid] at hUx
      exact absurd (h.uses.apart g0 hg0 x hx0 y hy0 (hbefore x hx0 hUx) (hyid ▸ hU))
        (fun heq => hxid (heq.trans hyid))
    · rw [if_neg hxid] at hUx ⊢
      rw [if_neg hyid] at hUy ⊢
      exact h.uses.apart g0 hg0 x hx0 y hy0 (hbefore x hx0 hUx) (hbefore y hy0 hUy)

/-- A computation that fails only where something is missing. -/
def Quiet {α : Type} (x : PassM α) : Prop := ∀ c e c', x c = .error e c' → e.IsFault

section

variable {α β : Type} {x : PassM α} {g : α → PassM β} {pos : Position}

theorem quiet_pure (a : α) : Quiet (pure a : PassM α) := fun _ _ _ h => absurd h pure_error

theorem Quiet.bind (hx : Quiet x) (hg : ∀ a, Quiet (g a)) : Quiet (x >>= g) := by
  intro c e c' h
  rcases bind_error.mp h with h | ⟨a, c1, -, h⟩
  · exact hx c e c' h
  · exact hg a c1 e c' h

theorem Quiet.mapM (hg : ∀ a, Quiet (g a)) (as : List α) : Quiet (as.mapM g) := by
  induction as with
  | nil =>
    rw [List.mapM_nil]
    exact quiet_pure _
  | cons a as ih =>
    rw [List.mapM_cons]
    exact (hg a).bind fun _ => ih.bind fun _ => quiet_pure _

theorem Quiet.forM {g : α → PassM Unit} (hg : ∀ a, Quiet (g a)) (as : List α) :
    Quiet (as.forM g) := by
  induction as with
  | nil => exact quiet_pure _
  | cons a as ih => exact (hg a).bind fun _ => ih

theorem quiet_get : Quiet (get : PassM Context) := fun _ _ _ h => nomatch h

theorem quiet_modify (change : Context → Context) : Quiet (modify change) :=
  fun _ _ _ h => nomatch h

theorem quiet_throw (f : Fault) : Quiet (throw (.fault f) : PassM α) := by
  intro c e c' h
  cases h
  trivial

theorem quiet_fetch (id : Int) : Quiet (fetch id) := by
  intro c e c' h
  rw [fetch_error h]
  trivial

theorem quiet_operandAt (n : Node) (i : Nat) : Quiet (operandAt n i) := by
  unfold operandAt
  split
  · exact quiet_pure _
  · exact quiet_throw _

theorem quiet_query (ask : Forest → Except Fault α) : Quiet (query ask) := by
  refine quiet_get.bind fun c => ?_
  split
  · exact quiet_pure _
  · exact quiet_throw _

theorem quiet_alloc (tag : Tag) (pos : Position) (args : List Operand) :
    Quiet (alloc tag pos args) :=
  (quiet_modify _).bind fun _ => quiet_get.bind fun _ => quiet_pure _

theorem quiet_node (tag : Tag) (pos : Position) (args : List Operand) :
    Quiet (node tag pos args) := (quiet_alloc tag pos args).bind fun _ => quiet_pure _

theorem quiet_list (pos : Position) (args : List Operand) : Quiet (list pos args) :=
  quiet_node _ pos args

theorem quiet_sexpCall (pos : Position) (function : Text) (args : List Operand) :
    Quiet (sexpCall pos function args) := (quiet_node _ _ _).bind fun _ => quiet_node _ _ _

theorem quiet_update (id : Int) (change : Node → Node) : Quiet (update id change) :=
  (quiet_fetch id).bind fun _ => quiet_modify _

theorem quiet_reshape (id : Int) (tag : Tag) (args : List Operand) : Quiet (reshape id tag args) :=
  (quiet_update id _).bind fun _ => quiet_modify _

theorem quiet_renewArgs (id : Int) (args : List Operand) : Quiet (renewArgs id args) :=
  (quiet_update id _).bind fun _ => quiet_modify _

theorem quiet_setArgs (id : Int) (args : List Operand) : Quiet (setArgs id args) :=
  quiet_get.bind fun _ => Quiet.forM (fun other => quiet_update other _) _

theorem quiet_replace (id src : Int) : Quiet (replace id src) :=
  (quiet_query _).bind fun _ => (quiet_modify _).bind fun _ => quiet_modify _

theorem quiet_moveArgs (id : Int) (n : Node) : Quiet (moveArgs id n) :=
  (quiet_alloc _ _ _).bind fun _ => (quiet_modify _).bind fun _ => quiet_pure _

theorem quiet_newLabel : Quiet newLabel :=
  quiet_get.bind fun _ => Quiet.bind (fun _ _ _ h => nomatch h) fun _ => quiet_pure _

theorem quiet_intern (value : Constant) : Quiet (intern value) := by
  refine quiet_get.bind fun c => ?_
  split
  · exact quiet_pure _
  · exact quiet_newLabel.bind fun _ => (quiet_modify _).bind fun _ => quiet_pure _

/-- What is refused by a check is a malformed node, and before anything is done. -/
theorem check_error (h : check n c = .error e c1) : n.malformed? ≠ none ∧ c1 = c := by
  unfold check at h
  cases hm : n.malformed? with
  | none =>
    rw [hm] at h
    exact absurd h pure_error
  | some d =>
    rw [hm] at h
    cases h
    exact ⟨nofun, rfl⟩

/-- What is quiet but for a check at its start refuses a node only if that is malformed. -/
theorem Quiet.after_check {g : Unit → PassM α} (hg : ∀ u, Quiet (g u))
    (h : (check n >>= g) c = .error e c1) (he : ¬ e.IsFault) : n.malformed? ≠ none ∧ c1 = c := by
  rcases bind_error.mp h with h | ⟨u, c2, -, h⟩
  · exact check_error h
  · exact absurd (hg u c2 e c1 h) he

end

end PassM

end Lowering
