import Lowering.Proofs.EnvironmentLands
import Lowering.Proofs.RestParams

namespace Lowering

namespace Tree

open Pass.Environment

/-- The body of a function with its parameters. -/
def function (t : Tree Mark) : Block := ⟨(t.operand 1).paramNames, (t.operand 2).elems⟩

/-- A function with its parameter for the remaining arguments renamed and a `let` as its body. -/
def remade (d : Tree Mark) (m : Mark) (args : List (Tree Mark)) : Tree Mark :=
  match d with
  | leaf a => leaf a
  | node mark tag operands =>
    node mark tag [(node mark tag operands).operand 0, (node mark tag operands).splatParams,
      node m .letIn args]

/-- A tree with another number at its root. -/
def renumbered (id : Int) : Tree Mark → Tree Mark
  | .leaf a => .leaf a
  | .node mark tag args => .node ⟨id, mark.pos⟩ tag args

end Tree

namespace Pass.Environment

open Forest PassM Scope

variable {U : Int → Prop} {c c1 c' : Context} {v w : Operand} {vs ws : List Operand}
variable {d t : Tree Mark} {ts args : List (Tree Mark)} {mark m : Mark} {tag : Tag} {n : Node}
  {u : Unit}

theorem elems_cases (hh : Bears U c [v] [t]) (h : c.forest.elems v = .ok vs) :
    (vs = [] ∧ t.elems = []) ∨ (vs = [v] ∧ t.elems = [t]) ∨
      ∃ mark args n, t = .node mark .list args ∧ t.elems = args ∧
        c.forest.get? mark.id = some n ∧ vs = n.args := by
  have hd := (List.forall₂_cons.mp hh.denotes).1
  cases t with
  | leaf a =>
    have hview : v.view = .atom a := hd
    cases a <;> simp only [Forest.elems, hview] at h <;> cases h <;> simp [Tree.elems]
  | node mark tag args =>
    obtain ⟨hview, n, hn, rfl, -, -⟩ := denotes_node.mp hd
    simp only [Forest.elems, hview, Forest.get, hn, bind, Except.bind, pure, Except.pure] at h
    by_cases ht : n.tag = .list
    · rw [if_pos ht] at h
      cases h
      exact .inr (.inr ⟨mark, args, n, by rw [ht], by rw [ht]; rfl, hn, rfl⟩)
    · rw [if_neg ht] at h
      cases h
      exact .inr (.inl ⟨rfl, Tree.elems_node ht⟩)

/-- What is kept of the statements is kept of the body. -/
theorem kept_of_elems (hh : Bears U c [v] [t]) (h : c.forest.elems v = .ok vs)
    (hkept : Kept U c vs t.elems c') : Kept U c [v] [t] c' := by
  obtain ⟨ts', hr⟩ := hkept
  rcases elems_cases hh h with ⟨rfl, hnil⟩ | ⟨rfl, hself⟩ | ⟨mark, args, n, rfl, hargs, hn, rfl⟩
  · rw [hnil] at hr
    have hsplit : Bears U c ([] ++ [v]) ([] ++ [t]) := hh
    have hall := Reworks.append hsplit rfl hr (.refl (hr.rest hsplit rfl))
    obtain rfl : ts' = [] := by simpa using hr.bears.denotes.length_eq.symm
    exact hall.kept
  · rw [hself] at hr
    exact hr.kept
  · exact (hr.below hh hn).kept

theorem bears_of_elems (hh : Bears U c [v] [t]) (h : c.forest.elems v = .ok vs) :
    Bears U c vs t.elems where
  uses := hh.uses
  denotes := bears_elems hh h
  nodup := hh.nodup.sublist (idsOf_elems t)
  used x hx := hh.used x ((idsOf_elems t).subset hx)

theorem quiet_renameRest (vs : List Operand) : Quiet (renameRest vs) := by
  induction vs with
  | nil => exact quiet_pure _
  | cons v vs ih =>
    unfold renameRest
    split
    · exact ih
    · refine (quiet_fetch _).bind fun n => ?_
      split
      · exact (quiet_setArgs _ _).bind fun _ => quiet_pure _
      · exact ih

/-- A definition is refused for its operands before anything is done to it. -/
theorem concludes_definitionBody {id : Int} (he : E c) :
    Concludes (fun b d => definitionBody id c = .ok b d) E (definitionBody id c) := by
  cases h : definitionBody id c with
  | ok b d => exact rfl
  | error e d =>
    have hall : Concludes (fun _ _ => True) E (definitionBody id c) := by
      unfold definitionBody
      refine Concludes.bind ((quiet_fetch id).outcome (Q := fun _ d => d = c) fun n d hfetch =>
        (fetch_ok.mp hfetch).2.symm) fun n d _ hd => ?_
      subst hd
      refine (concludes_check he).bind fun _ d' _ _ => ?_
      exact Quiet.outcome ((quiet_operandAt _ _).bind fun _ => (quiet_query _).bind fun _ =>
        (quiet_query _).bind fun _ => (quiet_renameRest _).bind fun _ =>
        (quiet_operandAt _ _).bind fun _ => (quiet_query _).bind fun _ => quiet_pure _)
        fun _ _ _ => trivial
    rwa [h] at hall

theorem install_reworks (hh : Bears U c [v] [.node mark tag ts])
    (hn : c.forest.get? mark.id = some n) (hargs : n.args = [x0, x1, x2])
    (hr : Reworks U c ts c1 [x0, x1, .ref letId] ts')
    (h : install (.definition mark.id) letId c1 = .ok u c') :
    Reworks U c [.node mark tag ts] c' [v] [.node mark tag ts'] := by
  obtain ⟨m, hm, -, hset⟩ := install_definition_ok.mp h
  obtain ⟨-, hU, hnot, -⟩ := hh.node
  obtain rfl : n = m := Option.some.inj ((hr.same _ n hn hU hnot).symm.trans hm)
  rw [hargs] at hset
  exact setArgs_reworks hh hr hset

/-- How many parameters are plain names can be seen from their trees. -/
theorem length_plain (h : List.Forall₂ (Denotes f) vs ts) : (vs.filter fun v => !v.isNode).length =
      (ts.filter fun
        | .leaf _ => true
        | .node .. => false).length := by
  induction h with
  | nil => rfl
  | @cons v t vs ts hv _ ih =>
    cases t with
    | leaf a =>
      have hnode : v.isNode = false := by
        have := Operand.child?_of_atom hv
        simpa [Operand.child?] using this
      rw [List.filter_cons_of_pos (by simp [hnode]), List.filter_cons_of_pos rfl, List.length_cons,
        List.length_cons, ih]
    | node mark tag args =>
      have hnode : v.isNode = true := by
        have := Operand.view_eq_child.mp (denotes_node.mp hv).1
        by_contra hno
        simp [Operand.child?, hno] at this
      rw [List.filter_cons_of_neg (by simp [hnode]), List.filter_cons_of_neg (by simp), ih]

theorem definitionBody_reworks (hh : Bears U c [v] [.node mark tag args])
    (htag : tag = .defm ∨ tag = .defun) (hn : c.forest.get? mark.id = some n)
    (h : definitionBody mark.id c = .ok b c1) :
    ∃ x0 x1 x2 a0 a1 a2, n.args = [x0, x1, x2] ∧ args = [a0, a1, a2] ∧
      Reworks U c args c1 [x0, x1, x2] [a0, (Tree.node mark tag args).splatParams, a2] ∧
      Annotates (fun _ => False) c c1 ∧ b.site = .definition mark.id ∧
      c1.forest.elems x2 = .ok b.stmts ∧ b.params = a1.paramNames ∧
      b.setup c1.options = (Tree.node mark tag args).setup c.options.wordSize := by
  obtain ⟨-, hU, hnot, k, hk, rfl, -, hargs⟩ := hh.node
  obtain rfl : n = k := Option.mem_unique hn hk
  obtain ⟨k, names, params, rest, stmts, hk, hwell, hnames, hparams, hrename, hstmts, rfl⟩ :=
    definitionBody_ok h
  obtain rfl : n = k := Option.mem_unique hn hk
  match hx : n.args, Node.malformed?_defined htag hwell with
  | [x0, x1, x2], _ =>
    have hx1 : n.arg 1 = x1 := by simp [Node.arg, hx]
    have hx2 : n.arg 2 = x2 := by simp [Node.arg, hx]
    rw [hx1] at hnames hparams
    rw [hx2] at hstmts
    rw [hx] at hargs
    obtain ⟨a0, _, -, htail, rfl⟩ := List.forall₂_cons_left_iff.mp hargs.denotes
    obtain ⟨a1, _, hlist, hlast, rfl⟩ := List.forall₂_cons_left_iff.mp htail
    obtain ⟨a2, _, -, hnil, rfl⟩ := List.forall₂_cons_left_iff.mp hlast
    cases hnil
    have hsecond : Bears U c [x1] [(Tree.node mark n.tag [a0, a1, a2]).operand 1] := hargs.tail.head
    obtain ⟨hrest, hr, hann⟩ := renameRest_reworks c.options.wordSize hsecond hparams hrename
    refine ⟨x0, x1, x2, a0, a1, a2, rfl, rfl, (Reworks.keepTail hargs.tail hr).keepHead hargs, hann,
      rfl, hstmts, Except.ok.inj (hnames.symm.trans hlist.paramNames), ?_⟩
    rw [Body.setup, hann.options, hrest, length_plain (bears_elems hsecond hparams)]
    rfl

/-- The body of a function has become a `let`. -/
structure Remade (c : Context) (d : Tree Mark) (m : Mark) (args : List (Tree Mark)) (c' : Context) :
    Prop where
  operands : d.operands.length = 3
  annotates : Annotates (fun x => ∃ t ∈ d.function.stmts, x ∈ t.openIds) c c'
  filled : LetOperands c d.function (d.setup c.options.wordSize) args
  carries : c'.forest.Carries m.id d.function.frequencies

/-- The statements of a function become a `let` in the place of its body. -/
theorem concludes_definition (hh : Bears U c [v] [.node mark tag args])
    (htag : tag = .defm ∨ tag = .defun) :
    Concludes (fun _ c' => ∃ m operands, Remade c (.node mark tag args) m operands c' ∧
        Reworks U c [.node mark tag args] c' [v] [(Tree.node mark tag args).remade m operands])
      (Kept U c [v] [.node mark tag args]) ((do materialize (← definitionBody mark.id)) c) := by
  obtain ⟨-, -, -, n, hn, -⟩ := hh.node
  refine (concludes_definitionBody hh.kept).bind fun b c1 hb _ => ?_
  obtain ⟨x0, x1, x2, a0, a1, a2, hx, rfl, hr, hann, hsite, hstmts, hparams, hsetup⟩ :=
    definitionBody_reworks hh htag hn hb
  have hlast := hr.bears.tail.tail
  have hstatements := bears_of_elems hlast hstmts
  cases h : materialize b c1 with
  | ok u c' =>
    obtain ⟨c2, letId, m, operands, ⟨hlet, hann', ⟨hsealed, hlayout⟩, hcarries⟩, hinstall⟩ :=
      materialize_let hstatements h
    rw [hparams, hsetup] at hlayout
    rw [hparams] at hcarries
    rw [hsite] at hinstall
    obtain ⟨k, -, -, hset⟩ := install_definition_ok.mp hinstall
    refine ⟨m, operands, ⟨rfl, ?_, ⟨hsealed, fun hplain => hlayout fun t ht x hx => ?_⟩,
      (setArgs_annotates (X := fun _ => False) hset).carries _ _ hcarries⟩, ?_⟩
    · exact (hann.mono fun _ h => h.elim).trans (hann'.trans (setArgs_annotates hset))
    · rw [hann.exports x id]
      exact hplain t ht x hx
    · have hwide : Reworks _ c1 [a2] c2 [.ref letId] [.node m .letIn operands] :=
        hlet.widen (idsOf_elems a2).subset
      have hall := hr.trans hh.uses ((hwide.keepHead hr.bears.tail).keepHead hr.bears)
      exact install_reworks hh hn hx hall hinstall
  | error e c' =>
    intro he
    have hresolve := concludes_resolve b.params hstatements
    rw [resolve_of_refused he h] at hresolve
    obtain ⟨ts', hr'⟩ := kept_of_elems hlast hstmts (hresolve he).2
    have hall := hr.trans hh.uses ((hr'.keepHead hr.bears.tail).keepHead hr.bears)
    rw [← hx] at hall
    exact (hall.below hh hn).kept

/-- What the `let` of the statements outside functions depends on. -/
def topSetup (w : Int64) : Setup := ⟨Text.empty, 0, true, w⟩

theorem uses_share (h : c.Uses U) (hroot : c.forest.Has root) (hnew : c.forest.Has new)
    (honly : ∀ x ∈ c.sharers root, U x → x = new) : (c.share root new).Uses U := by
  have hgroup : ∀ x ∈ c.sharers root, c.forest.Has x := by
    intro x hx
    unfold Context.sharers at hx
    cases hg : c.shared.find? (·.contains root) with
    | none =>
      rw [hg] at hx
      obtain rfl : x = root := by simpa using hx
      exact hroot
    | some g =>
      rw [hg, Option.getD_some] at hx
      exact h.groups g (List.mem_of_find?_eq_some hg) x hx
  refine ⟨h.has, fun g hg x hx => ?_, fun g hg x hx y hy hUx hUy => ?_⟩
  · rcases List.mem_cons.mp hg with rfl | hg
    · rcases List.mem_cons.mp hx with rfl | hx
      · exact hnew
      · exact hgroup x hx
    · exact h.groups g (List.mem_filter.mp hg).1 x hx
  · rcases List.mem_cons.mp hg with rfl | hg
    · have honly' : ∀ z ∈ new :: c.sharers root, U z → z = new := fun z hz hU =>
        (List.mem_cons.mp hz).elim id fun hz => honly z hz hU
      rw [honly' x hx hUx, honly' y hy hUy]
    · exact h.apart g (List.mem_filter.mp hg).1 x hx y hy hUx hUy

theorem twin_reworks (hh : Bears U c [v] [.node mark tag ts])
    (hn : c.forest.get? mark.id = some n) : Reworks (fun x => U x ∧ x ≠ mark.id) c ts
      ((c.add n).share mark.id ((c.forest.size : Int) + 1)) [.ref ((c.forest.size : Int) + 1)]
      [.node ⟨(c.forest.size : Int) + 1, n.pos⟩ n.tag ts] := by
  obtain ⟨-, hU, hnot, m, hm, -, -, hargs⟩ := hh.node
  obtain rfl : n = m := Option.mem_unique hn hm
  have hbelow : Bears (fun x => U x ∧ x ≠ mark.id) c n.args ts :=
    ⟨hargs.uses.mono fun _ hx => hx.1, hargs.denotes, hargs.nodup, fun x hx =>
      ⟨hargs.used x hx, fun h => hnot (h ▸ hx)⟩⟩
  have hmake : Makes c ts (c.add n) [.ref ((c.forest.size : Int) + 1)]
      [.node ⟨(c.forest.size : Int) + 1, n.pos⟩ n.tag ts] :=
    Makes.add (n := n) (.keep hargs.denotes)
  have hr := hmake.reworks hbelow (List.Subperm.refl _)
  refine ⟨⟨?_, hr.bears.denotes, hr.bears.nodup, hr.bears.used⟩, hr.own, hr.same, hr.size⟩
  refine uses_share hr.bears.uses ((hh.uses.has _ hU).push n) (has_push_self _ _) fun x hx hU' => ?_
  have hx' : x ∈ c.sharers mark.id := hx
  rcases hU' with ⟨⟨hUx, hne⟩, -⟩ | hmem
  · exact absurd (hh.uses.sharer hU x hx' hUx) hne
  · simp only [Tree.idsOf_cons, Tree.idsOf_nil, List.append_nil, Tree.ids_node', List.mem_cons]
      at hmem
    rcases hmem with rfl | hmem
    · rfl
    · exact absurd (hh.uses.sharer hU x hx' (hargs.used x hmem) ▸ hmem) hnot

theorem uses_insert {id : Int} (h : c.Uses U) (hid : c.forest.Has id)
    (hno : ∀ g ∈ c.shared, id ∉ g) : c.Uses fun x => x = id ∨ U x where
  has x hx := hx.elim (fun hx => hx ▸ hid) (h.has x)
  groups := h.groups
  apart g hg x hx y hy hUx hUy := by
    have hused : ∀ z ∈ g, z = id ∨ U z → U z := fun z hz hU =>
      hU.resolve_left fun heq => hno g hg (heq ▸ hz)
    exact h.apart g hg x hx y hy (hused x hx hUx) (hused y hy hUy)

theorem replace_root (hh : Bears U c [v] [.node mark tag ts])
    (hr : Reworks (fun x => U x ∧ x ≠ mark.id) c ts c1 [.ref letId] [.node mark' tag' ts'])
    (h : replace mark.id letId c1 = .ok u c') :
    ∃ pos, Reworks U c [.node mark tag ts] c' [v] [.node ⟨mark.id, pos⟩ tag' ts'] := by
  obtain ⟨-, hU, hnot, -⟩ := hh.node
  obtain ⟨hview, -, -, k, hk, rfl, -⟩ := hr.bears.node
  obtain ⟨m, hm, hargs⟩ := hr.args
  obtain rfl : k = m := Option.mem_unique hk hm
  obtain rfl : letId = mark'.id := by
    simpa [Operand.child?_ref] using Operand.view_eq_child.mp hview
  obtain ⟨old, new, n, hold, hnew, hw, htag, hnargs, -⟩ := replace_writes hargs.bears.uses h
  obtain rfl : k = new := Option.mem_unique hk hnew
  have hused : ∀ x, InUse U ts ts' x →
      x = mark.id ∨ InUse (fun x => U x ∧ x ≠ mark.id) ts ts' x := by
    intro x hx
    by_cases heq : x = mark.id
    · exact .inl heq
    · exact .inr (hx.imp_left fun hx => ⟨⟨hx.1, heq⟩, hx.2⟩)
  have hno : ∀ g ∈ c'.shared, mark.id ∉ g := by
    obtain ⟨-, -, -, -, rfl⟩ := replace_ok.mp h
    exact fun g hg => Context.not_mem_detach hg
  rw [← htag]
  refine ⟨n.pos, Reworks.renew hh hargs ⟨hw.get, fun x k hk hx hne => ?_, ?_, hw.size⟩ hnargs⟩
  · exact hw.same x k hk ((hused x hx).resolve_left hne) hne
  · exact (uses_insert hw.uses ⟨n, hw.get⟩ hno).mono hused

/-- The root still has its operands in common with the node that it has been copied to, and only
the root is in use. -/
theorem kept_root {grade : Int → ℚ} (hc : c'.Graded grade) (hh : Bears U c [v] [.node mark tag ts])
    (hn : c.forest.get? mark.id = some n)
    (hshared : c'.shared = ((c.add n).share mark.id ((c.forest.size : Int) + 1)).shared)
    (hkept : Kept (InUse (fun x => U x ∧ x ≠ mark.id) ts
        [.node ⟨(c.forest.size : Int) + 1, n.pos⟩ n.tag ts])
      ((c.add n).share mark.id ((c.forest.size : Int) + 1)) [.ref ((c.forest.size : Int) + 1)]
      [.node ⟨(c.forest.size : Int) + 1, n.pos⟩ n.tag ts] c') :
    Kept U c [v] [.node mark tag ts] c' := by
  obtain ⟨-, hU, hnot, -⟩ := hh.node
  have htwin := twin_reworks hh hn
  obtain ⟨ts2, hr⟩ := hkept
  obtain ⟨t2, rfl⟩ : ∃ t2, ts2 = [t2] := List.length_eq_one_iff.mp hr.bears.denotes.length_eq.symm
  obtain ⟨mark', tag', ts', rfl, hid⟩ :=
    (List.forall₂_cons.mp hr.bears.denotes).1.child (Operand.child?_ref _)
  have hall := htwin.trans (hh.uses.mono fun _ hx => hx.1) hr
  obtain ⟨m, hm, hargs⟩ := hall.args
  rw [← hid] at hm
  have hgroup : ((c.forest.size : Int) + 1) :: c.sharers mark.id ∈ c'.shared := by
    rw [hshared]
    exact List.mem_cons_self
  obtain ⟨r, m', hroot, hm', heq, -⟩ := hc.alike _ hgroup mark.id
    (List.mem_cons_of_mem _ (mem_sharers c mark.id)) _ List.mem_cons_self
  obtain rfl : m = m' := Option.mem_unique hm hm'
  have hmoved : (c.forest.size : Int) + 1 ∉ Tree.idsOf ts' := by
    rw [hid]
    exact hr.bears.node.2.2.1
  -- A node of a group is an old one or the copy, so it is in use only if it was before.
  have hold : ∀ g ∈ c'.shared, ∀ x ∈ g, InUse U ts ts' x → U x := by
    intro g hg x hx hE
    rw [hshared] at hg
    have hbounds := has_iff.mp (htwin.bears.uses.groups g hg x hx)
    have hsize : ((c.add n).forest.size : Int) = c.forest.size + 1 := by simp
    rw [Context.share_forest] at hbounds
    rcases hE with hE | hmem
    · exact hE.1
    · rcases hargs.own x hmem with hmem' | hnew
      · exact hh.used x (by simp [Tree.ids_node', hmem'])
      · obtain rfl : x = (c.forest.size : Int) + 1 := by omega
        exact absurd hmem hmoved
  have huses : c'.Uses (InUse U ts ts') := by
    refine ⟨fun x hx => ?_, hr.bears.uses.groups, fun g hg x hx y hy hUx hUy => ?_⟩
    · rcases hx with hx | hx
      · exact hall.has (hh.uses.has x hx.1)
      · exact hargs.bears.has hx
    · have hx' := hold g hg x hx hUx
      have hy' := hold g hg y hy hUy
      rw [hshared] at hg
      rcases List.mem_cons.mp hg with rfl | hg
      · have honly : ∀ z ∈ ((c.forest.size : Int) + 1) :: c.sharers mark.id, U z → z = mark.id := by
          intro z hz hUz
          rcases List.mem_cons.mp hz with rfl | hz
          · exact absurd rfl (hh.uses.has _ hUz).ne_new
          · exact hh.uses.sharer hU z hz hUz
        rw [honly x hx hx', honly y hy hy']
      · exact hh.uses.apart g (List.mem_filter.mp hg).1 x hx y hy hx' hy'
  exact (Reworks.renew hh hargs ⟨hroot, fun _ _ hk _ _ => hk, huses, rfl⟩ heq).kept

/-- The root takes over the notes of the `let`. -/
theorem replace_carries {id src : Int} (h : replace id src c = .ok u c') :
    (∀ x note, x ≠ id → c.forest.Carries x note → c'.forest.Carries x note) ∧
      ∀ note, id ≠ src → c.forest.Carries src note → c'.forest.Carries id note := by
  obtain ⟨old, new, hold, hnew, rfl⟩ := replace_ok.mp h
  refine ⟨fun x note hx ⟨n, hn, hnote⟩ => ⟨n, ?_, hnote⟩, fun note hne ⟨n, hn, hnote⟩ => ?_⟩
  · rw [Context.detach_forest, Context.put_forest, get?_set, if_neg hx, hn]
  · cases hnew.symm.trans hn
    rw [Carries, Context.detach_forest, Context.put_forest, get?_set, if_pos rfl, hold, if_neg hne]
    exact ⟨_, rfl, hnote⟩

/-- The statements outside every function become a `let` in the place of the root. -/
theorem concludes_root (hc : c.Orderly) (hh : Bears U c [v] [.node mark tag ts]) :
    Concludes (fun _ c' => ∃ pos operands, (c.forest.exportsAt mark.id = [] →
          LetOperands c ⟨[], [(Tree.node mark tag ts).renumbered ((c.forest.size : Int) + 1)]⟩
            (topSetup c.options.wordSize) operands) ∧
        (∀ x note, x ≠ mark.id → c.forest.Carries x note → c'.forest.Carries x note) ∧
        c'.forest.Carries mark.id (Block.frequencies
          ⟨[], [(Tree.node mark tag ts).renumbered ((c.forest.size : Int) + 1)]⟩) ∧
        Reworks U c [.node mark tag ts] c' [v] [.node ⟨mark.id, pos⟩ .letIn operands])
      (Kept U c [v] [.node mark tag ts]) ((do materialize (← rootBody mark.id)) c) := by
  obtain ⟨-, -, -, n, hn, rfl, hpos, -⟩ := hh.node
  obtain ⟨grade, hgraded, hplain⟩ := hc.surveyed
  have hlands := lands_root hgraded ⟨n, hn⟩ (hplain mark.id)
  have htwin := twin_reworks hh hn
  have hbody : rootBody mark.id c = .ok
      { owner := n, site := .root mark.id, stmts := [.ref ((c.forest.size : Int) + 1)] }
      ((c.add n).share mark.id ((c.forest.size : Int) + 1)) := by
    unfold rootBody
    exact bind_ok.mpr ⟨n, c, fetch_ok.mpr ⟨hn, rfl⟩, bind_ok.mpr
      ⟨_, _, twin_ok.mpr ⟨rfl, rfl⟩, pure_ok.mpr ⟨rfl, rfl⟩⟩⟩
  cases h : (do materialize (← rootBody mark.id)) c with
  | ok u c' =>
    obtain ⟨b, d, hb, h⟩ := bind_ok.mp h
    obtain ⟨rfl, rfl⟩ := EStateM.Result.ok.inj (hbody.symm.trans hb)
    obtain ⟨d, letId, mark', operands, ⟨hr, hann, ⟨hsealed, hlayout⟩, hcarries⟩, hinstall⟩ :=
      materialize_let htwin.bears h
    have hall := htwin.trans (hh.uses.mono fun _ hx => hx.1) hr
    obtain ⟨pos, hfinal⟩ := replace_root hh hall hinstall
    rw [hpos] at hsealed hlayout hcarries
    obtain ⟨hother, hself⟩ := replace_carries hinstall
    obtain rfl : letId = mark'.id := by
      simpa [Operand.child?_ref] using Operand.view_eq_child.mp hall.bears.node.1
    refine ⟨pos, operands, fun hroot => ⟨hsealed, fun hplain => ?_⟩, fun x note hx h =>
      hother x note hx (hann.carries x note (h.push n)), hself _ (fun heq => ?_) hcarries, hfinal⟩
    · have hnotes : n.notes.namesAt "exports" = [] := by simpa [exportsAt, hn] using hroot
      refine hlayout fun t ht x hx => ?_
      exact ((Annotates.add (X := fun _ => False) c hnotes).exports x id).trans (hplain t ht x hx)
    · obtain ⟨-, -, hnot, -⟩ := hh.node
      have hold := (get?_eq_some_bounds hn).2
      rcases hall.own mark'.id (by simp [Tree.ids_node']) with hin | hin
      · exact hnot (heq ▸ hin)
      · omega
  | error e c' =>
    intro he
    obtain ⟨-, grade', hon⟩ := hlands.error h
    rcases bind_error.mp h with hb | ⟨b, d, hb, h⟩
    · cases hbody.symm.trans hb
    · obtain ⟨rfl, rfl⟩ := EStateM.Result.ok.inj (hbody.symm.trans hb)
      have hresolve := concludes_resolve [] htwin.bears
      rw [resolve_of_refused he h] at hresolve
      exact kept_root hon.graded.toGraded hh hn (hresolve he).1 (hresolve he).2

end Pass.Environment

end Lowering
