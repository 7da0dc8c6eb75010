import Lowering.Proofs.Desugarings
import Lowering.Proofs.EnvironmentRun
import Lowering.Proofs.FetchedConstants

namespace Lowering

open Forest PassM
open Pass.ClassScopes (stateOf)

/-- The node to which operand positions lead from a node, in this order. -/
def Forest.follow (f : Forest) : List Nat → Int → Option Int
  | [], id => some id
  | i :: path, id => do
    let n ← f.get? id
    let v ← n.args[i]?
    f.follow path (← v.child?)

/-- All operands are there, no node lies below itself, and no two paths from the root lead to one
node. -/
structure Forest.TreeBelow (f : Forest) (root : Int) : Prop where
  valid : f.Valid
  acyclic : f.Acyclic
  once : ∀ p q x, f.follow p root = some x → f.follow q root = some x → p = q

section Paths

variable {f : Forest} {v : Operand} {t : Tree Mark} {mark : Mark} {tag : Tag} {x : Int}
variable {args : List (Tree Mark)}

theorem follow_cons (h : Denotes f v (.node mark tag args))
    (hp : f.follow (i :: p) mark.id = some x) :
    ∃ w s child, args[i]? = some s ∧ Denotes f w s ∧ w.child? = some child ∧
      f.follow p child = some x := by
  obtain ⟨-, n, hn, -, -, hargs⟩ := denotes_node.mp h
  simp only [follow, hn, Option.bind_eq_bind, Option.bind_some, Option.bind_eq_some_iff] at hp
  obtain ⟨w, hw, child, hchild, hp⟩ := hp
  obtain ⟨hi, rfl⟩ := List.getElem?_eq_some_iff.mp hw
  have hi' : i < args.length := hargs.length_eq ▸ hi
  exact ⟨_, args.get ⟨i, hi'⟩, child, List.getElem?_eq_getElem hi', hargs.get hi hi', hchild, hp⟩

theorem follow_mem_ids {p : List Nat} {id : Int} (h : Denotes f v t) (hv : v.child? = some id)
    (hp : f.follow p id = some x) : x ∈ t.ids := by
  induction p generalizing v t id with
  | nil =>
    obtain ⟨mark, tag, args, rfl, rfl⟩ := h.child hv
    obtain rfl : mark.id = x := by simpa [follow] using hp
    simp [Tree.ids_node']
  | cons i p ih =>
    obtain ⟨mark, tag, args, rfl, rfl⟩ := h.child hv
    obtain ⟨w, s, child, hs, hd, hchild, hp⟩ := follow_cons h hp
    rw [Tree.ids_node', List.mem_cons, Tree.mem_idsOf]
    exact .inr ⟨s, List.mem_of_getElem? hs, ih hd hchild hp⟩

/-- A path that goes on does not lead back to where it started. -/
theorem follow_ne (h : Denotes f v (.node mark tag args))
    (hnodup : (Tree.node mark tag args).ids.Nodup) : f.follow (i :: p) mark.id ≠ some mark.id := by
  intro hp
  obtain ⟨w, s, child, hs, hd, hchild, hp⟩ := follow_cons h hp
  rw [Tree.ids_node', List.nodup_cons] at hnodup
  exact hnodup.1 (Tree.mem_idsOf.mpr ⟨s, List.mem_of_getElem? hs, follow_mem_ids hd hchild hp⟩)

theorem follow_unique {p q : List Nat} {id : Int} (h : Denotes f v t) (hv : v.child? = some id)
    (hnodup : t.ids.Nodup) (hp : f.follow p id = some x) (hq : f.follow q id = some x) : p = q := by
  induction p generalizing q v t id with
  | nil =>
    obtain ⟨mark, tag, args, rfl, rfl⟩ := h.child hv
    obtain rfl : mark.id = x := by simpa [follow] using hp
    cases q with
    | nil => rfl
    | cons j q => exact absurd hq (follow_ne h hnodup)
  | cons i p ih =>
    obtain ⟨mark, tag, args, rfl, rfl⟩ := h.child hv
    cases q with
    | nil =>
      obtain rfl : mark.id = x := by simpa [follow] using hq
      exact absurd hp (follow_ne h hnodup)
    | cons j q =>
      obtain ⟨w, s, child, hs, hd, hchild, hp⟩ := follow_cons h hp
      obtain ⟨w', s', child', hs', hd', hchild', hq⟩ := follow_cons h hq
      rw [Tree.ids_node', List.nodup_cons] at hnodup
      obtain rfl : i = j := Tree.index_unique hnodup.2 hs hs' (follow_mem_ids hd hchild hp)
        (follow_mem_ids hd' hchild' hq)
      obtain rfl : s = s' := Option.mem_unique hs hs'
      obtain ⟨mark1, tag1, args1, rfl, rfl⟩ := hd.child hchild
      obtain ⟨mark2, tag2, args2, heq, rfl⟩ := hd'.child hchild'
      cases heq
      have hbelow := (List.nodup_flatMap.mp hnodup.2).1 _ (List.mem_of_getElem? hs)
      rw [ih hd hchild hbelow hp hq]

theorem follow_operand {id : Int} (hn : f.get? id = some n)
    (hchild : (n.args.get ⟨i, hi⟩).child? = some child) :
    f.follow (i :: p) id = f.follow p child := by
  have hget : n.args[i]? = some (n.args.get ⟨i, hi⟩) := List.getElem?_eq_getElem hi
  simp only [follow, hn, hget, hchild, Option.bind_eq_bind, Option.bind_some]

theorem child_of_mem_ids (h : Denotes f v t) (hx : x ∈ t.ids) : ∃ child, v.child? = some child := by
  cases t with
  | leaf a => simp at hx
  | node mark tag args => exact ⟨mark.id, Operand.view_eq_child.mp (denotes_node.mp h).1⟩

theorem exists_follow {id : Int} (h : Denotes f v t) (hv : v.child? = some id) (hx : x ∈ t.ids) :
    ∃ p, f.follow p id = some x := by
  induction t generalizing v id with
  | leaf a => simp at hx
  | node mark tag args ih =>
    obtain ⟨hview, n, hn, -, -, hargs⟩ := denotes_node.mp h
    obtain rfl : mark.id = id := by simpa [Operand.view_eq_child.mp hview] using hv
    rw [Tree.ids_node', List.mem_cons, Tree.mem_idsOf] at hx
    rcases hx with rfl | ⟨s, hs, hx⟩
    · exact ⟨[], rfl⟩
    · obtain ⟨⟨i, hi⟩, rfl⟩ := List.mem_iff_get.mp hs
      have hi' : i < n.args.length := hargs.length_eq ▸ hi
      have hd := hargs.get hi' hi
      obtain ⟨child, hchild⟩ := child_of_mem_ids hd hx
      obtain ⟨p, hp⟩ := ih _ hs hd hchild hx
      exact ⟨i :: p, (follow_operand hn hchild).trans hp⟩

/-- Where no two paths lead to one node, a tree has no node twice. -/
theorem nodup_of_once {id : Int} (h : Denotes f v t) (hv : v.child? = some id)
    (once : ∀ p q x, f.follow p id = some x → f.follow q id = some x → p = q) : t.ids.Nodup := by
  induction t generalizing v id with
  | leaf a => simp
  | node mark tag args ih =>
    obtain ⟨hview, n, hn, -, -, hargs⟩ := denotes_node.mp h
    obtain rfl : mark.id = id := by simpa [Operand.view_eq_child.mp hview] using hv
    have path : ∀ {i} (hi : i < args.length) {x}, x ∈ (args.get ⟨i, hi⟩).ids →
        ∃ p, f.follow (i :: p) mark.id = some x := by
      intro i hi x hx
      have hd := hargs.get (hargs.length_eq ▸ hi) hi
      obtain ⟨child, hchild⟩ := child_of_mem_ids hd hx
      obtain ⟨p, hp⟩ := exists_follow hd hchild hx
      exact ⟨p, (follow_operand hn hchild).trans hp⟩
    rw [Tree.ids_node', List.nodup_cons]
    refine ⟨fun hmem => ?_, List.nodup_flatMap.mpr ⟨fun s hs => ?_, ?_⟩⟩
    · obtain ⟨s, hs, hx⟩ := Tree.mem_idsOf.mp hmem
      obtain ⟨⟨i, hi⟩, rfl⟩ := List.mem_iff_get.mp hs
      obtain ⟨p, hp⟩ := path hi hx
      cases once (i :: p) [] mark.id hp rfl
    · obtain ⟨⟨i, hi⟩, rfl⟩ := List.mem_iff_get.mp hs
      have hd := hargs.get (hargs.length_eq ▸ hi) hi
      cases hnode : args.get ⟨i, hi⟩ with
      | leaf a => simp
      | node mark' tag' args' =>
        rw [hnode] at hd
        have hchild := Operand.view_eq_child.mp (denotes_node.mp hd).1
        refine hnode ▸ ih _ hs (hnode ▸ hd) hchild fun p q x hp hq => ?_
        exact List.cons.inj (once (i :: p) (i :: q) x ((follow_operand hn hchild).trans hp)
          ((follow_operand hn hchild).trans hq)) |>.2
    · refine List.pairwise_iff_getElem.mpr fun i j hi hj hlt x hx hy => ?_
      obtain ⟨p, hp⟩ := path hi hx
      obtain ⟨q, hq⟩ := path hj hy
      exact absurd (List.cons.inj (once _ _ x hp hq)).1 (Nat.ne_of_lt hlt)

end Paths

namespace Pass

variable {U : Int → Prop} {c : Context} {v : Operand} {t : Tree Mark} {root : Int}

theorem retains_discard (h : Retains U [v] [t] x c) : Retains U [v] [t] (discard x) c := by
  unfold Retains at h ⊢
  cases hx : discard x c with
  | ok u d =>
    obtain ⟨a, hx⟩ := discard_ok.mp hx
    rw [hx] at h
    exact h
  | error e d =>
    rw [discard_error.mp hx] at h
    exact h

theorem Validate.visit_open (ht : n.tag ≠ .sexp) : visit n = (do
    check n
    match complaint? n with
    | some complaint => reject n complaint
    | none => return .descend) := by
  unfold visit
  split
  · contradiction
  · rfl

/-- The final check of a node leaves the state alone. -/
theorem Validate.visit_cases (n : Node) :
    (∃ act, act ≠ .stop ∧ (act = .descend → n.tag ≠ .sexp) ∧ ∀ c, visit n c = .ok act c) ∨
      ∃ d, n.tag ≠ .sexp ∧ (n.malformed? = some d ∨
        ∃ complaint, complaint? n = some complaint ∧ d = n.diagnostic complaint) ∧
        ∀ c, visit n c = .error (.rejected d) c := by
  by_cases ht : n.tag = .sexp
  · exact .inl ⟨.skip, by simp, by simp, fun _ => by rw [visit, ht]; rfl⟩
  · rw [visit_open ht]
    unfold check
    cases hm : n.malformed? with
    | some d => exact .inr ⟨d, ht, .inl rfl, fun _ => rfl⟩
    | none =>
      cases hc : complaint? n with
      | some complaint => exact .inr ⟨_, ht, .inr ⟨complaint, rfl, rfl⟩, fun _ => rfl⟩
      | none => exact .inl ⟨.descend, by simp, fun _ => ht, fun _ => rfl⟩

theorem Validate.rewrites :
    Rewrites (fun _ => visit) (fun _ _ _ _ => True) fun _ => True := by
  refine rewrites_aside (fun {_ n c _ _} h => ?_) fun {_ n c _ _} h _ => ?_ <;>
    obtain ⟨act, hact, -, hrun⟩ | ⟨d, -, -, hrun⟩ := visit_cases n <;> cases (hrun c).symm.trans h
  · exact ⟨hact, rfl, rfl⟩
  · rfl

/-- Every pass keeps the tree below its root, also if it refuses it. -/
theorem retains {grade : Int → ℚ} (p : Pass) (hc : c.Graded grade)
    (hh : Bears U c [.ref root] [t]) : Retains U [.ref root] [t] (p.run root) c := by
  have hforms : ∀ forms, p.forms? = some forms → Retains U [.ref root] [t] (p.run root) c := by
    intro forms hp
    obtain ⟨visit, hrewrites, hrun⟩ := rewrites_forms hp
    rw [hrun]
    exact retains_discard (hrewrites.retains hh rfl)
  cases p with
  | classes => exact .aside aside_get hh fun d _ _ _ hh => ClassScopes.retains_build _ _ hh
  | destruct => exact hforms _ rfl
  | concat => exact hforms _ rfl
  | range => exact hforms _ rfl
  | strings => exact retains_discard ((Hoist.rewrites .strings).retains hh rfl)
  | ints => exact retains_discard ((Hoist.rewrites .ints).retains hh rfl)
  | operators => exact hforms _ rfl
  | yield => exact hforms _ rfl
  | env => exact Environment.retains_run ⟨_, hc⟩ hh rfl
  | lambda => exact retains_discard (Closures.rewrites.retains hh rfl)
  | validate => exact retains_discard (Validate.rewrites.retains hh rfl)

end Pass

namespace Pipeline

variable {α β : Type} {I : Context → Prop} {c : Context} {root : Int}

theorem sturdy_of_passes (h : ∀ p, Stable I (fun _ _ => True) (runPass root p)) :
    Sturdy root I fun _ _ => True where
  pass := h
  fingerprint c hc := by
    cases h : c.forest.fingerprint root with
    | ok w =>
      have hrun : Pipeline.fingerprint root c = .ok w c :=
        bind_ok.mpr ⟨c, c, rfl, by rw [h]; rfl⟩
      rw [hrun]
      exact .success hc
    | error f =>
      have hrun : Pipeline.fingerprint root c = .error (.fault f) c :=
        bind_error.mpr (.inr ⟨c, c, rfl, by rw [h]; rfl⟩)
      rw [hrun]
      exact .failure hc trivial
  unknown _ _ _ := trivial

/-- A state in which a tree stands below a root. -/
structure Planted (root : Int) (c : Context) : Prop where
  ready : Ready root c
  tree : ∃ U t, Bears U c [.ref root] [t]

theorem sturdy_planted : Sturdy root (Planted root) fun _ _ => True := by
  refine sturdy_of_passes fun p c hc => ?_
  obtain ⟨U, t, hh⟩ := hc.tree
  obtain ⟨grade, hgrade⟩ := hc.ready.orderly
  have hretains := p.retains hgrade hh
  have planted : ∀ {d ts}, Ready root d → Reworks U c [t] d [.ref root] ts → Planted root d := by
    intro d ts hready hr
    obtain ⟨t', rfl⟩ : ∃ t', ts = [t'] := List.length_eq_one_iff.mp hr.bears.denotes.length_eq.symm
    exact ⟨hready, _, t', hr.bears⟩
  have hready := sturdy_ready.pass p c hc.ready
  unfold runPass at hready ⊢
  unfold Retains at hretains
  cases h : p.run root c with
  | ok u d =>
    rw [h] at hretains hready
    obtain ⟨ts, hr⟩ := hretains
    cases hready with
    | success hready => exact .success (planted hready hr)
  | error e d =>
    rw [h] at hretains hready
    cases hready with
    | failure hready hexcused =>
      obtain ⟨ts, hr⟩ := hretains (hexcused.imp_right And.left)
      exact .failure (planted hready hr) trivial

theorem Planted.treeBelow (h : Planted root c) : c.forest.TreeBelow root := by
  obtain ⟨U, t, hh⟩ := h.tree
  obtain ⟨grade, hgrade⟩ := h.ready.orderly
  refine ⟨hgrade.valid, hgrade.acyclic, fun p q x hp hq => ?_⟩
  exact follow_unique (List.forall₂_cons.mp hh.denotes).1 rfl (by simpa using hh.nodup) hp hq

theorem planted_of_parse (h : Forest.parse file source = .ok (f, root)) (c : Context) :
    Planted root (c.withForest f) := by
  obtain ⟨hvalid, hroot⟩ := valid_of_parse h
  have hacyclic := (Forest.parse_grown h).ordered.acyclic
  have tidy : (c.withForest f).Tidy := ⟨rfl, hacyclic, hvalid⟩
  obtain ⟨t, ht, hnodup⟩ := Forest.parse_tree h
  exact ⟨⟨tidy.orderly, hroot⟩, _, t, bears_of_denotes rfl ht hnodup⟩

/-- The steps that change a node in place. -/
inductive InPlace (id : Int) : PassM Unit → Prop where
  | update (change : Node → Node) : InPlace id (PassM.update id change)
  | reshape (tag : Tag) (args : List Operand) : InPlace id (PassM.reshape id tag args)
  | setArgs (args : List Operand) : InPlace id (PassM.setArgs id args)
  | renewArgs (args : List Operand) : InPlace id (PassM.renewArgs id args)
  | replace (src : Int) : InPlace id (PassM.replace id src)

/-- Of the nodes in use only one is changed. -/
theorem InPlace.frame {id x : Int} (hU : c.Uses U) (hstep : InPlace id step) (hid : U id) (hx : U x)
    (hne : x ≠ id) (h : step c = .ok u c') : c'.forest.get? x = c.forest.get? x := by
  obtain ⟨m, hm⟩ := hU.has x hx
  rw [hm]
  cases hstep with
  | update change =>
    obtain ⟨_, -, hw⟩ := update_writes hU h
    exact hw.same x m hm hx hne
  | reshape tag args =>
    obtain ⟨_, -, hw⟩ := reshape_writes hU h
    exact hw.same x m hm hx hne
  | setArgs args =>
    obtain ⟨_, -, hw⟩ := setArgs_writes hU hid h
    exact hw.same x m hm hx hne
  | renewArgs args =>
    obtain ⟨_, -, hw⟩ := renewArgs_writes hU h
    exact hw.same x m hm hx hne
  | replace src =>
    obtain ⟨_, _, _, -, -, hw, -⟩ := replace_writes hU h
    exact hw.same x m hm hx hne

theorem Planted.frame (h : Planted root c) (hp : c.forest.follow p root = some x)
    (hq : c.forest.follow q root = some y) (hpq : p ≠ q) (hstep : InPlace x step)
    (hrun : step c = .ok u c') : c'.forest.get? y = c.forest.get? y := by
  obtain ⟨U, t, hh⟩ := h.tree
  have hdenotes := (List.forall₂_cons.mp hh.denotes).1
  have hused : ∀ {r z}, c.forest.follow r root = some z → U z := fun hr =>
    hh.used _ (by simpa using follow_mem_ids hdenotes rfl hr)
  refine hstep.frame hh.uses (hused hp) (hused hq) (fun heq => hpq ?_) hrun
  exact h.treeBelow.once p q x hp (heq ▸ hq)

/-- Below the root of a source that has been read there is a tree, whatever the state it is read in
and after any calls, failed ones among them; and a step that changes a node in one place of it
changes none in another. -/
theorem tree_after {file source : Text} {f : Forest} (h : Forest.parse file source = .ok (f, root))
    (c : Context) (calls : List Call) :
    (after root calls (c.withForest f)).forest.TreeBelow root ∧
      ∀ p q x y step u c', (after root calls (c.withForest f)).forest.follow p root = some x →
        (after root calls (c.withForest f)).forest.follow q root = some y → p ≠ q →
        InPlace x step → step (after root calls (c.withForest f)) = .ok u c' →
        c'.forest.get? y = (after root calls (c.withForest f)).forest.get? y := by
  have hplanted := sturdy_planted.after calls (planted_of_parse h c)
  exact ⟨hplanted.treeBelow, fun p q x y step u c' hp hq hpq hstep hrun =>
    hplanted.frame hp hq hpq hstep hrun⟩

/-- A source that the environment pass refuses after it has come to the statements outside every
function. -/
def refused : Text := "(do (defm f (a) ((lambda (x) (add a x)))) (g (proc () (x)) (destruct)))"

/-- Twice the root is copied for an environment that it does not get, and then it has its operands
in common with both copies. -/
theorem tree_after_refused : ∃ f root d, Forest.parse "t" refused = .ok (f, root) ∧
    d = after root [.pass .env, .enabled, .pass .lambda, .pass .env]
      ((Context.ofForest {} {}).withForest f) ∧
    d.hoisted.length = 2 ∧ (d.sharers root).length = 3 ∧ d.forest.TreeBelow root ∧
    ∀ p q x y step u c', d.forest.follow p root = some x → d.forest.follow q root = some y →
      p ≠ q → InPlace x step → step d = .ok u c' → c'.forest.get? y = d.forest.get? y := by
  have hrun : ((Forest.parse "t" refused).toOption.any fun p =>
      let d := after p.2 [.pass .env, .enabled, .pass .lambda, .pass .env]
        ((Context.ofForest {} {}).withForest p.1)
      decide (d.hoisted.length = 2 ∧ (d.sharers p.2).length = 3)) = true := by decide +kernel
  cases hparse : Forest.parse "t" refused with
  | error e => simp [hparse, Except.toOption] at hrun
  | ok p =>
    obtain ⟨f, root⟩ := p
    simp only [hparse, Except.toOption, Option.any_some, decide_eq_true_eq] at hrun
    have htree := tree_after hparse (Context.ofForest {} {})
      [.pass .env, .enabled, .pass .lambda, .pass .env]
    exact ⟨f, root, _, rfl, rfl, hrun.1, hrun.2, htree.1, htree.2⟩

end Pipeline

end Lowering
