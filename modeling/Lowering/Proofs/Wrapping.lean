import Lowering.Proofs.ClosurePlaces
import Lowering.Proofs.EnvironmentCases
import Lowering.Proofs.Grafts

namespace Lowering

namespace Tree

open Scope

/-- The `let` into which the statements of a closure are put. -/
def letTree (pos : Position) (cl : Closed) (b : Int) (stmts : List (Tree Mark)) : Tree Mark :=
  .node ⟨b, pos⟩ .letIn
    (.node ⟨b - 1, pos⟩ .list (cl.vars.map fun x => .leaf (.sym x)) :: stmts)

/-- The operands of a closure whose statements are put into a `let` of its variables. -/
def wrapArgs (pos : Position) (cl : Closed) (b : Int) : List (Tree Mark) → List (Tree Mark)
  | params :: body :: rest => params :: letTree pos cl b body.elems :: rest
  | args => args

/-- The `let` for a closure, if it gets one. -/
def letOf (lets : Int → Option (Closed × Int)) (mark : Mark) (tag : Tag) : Option (Closed × Int) :=
  if tag.isClosure then lets mark.id else none

mutual
/-- A tree in which some closures have their statements in numbered `let`s. -/
def wrapped (lets : Int → Option (Closed × Int)) : Tree Mark → Tree Mark
  | leaf a => leaf a
  | node mark tag args =>
    match letOf lets mark tag with
    | some (cl, b) => node mark tag (wrapArgs mark.pos cl b (wrappedEach lets args))
    | none => node mark tag (wrappedEach lets args)

def wrappedEach (lets : Int → Option (Closed × Int)) : List (Tree Mark) → List (Tree Mark)
  | [] => []
  | t :: ts => wrapped lets t :: wrappedEach lets ts
end

variable {lets : Int → Option (Closed × Int)}

theorem letOf_eq_some :
    letOf lets mark tag = some e ↔ tag.isClosure = true ∧ lets mark.id = some e := by
  unfold letOf
  split <;> simp_all

theorem letOf_eq_none :
    letOf lets mark tag = none ↔ (tag.isClosure = true → lets mark.id = none) := by
  unfold letOf
  split <;> simp_all

theorem wrappedEach_eq (ts : List (Tree Mark)) : wrappedEach lets ts = ts.map (wrapped lets) :=
  eq_map rfl (fun _ _ => rfl) ts

theorem wrapped_none (h : letOf lets mark tag = none) :
    wrapped lets (.node mark tag args) = .node mark tag (args.map (wrapped lets)) := by
  rw [wrapped, h, ← wrappedEach_eq]

theorem wrapped_some (h : letOf lets mark tag = some (cl, b)) : wrapped lets (.node mark tag args) =
      .node mark tag (wrapArgs mark.pos cl b (args.map (wrapped lets))) := by
  rw [wrapped, h, ← wrappedEach_eq]

theorem symbol?_wrapped (t : Tree Mark) : (t.wrapped lets).symbol? = t.symbol? := by
  cases t with
  | leaf a => rfl
  | node mark tag args =>
    cases h : letOf lets mark tag with
    | none => rw [wrapped_none h]; rfl
    | some e => rw [wrapped_some h]; rfl

theorem ids_elems (t : Tree Mark) : (t.elems.flatMap ids).Sublist t.ids := by
  unfold elems
  split
  · simp
  · rw [ids_node]
    exact List.sublist_cons_self _ _
  · simp

theorem elems_wrapped (t : Tree Mark) : (t.wrapped lets).elems = t.elems.map (wrapped lets) := by
  cases t with
  | leaf a => cases a <;> rfl
  | node mark tag args =>
    by_cases hl : tag = .list
    · subst hl
      rw [wrapped_none (letOf_eq_none.mpr fun h => by cases h)]
      rfl
    · rw [elems_node hl]
      cases h : letOf lets mark tag with
      | none =>
        rw [List.map_singleton, wrapped_none h, elems_node hl]
      | some e =>
        rw [List.map_singleton, wrapped_some h, elems_node hl]

theorem paramName?_wrapped (t : Tree Mark) : (t.wrapped lets).paramName? = t.paramName? := by
  cases t with
  | leaf a => rfl
  | node mark tag args =>
    cases h : letOf lets mark tag with
    | none =>
      rw [wrapped_none h]
      cases args with
      | nil => rfl
      | cons first rest => exact symbol?_wrapped first
    | some e =>
      rw [wrapped_some h]
      rcases args with _ | ⟨first, _ | ⟨second, rest⟩⟩
      · rfl
      · exact symbol?_wrapped first
      · exact symbol?_wrapped first

theorem paramNames_wrapped (t : Tree Mark) : (t.wrapped lets).paramNames = t.paramNames := by
  unfold paramNames
  rw [elems_wrapped, List.filterMap_map]
  congr 1
  exact funext fun s => paramName?_wrapped s

/-- A closure whose statements are put into a `let` of its variables. -/
def wrapNode (cl : Closed) (b : Int) : Tree Mark → Tree Mark
  | leaf a => leaf a
  | node mark tag args => node mark tag (wrapArgs mark.pos cl b args)

variable {t u : Tree Mark} {mark : Mark} {tag : Tag} {args us : List (Tree Mark)} {x b b' : Int}
variable {cl cl' : Closed} {lets' : Int → Option (Closed × Int)} {skips : Tag → Bool}

theorem wrapped_node (lets : Int → Option (Closed × Int)) (mark : Mark) (tag : Tag)
    (args : List (Tree Mark)) : ∃ args',
    (node mark tag args).wrapped lets = node mark tag args' := by
  cases h : letOf lets mark tag with
  | none => exact ⟨_, wrapped_none h⟩
  | some e => exact ⟨_, wrapped_some h⟩

/-- Only what is said of nodes of the tree matters. -/
theorem wrapped_congr (h : ∀ x ∈ t.ids, lets x = lets' x) : t.wrapped lets = t.wrapped lets' := by
  induction t with
  | leaf a => rfl
  | node mark tag args ih =>
    rw [ids_node, List.forall_mem_cons] at h
    have hargs : args.map (wrapped lets) = args.map (wrapped lets') :=
      List.map_congr_left fun s hs => ih s hs fun y hy => h.2 y (List.mem_flatMap.mpr ⟨s, hs, hy⟩)
    have hlet : letOf lets mark tag = letOf lets' mark tag := by rw [letOf, letOf, h.1]
    cases hl : letOf lets mark tag with
    | none => rw [wrapped_none hl, wrapped_none (hlet ▸ hl), hargs]
    | some e => rw [wrapped_some hl, wrapped_some (hlet ▸ hl), hargs]

/-- Without closures that have a `let` nothing is wrapped. -/
theorem wrapped_eq (h : ∀ x ∈ t.ids, lets x = none) : t.wrapped lets = t := by
  induction t with
  | leaf a => rfl
  | node mark tag args ih =>
    rw [ids_node, List.forall_mem_cons] at h
    rw [wrapped_none (letOf_eq_none.mpr fun _ => h.1), map_eq_self fun s hs =>
      ih s hs fun y hy => h.2 y (List.mem_flatMap.mpr ⟨s, hs, hy⟩)]

theorem elems_graft_wrapNode (h : ∀ mark args, t = .node mark .list args → mark.id ≠ x) :
    (t.graft x (wrapNode cl b)).elems = t.elems.map (graft x (wrapNode cl b)) := by
  cases t with
  | leaf a => cases a <;> rfl
  | node mark tag args =>
    by_cases hl : tag = .list
    · subst hl
      rw [graft_node (h mark args rfl)]
      rfl
    · rw [elems_node hl, List.map_singleton]
      by_cases hid : mark.id = x
      · rw [graft_self hid]
        exact elems_node hl
      · rw [graft_node hid]
        exact elems_node hl

theorem map_graft_wrapArgs (hb : b' ≠ x) (hv : b' - 1 ≠ x)
    (h : ∀ s ∈ us, ∀ mark args, s = .node mark .list args → mark.id ≠ x) :
    (wrapArgs pos cl' b' us).map (graft x (wrapNode cl b)) =
      wrapArgs pos cl' b' (us.map (graft x (wrapNode cl b))) := by
  rcases us with _ | ⟨params, _ | ⟨body, rest⟩⟩
  · rfl
  · rfl
  · have hbody : (body.graft x (wrapNode cl b)).elems = body.elems.map (graft x (wrapNode cl b)) :=
      elems_graft_wrapNode (h body (by simp))
    have hlet : (⟨b', pos⟩ : Mark).id ≠ x := hb
    have hvars : (⟨b' - 1, pos⟩ : Mark).id ≠ x := hv
    have hnames : (cl'.vars.map fun y => (leaf (.sym y) : Tree Mark)).map
        (graft x (wrapNode cl b)) = cl'.vars.map fun y => leaf (.sym y) := by
      rw [List.map_map]
      rfl
    simp only [wrapArgs, letTree, List.map_cons, hbody, graft_node hlet, graft_node hvars, hnames]

/-- A closure that has no `let` yet gets one in the tree where the others have theirs. -/
theorem graft_wrapped (hd : t.ids.Nodup) (hnone : lets x = none)
    (hfresh : ∀ y cl' b', lets y = some (cl', b') → b' ≠ x ∧ b' - 1 ≠ x)
    (hx : ∀ mark tag args, .node mark tag args ∈ t.nodes → mark.id = x → tag.isClosure = true) :
    (t.wrapped lets).graft x (wrapNode cl b) =
      t.wrapped (Function.update lets x (some (cl, b))) := by
  induction t with
  | leaf a => rfl
  | node mark tag args ih =>
    rw [ids_node, List.nodup_cons] at hd
    have heach : (args.map (wrapped lets)).map (graft x (wrapNode cl b)) =
        args.map (wrapped (Function.update lets x (some (cl, b)))) := by
      rw [List.map_map]
      refine List.map_congr_left fun s hs => ih s hs ((List.nodup_flatMap.mp hd.2).1 s hs) ?_
      exact fun m tag' as hmem => hx m tag' as (mem_nodes_operand hs hmem)
    by_cases hid : mark.id = x
    · have ht := hx mark tag args self_mem_nodes hid
      have hlet : letOf (Function.update lets x (some (cl, b))) mark tag = some (cl, b) :=
        letOf_eq_some.mpr ⟨ht, by rw [hid, Function.update_self]⟩
      have hargs : args.map (wrapped (Function.update lets x (some (cl, b)))) =
          args.map (wrapped lets) := by
        refine List.map_congr_left fun s hs => wrapped_congr fun y hy => ?_
        refine Function.update_of_ne ?_ _ _
        rintro rfl
        exact hd.1 (hid ▸ List.mem_flatMap.mpr ⟨s, hs, hy⟩)
      rw [wrapped_none (letOf_eq_none.mpr fun _ => hid ▸ hnone), wrapped_some hlet, graft_self hid,
        hargs]
      rfl
    · have hlet : letOf (Function.update lets x (some (cl, b))) mark tag = letOf lets mark tag := by
        rw [letOf, letOf, Function.update_of_ne hid]
      cases hl : letOf lets mark tag with
      | none => rw [wrapped_none hl, wrapped_none (hlet.trans hl), graft_node hid, heach]
      | some e =>
        obtain ⟨hb, hv⟩ := hfresh mark.id e.1 e.2 (letOf_eq_some.mp hl).2
        rw [wrapped_some hl, wrapped_some (hlet.trans hl), graft_node hid, ← heach,
          map_graft_wrapArgs hb hv]
        intro s hs m as heq
        obtain ⟨s, hmem, rfl⟩ := List.mem_map.mp hs
        cases s with
        | leaf a => cases heq
        | node m' tag' as' =>
          -- the node keeps its mark and its tag, so it is no closure
          obtain ⟨as'', hform⟩ := wrapped_node lets m' tag' as'
          rw [hform] at heq
          obtain ⟨rfl, rfl, -⟩ := node.inj heq
          intro hm
          have := hx m' _ as' (mem_nodes_operand hmem self_mem_nodes) hm
          cases this

theorem exists_mem_wrapArgs (hlet : skips .letIn = false) (hs : s ∈ us) (hu : u ∈ s.within skips)
    (hl : ∀ mark args, u ≠ .node mark .list args) :
    ∃ r ∈ wrapArgs pos cl b us, u ∈ r.within skips := by
  rcases us with _ | ⟨params, _ | ⟨body, rest⟩⟩
  · cases hs
  · exact ⟨s, hs, hu⟩
  · rw [wrapArgs]
    simp only [List.mem_cons] at hs
    rcases hs with rfl | rfl | hs
    · exact ⟨s, by simp, hu⟩
    · obtain ⟨e, he, hu⟩ := mem_nodes_elems hu hl
      refine ⟨_, List.mem_cons_of_mem _ List.mem_cons_self, ?_⟩
      exact mem_within_operand hlet (List.mem_cons_of_mem _ he) hu
    · exact ⟨s, by simp [hs], hu⟩

/-- All that is no list is still there. -/
theorem wrapped_mem_nodes (hlet : skips .letIn = false) (hu : u ∈ t.within skips)
    (hl : ∀ mark args, u ≠ .node mark .list args) :
    u.wrapped lets ∈ (t.wrapped lets).within skips := by
  induction t with
  | leaf a => cases hu
  | node mark tag args ih =>
    rcases mem_within_node.mp hu with rfl | ⟨ht, s, hs, hu⟩
    · obtain ⟨args', hform⟩ := wrapped_node lets mark tag args
      rw [hform]
      exact self_mem_nodes
    · have hin := ih s hs hu
      have hmem := List.mem_map_of_mem (f := wrapped lets) hs
      cases h : letOf lets mark tag with
      | none =>
        rw [wrapped_none h]
        exact mem_within_operand ht hmem hin
      | some e =>
        have hl' : ∀ mark args, u.wrapped lets ≠ .node mark .list args := by
          intro m as heq
          obtain ⟨m', tag', as', rfl⟩ := exists_of_mem_within hu
          obtain ⟨as'', hform⟩ := wrapped_node lets m' tag' as'
          rw [hform] at heq
          obtain ⟨rfl, rfl, -⟩ := node.inj heq
          exact hl _ _ rfl
        rw [wrapped_some h]
        obtain ⟨r, hr, hin⟩ : ∃ r ∈ wrapArgs mark.pos e.1 e.2 (args.map (wrapped lets)), _ :=
          exists_mem_wrapArgs hlet hmem hin hl'
        exact mem_within_operand ht hr hin

/-- A closure without statements. -/
def Bodiless : Tree Mark → Prop
  | leaf _ => True
  | node _ _ args => ∀ body, args[1]? = some body → body = .leaf .nil

theorem bodiless_wrapped : (node mark tag (args.map (wrapped lets))).Bodiless ↔
    (node mark tag args).Bodiless := by
  have hnil : ∀ s : Tree Mark, s.wrapped lets = .leaf .nil ↔ s = .leaf .nil := by
    intro s
    cases s with
    | leaf a => rfl
    | node m tag' as =>
      obtain ⟨as', hform⟩ := wrapped_node lets m tag' as
      rw [hform]
      exact iff_of_false nofun nofun
  show (∀ body, (args.map (wrapped lets))[1]? = some body → body = .leaf .nil) ↔
    ∀ body, args[1]? = some body → body = .leaf .nil
  rw [List.getElem?_map]
  cases args[1]? with
  | none => exact iff_of_true nofun nofun
  | some s => simp [hnil]

end Tree

namespace Pass.Environment

open Forest PassM Scope

variable {U : Int → Prop} {c c1 c' : Context} {v : Operand} {vs : List Operand}
variable {ts args : List (Tree Mark)} {mark : Mark} {tag : Tag} {u : Unit} {cl : Closed}

theorem exportsNoted_reworks (hh : Bears U c [v] [.node mark tag args]) (hid : mark.id = cl.id)
    (h : exportsNoted cl c c1) :
    Reworks U c [.node mark tag args] c1 [v] [.node mark tag args] := by
  rcases h with ⟨-, rfl⟩ | ⟨-, n, hn, rfl⟩
  · exact .refl hh
  · rw [← hid] at hn ⊢
    obtain rfl := (hh.stored hn).1
    have hupdate : update mark.id (·.annotate "exports" (.names (some cl.exports))) c =
        .ok ⟨⟩ (c.put mark.id (n.annotate "exports" (.names (some cl.exports)))) :=
      update_ok.mpr ⟨n, hn, rfl⟩
    exact update_reworks hh hn rfl rfl hupdate

/-- The statements of a body are borne as the body is. -/
theorem bears_elems (hh : Bears U c [v] [t]) (h : c.forest.elems v = .ok vs) :
    List.Forall₂ (Denotes c.forest) vs t.elems := by
  obtain ⟨vs', hvs, hd⟩ := Denotes.elems (List.forall₂_cons.mp hh.denotes).1
  obtain rfl : vs' = vs := Except.ok.inj (hvs.symm.trans h)
  exact hd

theorem idsOf_elems (t : Tree Mark) : (Tree.idsOf t.elems).Sublist (Tree.idsOf [t]) := by
  have h := t.ids_elems
  simpa [Tree.idsOf] using h

theorem bodiless_iff {n : Node} (h : List.Forall₂ (Denotes f) n.args args) :
    (Tree.node mark tag args).Bodiless ↔
      ∀ params body rest, n.args = params :: body :: rest → body.isNil = true := by
  unfold Tree.Bodiless
  generalize n.args = ops at h
  cases h with
  | nil => exact iff_of_true nofun nofun
  | cons _ h =>
    cases h with
    | nil => exact iff_of_true nofun nofun
    | @cons w body ws rest hbody hrest =>
      have hnil : w.isNil = true ↔ body = .leaf .nil := by
        rw [← Operand.view_eq_nil]
        refine ⟨hbody.leaf_of_view, ?_⟩
        rintro rfl
        exact hbody
      constructor
      · intro hbare _ _ _ heq
        cases heq
        exact hnil.mpr (hbare body rfl)
      · intro hbare s hs
        cases hs
        exact hnil.mp (hbare _ w ws rfl)

/-- A closure is given its `let`. -/
theorem wrap_reworks (hh : Bears U c [v] [.node mark tag args]) (hid : mark.id = cl.id)
    (h : wrap cl c = .ok u c') :
    (Tree.node mark tag args).Bodiless ∧
        Reworks U c [.node mark tag args] c' [v] [.node mark tag args] ∨
      ¬ (Tree.node mark tag args).Bodiless ∧ (c.forest.size : Int) + 2 ≤ c'.forest.size ∧
        Reworks U c [.node mark tag args] c' [v]
          [(Tree.node mark tag args).wrapNode cl ((c.forest.size : Int) + 2)] := by
  obtain ⟨d, n, hnoted, hn, hcases⟩ := wrap_ok h
  have hr := exportsNoted_reworks hh hid hnoted
  have hsize : d.forest.size = c.forest.size := by
    rcases hnoted with ⟨-, rfl⟩ | ⟨-, m, -, rfl⟩
    · rfl
    · exact Forest.size_set _ _ _
  have hd := hr.bears
  rw [← hid] at hn hcases
  obtain ⟨-, hpos, hbelow⟩ := hd.stored hn
  have hbare : (Tree.node mark tag args).Bodiless ↔ _ := bodiless_iff hbelow.denotes
  rcases hcases with ⟨hless, rfl⟩ | ⟨params, body, rest, stmts, vars, d1, wrapped, d2, hargs, hnil,
    helems, hvars, hlet, hset⟩
  · exact .inl ⟨hbare.mpr hless, hr⟩
  · rw [hargs] at hbelow
    obtain ⟨p, _, -, hrest, rfl⟩ := List.forall₂_cons_left_iff.mp hbelow.denotes
    obtain ⟨b, rs, -, -, rfl⟩ := List.forall₂_cons_left_iff.mp hrest
    have hstmts := bears_elems hbelow.tail.head helems
    have hlist := (Makes.syms d cl.vars).list hvars
    have hmade := (hlist.append (.keep (Denotes.growEach hstmts hlist.grows))).node hlet
    have hbody := hmade.reworks hbelow.tail.head (idsOf_elems b).subperm
    have hset := setArgs_reworks hd ((hbody.keepTail hbelow.tail).keepHead hbelow) hset
    have hgrown : d1.forest.size = d.forest.size + 1 := by
      obtain ⟨-, rfl⟩ := list_ok.mp hvars
      exact Forest.size_push _ _
    have hall := hr.trans hh.uses hset
    have hform : (Tree.node mark tag (p :: b :: rs)).wrapNode cl ((c.forest.size : Int) + 2) =
        .node mark tag ([p] ++ ([.node ⟨(d1.forest.size : Int) + 1, n.pos⟩ .letIn
          ([.node ⟨(d.forest.size : Int) + 1, n.pos⟩ .list (cl.vars.map fun x => .leaf (.sym x))] ++
            b.elems)] ++ rs)) := by
      have hb : (c.forest.size : Int) + 2 = (d1.forest.size : Int) + 1 := by omega
      have hv : (d1.forest.size : Int) + 1 - 1 = (d.forest.size : Int) + 1 := by omega
      simp only [Tree.wrapNode, Tree.wrapArgs, Tree.letTree, hb, hv, hpos]
      rfl
    rw [hform]
    refine .inr ⟨fun hb => ?_, ?_, hall⟩
    · rw [hbare.mp hb params body rest hargs] at hnil
      cases hnil
    · have hhas := hall.bears.has (x := (d1.forest.size : Int) + 1) (by simp [Tree.ids_node'])
      have := (has_iff.mp hhas).2
      omega

theorem exportsNoted_annotates (h : exportsNoted cl c c1) : Annotates (· = cl.id) c c1 ∧
    (c.forest.exportsAt cl.id = [] → c1.forest.exportsAt cl.id = cl.exports) := by
  rcases h with ⟨he, rfl⟩ | ⟨he, n, hn, rfl⟩
  · exact ⟨.refl _, fun h => h.trans he.symm⟩
  · refine ⟨.put hn (fun hne => absurd rfl hne) ?_, fun _ => ?_⟩
    · exact (Notes.find?_insert _ _ _ _).trans (if_neg (by decide))
    · rw [exportsAt, Context.put_forest, get?_set]
      simp [hn, Node.annotate, Notes.namesAt]

theorem wrap_annotates (h : wrap cl c = .ok u c') : Annotates (· = cl.id) c c' ∧
    (c.forest.exportsAt cl.id = [] → c'.forest.exportsAt cl.id = cl.exports) := by
  obtain ⟨d, n, hnoted, -, hcases⟩ := wrap_ok h
  have hd := exportsNoted_annotates hnoted
  rcases hcases with ⟨-, rfl⟩ | ⟨params, body, rest, stmts, vars, d1, wrapped, d2, -, -, -, hvars,
    hlet, hset⟩
  · exact hd
  · have hafter : ∀ {X : Int → Prop}, Annotates X d c' := by
      intro X
      exact ((node_annotates hvars).trans (node_annotates hlet)).trans (setArgs_annotates hset)
    refine ⟨hd.1.trans hafter, fun hnone => ?_⟩
    rw [(hafter (X := fun _ => False)).exports cl.id nofun, hd.2 hnone]

theorem quiet_wrap (cl : Closed) : Quiet (wrap cl) := by
  have henclose : Quiet (enclose cl) := by
    refine (quiet_fetch _).bind fun n => ?_
    split
    · split
      · exact (quiet_query _).bind fun _ => (quiet_list _ _).bind fun _ =>
          (quiet_node _ _ _).bind fun _ => quiet_setArgs _ _
      · exact quiet_pure _
    · exact quiet_pure _
  obtain ⟨-, heq⟩ | ⟨-, heq⟩ := wrap_eq cl <;> rw [heq]
  · exact henclose
  · exact (quiet_update _ _).bind fun _ => henclose

/-- Some closures of some trees have got their `let`s. -/
structure Wrapped (U : Int → Prop) (c : Context) (vs : List Operand) (ts : List (Tree Mark))
    (done : List Closed) (lets : Int → Option (Closed × Int)) (d : Context) : Prop where
  reworks : Reworks U c ts d vs (ts.map (Tree.wrapped lets))
  shared : d.shared = c.shared
  annotates : Annotates (· ∈ done.map Closed.id) c d
  noted : ∀ cl ∈ done, c.forest.exportsAt cl.id = [] → d.forest.exportsAt cl.id = cl.exports
  entries : ∀ x cl b, lets x = some (cl, b) → cl ∈ done ∧ cl.id = x ∧
    (c.forest.size : Int) + 1 < b ∧ b ≤ d.forest.size
  unique : ∀ x y cl cl' b, lets x = some (cl, b) → lets y = some (cl', b) → x = y
  bodies : ∀ cl ∈ done, ∀ t ∈ ts, ∀ u ∈ t.nodes, u.root = cl.id →
    lets cl.id = none ∧ u.Bodiless ∨ ¬ u.Bodiless ∧ ∃ b, lets cl.id = some (cl, b)

variable {t : Tree Mark} {done : List Closed} {lets : Int → Option (Closed × Int)} {d : Context}

theorem wrapped_start (hh : Bears U c vs ts) : Wrapped U c vs ts [] (fun _ => none) c where
  reworks := by
    rw [Tree.map_eq_self fun t _ => Tree.wrapped_eq fun _ _ => rfl]
    exact .refl hh
  shared := rfl
  annotates := .refl c
  noted := nofun
  entries := nofun
  unique := nofun
  bodies := nofun

theorem shared_wrap (h : wrap cl c = .ok u c') : c'.shared = c.shared := by
  obtain ⟨d, n, hnoted, -, hcases⟩ := wrap_ok h
  have hd : d.shared = c.shared := by
    rcases hnoted with ⟨-, rfl⟩ | ⟨-, m, -, rfl⟩
    · rfl
    · rfl
  rcases hcases with ⟨-, rfl⟩ | ⟨params, body, rest, stmts, vars, d1, wrapped, d2, -, -, -, hvars,
    hlet, hset⟩
  · exact hd
  · obtain ⟨-, rfl⟩ := list_ok.mp hvars
    obtain ⟨-, rfl⟩ := node_ok.mp hlet
    exact (setArgs_frame hset).1.trans hd

/-- One more closure has its `let`. -/
theorem Wrapped.step (hh : Bears U c vs ts) (hw : Wrapped U c vs ts done lets d)
    (hnew : cl.id ∉ done.map Closed.id) (ht : t ∈ ts) (hmem : .node mark tag args ∈ t.nodes)
    (hid : mark.id = cl.id) (hc : tag.isClosure = true) (h : wrap cl d = .ok u c') :
    ∃ lets', Wrapped U c vs ts (done ++ [cl]) lets' c' := by
  have hnone : lets cl.id = none := by
    cases hlet : lets cl.id with
    | none => rfl
    | some e =>
      obtain ⟨hcl, heq, -⟩ := hw.entries cl.id e.1 e.2 hlet
      exact absurd (heq ▸ List.mem_map_of_mem hcl) hnew
  have hbound : cl.id ≤ c.forest.size := by
    have hroot : mark.id ∈ t.ids := Tree.root_mem_ids_of_within hmem
    have := (has_iff.mp (hh.has (Tree.mem_idsOf.mpr ⟨t, ht, hroot⟩))).2
    omega
  -- the closure is the only node with its number
  have honly : ∀ t' ∈ ts, ∀ s ∈ t'.nodes, s.root = cl.id → s = .node mark tag args := by
    intro t' ht' s hs hroot
    exact Tree.eq_of_same_root_each hh.nodup ht' ht hs hmem (hroot.trans hid.symm)
  have hform : (Tree.node mark tag args).wrapped lets =
      .node mark tag (args.map (Tree.wrapped lets)) :=
    Tree.wrapped_none (Tree.letOf_eq_none.mpr fun _ => hid ▸ hnone)
  have hplace : _ ∈ (t.wrapped lets).nodes := Tree.wrapped_mem_nodes rfl hmem fun m as heq => by
    obtain ⟨-, rfl, -⟩ := Tree.node.inj heq
    cases hc
  rw [hform] at hplace
  have hgraft := hw.reworks.bears.grafts (List.mem_map_of_mem ht) hplace
  obtain ⟨hann, hnote⟩ := wrap_annotates h
  have hshared := (shared_wrap h).trans hw.shared
  have hsize := hw.reworks.size
  have hannotates : Annotates (· ∈ (done ++ [cl]).map Closed.id) c c' := by
    refine (hw.annotates.mono fun x hx => ?_).trans (hann.mono fun x hx => ?_)
    · simp only [List.map_append, List.mem_append]
      exact .inl hx
    · simp [hx]
  have hnoted : ∀ cl' ∈ done ++ [cl], c.forest.exportsAt cl'.id = [] →
      c'.forest.exportsAt cl'.id = cl'.exports := by
    intro cl' hcl' hplain
    rcases List.mem_append.mp hcl' with hcl' | hcl'
    · have hne : cl'.id ≠ cl.id := fun heq => hnew (heq ▸ List.mem_map_of_mem hcl')
      rw [hann.exports cl'.id hne]
      exact hw.noted cl' hcl' hplain
    · obtain rfl := List.mem_singleton.mp hcl'
      exact hnote ((hw.annotates.exports _ hnew).trans hplain)
  rcases wrap_reworks hgraft.bears hid h with ⟨hbare, hr⟩ | ⟨hbare, hgrown, hr⟩
  · have hr := hgraft.graft id hr
    rw [Tree.map_eq_self fun s _ => Tree.graft_id _ s] at hr
    refine ⟨lets, hw.reworks.trans hh.uses hr, hshared, hannotates, hnoted, ?_, hw.unique, ?_⟩
    · intro x cl' b hlet
      obtain ⟨hcl', hx, hb, hb'⟩ := hw.entries x cl' b hlet
      have := hr.size
      exact ⟨List.mem_append_left _ hcl', hx, hb, by omega⟩
    · intro cl' hcl' t' ht' s hs hroot
      rcases List.mem_append.mp hcl' with hcl' | hcl'
      · exact hw.bodies cl' hcl' t' ht' s hs hroot
      · obtain rfl := List.mem_singleton.mp hcl'
        rw [honly t' ht' s hs hroot]
        exact .inl ⟨hnone, Tree.bodiless_wrapped.mp hbare⟩
  · have hr := hgraft.graft (Tree.wrapNode cl ((d.forest.size : Int) + 2)) hr
    have hmap : (ts.map (Tree.wrapped lets)).map
        (Tree.graft cl.id (Tree.wrapNode cl ((d.forest.size : Int) + 2))) =
        ts.map (Tree.wrapped (Function.update lets cl.id
          (some (cl, (d.forest.size : Int) + 2)))) := by
      rw [List.map_map]
      refine List.map_congr_left fun s hs => Tree.graft_wrapped ?_ hnone ?_ ?_
      · exact (List.nodup_flatMap.mp hh.nodup).1 s hs
      · intro y cl' b hlet
        have := (hw.entries y cl' b hlet).2.2
        exact ⟨by omega, by omega⟩
      · intro m tag' as hin hm
        obtain ⟨-, rfl, -⟩ := Tree.node.inj (honly s hs _ hin hm)
        exact hc
    rw [show (Tree.node mark tag (args.map (Tree.wrapped lets))).root = cl.id from hid, hmap] at hr
    refine ⟨_, hw.reworks.trans hh.uses hr, hshared, hannotates, hnoted, ?_, ?_, ?_⟩
    · intro x cl' b hlet
      by_cases hx : x = cl.id
      · subst hx
        rw [Function.update_self] at hlet
        cases hlet
        exact ⟨by simp, rfl, by omega, by omega⟩
      · rw [Function.update_of_ne hx] at hlet
        obtain ⟨hcl', hx, hb, hb'⟩ := hw.entries x cl' b hlet
        exact ⟨List.mem_append_left _ hcl', hx, hb, by omega⟩
    · intro x y cl1 cl2 b hx hy
      have hold : ∀ {z cl'}, lets z = some (cl', b) → b ≤ d.forest.size :=
        fun hz => (hw.entries _ _ _ hz).2.2.2
      by_cases hxc : x = cl.id
      · by_cases hyc : y = cl.id
        · exact hxc.trans hyc.symm
        · rw [hxc, Function.update_self] at hx
          rw [Function.update_of_ne hyc] at hy
          cases hx
          have := hold hy
          omega
      · rw [Function.update_of_ne hxc] at hx
        by_cases hyc : y = cl.id
        · rw [hyc, Function.update_self] at hy
          cases hy
          have := hold hx
          omega
        · rw [Function.update_of_ne hyc] at hy
          exact hw.unique x y cl1 cl2 b hx hy
    · intro cl' hcl' t' ht' s hs hroot
      rcases List.mem_append.mp hcl' with hcl' | hcl'
      · have hne : cl'.id ≠ cl.id := fun heq => hnew (heq ▸ List.mem_map_of_mem hcl')
        rw [Function.update_of_ne hne]
        exact hw.bodies cl' hcl' t' ht' s hs hroot
      · obtain rfl := List.mem_singleton.mp hcl'
        rw [honly t' ht' s hs hroot, Function.update_self]
        exact .inr ⟨fun hb => hbare (Tree.bodiless_wrapped.mpr hb), _, rfl⟩

/-- What has been closed are closures in some trees. -/
def ClosuresOf (ts : List (Tree Mark)) (closed : List Closed) : Prop :=
  ∀ cl ∈ closed, ∃ t ∈ ts, ∃ mark tag args,
    .node mark tag args ∈ t.nodes ∧ mark.id = cl.id ∧ tag.isClosure = true

/-- All closures have their `let`. -/
theorem Wrapped.steps (hh : Bears U c vs ts) (hw : Wrapped U c vs ts done lets d)
    (hd : ((done ++ closed).map Closed.id).Nodup) (hin : ClosuresOf ts closed)
    (h : closed.forM wrap d = .ok u c') : ∃ lets', Wrapped U c vs ts (done ++ closed) lets' c' := by
  induction closed generalizing done lets d with
  | nil =>
    obtain ⟨-, rfl⟩ := pure_ok.mp h
    exact ⟨lets, by rwa [List.append_nil]⟩
  | cons cl closed ih =>
    obtain ⟨d1, hwrap, h⟩ := forM_cons_ok.mp h
    obtain ⟨t, ht, mark, tag, args, hmem, hid, hc⟩ := hin cl List.mem_cons_self
    have hnew : cl.id ∉ done.map Closed.id := by
      rw [List.map_append, List.nodup_append'] at hd
      exact fun hx => hd.2.2 hx List.mem_cons_self
    obtain ⟨lets1, hw1⟩ := hw.step hh hnew ht hmem hid hc hwrap
    rw [List.append_cons] at hd ⊢
    exact ih hw1 hd (fun cl' hcl' => hin cl' (List.mem_cons_of_mem cl hcl')) h

theorem trees_of_bears (hh : Bears U c vs ts) (h : vs.mapM c.forest.operandTree = .ok trees) :
    trees = ts := by
  have hts : vs.mapM c.forest.operandTree = .ok ts := by
    refine mapM_eq_ok.mpr (List.forall₂_iff_get.mpr ⟨hh.denotes.length_eq, fun i hi hi' => ?_⟩)
    refine (hh.denotes.get hi hi').operandTree (hh.nodup.sublist ?_)
    exact List.sublist_flatten_of_mem (List.mem_map_of_mem (List.get_mem ts ⟨i, hi'⟩))
  exact Except.ok.inj (h.symm.trans hts)

/-- The closures that are left in a run over the events of some trees are closures of these trees,
and none is left twice. -/
theorem closed_of_trees (params : List Text) (hd : (Tree.idsOf ts).Nodup) :
    ClosuresOf ts ((Resolver.start params).run (ts.flatMap events)).1.closed ∧
      (((Resolver.start params).run (ts.flatMap events)).1.closed.map Closed.id).Nodup := by
  have hsub := Resolver.closed_run params (ts.flatMap events)
  rw [entered_flatMap] at hsub
  constructor
  · intro cl hcl
    obtain ⟨t, ht, hx⟩ := List.mem_flatMap.mp (hsub.subset (List.mem_map_of_mem hcl))
    exact ⟨t, ht, closure_of_entered hx⟩
  · obtain ⟨l, hperm, hl⟩ := hsub
    refine hperm.nodup_iff.mp (hd.sublist (hl.trans (Tree.flatMap_sublist fun t _ => ?_)))
    exact (entered_sublist t).trans t.openIds_sublist

/-- Resolving a body reads its statements and wraps the closures in them, all of them unless a
malformed node is met. -/
theorem concludes_resolve (params : List Text) (hh : Bears U c vs ts) :
    Concludes (fun r d => (∀ t ∈ ts, Readable t) ∧ r = (Resolver.start params).readAll ts ∧
        ∃ lets, Wrapped U c vs ts r.closed lets d)
      (fun d => d.shared = c.shared ∧ Kept U c vs ts d) (resolve params vs c) := by
  unfold resolve
  refine Concludes.bind (P := fun trees d => d = c ∧ trees = ts)
    ((quiet_query _).outcome fun trees d hquery => ?_) fun trees d _ hd => ?_
  · obtain ⟨htrees, rfl⟩ := query_ok.mp hquery
    exact ⟨rfl, trees_of_bears hh htrees⟩
  obtain ⟨rfl, rfl⟩ := hd
  obtain ⟨hin, hnodup⟩ := closed_of_trees params hh.nodup
  rw [eventsEach_eq, ← List.flatMap_def]
  cases hrun : (Resolver.start params).run (trees.flatMap events) with
  | mk r failure =>
    rw [hrun] at hin hnodup
    have hwraps : Concludes (fun _ c' => ∃ lets, Wrapped U d vs trees r.closed lets c')
        (fun c' => c'.shared = d.shared ∧ Kept U d vs trees c') (r.closed.forM wrap d) :=
      (Quiet.forM quiet_wrap _).outcome fun _ _ h => (wrapped_start hh).steps hh hnodup hin h
    refine hwraps.bind fun _ c' _ hw => ?_
    obtain ⟨lets, hw⟩ := hw
    cases failure with
    | some dg => exact fun _ => ⟨hw.shared, hw.reworks.kept⟩
    | none =>
      obtain ⟨hno, rfl⟩ := Resolver.run_none hrun
      refine concludes_pure ⟨fun t ht dg hdg => hno dg (List.mem_flatMap.mpr ⟨t, ht, hdg⟩), ?_,
        lets, hw⟩
      exact Resolver.foldl_events _ _

end Pass.Environment

end Lowering
