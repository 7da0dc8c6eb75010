import Lowering.Proofs.Prologues
import Lowering.Proofs.Slotting

namespace Lowering

namespace Tree

mutual
/-- A tree with more statements in some of its `let`s, each named by its number. -/
def inserted (more : Int → List (Tree Mark)) : Tree Mark → Tree Mark
  | leaf a => leaf a
  | node mark tag args =>
    if tag = .letIn then node mark tag ((insertedEach more args).take 1 ++ more mark.id ++
      (insertedEach more args).drop 1)
    else node mark tag (insertedEach more args)

def insertedEach (more : Int → List (Tree Mark)) : List (Tree Mark) → List (Tree Mark)
  | [] => []
  | t :: ts => inserted more t :: insertedEach more ts
end

/-- A node with more operands after the first one. -/
def insertNode (new : List (Tree Mark)) : Tree Mark → Tree Mark
  | leaf a => leaf a
  | node mark tag args => node mark tag (args.take 1 ++ new ++ args.drop 1)

variable {more more' : Int → List (Tree Mark)} {mark : Mark} {tag : Tag}
variable {args new : List (Tree Mark)} {t u : Tree Mark} {b : Int}

theorem insertedEach_eq (ts : List (Tree Mark)) : insertedEach more ts = ts.map (inserted more) :=
  eq_map rfl (fun _ _ => rfl) ts

theorem inserted_let : inserted more (.node mark .letIn args) = .node mark .letIn
    ((args.map (inserted more)).take 1 ++ more mark.id ++ (args.map (inserted more)).drop 1) := by
  rw [inserted, if_pos rfl, insertedEach_eq]

theorem inserted_open (hl : tag ≠ .letIn) :
    inserted more (.node mark tag args) = .node mark tag (args.map (inserted more)) := by
  rw [inserted, if_neg hl, insertedEach_eq]

theorem inserted_node (more : Int → List (Tree Mark)) (mark : Mark) (tag : Tag)
    (args : List (Tree Mark)) : ∃ args', (node mark tag args).inserted more = node mark tag args' ∧
      ∀ s ∈ args, s.inserted more ∈ args' := by
  by_cases hl : tag = .letIn
  · subst hl
    refine ⟨_, inserted_let, fun s hs => ?_⟩
    have hmem := List.mem_map_of_mem (f := inserted more) hs
    rw [← List.take_append_drop 1 (args.map (inserted more))] at hmem
    simp only [List.mem_append] at hmem ⊢
    exact hmem.elim (fun h => .inl (.inl h)) .inr
  · exact ⟨_, inserted_open hl, fun s hs => List.mem_map_of_mem hs⟩

/-- Only the `let`s of a tree count. -/
theorem inserted_congr (h : ∀ x ∈ t.ids, more x = more' x) :
    t.inserted more = t.inserted more' := by
  induction t with
  | leaf a => rfl
  | node mark tag args ih =>
    rw [ids_node, List.forall_mem_cons] at h
    have hargs : args.map (inserted more) = args.map (inserted more') :=
      List.map_congr_left fun s hs => ih s hs fun x hx => h.2 x (List.mem_flatMap.mpr ⟨s, hs, hx⟩)
    by_cases hl : tag = .letIn
    · subst hl
      rw [inserted_let, inserted_let, hargs, h.1]
    · rw [inserted_open hl, inserted_open hl, hargs]

/-- Without more statements for its own `let`s a tree stays as it is. -/
theorem inserted_eq (h : ∀ x ∈ t.ids, more x = []) : t.inserted more = t := by
  induction t with
  | leaf a => rfl
  | node mark tag args ih =>
    rw [ids_node, List.forall_mem_cons] at h
    have hargs : args.map (inserted more) = args :=
      map_eq_self fun s hs => ih s hs fun x hx => h.2 x (List.mem_flatMap.mpr ⟨s, hs, hx⟩)
    by_cases hl : tag = .letIn
    · subst hl
      rw [inserted_let, hargs, h.1, List.append_nil, List.take_append_drop]
    · rw [inserted_open hl, hargs]

theorem inserted_mem_nodes (hu : u ∈ t.within skips) :
    u.inserted more ∈ (t.inserted more).within skips := by
  induction t with
  | leaf a => cases hu
  | node mark tag args ih =>
    obtain ⟨args', hform, hmem⟩ := inserted_node more mark tag args
    rcases mem_within_node.mp hu with rfl | ⟨ht, s, hs, hu⟩
    · rw [hform]
      exact self_mem_nodes
    · rw [hform]
      exact mem_within_operand ht (hmem s hs) (ih s hs hu)

/-- A `let` that has no additional statements yet gets some in the tree where others have theirs. -/
theorem graft_inserted (hd : t.ids.Nodup) (hnone : more b = []) (hapart : ∀ x, b ∉ idsOf (more x))
    (hlet : ∀ mark tag args, .node mark tag args ∈ t.nodes → mark.id = b → tag = .letIn) :
    (t.inserted more).graft b (insertNode new) = t.inserted (Function.update more b new) := by
  induction t with
  | leaf a => rfl
  | node mark tag args ih =>
    rw [ids_node, List.nodup_cons] at hd
    have heach : (args.map (inserted more)).map (graft b (insertNode new)) =
        args.map (inserted (Function.update more b new)) := by
      rw [List.map_map]
      refine List.map_congr_left fun s hs => ih s hs ((List.nodup_flatMap.mp hd.2).1 s hs) ?_
      exact fun m tag' as hmem => hlet m tag' as (mem_nodes_operand hs hmem)
    by_cases hid : mark.id = b
    · obtain rfl := hlet mark tag args self_mem_nodes hid
      have hargs : args.map (inserted (Function.update more b new)) = args.map (inserted more) := by
        refine List.map_congr_left fun s hs => inserted_congr fun y hy => ?_
        refine Function.update_of_ne ?_ _ _
        rintro rfl
        exact hd.1 (hid ▸ List.mem_flatMap.mpr ⟨s, hs, hy⟩)
      rw [inserted_let, inserted_let, graft_self hid, hargs, hid, hnone, List.append_nil,
        List.take_append_drop, Function.update_self]
      rfl
    · by_cases hl : tag = .letIn
      · subst hl
        rw [inserted_let, inserted_let, graft_node hid, ← heach, Function.update_of_ne hid,
          List.map_append, List.map_append, List.map_take, List.map_drop,
          map_graft_of_not_mem (hapart mark.id)]
      · rw [inserted_open hl, inserted_open hl, graft_node hid, heach]

end Tree

namespace Pass.Environment

open Forest PassM Scope

variable {U : Int → Prop} {c c' d : Context} {vs : List Operand} {ts : List (Tree Mark)}
variable {env : List Text} {r : Resolver} {lets : Int → Option (Closed × Int)} {x : Int} {u : Unit}
variable {done : List Int} {more : Int → List (Tree Mark)}

theorem accepts_copyIn (env : List Text) (owner : Node) (key name : Text) :
    PassM.Accepts (copyIn env owner key name) := by
  unfold copyIn
  split
  · intro c e c' h he
    cases h
    simp [PassError.IsRefusal, Node.diagnostic, Complaint.kind] at he
  · exact ((quiet_node _ _ _).bind fun _ => quiet_node _ _ _).accepts

theorem accepts_shareParams (env : List Text) (r : Resolver) (id : Int) :
    PassM.Accepts (shareParams env r id) := by
  have hreject : ∀ {α : Type} (n : Node) (names : List Text),
      PassM.Accepts (reject n (.exportsWithoutBody names) : PassM α) := by
    intro α n names c e c' h he
    cases h
    simp [PassError.IsRefusal, Node.diagnostic, Complaint.kind] at he
  unfold shareParams
  dsimp only
  split
  · refine (quiet_fetch id).accepts.bind fun n => ?_
    split
    · exact hreject _ _
    · next b _ =>
      refine (quiet_fetch b).accepts.bind fun body => ?_
      have hcopies : PassM.Accepts (do
          let vars ← operandAt body 0
          let copies ← (r.exportsOf id).mapM fun name => copyIn env n (exportKey name id) name
          renewArgs b (vars :: copies ++ body.args.drop 1)) :=
        (quiet_operandAt _ _).accepts.bind fun _ => (PassM.Accepts.mapM
          (fun _ => accepts_copyIn _ _ _ _) _).bind fun _ => (quiet_renewArgs _ _).accepts
      split
      · exact (hreject _ _).bind fun _ => hcopies
      · exact hcopies
  · exact (quiet_pure _).accepts

/-- A closure of some trees, with its `let` unless it is bare. -/
def ClosureAt (lets : Int → Option (Closed × Int)) (ts : List (Tree Mark)) (x : Int) : Prop :=
  ∃ t ∈ ts, ∃ mark tag args, .node mark tag args ∈ t.nodes ∧ mark.id = x ∧ tag.isClosure = true ∧
    ((Tree.node mark tag args).Bodiless ∨ ∃ cl b pos stmts, lets x = some (cl, b) ∧
      args[1]? = some (Tree.letTree pos cl b stmts))

/-- Copies of parameters of a closure, each in the slot of its own key. -/
def Copies (env : List Text) (x : Int) (names : List Text) (copies : List (Tree Mark)) : Prop :=
  List.Forall₂ (fun name t => ∃ k, env.idxOf? (exportKey name x) = some k ∧
    t.shape = copyForm k name) names copies

/-- Some closures have got their copies. -/
structure Furnished (U : Int → Prop) (c : Context) (vs : List Operand) (ts : List (Tree Mark))
    (env : List Text) (r : Resolver) (lets : Int → Option (Closed × Int)) (done : List Int)
    (more : Int → List (Tree Mark)) (d : Context) : Prop where
  reworks : Reworks U c ts d vs (ts.map (Tree.inserted more))
  annotates : Annotates (fun _ => False) c d
  copies : ∀ x cl b, lets x = some (cl, b) → x ∈ done → Copies env x (r.exportsOf x) (more b)
  none : ∀ b, (∀ x cl, lets x = some (cl, b) → x ∉ done) → more b = []
  fresh : ∀ b, ∀ y ∈ Tree.idsOf (more b), (c.forest.size : Int) < y

theorem furnished_start (hh : Bears U c vs ts) :
    Furnished U c vs ts env r lets [] (fun _ => []) c where
  reworks := by
    rw [Tree.map_eq_self fun t _ => Tree.inserted_eq fun _ _ => rfl]
    exact .refl hh
  annotates := .refl c
  copies := nofun
  none _ _ := rfl
  fresh := nofun

theorem let_of_closure (hf : Furnished U c vs ts env r lets done more d) (hx : ClosureAt lets ts x)
    (hn : d.forest.get? x = some n) (hb : (n.arg 1).child? = some b) :
    ∃ t ∈ ts, ∃ cl pos stmts, lets x = some (cl, b) ∧ Tree.letTree pos cl b stmts ∈ t.nodes := by
  obtain ⟨t, ht, mark, tag, args, hmem, rfl, hc, hbody⟩ := hx
  have hl : tag ≠ .letIn := by
    rintro rfl
    cases hc
  have hin : _ ∈ (t.inserted more).nodes := Tree.inserted_mem_nodes hmem
  rw [Tree.inserted_open hl] at hin
  obtain ⟨v, -, hv⟩ := forall₂_mem_left hf.reworks.bears.denotes.flip (List.mem_map_of_mem ht)
  obtain ⟨w, hw⟩ := hv.within hin
  obtain ⟨-, m, hm, -, -, hargs⟩ := denotes_node.mp hw
  obtain rfl : n = m := Option.mem_unique hn hm
  -- what the second operand stands for
  obtain ⟨s, hs, hsd⟩ : ∃ s, (args.map (Tree.inserted more))[1]? = some s ∧
      Denotes d.forest (n.arg 1) s := by
    have hlen : 1 < n.args.length := by
      by_contra hlt
      rw [Node.arg, List.getElem?_eq_none (by omega)] at hb
      cases hb
    have hlen' : 1 < (args.map (Tree.inserted more)).length := hargs.length_eq ▸ hlen
    refine ⟨_, List.getElem?_eq_getElem hlen', ?_⟩
    rw [Node.arg, List.getElem?_eq_getElem hlen]
    exact hargs.get hlen hlen'
  rw [List.getElem?_map, Option.map_eq_some_iff] at hs
  obtain ⟨s, hs, rfl⟩ := hs
  rcases hbody with hbare | ⟨cl, b', pos, stmts, hlets, hs'⟩
  · obtain rfl := hbare s hs
    have hview : (n.arg 1).view = .atom .nil := hsd
    rw [Operand.child?_of_atom hview] at hb
    cases hb
  · obtain rfl : s = _ := Option.mem_unique hs hs'
    have hview := hsd.view
    obtain ⟨args', hform, -⟩ := Tree.inserted_node more ⟨b', pos⟩ .letIn
      (.node ⟨b' - 1, pos⟩ .list (cl.vars.map fun x => .leaf (.sym x)) :: stmts)
    rw [Tree.letTree, hform, Operand.view_eq_child.mpr hb] at hview
    obtain rfl : b = b' := by simpa [Tree.view] using hview
    exact ⟨t, ht, cl, pos, stmts, hlets, Tree.nodes_trans hmem
      (Tree.mem_nodes_operand (List.mem_of_getElem? hs') Tree.self_mem_nodes)⟩

theorem Furnished.step (hh : Bears U c vs ts) (hf : Furnished U c vs ts env r lets done more d)
    (hunique : ∀ x y cl cl' b, lets x = some (cl, b) → lets y = some (cl', b) → x = y)
    (hnew : x ∉ done) (hx : ClosureAt lets ts x) (h : shareParams env r x d = .ok u c') :
    ∃ more', Furnished U c vs ts env r lets (done ++ [x]) more' c' := by
  have hnone : ∀ cl b, lets x = some (cl, b) → more b = [] := by
    intro cl b hlet
    refine hf.none b fun y cl' hy hmem => hnew ?_
    rwa [hunique x y cl cl' b hlet hy]
  rcases shareParams_ok h with ⟨hexports, rfl⟩ |
    ⟨-, n, b, body, copies, e, hn, hb, hbody, -, hcopies, hrenew⟩
  · refine ⟨more, hf.reworks, hf.annotates, fun y cl b hlet hy => ?_, fun b hb => ?_, hf.fresh⟩
    · rcases List.mem_append.mp hy with hy | hy
      · exact hf.copies y cl b hlet hy
      · obtain rfl := List.mem_singleton.mp hy
        rw [hexports, hnone cl b hlet]
        exact .nil
    · exact hf.none b fun y cl hlet hy => hb y cl hlet (List.mem_append_left _ hy)
  · obtain ⟨t, ht, cl, pos, stmts, hlet, hmem⟩ := let_of_closure hf hx hn hb
    have honly : ∀ t' ∈ ts, ∀ s ∈ t'.nodes, s.root = b → s = Tree.letTree pos cl b stmts :=
      fun t' ht' s hs hroot => Tree.eq_of_same_root_each hh.nodup ht' ht hs hmem hroot
    have hplace : _ ∈ (t.inserted more).nodes := Tree.inserted_mem_nodes hmem
    obtain ⟨args, hform, -⟩ := Tree.inserted_node more ⟨b, pos⟩ .letIn
      (.node ⟨b - 1, pos⟩ .list (cl.vars.map fun x => .leaf (.sym x)) :: stmts)
    rw [Tree.letTree, hform] at hplace
    have hgraft := hf.reworks.bears.grafts (List.mem_map_of_mem ht) hplace
    have hbelow := (hgraft.bears.stored hbody).2.2
    obtain ⟨new, hmade, hann, hshapes⟩ := copies_make (fun name => exportKey name x) hcopies
    have hfront : Makes d (args.take 1) e (body.args.take 1 ++ copies) (args.take 1 ++ new) := by
      simpa using (Makes.keep (List.forall₂_take 1 hbelow.denotes)).append hmade
    have hall := hfront.append (Makes.keep
      (Denotes.growEach (List.forall₂_drop 1 hbelow.denotes) hmade.grows))
    rw [List.take_append_drop] at hall
    have hr := hgraft.graft (Tree.insertNode new)
      (renewArgs_reworks hgraft.bears (hall.reworks hbelow (.refl _)) hrenew)
    have hbound : b ≤ c.forest.size := by
      have hroot : b ∈ t.ids := Tree.root_mem_ids_of_within hmem
      have := (has_iff.mp (hh.has (Tree.mem_idsOf.mpr ⟨t, ht, hroot⟩))).2
      omega
    have hmap : (ts.map (Tree.inserted more)).map (Tree.graft b (Tree.insertNode new)) =
        ts.map (Tree.inserted (Function.update more b new)) := by
      rw [List.map_map]
      refine List.map_congr_left fun s hs => Tree.graft_inserted ?_ (hnone cl b hlet) ?_ ?_
      · exact (List.nodup_flatMap.mp hh.nodup).1 s hs
      · intro y hy
        have := hf.fresh y b hy
        omega
      · intro mark tag as hin hid
        exact (Tree.node.inj (honly s hs _ hin hid)).2.1
    rw [show (Tree.node ⟨b, pos⟩ .letIn args).root = b from rfl, hmap] at hr
    refine ⟨_, hf.reworks.trans hh.uses hr,
      hf.annotates.trans (hann.trans (renewArgs_annotates hrenew)), ?_, ?_, ?_⟩
    · intro y cl' b' hlet' hy
      by_cases hb' : b' = b
      · subst hb'
        obtain rfl := hunique x y cl cl' b' hlet hlet'
        rw [Function.update_self]
        exact hshapes
      · rw [Function.update_of_ne hb']
        rcases List.mem_append.mp hy with hy | hy
        · exact hf.copies y cl' b' hlet' hy
        · obtain rfl := List.mem_singleton.mp hy
          rw [hlet] at hlet'
          cases hlet'
          exact absurd rfl hb'
    · intro b' hb'
      by_cases heq : b' = b
      · subst heq
        exact absurd (by simp) (hb' x cl hlet)
      · rw [Function.update_of_ne heq]
        exact hf.none b' fun y cl' hlet' hy => hb' y cl' hlet' (List.mem_append_left _ hy)
    · intro b' y hy
      by_cases heq : b' = b
      · subst heq
        rw [Function.update_self] at hy
        have := hmade.fresh y hy
        have := hf.reworks.size
        omega
      · rw [Function.update_of_ne heq] at hy
        exact hf.fresh b' y hy

theorem Furnished.steps (hh : Bears U c vs ts) (hf : Furnished U c vs ts env r lets done more d)
    (hunique : ∀ x y cl cl' b, lets x = some (cl, b) → lets y = some (cl', b) → x = y)
    (hd : (done ++ ids).Nodup) (hin : ∀ x ∈ ids, ClosureAt lets ts x)
    (h : ids.forM (shareParams env r) d = .ok u c') :
    ∃ more', Furnished U c vs ts env r lets (done ++ ids) more' c' := by
  induction ids generalizing done more d with
  | nil =>
    obtain ⟨-, rfl⟩ := pure_ok.mp h
    exact ⟨more, by rwa [List.append_nil]⟩
  | cons x ids ih =>
    obtain ⟨e, hshare, h⟩ := forM_cons_ok.mp h
    have hnew : x ∉ done := by
      rw [List.nodup_append'] at hd
      exact fun hx => hd.2.2 hx List.mem_cons_self
    obtain ⟨more1, hf1⟩ := hf.step hh hunique hnew (hin x List.mem_cons_self) hshare
    rw [List.append_cons] at hd ⊢
    exact ih hf1 hd (fun y hy => hin y (List.mem_cons_of_mem x hy)) h

end Pass.Environment

end Lowering
