import Lowering.Proofs.FunctionTrees

namespace Lowering

namespace Tree

variable {d e r s t : Tree Mark} {x : Int}

theorem mem_definitions (h : d ∈ t.definitions) : d ∈ t.exposed ∧ d.isSealed = true ∧
    ∃ mark tag args, d = node mark tag args ∧ (tag = .defm ∨ tag = .defun) := by
  obtain ⟨hin, htag⟩ := List.mem_filter.mp h
  obtain ⟨mark, tag, args, rfl⟩ := exists_of_mem_within hin
  have htag : tag = .defm ∨ tag = .defun := by simpa using htag
  exact ⟨hin, Tag.isSealed_iff.mpr (.inr htag), mark, tag, args, rfl, htag⟩

theorem nodup_definitions (h : t.ids.Nodup) : t.definitions.Nodup :=
  ((h.sublist t.within_ids).of_map root).filter _

theorem mem_ids_of_body (hs : s ∈ d.function.stmts) (hx : x ∈ s.openIds) : x ∈ d.ids := by
  refine ((gathers_ids.elems _).trans (d.ids_operand 2)).subset ?_
  exact List.mem_flatMap.mpr ⟨s, hs, s.openIds_subset_ids x hx⟩

theorem function_splatIn : (d.splatIn rests).function = d.function := by
  rw [function, function, operand_splatIn, operand_splatIn]

theorem isSealed_splatIn (rests : List Int) (d : Tree Mark) :
    (d.splatIn rests).isSealed = d.isSealed := by
  unfold splatIn
  split
  · cases d <;> rfl
  · rfl

/-- What is open in the body of a function is in no function in it. -/
theorem not_mem_of_body (hd : d.ids.Nodup) (he : e ∈ d.nodes) (hs : e.isSealed = true)
    (hne : e ≠ d) (hst : s ∈ d.function.stmts) (hx : x ∈ s.openIds) : x ∉ e.ids := by
  intro hxe
  have hbody : (idsOf d.function.stmts).Nodup :=
    hd.sublist ((gathers_ids.elems _).trans (d.ids_operand 2))
  have hxs : x ∈ s.ids := s.openIds_subset_ids x hx
  cases d with
  | leaf a => cases he
  | node mark tag args =>
    obtain ⟨a, ha, hea⟩ := (mem_nodes_node.mp he).resolve_left hne
    have hxa : x ∈ a.ids := (ids_within hea).subset hxe
    have hx2 : x ∈ ((node mark tag args).operand 2).ids :=
      (gathers_ids.elems _).subset (List.mem_flatMap.mpr ⟨s, hst, hxs⟩)
    -- the operand is the body
    obtain ⟨i, hi⟩ := List.mem_iff_getElem?.mp ha
    have h2 : args[2]? = some ((node mark tag args).operand 2) := by
      refine ((node mark tag args).operand_cases 2).resolve_left fun hnil => ?_
      rw [hnil] at hx2
      cases hx2
    rw [ids_node, List.nodup_cons] at hd
    obtain rfl := index_unique hd.2 hi h2 hxa hx2
    obtain rfl := Option.mem_unique hi h2
    obtain ⟨q, hq, heq⟩ := mem_nodes_elems hea fun m as h => by
      rw [h] at hs
      cases hs
    obtain ⟨j, hj⟩ := List.mem_iff_getElem?.mp hst
    obtain ⟨k, hk⟩ := List.mem_iff_getElem?.mp hq
    obtain rfl := index_unique hbody hj hk hxs ((ids_within heq).subset hxe)
    obtain rfl := Option.mem_unique hj hk
    exact not_mem_of_openIds ((List.nodup_flatMap.mp hbody).1 s hst) heq hs hx hxe

/-- The bodies of two functions have no open node in common. -/
theorem bodies_apart (h : t.ids.Nodup) (hd : d ∈ t.definitions) (he : e ∈ t.definitions)
    (hne : e ≠ d) (hs : s ∈ d.function.stmts) (hr : r ∈ e.function.stmts) (hx : x ∈ s.openIds) :
    x ∉ r.openIds := by
  intro hx'
  obtain ⟨hdt, hds, -⟩ := mem_definitions hd
  obtain ⟨het, hes, -⟩ := mem_definitions he
  rcases nodes_apart h (within_subset t d hdt) (within_subset t e het) with hin | hin | hapart
  · exact not_mem_of_body (h.sublist (ids_within hdt)) hin hes hne hs hx (mem_ids_of_body hr hx')
  · exact not_mem_of_body (h.sublist (ids_within het)) hin hds (Ne.symm hne) hr hx'
      (mem_ids_of_body hs hx)
  · exact hapart (mem_ids_of_body hs hx) (mem_ids_of_body hr hx')

theorem openIds_renumbered {id : Int} (h : x ∈ (t.renumbered id).openIds) :
    x = id ∨ x ∈ t.openIds := by
  cases t with
  | leaf a => exact .inr h
  | node mark tag args =>
    obtain ⟨hs, rfl | hx⟩ := mem_openIds_node.mp h
    · exact .inl rfl
    · exact .inr (mem_openIds_node.mpr ⟨hs, .inr hx⟩)

theorem exposed_not_in_code (h : t.ids.Nodup) (hs : s ∈ t.exposed)
    (hq : node mark .sexp args ∈ t.nodes) : s.root ∉ idsOf args := by
  induction t with
  | leaf a => cases hs
  | node m tag as ih =>
    rw [ids_node, List.nodup_cons] at h
    intro hx
    rcases mem_nodes_node.mp hq with heq | ⟨a, ha, hq⟩
    · obtain ⟨rfl, rfl, rfl⟩ := node.inj heq
      rcases mem_within_node.mp hs with rfl | ⟨ht, -⟩
      · exact h.1 hx
      · simp at ht
    · have hxa : s.root ∈ a.ids := (ids_within hq).subset (by rw [ids_node]; exact .tail _ hx)
      rcases mem_within_node.mp hs with rfl | ⟨-, b, hb, hs⟩
      · exact h.1 (List.mem_flatMap.mpr ⟨a, ha, hxa⟩)
      · obtain ⟨i, hi⟩ := List.mem_iff_getElem?.mp ha
        obtain ⟨j, hj⟩ := List.mem_iff_getElem?.mp hb
        obtain rfl := index_unique h.2 hi hj hxa (root_mem_ids_of_within hs)
        obtain rfl := Option.mem_unique hi hj
        exact ih a ha ((List.nodup_flatMap.mp h.2).1 a ha) hs hq hx

end Tree

namespace Pass.Environment

open Forest PassM Scope

variable {U : Int → Prop} {c c' : Context} {v : Operand} {u : Unit} {x : Int}
variable {d e s t t' T : Tree Mark} {done rest : List (Tree Mark)} {rests : List Int} {w : Int64}

theorem Like.openIds (h : Like t t') : t'.openIds = t.openIds := by
  induction t generalizing t' with
  | leaf a =>
    cases h
    rfl
  | node mark tag args ih =>
    cases h with
    | code => rfl
    | shut htag =>
      rw [Tree.openIds_node, Tree.openIds_node, if_pos (Tag.isSealed_iff.mpr (.inr htag)),
        if_pos (Tag.isSealed_iff.mpr (.inr htag))]
    | node hs each =>
      rw [Tree.openIds_node, Tree.openIds_node, List.flatMap_def, List.flatMap_def,
        map_of_like each fun a ha _ h => ih a ha h]

theorem like_graft (hcode : ∀ mark args, .node mark .sexp args ∈ t.nodes → x ∉ Tree.idsOf args)
    (h : ∀ s ∈ t.nodes, s.root = x → Like s (change s)) : Like t (t.graft x change) := by
  induction t with
  | leaf a => exact .leaf a
  | node mark tag args ih =>
    by_cases hid : mark.id = x
    · rw [Tree.graft_self hid]
      exact h _ Tree.self_mem_nodes hid
    have heach : ∀ a ∈ args, Like a (a.graft x change) := fun a ha =>
      ih a ha (fun m as hin => hcode m as (Tree.mem_nodes_operand ha hin))
        fun s hs => h s (Tree.mem_nodes_operand ha hs)
    rw [Tree.graft_node hid]
    cases hs : tag.isSealed with
    | false =>
      refine .node hs (List.forall₂_map_right_iff.mpr (List.forall₂_same.mpr heach))
    | true =>
      rcases Tag.isSealed_iff.mp hs with rfl | htag
      · rw [Tree.map_graft_of_not_mem (hcode mark args Tree.self_mem_nodes)]
        exact .code
      · refine .shut htag ?_
        cases args with
        | nil => rfl
        | cons a args => exact (heach a List.mem_cons_self).symbol?

/-- What becomes of a function. It has the name that it had, or that for the remaining arguments if
it is a parameter for these itself; of its parameters no more than the one for the remaining
arguments is renamed; and its body is a `let` with the layout of the function. -/
inductive Becomes (rests : List Int) (w : Int64) (d : Tree Mark) : Tree Mark → Prop where
  | intro {mark m : Mark} {tag : Tag} {name params body name' params' : Tree Mark}
      {operands : List (Tree Mark)} (before : d.splatIn rests = .node mark tag [name, params, body])
      (named : Like name name') (listed : Like d.splatParams params')
      (layout : LetLayout d.function (d.setup w) operands) :
      Becomes rests w d (.node mark tag [name', params', .node m .letIn operands])

theorem Becomes.root (h : Becomes rests w d e) : e.root = d.root := by
  cases h with
  | intro before =>
    have hroot : (d.splatIn rests).root = d.root := Tree.root_splatIn
    rw [before] at hroot
    exact hroot

/-- A function keeps what it has become while others in it are worked on. -/
theorem Becomes.graft (h : Becomes rests w d e) (hne : e.root ≠ x)
    (hlet : ∀ mark args, .node mark .letIn args ∈ e.nodes → mark.id ≠ x)
    (hcode : ∀ mark args, .node mark .sexp args ∈ e.nodes → x ∉ Tree.idsOf args)
    (hlike : ∀ s ∈ e.nodes, s.root = x → Like s (change s)) :
    Becomes rests w d (e.graft x change) ∧
    ((e.graft x change).operand 2).root = (e.operand 2).root := by
  cases h with
  | @intro mark m tag name params body name' params' operands before named listed layout =>
    have hmem : .node m .letIn operands ∈
        (Tree.node mark tag [name', params', .node m .letIn operands]).nodes :=
      Tree.mem_nodes_operand (by simp) Tree.self_mem_nodes
    have heach : ∀ a, (∀ s ∈ a.nodes,
        s ∈ (Tree.node mark tag [name', params', .node m .letIn operands]).nodes) →
        Like a (a.graft x change) := fun a ha =>
      like_graft (fun m as hin => hcode m as (ha _ hin)) fun s hs => hlike s (ha s hs)
    rw [Tree.graft_node hne]
    simp only [List.map_cons, List.map_nil]
    rw [Tree.graft_node (hlet m operands hmem)]
    refine ⟨.intro before (named.trans (heach name' ?_)) (listed.trans (heach params' ?_)) ?_, rfl⟩
    · exact fun s hs => Tree.mem_nodes_operand (by simp) hs
    · exact fun s hs => Tree.mem_nodes_operand (by simp) hs
    · refine LetLayout.like (List.forall₂_same.mpr fun t _ => .refl t) layout ?_
      refine List.forall₂_map_right_iff.mpr
        (List.forall₂_same.mpr fun a ha => heach a fun s hs => ?_)
      exact Tree.nodes_trans hmem (Tree.mem_nodes_operand ha hs)

/-- Some functions of a tree are done, the others are still to be worked on. -/
structure Stage (U : Int → Prop) (c : Context) (v : Operand) (t : Tree Mark)
    (done : List (Tree Mark)) (T : Tree Mark) (d : Context) : Prop where
  reworks : Reworks U c [t] d [v] [T]
  orderly : d.Orderly
  options : d.options = c.options
  like : Like t T
  outside : ∀ x ∈ t.openIds, d.forest.exportsAt x = c.forest.exportsAt x
  bodies : ∀ e ∈ t.definitions, e ∉ done → ∀ s ∈ e.function.stmts, ∀ x ∈ s.openIds,
    d.forest.exportsAt x = c.forest.exportsAt x
  pending : ∀ e ∈ t.definitions, e ∉ done → e.splatIn (Tree.restIds done) ∈ T.exposed
  finished : (∀ x ∈ t.ids, c.forest.exportsAt x = []) → ∀ e ∈ done,
    ∃ e' ∈ T.exposed, Becomes (Tree.restIds t.definitions) c.options.wordSize e e' ∧
      d.forest.Carries (e'.operand 2).root e.function.frequencies

theorem stage_start (hh : Bears U c [v] [t]) (hc : c.Orderly) : Stage U c v t [] t c where
  reworks := .refl hh
  orderly := hc
  options := rfl
  like := .refl t
  outside _ _ := rfl
  bodies _ _ _ _ _ _ _ := rfl
  pending e he _ := by
    rw [Tree.splatIn_of_not_mem (by simp [Tree.restIds])]
    exact (Tree.mem_definitions he).1
  finished _ := nofun

section Round

theorem mem_restIds : x ∈ Tree.restIds ds ↔ ∃ e ∈ ds, x ∈ Tree.restIds [e] := by
  simp only [Tree.mem_restIds_singleton]
  rw [Tree.restIds, List.mem_filterMap]
  simp

/-- A function is renamed as a parameter before it is worked on, or not at all. -/
theorem root_mem_restIds (h : t.ids.Nodup) (hsplit : t.definitions = done ++ d :: rest) :
    d.root ∈ Tree.restIds t.definitions ↔ d.root ∈ Tree.restIds done := by
  rw [mem_restIds, mem_restIds]
  refine ⟨fun ⟨e, he, hx⟩ => ⟨e, ?_, hx⟩, fun ⟨e, he, hx⟩ => ⟨e, by simp [hsplit, he], hx⟩⟩
  have hin : d.root ∈ (e.operand 1).ids := Tree.mem_ids_of_restIds hx
  have hids : e.ids.Nodup := h.sublist (Tree.ids_within (Tree.mem_definitions he).1)
  rw [hsplit, List.mem_append, List.mem_cons] at he
  obtain he | rfl | he := he
  · exact he
  · exact absurd hin (Tree.root_not_mem_operand hids 1)
  · -- one that comes later cannot have it as a parameter
    obtain ⟨mid, post, rfl⟩ := List.append_of_mem he
    have hsplit' : t.definitions = (done ++ d :: mid) ++ e :: post := by simp [hsplit]
    exact absurd ((e.ids_operand 1).subset hin) (Tree.definitions_order h hsplit' (by simp))

theorem like_remade (htag : tag = .defm ∨ tag = .defun) (hlen : args.length = 3) :
    Like (.node mark tag args) ((Tree.node mark tag args).remade m operands) := by
  refine .shut htag ?_
  match args, hlen with
  | [a0, a1, a2], _ => rfl

section Graft

variable {mark m : Mark} {tag : Tag} {args operands : List (Tree Mark)}

/-- A function in a function keeps its place, and may be renamed as a parameter. -/
theorem splatIn_mem_remade (hids : d.ids.Nodup) (hnode : d = .node mark tag args)
    (htag : tag = .defm ∨ tag = .defun) (hlen : args.length = 3)
    (hfilled : ∀ s ∈ d.function.stmts, ∀ u ∈ s.exposed, u.isSealed = true →
      ∃ a ∈ operands, u ∈ a.exposed)
    (he : e ∈ d.exposed) (hs : e.isSealed = true) (hne : e ≠ d) :
    e.splatIn (Tree.restIds [d]) ∈ (d.remade m operands).exposed := by
  have hcode : decide (tag = .sexp) = false := by
    rcases htag with rfl | rfl <;> rfl
  subst hnode
  match args, hlen with
  | [a0, a1, a2], _ =>
    obtain ⟨-, a, ha, hin⟩ := (Tree.mem_within_node.mp he).resolve_left hne
    have hroot := Tree.root_mem_ids_of_within hin
    -- only a parameter is renamed
    have hname : ∀ i, i ≠ 1 → e.root ∈ ((Tree.node mark tag [a0, a1, a2]).operand i).ids →
        e.splatIn (Tree.restIds [.node mark tag [a0, a1, a2]]) = e := by
      intro i hi hmem
      refine Tree.splatIn_of_not_mem fun hx => ?_
      rcases Nat.lt_or_gt_of_ne hi with hlt | hlt
      · exact Tree.operands_apart hids hlt hmem (Tree.mem_ids_of_restIds hx)
      · exact Tree.operands_apart hids hlt (Tree.mem_ids_of_restIds hx) hmem
    simp only [List.mem_cons, List.not_mem_nil, or_false] at ha
    rcases ha with rfl | rfl | rfl
    · rw [hname 0 (by omega) hroot]
      exact Tree.mem_within_operand hcode List.mem_cons_self hin
    · refine Tree.mem_within_operand hcode (List.mem_cons_of_mem _ List.mem_cons_self) ?_
      exact Tree.splatIn_mem_params hids hin hs
    · rw [hname 2 (by omega) hroot]
      obtain ⟨s, hs', hin⟩ := Tree.mem_nodes_elems hin fun m as h => by
        rw [h] at hs
        cases hs
      obtain ⟨b, hb, hin⟩ := hfilled s hs' e hin hs
      have hlet : e ∈ (Tree.node m .letIn operands).exposed := Tree.mem_within_operand rfl hb hin
      exact Tree.mem_within_operand hcode (.tail _ (.tail _ (.head _))) hlet

/-- A function that is still to be worked on keeps its place while another one is worked on that
does not lie in it. -/
theorem pending_graft (hT : T.ids.Nodup) (hd : d ∈ T.exposed) (hnode : d = .node mark tag args)
    (htag : tag = .defm ∨ tag = .defun) (hlen : args.length = 3)
    (hfilled : ∀ s ∈ d.function.stmts, ∀ u ∈ s.exposed, u.isSealed = true →
      ∃ a ∈ operands, u ∈ a.exposed)
    (he : e ∈ T.exposed) (hs : e.isSealed = true) (hout : d.root ∉ e.ids) :
    e.splatIn (Tree.restIds [d]) ∈ (T.graft d.root fun s => s.remade m operands).exposed := by
  have hne : e.root ≠ d.root := by
    intro heq
    refine hout (heq ▸ ?_)
    obtain ⟨mark, tag, args, rfl⟩ := Tree.exists_of_mem_within he
    simp [Tree.root, Tree.ids_node]
  by_cases hin : e ∈ d.exposed
  · refine Tree.change_mem_nodes hT hd rfl _ ?_
    exact splatIn_mem_remade (hT.sublist (Tree.ids_within hd)) hnode htag hlen hfilled hin hs
      fun heq => hne (heq ▸ rfl)
  · have hname : e.splatIn (Tree.restIds [d]) = e := by
      refine Tree.splatIn_of_not_mem fun hx => hin ?_
      obtain ⟨p, hp, hroot⟩ := Tree.mem_restIds_singleton.mp hx
      have hmem : p ∈ d.exposed := by
        subst hnode
        obtain ⟨a0, a1, a2, rfl⟩ := List.length_eq_three.mp hlen
        refine Tree.mem_within_operand ?_ (.tail _ (.head _)) (Tree.restParam?_mem_exposed hp)
        rcases htag with rfl | rfl <;> rfl
      obtain rfl := Tree.eq_of_same_root hT he (Tree.nodes_trans hd hmem) hroot.symm
      exact hmem
    rw [hname]
    rcases Tree.graft_mem_nodes he hne with hmem | ⟨s, hs', hroot, hmem⟩
    · rwa [Tree.graft_of_not_mem hout] at hmem
    · exact absurd (Tree.eq_of_same_root hT hs' hd hroot ▸ hmem) hin

/-- A function that has been worked on stays so while another one is worked on that it does not lie
in. -/
theorem finished_graft (hT : T.ids.Nodup) (hd : d ∈ T.exposed) (hnode : d = .node mark tag args)
    (htag : tag = .defm ∨ tag = .defun) (hlen : args.length = 3) (he : e' ∈ T.exposed)
    (hout : e'.root ∉ d.ids) (h : Becomes rests w e e') :
    ∃ e'' ∈ (T.graft d.root fun s => s.remade m operands).exposed, Becomes rests w e e'' ∧
      (e''.operand 2).root = (e'.operand 2).root := by
  have hself : d.root ∈ d.ids := by simp [hnode, Tree.root, Tree.ids_node]
  have hne : e'.root ≠ d.root := fun heq => hout (heq ▸ hself)
  have hsub : ∀ s ∈ e'.nodes, s ∈ T.nodes := fun s => Tree.nodes_trans (Tree.within_subset T e' he)
  have honly : ∀ s ∈ e'.nodes, s.root = d.root → s = d := fun s hs =>
    Tree.eq_of_same_root hT (hsub s hs) (Tree.within_subset T d hd)
  refine ⟨e'.graft d.root fun s => s.remade m operands, ?_,
    h.graft hne (fun m' as hin hid => ?_) (fun m' as hin => ?_) fun s hs hroot => ?_⟩
  · refine (Tree.graft_mem_nodes he hne).resolve_right fun h => hout ?_
    obtain ⟨s, hs, hroot, hin⟩ := h
    obtain rfl := Tree.eq_of_same_root hT hs hd hroot
    exact Tree.root_mem_ids_of_within hin
  · obtain ⟨-, rfl, -⟩ := Tree.node.inj ((honly _ hin hid).trans hnode)
    simp at htag
  · exact Tree.exposed_not_in_code hT hd (hsub _ hin)
  · rw [honly s hs hroot, hnode]
    exact like_remade htag hlen

theorem becomes_remade (hnode : d.splatIn rests = .node mark tag args) (hlen : args.length = 3)
    (hlayout : LetLayout d.function (d.setup w) operands) :
    Becomes rests w d ((d.splatIn rests).remade m operands) ∧
      (((d.splatIn rests).remade m operands).operand 2).root = m.id := by
  have hparams := Tree.splatParams_splatIn rests d
  rw [hnode] at hparams ⊢
  match args, hlen with
  | [a0, a1, a2], _ =>
    rw [Tree.remade, hparams]
    exact ⟨.intro hnode (.refl _) (.refl _) hlayout, rfl⟩

end Graft

theorem stage_round (hh : Bears U c [v] [t]) (hsplit : t.definitions = done ++ d :: rest)
    (hst : Stage U c v t done T c') :
    Concludes (fun _ e => ∃ T', Stage U c v t (done ++ [d]) T' e) (Kept U c [v] [t])
      ((do materialize (← definitionBody d.root)) c') := by
  have hids : t.ids.Nodup := by simpa using hh.nodup
  have hT : T.ids.Nodup := by simpa using hst.reworks.bears.nodup
  have hmem : d ∈ t.definitions := by simp [hsplit]
  have hnodup := Tree.nodup_definitions hids
  rw [hsplit] at hnodup
  have hnew : d ∉ done := fun hd => List.disjoint_of_nodup_append hnodup hd List.mem_cons_self
  obtain ⟨hin, hseal, mark, tag, args, hnode, htag⟩ := Tree.mem_definitions hmem
  have hplace := hst.pending d hmem hnew
  obtain ⟨args', hnode'⟩ := Tree.splatIn_node (Tree.restIds done) mark tag args
  rw [← hnode] at hnode'
  have hroot : d.root = mark.id := by rw [hnode]; rfl
  have hgraft := hst.reworks.bears.grafts List.mem_cons_self (Tree.within_subset _ _ hplace)
  have hbears := hgraft.bears
  rw [hnode'] at hbears
  have hdone := concludes_definition hbears htag
  rw [← hroot] at hdone
  cases hrun : (do materialize (← definitionBody d.root)) c' with
  | error e c'' =>
    rw [hrun] at hdone
    intro he
    obtain ⟨ts, hr⟩ := hdone he
    obtain ⟨s, rfl⟩ : ∃ s, ts = [s] := List.length_eq_one_iff.mp hr.bears.denotes.length_eq.symm
    have hall := hgraft.graft (fun _ => s) (hnode' ▸ hr)
    exact (hst.reworks.trans hh.uses hall).kept
  | ok u c'' =>
    rw [hrun] at hdone
    obtain ⟨m, operands, ⟨hlen, hann, ⟨hsealed, hlayout⟩, hcarries⟩, hr⟩ := hdone
    rw [← hnode'] at hann hsealed hlayout hcarries hr
    have hlen : args'.length = 3 := hlen
    have hall := hgraft.graft (fun s => s.remade m operands) hr
    have honly : ∀ s ∈ T.nodes, s.root = (d.splatIn (Tree.restIds done)).root →
        s = d.splatIn (Tree.restIds done) := fun s hs =>
      Tree.eq_of_same_root hT hs (Tree.within_subset _ _ hplace)
    refine ⟨_, hst.reworks.trans hh.uses hall, ?_, hann.options.trans hst.options, ?_, ?_, ?_,
      ?_, ?_⟩
    · obtain ⟨-, -, -, n, hn, rfl, -⟩ := hbears.node
      obtain ⟨grade, hc, -⟩ := hst.orderly.surveyed
      obtain ⟨grade', ho, -⟩ := (lands_definition hc (hroot ▸ hn) htag).ok hrun
      exact ⟨grade'.grade, ho.graded.toGraded⟩
    · refine hst.like.trans (like_graft (fun m' as => ?_) fun s hs hsr => ?_)
      · exact Tree.exposed_not_in_code hT hplace
      · rw [honly s hs hsr, hnode']
        exact like_remade htag hlen
    · intro x hx
      refine (hann.exports x fun ⟨s, hs, hx'⟩ => ?_).trans (hst.outside x hx)
      rw [Tree.function_splatIn] at hs
      refine Tree.not_mem_of_openIds hids (Tree.within_subset _ _ hin) hseal hx ?_
      exact Tree.mem_ids_of_body hs hx'
    · intro e he hnot s hs x hx
      rw [List.mem_append, List.mem_singleton, not_or] at hnot
      refine (hann.exports x fun ⟨r, hr, hx'⟩ => ?_).trans (hst.bodies e he hnot.1 s hs x hx)
      rw [Tree.function_splatIn] at hr
      exact Tree.bodies_apart hids hmem he hnot.2 hr hs hx' hx
    · intro e he hnot
      rw [List.mem_append, List.mem_singleton, not_or] at hnot
      have hafter : d.root ∉ e.ids := by
        have he' := he
        rw [hsplit, List.mem_append, List.mem_cons] at he'
        obtain ⟨mid, post, rfl⟩ := List.append_of_mem
          ((he'.resolve_left hnot.1).resolve_left hnot.2)
        have hsplit' : t.definitions = (done ++ d :: mid) ++ e :: post := by simp [hsplit]
        exact Tree.definitions_order hids hsplit' (by simp)
      have hgrafted := pending_graft (m := m) hT hplace hnode' htag hlen hsealed
        (hst.pending e he hnot.1) ((Tree.isSealed_splatIn _ e).trans (Tree.mem_definitions he).2.1)
        fun hx => hafter (Tree.ids_splatIn.subset (Tree.root_splatIn ▸ hx))
      rwa [Tree.restIds_splatIn, Tree.splatIn_append,
        show Tree.restIds done ++ Tree.restIds [d] = Tree.restIds (done ++ [d]) from
          List.filterMap_append.symm] at hgrafted
    · intro hplain e he
      rcases List.mem_append.mp he with he | he
      · obtain ⟨e', he', hbecomes, hnoted⟩ := hst.finished hplain e he
        have hout : e'.root ∉ (d.splatIn (Tree.restIds done)).ids := fun hx =>
          Tree.definitions_order hids hsplit he (Tree.ids_splatIn.subset (hbecomes.root ▸ hx))
        obtain ⟨e'', he'', hbecomes, hlet⟩ :=
          finished_graft hT hplace hnode' htag hlen he' hout hbecomes
        exact ⟨e'', he'', hbecomes, hlet ▸ hann.carries _ _ hnoted⟩
      · obtain rfl := List.mem_singleton.mp he
        have hsame : e.splatIn (Tree.restIds t.definitions) = e.splatIn (Tree.restIds done) := by
          unfold Tree.splatIn
          simp only [root_mem_restIds hids hsplit]
        rw [Tree.function_splatIn] at hlayout hcarries
        rw [Tree.setup_splatIn, hst.options] at hlayout
        have hold : ∀ s ∈ e.function.stmts, ∀ x ∈ s.openIds, c'.forest.exportsAt x = [] := by
          intro s hs x hx
          rw [hst.bodies e hmem hnew s hs x hx]
          exact hplain x ((Tree.ids_within hin).subset (Tree.mem_ids_of_body hs hx))
        obtain ⟨hbecomes, hlet⟩ := becomes_remade (m := m) (hsame ▸ hnode') hlen (hlayout hold)
        refine ⟨_, Tree.change_mem_nodes hT hplace rfl _ ?_, hsame ▸ hbecomes, ?_⟩
        · rw [hnode']
          exact Tree.self_mem_nodes
        · rw [← hsame, hlet]
          exact hcarries

end Round

theorem concludes_functions (hh : Bears U c [v] [t]) (hc : c.Orderly) :
    Concludes (fun _ d => ∃ T, Stage U c v t t.definitions T d) (Kept U c [v] [t])
      (((t.definitions.map Tree.root).forM fun id =>
        do materialize (← definitionBody id) : PassM Unit) c) := by
  have hloop := concludes_forM (E := Kept U c [v] [t])
    (g := fun id => do materialize (← definitionBody id)) (I := fun ids d => ∃ done rest T,
      ids = rest.map Tree.root ∧ t.definitions = done ++ rest ∧ Stage U c v t done T d)
    (fun id ids d hI => ?_) (t.definitions.map Tree.root) ⟨[], _, t, rfl, rfl, stage_start hh hc⟩
  · refine hloop.mono (fun _ d ⟨done, rest, T, hnil, hsplit, hst⟩ => ⟨T, ?_⟩) fun _ h => h
    obtain rfl := List.map_eq_nil_iff.mp hnil.symm
    rwa [hsplit, List.append_nil]
  · obtain ⟨done, rest, T, hids, hsplit, hst⟩ := hI
    cases rest with
    | nil => cases hids
    | cons e rest =>
      obtain ⟨rfl, rfl⟩ := List.cons.inj hids
      refine (stage_round hh hsplit hst).mono (fun _ d ⟨T', hst'⟩ => ?_) fun _ h => h
      exact ⟨done ++ [e], rest, T', rfl, by simp [hsplit], hst'⟩

/-- Whether there is a closure outside every function can be seen of a tree from outside. -/
theorem Like.hasClosure (h : Like t t') : t'.HasClosure ↔ t.HasClosure := by
  induction t generalizing t' with
  | leaf a =>
    cases h
    rfl
  | node mark tag args ih =>
    cases h with
    | code => rfl
    | shut htag =>
      rw [Tree.hasClosure_node, Tree.hasClosure_node]
      rcases htag with rfl | rfl <;> simp [Tag.isClosure, Tag.isSealed]
    | @node _ _ _ args' hs each =>
      rw [Tree.hasClosure_node, Tree.hasClosure_node]
      refine or_congr_right (and_congr_right' ⟨?_, ?_⟩)
      · rintro ⟨s', hs', hc⟩
        obtain ⟨s, hs, hlike⟩ := forall₂_mem_left each.flip hs'
        exact ⟨s, hs, (ih s hs hlike).mp hc⟩
      · rintro ⟨s, hs, hc⟩
        obtain ⟨s', hs', hlike⟩ := forall₂_mem_left each hs
        exact ⟨s', hs', (ih s hs hlike).mpr hc⟩

theorem Like.renumbered (id : Int) (h : Like t t') : Like (t.renumbered id) (t'.renumbered id) := by
  cases h with
  | leaf a => exact .leaf a
  | code => exact .code
  | shut htag first => exact .shut htag first
  | node hs each => exact .node hs each

theorem quiet_hasOuterClosure (root : Int) : Quiet (hasOuterClosure root) := by
  refine (quiet_walk (fun id n => ?_) root).bind fun _ => quiet_pure _
  exact quiet_pure _

/-- The tree in the end: each function is what it becomes, and the root is a `let` with the layout
of the statements outside every function, if there is a closure among these. -/
structure Ended (w : Int64) (t t' : Tree Mark) : Prop where
  functions : ∀ d ∈ t.definitions, ∃ d' ∈ t'.exposed, Becomes (Tree.restIds t.definitions) w d d'
  outside : ¬ t.HasClosure → Like t t'
  top : t.HasClosure → ∃ id mark operands, id ∉ t.ids ∧ mark.id = t.root ∧
    t' = .node mark .letIn operands ∧ LetLayout ⟨[], [t.renumbered id]⟩ (topSetup w) operands

/-- The notes in the end: the `let` of each function is annotated, and so is the root. -/
structure Tallied (f : Forest) (t t' : Tree Mark) : Prop where
  functions : ∀ d ∈ t.definitions, ∃ d' ∈ t'.exposed, ∃ rests w, Becomes rests w d d' ∧
    f.Carries (d'.operand 2).root d.function.frequencies
  top : t.HasClosure → ∃ id, Readable (t.renumbered id) ∧
    f.Carries t.root (Block.frequencies ⟨[], [t.renumbered id]⟩)

theorem Becomes.isSealed (hd : d ∈ t.definitions) (h : Becomes rests w d e) :
    e.isSealed = true := by
  obtain ⟨-, hseal, -⟩ := Tree.mem_definitions hd
  cases h with
  | intro before =>
    rw [← Tree.isSealed_splatIn rests, before] at hseal
    exact hseal

theorem Becomes.let_mem (h : Becomes rests w d e) : (e.operand 2).root ∈ e.ids := by
  cases h with
  | intro => simp [Tree.operand, Tree.operands, Tree.root, Tree.ids_node]

/-- The statements outside every function are worked on after the functions. -/
theorem Stage.ended {id pos : _} {c'' : Context} (hh : Bears U c [v] [t])
    (hst : Stage U c v t t.definitions (.node mark tag ts) c') (hid : (c'.forest.size : Int) < id)
    (hplain : ∀ x ∈ t.ids, c.forest.exportsAt x = []) (hclosure : t.HasClosure)
    (hfilled : c'.forest.exportsAt mark.id = [] →
      LetOperands c' ⟨[], [(Tree.node mark tag ts).renumbered id]⟩
      (topSetup c'.options.wordSize) operands)
    (hkept : ∀ x note, x ≠ mark.id → c'.forest.Carries x note → c''.forest.Carries x note)
    (hnoted : c''.forest.Carries mark.id
      (Block.frequencies ⟨[], [(Tree.node mark tag ts).renumbered id]⟩)) :
    Ended c.options.wordSize t (.node ⟨mark.id, pos⟩ .letIn operands) ∧
      Tallied c''.forest t (.node ⟨mark.id, pos⟩ .letIn operands) := by
  have hopen : tag.isSealed = false := (hst.like.hasClosure.mpr hclosure).isOpen
  have hids : ∀ x ∈ (Tree.node mark tag ts).openIds, c'.forest.exportsAt x = [] := by
    intro x hx
    rw [hst.like.openIds] at hx
    rw [hst.outside x hx]
    exact hplain x (t.openIds_subset_ids x hx)
  obtain ⟨hsealed, hlayout⟩ :=
    hfilled (hids mark.id (Tree.mem_openIds_node.mpr ⟨hopen, .inl rfl⟩))
  rw [hst.options] at hlayout
  have hlayout : LetLayout ⟨[], [t.renumbered id]⟩ (topSetup c.options.wordSize) operands := by
    refine LetLayout.like (.cons (hst.like.symm.renumbered id) .nil) (hlayout fun s hs x hx => ?_)
      (List.forall₂_same.mpr fun a _ => .refl a)
    obtain rfl := List.mem_singleton.mp hs
    rcases Tree.openIds_renumbered hx with rfl | hx
    · have hnone : c'.forest.get? x = none := by
        by_contra hsome
        obtain ⟨n, hn⟩ := Option.ne_none_iff_exists'.mp hsome
        have := (get?_eq_some_bounds hn).2
        omega
      rw [exportsAt, hnone]
      rfl
    · exact hids x hx
  have hroot : mark.id = t.root := by
    obtain ⟨args, rfl, -⟩ := like_open hopen hst.like.symm
    rfl
  have hfunctions : ∀ d ∈ t.definitions, ∃ d' ∈ (Tree.node ⟨mark.id, pos⟩ .letIn operands).exposed,
      Becomes (Tree.restIds t.definitions) c.options.wordSize d d' ∧
        c''.forest.Carries (d'.operand 2).root d.function.frequencies := by
    intro d hd
    obtain ⟨d', hd', hbecomes, hcarries⟩ := hst.finished hplain d hd
    have hseal := hbecomes.isSealed hd
    obtain ⟨ht, a, ha, hin⟩ := (Tree.mem_within_node.mp hd').resolve_left fun heq => by
      rw [heq] at hseal
      cases hopen.symm.trans hseal
    obtain ⟨b, hb, hin'⟩ := hsealed _ (List.mem_singleton_self _) d'
      (Tree.mem_within_operand ht ha hin) hseal
    refine ⟨d', Tree.mem_within_operand rfl hb hin', hbecomes, hkept _ _ (fun heq => ?_) hcarries⟩
    refine hst.reworks.bears.node.2.2.1
      (Tree.mem_idsOf.mpr ⟨a, ha, (Tree.ids_within hin).subset ?_⟩)
    exact heq ▸ hbecomes.let_mem
  refine ⟨⟨fun d hd => ?_, fun hno => absurd hclosure hno, fun _ => ?_⟩, fun d hd => ?_,
    fun _ => ?_⟩
  · obtain ⟨d', hd', hbecomes, -⟩ := hfunctions d hd
    exact ⟨d', hd', hbecomes⟩
  · refine ⟨id, ⟨mark.id, pos⟩, operands, fun hx => ?_, ?_, rfl, ?_⟩
    · have := (has_iff.mp (hh.has (x := id) (by simpa using hx))).2
      have := hst.reworks.size
      omega
    · exact hroot
    · exact hlayout
  · obtain ⟨d', hd', hbecomes, hcarries⟩ := hfunctions d hd
    exact ⟨d', hd', _, _, hbecomes, hcarries⟩
  · obtain ⟨hread, -⟩ := hlayout
    refine ⟨id, hread _ (List.mem_singleton_self _), hroot ▸ ?_⟩
    have hreading := reading_of_like [] (.cons (hst.like.renumbered id) .nil)
    rwa [Block.frequencies, hreading] at hnoted

/-- What becomes of a tree; and there is a tree also if something is refused. -/
theorem concludes_run {root : Int} (hh : Bears U c [v] [t]) (hc : c.Orderly)
    (hv : v.child? = some root) :
    Concludes (fun _ c' => ∃ t', Reworks U c [t] c' [v] [t'] ∧
        ((∀ x ∈ t.ids, c.forest.exportsAt x = []) →
          Ended c.options.wordSize t t' ∧ Tallied c'.forest t t'))
      (Kept U c [v] [t]) (run root c) := by
  unfold run
  have hids : t.ids.Nodup := by simpa using hh.nodup
  have hview : v.view = (Operand.ref root).view := by
    rw [Operand.view_eq_child.mpr hv, Operand.view_eq_child.mpr (Operand.child?_ref root)]
  have hdenotes := (List.forall₂_cons.mp hh.denotes).1.congr hview
  obtain ⟨grade, hgraded, -⟩ := hc.surveyed
  have hroot : c.forest.Has root := by
    obtain ⟨mark, tag, args, rfl, rfl⟩ := hh.child hv
    exact hh.uses.has _ hh.node.2.1
  obtain ⟨ids, hdefs, -⟩ := exists_definitions hgraded hroot
  obtain ⟨-, rfl⟩ := definitions_eq hgraded.valid hdenotes hids hdefs
  refine Concludes.bind (P := fun ids d => c = d ∧ ids = t.definitions.map Tree.root)
    (by rw [hdefs]; exact ⟨rfl, rfl⟩) fun ids d _ hd => ?_
  obtain ⟨rfl, rfl⟩ := hd
  refine (concludes_functions hh hc).bind fun _ d _ ⟨T, hst⟩ => ?_
  obtain ⟨mark, tag, ts, rfl, rfl⟩ := hst.reworks.bears.child hv
  have hfound : Concludes (fun b e => e = d ∧ (b = true ↔ t.HasClosure)) (Kept U c [v] [t])
      (hasOuterClosure mark.id d) := by
    refine (quiet_hasOuterClosure mark.id).outcome fun b e h => ?_
    rw [← hst.like.hasClosure]
    obtain ⟨grade, hgraded, -⟩ := hst.orderly.surveyed
    refine hasOuterClosure_eq hgraded.valid ?_ h
    exact (List.forall₂_cons.mp hst.reworks.bears.denotes).1.congr hview
  refine hfound.bind fun b e _ ⟨he, hb⟩ => ?_
  subst he
  cases b with
  | false =>
    have hnone : ¬ t.HasClosure := fun hclosure => Bool.false_ne_true (hb.mpr hclosure)
    refine concludes_pure ⟨_, hst.reworks, fun hplain => ⟨⟨fun d hd => ?_, fun _ => hst.like,
      fun h => absurd h hnone⟩, fun d hd => ?_, fun h => absurd h hnone⟩⟩
    · obtain ⟨d', hd', hbecomes, -⟩ := hst.finished hplain d hd
      exact ⟨d', hd', hbecomes⟩
    · obtain ⟨d', hd', hbecomes, hcarries⟩ := hst.finished hplain d hd
      exact ⟨d', hd', _, _, hbecomes, hcarries⟩
  | true =>
    refine (concludes_root hst.orderly hst.reworks.bears).mono (fun _ c' h => ?_) fun c' h => ?_
    · obtain ⟨pos, operands, hfilled, hkept, hnoted, hr⟩ := h
      refine ⟨_, hst.reworks.trans hh.uses hr, fun hplain => ?_⟩
      exact hst.ended hh (by omega) hplain (hb.mp rfl) hfilled hkept hnoted
    · exact hst.reworks.keptOn hh.uses h

theorem retains_run (hc : c.Orderly) (hh : Bears U c [v] [t]) (hv : v.child? = some root) :
    Retains U [v] [t] (run root) c :=
  (concludes_run hh hc hv).mono (fun _ _ ⟨_, hr, _⟩ => hr.kept) fun _ h => h

end Pass.Environment

namespace Forest

open Pass.Environment

/-- A root that stands for a tree with no node twice, in a forest without closures that share
parameters. -/
structure Source (f : Forest) (root : Int) (t : Tree Mark) : Prop where
  denotes : Denotes f (.ref root) t
  nodup : t.ids.Nodup
  plain : ∀ id n, f.get? id = some n → n.notes.namesAt "exports" = []
  valid : f.Valid
  acyclic : f.Acyclic

theorem parse_source (h : parse file source = .ok (f, root)) (ht : f.tree root = .ok t) :
    Source f root t := by
  have hg := parse_grown h
  obtain ⟨ts, hts, hd⟩ := hg.trees
  cases hts with
  | @cons _ s _ _ hs hnil =>
    cases hnil
    have hd : s.ids.Nodup := by simpa using hd
    obtain rfl : s = t := Except.ok.inj ((hs.operandTree hd).symm.trans ht)
    exact ⟨hs, hd,
      fun id n hn => by rw [hg.plain id n hn]; rfl, hg.ordered.valid, hg.ordered.acyclic⟩

theorem Source.tallied (h : Source f root t) (hrun : run root (.ofForest f options) = .ok u c) :
    ∃ t', Denotes c.forest (.ref root) t' ∧ t'.ids.Nodup ∧
      Ended options.withDefaults.wordSize t t' ∧ Tallied c.forest t t' := by
  have htidy : (Context.ofForest f options).Tidy := ⟨rfl, h.acyclic, h.valid⟩
  have hdone := concludes_run (bears_of_denotes rfl h.denotes h.nodup) htidy.orderly
    (Operand.child?_ref root)
  rw [hrun] at hdone
  obtain ⟨t', hr, hended⟩ := hdone
  refine ⟨t', (List.forall₂_cons.mp hr.bears.denotes).1, by simpa using hr.bears.nodup, ?_⟩
  refine hended fun x _ => ?_
  change f.exportsAt x = []
  cases hx : f.get? x with
  | none => simp [exportsAt, hx]
  | some n => simp [exportsAt, hx, h.plain x n hx]

theorem Source.ended (h : Source f root t) (hrun : run root (.ofForest f options) = .ok u c) :
    ∃ t', Denotes c.forest (.ref root) t' ∧ t'.ids.Nodup ∧
      Ended options.withDefaults.wordSize t t' := by
  obtain ⟨t', hdenotes, hnodup, hended, -⟩ := h.tallied hrun
  exact ⟨t', hdenotes, hnodup, hended⟩

end Forest

end Lowering
