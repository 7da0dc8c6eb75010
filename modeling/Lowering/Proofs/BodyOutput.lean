import Lowering.Proofs.LetLayout
import Lowering.Proofs.RenamedOutput

namespace Lowering

namespace Pass.Environment

open Forest PassM Scope

variable {U : Int → Prop} {c d d1 : Context} {b : Block} {vs : List Operand} {u : Unit}
variable {t : Tree Mark} {ts outs : List (Tree Mark)} {env : List Text} {E : Int → List Text}
variable {lets : Int → Option (Closed × Int)} {more : Int → List (Tree Mark)} {body : Body}

theorem Resolver.keyed_body (b : Block) : b.reading.Keyed b.params := by
  unfold Block.reading
  rw [← Resolver.foldl_events]
  exact Resolver.foldl_keeps (fun _ _ _ _ hs h => h.step hs) (Resolver.keyed_start b.params)

/-- The environment of a block: its captured names in slots, or nothing if it needs none. -/
inductive EnvOf (b : Block) : List Text → Prop where
  | slots (has : b.HasEnvironment) : EnvOf b (slots b.captures)
  | absent (without : ¬ b.HasEnvironment) : EnvOf b []

/-- The slot of a key is its index in the environment. -/
theorem EnvOf.slot_iff (h : EnvOf b env) (key : Text) (k : Nat) :
    env.idxOf? key = some k ↔ b.reading.SlotOf key k := by
  cases h with
  | slots has => exact (idxOf?_slots (Resolver.keyed_body b)).trans (and_iff_right has).symm
  | absent without => exact iff_of_false nofun fun h => without h.1

theorem mem_closures : x ∈ b.reading.closures ↔ ∃ t ∈ b.stmts, x ∈ entered (events t) := by
  rw [Block.reading, Resolver.closures_body, List.mem_flatMap]

theorem exists_closed_of_reading (hread : ∀ t ∈ b.stmts, Readable t) (hx : x ∈ b.reading.closures) :
    ∃ cl ∈ b.reading.closed, cl.id = x := by
  rw [Block.reading, Resolver.closures_body] at hx
  exact List.mem_map.mp ((Resolver.closed_body hread).mem_iff.mpr hx)

theorem nodup_closures (hd : (Tree.idsOf b.stmts).Nodup) : b.reading.closures.Nodup := by
  rw [Block.reading, Resolver.closures_body]
  refine hd.sublist (Tree.flatMap_sublist fun t _ => ?_)
  exact (entered_sublist t).trans t.openIds_sublist

/-- The statements of a body with their closures wrapped, their captured names in slots, and the
copies of shared parameters in the `let`s of closures. -/
structure Reshaped (c : Context) (b : Block) (env : List Text) (E : Int → List Text)
    (lets : Int → Option (Closed × Int)) (more : Int → List (Tree Mark)) (outs : List (Tree Mark)) :
    Prop where
  environment : EnvOf b env
  each : List.Forall₂ (fun t t' => Slotted env E [] (t.wrapped lets) t') b.stmts outs
  entries : ∀ x, lets x ≠ none → x ∈ b.reading.closures
  old : ∀ x : Int, x ≤ c.forest.size → more x = []
  noted : ∀ cl ∈ b.reading.closed, c.forest.exportsAt cl.id = [] → E cl.id = cl.exports
  bodies : ∀ cl ∈ b.reading.closed, ∀ t ∈ b.stmts, ∀ u ∈ t.nodes, u.root = cl.id →
    lets cl.id = none ∧ u.Bodiless ∨
      ¬ u.Bodiless ∧ ∃ n, lets cl.id = some (cl, n) ∧ Copies env cl.id cl.exports (more n)

namespace Reshaped

theorem entered (h : Reshaped c b env E lets more outs) (hd : (Tree.idsOf b.stmts).Nodup)
    (ht : t ∈ b.stmts) (hx : x ∈ t.ids) (hlet : lets x ≠ none) : x ∈ Scope.entered (events t) := by
  obtain ⟨s, hs, hx'⟩ := mem_closures.mp (h.entries x hlet)
  have hxs : x ∈ s.ids := s.openIds_subset_ids x ((entered_sublist s).subset hx')
  obtain ⟨i, hi⟩ := List.mem_iff_getElem?.mp ht
  obtain ⟨j, hj⟩ := List.mem_iff_getElem?.mp hs
  obtain rfl := Tree.index_unique hd hi hj hx hxs
  cases hi.symm.trans hj
  exact hx'

theorem tailored (h : Reshaped c b env E lets more outs) (hread : ∀ t ∈ b.stmts, Readable t)
    (hd : (Tree.idsOf b.stmts).Nodup) (hold : ∀ x ∈ Tree.idsOf b.stmts, x ≤ c.forest.size)
    (hplain : ∀ t ∈ b.stmts, ∀ x ∈ t.openIds, c.forest.exportsAt x = []) (ht : t ∈ b.stmts) :
    Tailored b.reading env E lets more t where
  readable := hread t ht
  nodup := (List.nodup_flatMap.mp hd).1 t ht
  old x hx := h.old x (hold x (Tree.mem_idsOf.mpr ⟨t, ht, hx⟩))
  entries x hx := h.entered hd ht hx
  closures p u id params hu hc := by
    obtain ⟨i, hi⟩ := List.mem_iff_getElem?.mp ht
    have hplace : b.at? (i :: p) = some u := by
      rw [Block.at?, hi]
      exact hu
    obtain ⟨cl, hcl, rfl, hshares⟩ := Resolver.exports_body hread hplace hc
    have hentered := entered_of_place (hread t ht) hu hc
    have hE := h.noted cl hcl (hplain t ht cl.id ((entered_sublist t).subset hentered))
    refine ⟨cl, hcl, rfl, hE, (Resolver.notedOnce_body b).closed cl hcl, hshares, ?_⟩
    cases u with
    | leaf a => cases hc
    | node mark tag args =>
      obtain ⟨-, hid, -⟩ := Tree.closure?_eq_some.mp hc
      exact h.bodies cl hcl t ht _ (Tree.mem_nodes_at hu) hid.symm

/-- The statements are renamed, if no closure among them was annotated before. -/
theorem renamed (h : Reshaped c b env E lets more outs) (hread : ∀ t ∈ b.stmts, Readable t)
    (hd : (Tree.idsOf b.stmts).Nodup) (hold : ∀ x ∈ Tree.idsOf b.stmts, x ≤ c.forest.size)
    (hplain : ∀ t ∈ b.stmts, ∀ x ∈ t.openIds, c.forest.exportsAt x = []) :
    RenamedEach b.reading [] b.stmts (outs.map (Tree.inserted more)) := by
  refine renamedEach_iff.mpr (List.forall₂_map_right_iff.mpr (List.forall₂_iff_get.mpr
    ⟨h.each.length_eq, fun i hi hi' => ?_⟩))
  exact (h.tailored hread hd hold hplain (List.get_mem b.stmts ⟨i, hi⟩)).renamed
    h.environment.slot_iff
    (h.each.get hi hi')

/-- Functions and lowered code in the statements stay. -/
theorem keeps_sealed (h : Reshaped c b env E lets more outs) (hd : (Tree.idsOf b.stmts).Nodup)
    (hold : ∀ x ∈ Tree.idsOf b.stmts, x ≤ c.forest.size) (ht : t ∈ b.stmts) {u : Tree Mark}
    (hlet : skips .letIn = false) (hu : u ∈ t.within skips) (hs : u.isSealed = true) :
    ∃ s ∈ outs.map (Tree.inserted more), u ∈ s.within skips := by
  have hin : ∀ x ∈ u.ids, x ∈ t.ids := (Tree.ids_within hu).subset
  have hwrapped : u.wrapped lets = u := by
    refine Tree.wrapped_eq fun x hx => ?_
    by_contra hlet
    have hopen := (entered_sublist t).subset (h.entered hd ht (hin x hx) hlet)
    exact Tree.not_mem_of_openIds ((List.nodup_flatMap.mp hd).1 t ht)
      (t.within_subset u hu) hs hopen hx
  have hinserted : u.inserted more = u :=
    Tree.inserted_eq fun x hx => h.old x (hold x (Tree.mem_idsOf.mpr ⟨t, ht, hin x hx⟩))
  have hmem : u.wrapped lets ∈ (t.wrapped lets).within skips := by
    refine Tree.wrapped_mem_nodes hlet hu fun m as heq => ?_
    rw [heq] at hs
    cases hs
  rw [hwrapped] at hmem
  obtain ⟨t', ht', hrew⟩ := forall₂_mem_left h.each ht
  obtain ⟨u', hu', hcase⟩ := hrew.mem_nodes hmem
  obtain rfl : u' = u := hcase.elim id fun ⟨_, h⟩ => h.sealed hs
  exact ⟨_, List.mem_map_of_mem ht', hinserted ▸ Tree.inserted_mem_nodes hu'⟩

end Reshaped

variable {r : Resolver}

theorem Wrapped.reshaped (hw : Wrapped U c vs b.stmts b.reading.closed lets d)
    (hread : ∀ t ∈ b.stmts, Readable t) (hnone : ¬ b.HasEnvironment) :
    Reshaped c b [] d.forest.exportsAt lets (fun _ => []) (b.stmts.map (Tree.wrapped lets)) where
  environment := .absent hnone
  each := List.forall₂_map_right_iff.mpr (List.forall₂_same.mpr fun t _ => slotted_self _ _ _)
  entries x hx := by
    obtain ⟨e, he⟩ := Option.ne_none_iff_exists'.mp hx
    obtain ⟨hcl, hid, -⟩ := hw.entries x e.1 e.2 he
    rw [Block.reading, Resolver.closures_body]
    exact (Resolver.closed_body hread).mem_iff.mp (List.mem_map.mpr ⟨e.1, hcl, hid⟩)
  old _ _ := rfl
  noted := hw.noted
  bodies cl hcl := by
    -- without an environment there are no closures
    have hmem := (Resolver.closed_body hread).mem_iff.mp (List.mem_map_of_mem hcl)
    rw [← Resolver.closures_body] at hmem
    rw [show ((Resolver.start b.params).readAll b.stmts).closures = [] from
      (not_not.mp hnone).2] at hmem
    cases hmem

theorem closureAt_of_rewritten (hw : Wrapped U c vs b.stmts b.reading.closed lets d)
    (hread : ∀ t ∈ b.stmts, Readable t)
    (heach : List.Forall₂ (fun t t' => Slotted env E [] (t.wrapped lets) t') b.stmts outs)
    (hx : x ∈ b.reading.closures) : ClosureAt lets outs x := by
  obtain ⟨cl, hcl, rfl⟩ := exists_closed_of_reading hread hx
  obtain ⟨t, ht, hx⟩ := mem_closures.mp hx
  obtain ⟨mark, tag, args, hmem, hid, hc⟩ := closure_of_entered hx
  obtain ⟨t', ht', hrew⟩ := forall₂_mem_left heach ht
  have hplace : _ ∈ (t.wrapped lets).nodes := Tree.wrapped_mem_nodes rfl hmem fun m as heq => by
    obtain ⟨-, rfl, -⟩ := Tree.node.inj heq
    cases hc
  obtain ⟨u', hu', hcase⟩ := hrew.mem_nodes hplace
  rcases hw.bodies cl hcl t ht _ hmem hid with ⟨hlet, hbare⟩ | ⟨hbare, n, hlet⟩
  · have hbare : (Tree.node mark tag (args.map (Tree.wrapped lets))).Bodiless :=
      Tree.bodiless_wrapped.mpr hbare
    rw [Tree.wrapped_none (Tree.letOf_eq_none.mpr fun _ => hid ▸ hlet)] at hcase
    obtain rfl : u' = _ := by
      rcases hcase with rfl | ⟨keys, hrew⟩
      · rfl
      · cases hrew with
        | node each => rw [kept_of_bare hc hbare each]
    exact ⟨t', ht', mark, tag, _, hu', hid, hc, .inl hbare⟩
  · rw [Tree.wrapped_some (Tree.letOf_eq_some.mpr ⟨hc, hid ▸ hlet⟩)] at hcase
    rcases args with _ | ⟨params, _ | ⟨stmts, rest⟩⟩
    · exact absurd nofun hbare
    · exact absurd nofun hbare
    · rcases hcase with rfl | ⟨keys, hrew⟩
      · exact ⟨t', ht', mark, tag, _, hu', hid, hc, .inr ⟨cl, n, _, _, hlet, rfl⟩⟩
      · obtain ⟨stmts', rfl, -⟩ := Slotted.closure hc hrew
        exact ⟨t', ht', mark, tag, _, hu', hid, hc, .inr ⟨cl, n, _, _, hlet, rfl⟩⟩

theorem mem_copied (hread : ∀ t ∈ b.stmts, Readable t) {name : Text} :
    name ∈ copied body b.reading (slots b.captures) ↔
      b.Shares name ∨ name = closureName ∧ body.site.isRoot = false := by
  have hkeyed := Resolver.keyed_body b
  have hslots : slots b.captures = stackframeName :: b.captures ++ [closureName] :=
    Keyed.slots hkeyed
  have hshares : name ∈ b.reading.capturedParams ↔ b.Shares name :=
    Resolver.mem_capturedParams hread
  unfold copied
  rw [List.mem_filter, ← hshares]
  simp only [Bool.or_eq_true, List.contains_iff_mem, Bool.and_eq_true, decide_eq_true_eq,
    Bool.not_eq_true', and_iff_right_iff_imp]
  rintro (hname | ⟨rfl, -⟩)
  · rw [hslots]
    exact List.mem_append_left _ (List.mem_cons_of_mem _ (hkeyed.arguments name hname).1)
  · rw [hslots]
    simp

/-- What the `let` of a body depends on, other than its statements. -/
def Body.setup (body : Body) (options : Options) : Setup :=
  ⟨body.rest, body.fixed, body.site.isRoot, options.wordSize⟩

/-- The statements of a body that has an environment, and those that set it up. -/
theorem withEnvironment_reshapes (hh : Bears U c body.stmts b.stmts)
    (hw : Wrapped U c body.stmts b.stmts b.reading.closed lets d1)
    (hread : ∀ t ∈ b.stmts, Readable t) (hhas : b.HasEnvironment)
    (h : withEnvironment body b.reading d1 = .ok vs d) :
    ∃ E more outs start, Reshaped c b (slots b.captures) E lets more outs ∧
      Reworks U c b.stmts d vs (start ++ outs.map (Tree.inserted more)) ∧
      Annotates (fun _ => False) d1 d ∧ Starts b (body.setup c.options) start := by
  obtain ⟨ws, e1, e2, start, hslots, hshare, hstart, rfl⟩ := withEnvironment_ok h
  have hkeyed := Resolver.keyed_body b
  obtain ⟨outs, hr1, hrew, hann1⟩ := statements_reworks (toSlots_reworks _ d1.forest.exportsAt _)
    hw.reworks.bears (fun _ _ => rfl) hslots
  have heach := List.forall₂_map_left_iff.mp hrew
  obtain ⟨more, hfurn⟩ := (furnished_start hr1.bears).steps hr1.bears hw.unique
    (nodup_closures hh.nodup) (fun x hx => closureAt_of_rewritten hw hread heach hx) hshare
  obtain ⟨allocation, copies, hmade, hann2, halloc, hcopies⟩ := prologue_makes hstart
  have hr := hw.reworks.trans hh.uses (hr1.trans hw.reworks.bears.uses hfurn.reworks)
  have hws : ws ≠ [] := by
    rintro rfl
    have hnil : b.stmts = [] := by
      have := heach.length_eq.trans hr1.bears.denotes.length_eq.symm
      exact List.length_eq_zero_iff.mp this
    exact hhas (by simp [Block.reading, hnil, Resolver.readAll, Resolver.start])
  have hann := (hann1.trans hfurn.annotates).trans hann2
  have hentries : ∀ x e, lets x = some e → x ∈ b.reading.closures := by
    intro x e he
    obtain ⟨hcl, hid, -⟩ := hw.entries x e.1 e.2 he
    rw [Block.reading, Resolver.closures_body]
    exact (Resolver.closed_body hread).mem_iff.mp (List.mem_map.mpr ⟨e.1, hcl, hid⟩)
  refine ⟨d1.forest.exportsAt, more, outs, allocation :: copies, ⟨.slots hhas, heach, ?_, ?_,
    hw.noted, ?_⟩, ?_, hann, ?_⟩
  · intro x hx
    obtain ⟨e, he⟩ := Option.ne_none_iff_exists'.mp hx
    exact hentries x e he
  · intro x hx
    refine hfurn.none x fun y cl hy => ?_
    have := (hw.entries y cl x hy).2.2
    omega
  · intro cl hcl t ht u hu hroot
    refine (hw.bodies cl hcl t ht u hu hroot).imp_right fun h => ?_
    obtain ⟨hbare, n, hlet⟩ := h
    refine ⟨hbare, n, hlet, ?_⟩
    have hexports : b.reading.exportsOf cl.id = cl.exports :=
      Resolver.exportsOf_eq (nodup_closed hread hh.nodup) hcl
    exact hexports ▸ hfurn.copies cl.id cl n hlet (hentries _ _ hlet)
  · rw [if_neg (by simpa using hws)]
    have hall := hmade.append (.keep (Denotes.growEach hr.bears.denotes hmade.grows))
    exact hr.trans hh.uses (hall.reworks hr.bears (.refl _))
  · refine .present hhas ?_ ((nodup_slots _).filter _) (fun name => mem_copied hread) ?_
    · have hlen : (slots b.reading.captures).length = b.captures.length + 2 := by
        rw [Keyed.slots hkeyed]
        simp [Block.captures]
      rw [halloc, hlen, hfurn.annotates.options, hann1.options, hw.annotates.options]
      rfl
    · exact hcopies.imp fun name v h => h.imp fun k h => ⟨(idxOf?_slots hkeyed).mp h.1, h.2⟩

theorem exports_frequencies (r : Resolver) : (frequencies r).namesAt "exports" = [] := by
  have hne : ("exports" : Text) ≠ "varfreq" := by decide
  simp only [frequencies, Notes.namesAt, Notes.find?_insert, if_neg hne]
  rfl

/-- What is known of the operands of the `let` that a body becomes: the functions and the lowered
code in the body are still there, and there is the layout, if no closure was annotated before. -/
structure LetOperands (c : Context) (b : Block) (s : Setup) (args : List (Tree Mark)) : Prop where
  sealed : ∀ t ∈ b.stmts, ∀ u ∈ t.exposed, u.isSealed = true → ∃ a ∈ args, u ∈ a.exposed
  layout : (∀ t ∈ b.stmts, ∀ x ∈ t.openIds, c.forest.exportsAt x = []) → LetLayout b s args

/-- The `let` that a body becomes, before it is put into its place. -/
structure BodyLet (U : Int → Prop) (c : Context) (b : Block) (s : Setup) (d : Context) (letId : Int)
    (mark : Mark) (args : List (Tree Mark)) : Prop where
  reworks : Reworks U c b.stmts d [.ref letId] [.node mark .letIn args]
  annotates : Annotates (fun x => ∃ t ∈ b.stmts, x ∈ t.openIds) c d
  filled : LetOperands c b s args
  carries : d.forest.Carries mark.id b.frequencies

/-- A body becomes a `let` and is put into its place. -/
theorem materialize_let {c' : Context} (hh : Bears U c body.stmts ts)
    (h : materialize body c = .ok u c') :
    ∃ d letId mark args,
      BodyLet U c ⟨body.params, ts⟩ (body.setup c.options) d letId mark args ∧
      install body.site letId d = .ok ⟨⟩ c' := by
  obtain ⟨r, d1, stmts, d2, rest, d3, vars, d4, hresolve, hcase, hrest, hvars, hinstall⟩ :=
    materialize_ok h
  have hfirst := concludes_resolve body.params hh
  rw [hresolve] at hfirst
  obtain ⟨hread, hreading, lets, hw⟩ := hfirst
  obtain rfl : r = Block.reading ⟨body.params, ts⟩ := hreading
  obtain ⟨env, E, more, outs, start, hshaped, hr, hann, hstarts⟩ :
      ∃ env E more outs start, Reshaped c ⟨body.params, ts⟩ env E lets more outs ∧
        Reworks U c ts d2 stmts (start ++ outs.map (Tree.inserted more)) ∧
        Annotates (fun _ => False) d1 d2 ∧
        Starts ⟨body.params, ts⟩ (body.setup c.options) start := by
    rcases hcase with ⟨hnone, rfl, rfl⟩ | ⟨hhas, hwith⟩
    · refine ⟨[], _, _, _, [], hw.reshaped hread (not_not.mpr hnone), ?_, .refl _,
        .absent (not_not.mpr hnone)⟩
      rw [Tree.map_eq_self fun t _ => Tree.inserted_eq fun _ _ => rfl]
      exact hw.reworks
    · obtain ⟨E, more, outs, start, hshaped, hr, hann, hstarts⟩ :=
        withEnvironment_reshapes hh hw hread hhas hwith
      exact ⟨_, E, more, outs, start, hshaped, hr, hann, hstarts⟩
  obtain ⟨rs, hrs, hann1, hcollects⟩ := collectRest_makes hrest
  have hlist := (Makes.syms d3 (declared body (Block.reading ⟨body.params, ts⟩))).list hvars
  have hfront := (hrs.append hlist).swap hrs.denotes.length_eq
  have hall := hfront.append (.keep (Denotes.growEach hr.bears.denotes hfront.grows))
  have hlet := Makes.add (n := letNode body (Block.reading ⟨body.params, ts⟩)
    (vars :: rest ++ stmts)) hall
  have hold : ∀ x ∈ Tree.idsOf ts, x ≤ (c.forest.size : Int) := fun x hx =>
    (has_iff.mp (hh.has hx)).2
  refine ⟨_, _, _, _, ⟨hr.trans hh.uses (hlet.reworks hr.bears (.refl _)), ?_, ⟨?_, ?_⟩,
    ⟨_, get?_push_self _ _, ?_⟩⟩, hinstall⟩
  · have hwrapped : Annotates (fun x => ∃ t ∈ ts, x ∈ t.openIds) c d1 := by
      refine hw.annotates.mono fun x hx => ?_
      obtain ⟨t, ht, hx⟩ := List.mem_flatMap.mp ((Resolver.closed_body (b := ⟨body.params, ts⟩)
        hread).mem_iff.mp hx)
      exact ⟨t, ht, (entered_sublist t).subset hx⟩
    exact hwrapped.trans ((hann.mono fun _ => False.elim).trans (hann1.trans
      ((node_annotates hvars).trans (.add d4 (exports_frequencies _)))))
  · intro t ht u hu hs
    obtain ⟨s, hs, hmem⟩ := hshaped.keeps_sealed hh.nodup hold ht rfl hu hs
    exact ⟨s, List.mem_append_right _ (List.mem_append_right _ hs), hmem⟩
  · intro hplain
    have hforms : (Setup.restNames (body.setup c.options)).map (collectForm · body.fixed) =
        if body.rest.isEmpty then [] else [collectForm body.rest body.fixed] := by
      unfold Setup.restNames Body.setup
      split <;> rfl
    rw [← List.append_assoc]
    exact .intro hread (shape_names _ _) (hcollects.trans hforms.symm) hstarts
      (hshaped.renamed hread hh.nodup hold hplain)
  · exact (Notes.find?_insert _ _ _ _).trans (if_pos rfl)

theorem accepts_withEnvironment (b : Body) (r : Resolver) :
    PassM.Accepts (withEnvironment b r) := by
  have hprologue : PassM.Accepts (prologue b r (slots r.captures)) :=
    quiet_get.accepts.bind fun _ => (quiet_list _ _).accepts.bind fun _ =>
      (quiet_node _ _ _).accepts.bind fun _ => (quiet_node _ _ _).accepts.bind fun _ =>
      (quiet_node _ _ _).accepts.bind fun _ => (PassM.Accepts.mapM
        (fun _ => accepts_copyIn _ _ _ _) _).bind fun _ => (quiet_pure _).accepts
  exact quiet_get.accepts.bind fun _ =>
    (PassM.Accepts.mapM (fun _ => (quiet_toSlots _ _ _ _ _).accepts) _).bind fun _ =>
      (PassM.Accepts.forM (accepts_shareParams _ r) _).bind fun _ => hprologue.bind fun _ =>
        (quiet_pure _).accepts

theorem quiet_collectRest (b : Body) : Quiet (collectRest b) := by
  unfold collectRest
  split
  · exact quiet_pure _
  · exact (quiet_node _ _ _).bind fun _ => (quiet_list _ _).bind fun _ =>
      (quiet_node _ _ _).bind fun _ => (quiet_node _ _ _).bind fun _ => quiet_pure _

theorem quiet_install (site : Site) (letId : Int) : Quiet (install site letId) := by
  unfold install
  split
  · exact (quiet_fetch _).bind fun _ => ((quiet_operandAt _ _).bind fun _ => quiet_pure _).bind
      fun _ => quiet_setArgs _ _
  · exact quiet_replace _ _

/-- A body is refused only while it is resolved. -/
theorem resolve_of_refused {b : Body} (he : e.IsRefusal ∨ e = .circular)
    (h : materialize b c = .error e c') : resolve b.params b.stmts c = .error e c' := by
  unfold materialize at h
  rcases bind_error.mp h with h | ⟨r, d, -, h⟩
  · exact h
  · have hend : ∀ stmts : List Operand, PassM.Accepts (putLet b r stmts) := fun stmts =>
      ((quiet_collectRest b).bind fun _ => (quiet_list _ _).bind fun _ => (quiet_alloc _ _ _).bind
        fun _ => (quiet_update _ _).bind fun _ => quiet_install _ _).accepts
    split at h
    · exact absurd he (hend _ d e c' h)
    · exact absurd he (((accepts_withEnvironment b r).bind hend) d e c' h)

end Pass.Environment

end Lowering
