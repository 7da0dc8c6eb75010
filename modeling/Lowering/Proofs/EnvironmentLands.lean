import Lowering.Proofs.Idempotence
import Lowering.Proofs.SlotsLand
import Lowering.Proofs.TreeWalks

namespace Lowering

namespace Scope

theorem reject_mem_nodeEvents (h : .reject e ∈ nodeEvents mark tag args parts) :
    .reject e ∈ parts.flatten := by
  have sub : ∀ {l : List (List Event)}, l.Sublist parts → .reject e ∈ l.flatten →
      .reject e ∈ parts.flatten := fun hs h => hs.flatten.mem h
  have closure : ∀ id params, .reject e ∈ .enter id params :: (parts.drop 1).flatten ++ [.leave] →
      .reject e ∈ parts.flatten := by
    intro id params h
    exact sub (List.drop_sublist 1 parts) (by simpa using h)
  cases tag
  case assign =>
    rcases List.mem_append.mp h with h | h
    · exact h
    · unfold definition at h
      split at h <;> simp at h
  case callm => exact sub (List.eraseIdx_sublist _ _) h
  case letIn => exact sub (List.drop_sublist _ _) h
  case lambda | proc => exact closure _ _ h
  all_goals exact h

theorem reject_mem_events (h : .reject e ∈ events t) : e.complaint.kind = .malformed := by
  induction t with
  | leaf a => cases a <;> simp [events] at h
  | node mark tag args ih =>
    rw [events_node] at h
    split at h
    · cases h
    · split at h
      · rename_i complaint hm
        cases List.mem_singleton.mp h
        exact Complaint.ofOperands_kind hm
      · obtain ⟨es, hes, h⟩ := List.mem_flatten.mp (reject_mem_nodeEvents h)
        obtain ⟨s, hs, rfl⟩ := List.mem_map.mp hes
        exact ih s hs h

theorem Resolver.run_some {r s : Resolver} (h : r.run es = (s, some e)) : .reject e ∈ es := by
  induction es generalizing r with
  | nil => cases h
  | cons event es ih =>
    cases event with
    | reject d =>
      cases h
      simp
    | use | define | enter | leave => exact List.mem_cons_of_mem _ (ih h)

end Scope

namespace Pass.Environment

open Forest PassM Scope

variable {c d : Context} {grade grade1 : Survey} {id : Int} {n : Node} {v w : Operand}
  {env : List Text} {pos : Position}

theorem elems_passable {f : Forest} (h : f.elems v = .ok vs)
    (hv : ∀ x, v.child? = some x → f.Passable x) :
    ∀ w ∈ vs, ∀ y, w.child? = some y → f.Passable y := by
  unfold Forest.elems at h
  cases hview : v.view with
  | atom a =>
    rw [hview] at h
    intro w hw y hy
    cases a <;> cases h
    · cases hw
    all_goals
      obtain rfl := List.mem_singleton.mp hw
      exact hv y hy
  | child x =>
    have hpass := hv x (Operand.view_eq_child.mp hview)
    obtain ⟨n, hn, -, hreads⟩ := shaped_passable f x hpass
    rw [hview] at h
    simp only [get_eq_ok.mpr hn, bind, Except.bind, pure, Except.pure] at h
    split at h
    · rename_i hl
      cases h
      intro w hw y hy
      obtain ⟨i, hi⟩ := List.mem_iff_getElem?.mp hw
      exact hreads i y (by rw [hl]; rfl) (by simp [Node.arg, hi, hy])
    · cases h
      intro w hw y hy
      obtain rfl := List.mem_singleton.mp hw
      exact hv y hy

theorem steady_wrapped {rest stmts names : List Operand} (hg : d2.Surveyed grade)
    (hn : d.forest.get? id = some n) (hargs : n.args = params :: body :: rest)
    (ht : n.tag.isClosure = true)
    (hstmts : ∀ w ∈ stmts, ∀ y, w.child? = some y → d.forest.Passable y)
    (hvars : list pos names d = .ok vars d1)
    (hwrapped : node .letIn pos (vars :: stmts) d1 = .ok wrapped d2)
    (hset : setArgs id (params :: wrapped :: rest) d2 = .ok u e) :
    Steady d.forest e.forest ∧ e.forest.Bodied id := by
  obtain ⟨-, rfl⟩ := list_ok.mp hvars
  obtain ⟨rfl, rfl⟩ := node_ok.mp hwrapped
  have grows := (grows_push d.forest { tag := .list, args := names, pos }).trans
    (grows_push _ { tag := .letIn, args := vars :: stmts, pos })
  have hn2 := grows id n hn
  have hlet := get?_push_self (d.add { tag := .list, args := names, pos }).forest
    { tag := .letIn, args := vars :: stmts, pos }
  have hpass := passable_of_node hlet ⟨nofun, fun _ => by simp⟩ fun i y hi hy => by
    obtain ⟨j, rfl⟩ : ∃ j, i = j + 1 := ⟨i - 1, by simp [Tag.reads] at hi; omega⟩
    have hy : ((stmts[j]?).getD Operand.nil).child? = some y := hy
    cases hj : stmts[j]? with
    | none => simp [hj, Operand.child?, Operand.isNode, Operand.nil] at hy
    | some w => exact (hstmts w (List.mem_of_getElem? hj) y (by simpa [hj] using hy)).grow grows
  have steady := steady_setArgs hg.toGraded hn2 (exchanged_body hargs hlet rfl (by simp) hpass) hset
  refine ⟨grows.steady.trans steady, ?_⟩
  obtain ⟨m, hm, htag, hlen⟩ := steady.tags _ _ hlet
  have hid := (setArgs_frame hset).2.2 id
  simp only [if_pos (mem_sharers _ id), Context.add_forest, hn2] at hid
  exact ⟨_, _, m, hid, ht, Operand.child?_ref _, hm, htag, Nat.lt_of_lt_of_le (by simp) hlen⟩

/-- Every node keeps its tag. -/
def SameTags (c d : Context) : Prop :=
  ∀ x n, c.forest.get? x = some n → ∃ n', d.forest.get? x = some n' ∧ n'.tag = n.tag

theorem SameTags.refl (c : Context) : SameTags c c := fun _ n hn => ⟨n, hn, rfl⟩

theorem SameTags.trans (h : SameTags c d) (h' : SameTags d e) : SameTags c e := by
  intro x n hn
  obtain ⟨n', hn', ht⟩ := h x n hn
  obtain ⟨n'', hn'', ht'⟩ := h' x n' hn'
  exact ⟨n'', hn'', ht'.trans ht⟩

/-- A number that belongs to a closure. -/
def IsClosure (f : Forest) (id : Int) : Prop := ∃ n, f.get? id = some n ∧ n.tag.isClosure = true

theorem SameTags.closure (h : SameTags c d) (hid : IsClosure c.forest id) :
    IsClosure d.forest id := by
  obtain ⟨n, hn, ht⟩ := hid
  obtain ⟨n', hn', htag⟩ := h id n hn
  exact ⟨n', hn', htag ▸ ht⟩

theorem sameTags_of_steady (h : Steady c.forest d.forest) : SameTags c d := by
  intro x n hn
  obtain ⟨n', hn', htag, -⟩ := h.tags x n hn
  exact ⟨n', hn', htag⟩

theorem sameTags_setArgs (h : setArgs id args c = .ok u d) : SameTags c d := by
  intro x n hn
  rw [(setArgs_frame h).2.2, hn]
  split <;> exact ⟨_, rfl, rfl⟩

theorem lands_wrap {cl : Closed} (hc : c.Surveyed grade) (hcl : IsClosure c.forest cl.id) :
    Lands .grades (wrap cl) c grade fun _ d _ => SameTags c d ∧ (c.forest.Passable cl.id →
      Steady c.forest d.forest ∧ (c.forest.Filled cl.id → d.forest.Bodied cl.id)) := by
  have wrapped : ∀ {d grade1}, Onward .grades c grade d grade1 → Steady c.forest d.forest →
      Lands .grades (enclose cl) d grade1 fun _ e _ => SameTags c e ∧ (c.forest.Passable cl.id →
        Steady c.forest e.forest ∧ (c.forest.Filled cl.id → e.forest.Bodied cl.id)) := by
    intro d grade1 ho hs
    obtain ⟨n0, hn0, hclosure⟩ := hcl
    obtain ⟨n, hn, htag, -⟩ := hs.tags cl.id n0 hn0
    refine .after_fetch hn ?_
    have hassign : n.tag ≠ .assign := by
      intro heq
      simp [← htag, heq, Tag.isClosure] at hclosure
    have hfunction : ¬ grade1.IsFunction cl.id :=
      (ho.graded.nodes cl.id n hn).not_function fun heq => by
      simp [← htag, heq, Tag.isClosure] at hclosure
    have empty : (n.arg 1).isNil = true → SameTags c d ∧ (c.forest.Passable cl.id →
        Steady c.forest d.forest ∧ (c.forest.Filled cl.id → d.forest.Bodied cl.id)) := by
      refine fun hnil => ⟨sameTags_of_steady hs, fun _ => ⟨hs, fun hfill => ?_⟩⟩
      obtain ⟨m, hm, -, hbody⟩ := hs.filled _ hfill
      obtain rfl := Option.mem_unique hm hn
      rw [hnil] at hbody
      cases hbody
    rcases hargs : n.args with _ | ⟨params, _ | ⟨body, rest⟩⟩
    case cons.cons =>
      simp only []
      have hbody : n.arg 1 = body := by simp [Node.arg, hargs]
      cases hnil : body.isNil with
      | true =>
        simp only [Bool.not_true, Bool.false_eq_true, if_false]
        exact lands_pure ho.graded (empty (hbody ▸ hnil))
      | false =>
        simp only [Bool.not_false, if_true]
        have hunder : ∀ {a}, a ∈ params :: body :: rest → Under d grade1 cl.id a :=
          fun ha => under_operand ho.graded hn hassign (hargs ▸ ha)
        obtain ⟨stmts, hstmts, hunderStmts⟩ := exists_elems ho.graded (hunder (a := body) (by simp))
        refine .after_query hstmts ?_
        have hid : d.forest.Has cl.id := ⟨n, hn⟩
        refine (lands_list ho.graded hid (fun a ha => ?_)).bind
          fun vars d1 grade2 hvars ho1 uvars => ?_
        · obtain ⟨x, -, rfl⟩ := List.mem_map.mp ha
          exact under_sym hid x
        refine (lands_node ho1.graded uvars.place fun a (ha : a ∈ vars :: stmts) => ?_).bind
          fun wrapped d2 grade3 hwrapped ho2 uwrapped => ?_
        · rcases List.mem_cons.mp ha with rfl | ha
          · exact uvars
          · exact (hunderStmts a ha).onward ho1
        have under : ∀ a ∈ params :: wrapped :: rest, Under d2 grade3 cl.id a := by
          intro a ha
          rcases List.mem_cons.mp ha with rfl | ha
          · exact ((hunder (by simp)).onward ho1).onward ho2
          · rcases List.mem_cons.mp ha with rfl | ha
            · exact uwrapped
            · exact ((hunder (by simp [ha])).onward ho1).onward ho2
        refine (lands_setArgs ho2.graded uwrapped.place (fun a ha => (under a ha).toLiesBelow)
          (.exchange ((ho1.trans ho2).unlisted hid hfunction) fun a ha => (under a ha).free)).mono
          fun _ e _ hset _ _ => ⟨?_, fun hpass => ?_⟩
        · have grows := ((node_grows hvars).trans (node_grows hwrapped)).steady
          exact (sameTags_of_steady (hs.trans grows)).trans (sameTags_setArgs hset)
        · have hstmt := elems_passable hstmts fun x hx =>
            ((hs.passable _ hpass).node hn).2 1 x (reads_closure (htag ▸ hclosure)) (hbody ▸ hx)
          obtain ⟨hsteady, hbodied⟩ := steady_wrapped ho2.graded hn hargs
            (htag ▸ hclosure) hstmt hvars
            hwrapped hset
          exact ⟨hs.trans hsteady, fun _ => hbodied⟩
    all_goals
      simp only []
      exact lands_pure ho.graded (empty (by simp [Node.arg, hargs]; rfl))
  obtain ⟨-, heq⟩ | ⟨-, heq⟩ := wrap_eq cl <;> rw [heq]
  · exact wrapped (.refl hc) (.refl _)
  · obtain ⟨n0, hn0, -⟩ := hcl
    exact (lands_update hc hn0 rfl (.inl rfl) (by simp)).bind fun _ d grade1 hrun ho _ =>
      wrapped ho (steady_annotate hrun)

/-- What is ready when names are to become slots. -/
structure Prepared (params : List Text) (stmts : List Operand) (c : Context) (r : Resolver)
    (d : Context) : Prop where
  steady : Steady c.forest d.forest
  keyed : r.Keyed params
  passable : ∀ v ∈ stmts, ∀ y, v.child? = some y → c.forest.Passable y
  bodied : ∀ id ∈ r.closures, r.exportsOf id ≠ [] → d.forest.Bodied id

theorem Readable.place (h : Readable t) (hu : t.at? p = some u) : Readable u := by
  induction p generalizing t with
  | nil =>
    obtain rfl := Option.some.inj hu
    exact h
  | cons i p ih =>
    obtain ⟨s, hs, hu⟩ := Option.bind_eq_some_iff.mp hu
    exact ih (h.part (List.mem_of_getElem? hs)) hu

/-- A closure at a place is passable, and it has statements if any are read. -/
theorem closure_at_place (hd : Denotes f v t) (ht : Readable t) (hu : t.at? p = some u)
    (hc : u.closure? = some (id, params)) : f.Passable id ∧ (u.parts ≠ [] → f.Filled id) := by
  obtain ⟨w, hw⟩ := hd.place hu
  cases u with
  | leaf a => cases hc
  | node mark tag args =>
    obtain ⟨hclosure, rfl, -⟩ := Tree.closure?_eq_some.mp hc
    obtain ⟨hview, n, hn, htag, -, hargs⟩ := denotes_node.mp hw
    refine ⟨passable_of_readable hw (Readable.place ht hu) (Operand.view_eq_child.mp hview),
      fun hparts => ⟨n, hn, htag ▸ hclosure, ?_⟩⟩
    rw [Tree.parts_closure hclosure] at hparts
    cases hs : args[1]? with
    | none => simp [hs] at hparts
    | some s =>
      obtain ⟨hlt, rfl⟩ := List.getElem?_eq_some_iff.mp hs
      have hlt' : 1 < n.args.length := hargs.length_eq ▸ hlt
      have hshow : Denotes f n.args[1] args[1] := hargs.get hlt' hlt
      have harg : n.arg 1 = n.args[1] := by simp [Node.arg, hlt']
      rw [harg, ← Bool.not_eq_true, ← Operand.view_eq_nil, hshow.view]
      intro hnil
      cases hleaf : args[1] with
      | leaf a =>
        rw [hleaf] at hnil
        cases hnil
        simp [hs, hleaf, Tree.elems] at hparts
      | node => simp [hleaf, Tree.view] at hnil

/-- The closures of a body that has been read can be gone through, and those that export something
have statements. -/
theorem closures_of_read {f : Forest} {params : List Text} {trees : List (Tree Mark)} {r : Resolver}
    (hshows : ∀ t ∈ trees, ∃ v, Denotes f v t)
    (hrun : (Resolver.start params).run (eventsEach trees).flatten = (r, none)) :
    (∀ t ∈ trees, Readable t) ∧ r.Within f.Passable ∧ r.Full f.Filled := by
  obtain ⟨hno, hr⟩ := Resolver.run_none hrun
  have hread : ∀ t ∈ trees, Readable t := fun t ht d hd =>
    hno d (mem_flatten_eventsEach.mpr ⟨t, ht, hd⟩)
  refine ⟨hread, ?_, ?_⟩
  · have entered : ∀ id ps, .enter id ps ∈ (eventsEach trees).flatten → f.Passable id := by
      intro id ps he
      obtain ⟨t, ht, he⟩ := mem_flatten_eventsEach.mp he
      obtain ⟨v, hd⟩ := hshows t ht
      obtain ⟨p, u, ps, hu, hc⟩ := place_of_entered (hread t ht) (mem_entered.mpr ⟨ps, he⟩)
      exact (closure_at_place hd (hread t ht) hu hc).1
    have within := (Resolver.start_within f.Passable params).run entered
    rwa [hrun] at within
  · rw [hr, eventsEach_eq, ← List.flatMap_def, Resolver.foldl_events]
    refine Resolver.readAll_keeps (fun t ht r h => ?_) (Resolver.full_start f.Filled params)
    obtain ⟨v, hd⟩ := hshows t ht
    exact h.read (hread t ht) fun p u id ps hu hc hparts =>
      (closure_at_place hd (hread t ht) hu hc).2 hparts

theorem exists_closed {r : Resolver} (h : r.exportsOf id ≠ []) :
    ∃ cl ∈ r.closed, cl.id = id ∧ cl.exports ≠ [] := by
  unfold Resolver.exportsOf at h
  split at h
  · rename_i cl hcl
    have hp := List.find?_some hcl
    exact ⟨cl, List.mem_reverse.mp (List.mem_of_find?_eq_some hcl), by simpa using hp⟩
  · exact absurd rfl h

/-- Resolving a body wraps its closures, unless something is malformed. -/
theorem lands_resolve {params : List Text} {stmts : List Operand} (hc : c.Surveyed grade)
    (hstmts : ∀ v ∈ stmts, ∀ y, v.child? = some y → c.forest.Has y) :
    Lands .grades (resolve params stmts) c grade fun r d _ => Prepared params stmts c r d := by
  obtain ⟨trees, htrees⟩ := exists_forall₂ (R := fun v t => c.forest.operandTree v = .ok t ∧
    Denotes c.forest v t) fun v hv => exists_operandTree hc (hstmts v hv)
  refine .after_query (mapM_eq_ok.mpr (htrees.imp fun _ _ h => h.1)) ?_
  have hdenotes : ∀ t ∈ trees, ∃ v ∈ stmts, Denotes c.forest v t := by
    intro t ht
    obtain ⟨v, hv, -, hd⟩ := forall₂_mem_left htrees.flip ht
    exact ⟨v, hv, hd⟩
  cases hrun : (Resolver.start params).run (eventsEach trees).flatten with
  | mk r failure =>
    simp only []
    have entered : ∀ id ps, .enter id ps ∈ (eventsEach trees).flatten → IsClosure c.forest id := by
      intro id ps he
      obtain ⟨t, ht, he⟩ := mem_flatten_eventsEach.mp he
      obtain ⟨v, hv, hd⟩ := hdenotes t ht
      refine (enter_mem_events (P := fun _ _ => True) hd (fun x hx => ?_) he).2
      obtain ⟨n, hn⟩ := hstmts v hv x hx
      exact Forest.Valid.whole hc.valid hn
    have hclosures : r.Within (IsClosure c.forest) := by
      have within := (Resolver.start_within (IsClosure c.forest) params).run entered
      rwa [hrun] at within
    cases failure with
    | some e =>
      refine (lands_forM (T := SameTags) .refl .trans
        (fun cl hcl d grade1 ho ht => ?_) hc).bind fun _ d grade1 _ ho _ => ?_
      · exact (lands_wrap ho.graded (ht.closure (hclosures.closed cl hcl))).mono
          fun _ _ _ _ _ h => h.1
      · refine lands_throw ho.graded ?_
        obtain ⟨t, -, he⟩ := mem_flatten_eventsEach.mp (Resolver.run_some hrun)
        simp [PassError.Excused, PassError.IsRefusal, reject_mem_events he]
    | none =>
      obtain ⟨hread, hpass, hfull⟩ := closures_of_read
        (fun t ht => (hdenotes t ht).imp fun v h => h.2) hrun
      refine (lands_forM_all (T := fun c d => Steady c.forest d.forest)
        (R := fun (cl : Closed) d => c.forest.Filled cl.id → d.forest.Bodied cl.id)
        (fun c => .refl c.forest) (fun h h' => h.trans h') (fun cl hcl d grade1 ho ht => ?_)
        (fun ht hbody hfill => ht.bodied _ (hbody hfill)) hc).bind fun _ d grade1 _ ho hd => ?_
      · have hclosure := (sameTags_of_steady ht).closure (hclosures.closed cl hcl)
        refine (lands_wrap ho.graded hclosure).mono fun _ e _ _ _ h => ?_
        obtain ⟨hs, hbody⟩ := h.2 (ht.passable _ (hpass.closed cl hcl))
        exact ⟨hs, fun hfill => hbody (ht.filled _ hfill)⟩
      · refine lands_pure ho.graded ⟨hd.1, ?_, fun v hv y hy => ?_, fun id _ he => ?_⟩
        · have hkeyed := (Resolver.keyed_start params).run (eventsEach trees).flatten
          rwa [hrun] at hkeyed
        · obtain ⟨t, ht, -, hdt⟩ := forall₂_mem_left htrees hv
          exact passable_of_readable hdt (hread t ht) hy
        · obtain ⟨cl, hcl, rfl, hex⟩ := exists_closed he
          exact hd.2 cl hcl (hfull.closed cl hcl hex)

theorem lands_copyIn {owner : Node} {key name : Text} (hc : c.Surveyed grade)
    (hid : c.forest.Has id)
    (hkey : key ∈ env) : Lands .grades (copyIn env owner key name) c grade fun v d grade1 =>
      Grows c.forest d.forest ∧ Under d grade1 id v ∧
        ∀ y, v.child? = some y → d.forest.Passable y := by
  obtain ⟨i, hi⟩ := Option.isSome_iff_exists.mp (List.isSome_idxOf?.mpr hkey)
  unfold copyIn
  rw [hi]
  refine (lands_slotAt hc).bind fun slot d grade1 hrun ho ⟨hslot, hd, hu⟩ => ?_
  refine (lands_node ho.graded (ho.kept id hid) (fun a ha => ?_)).mono
    fun v e grade2 hnode _ hv => ⟨(node_grows hrun).trans (node_grows hnode), hv, fun y hy => ?_⟩
  · rcases List.mem_cons.mp ha with rfl | ha
    · exact hu id hid
    · obtain rfl := List.mem_singleton.mp ha
      exact under_sym (ho.kept id hid) name
  · obtain ⟨rfl, rfl⟩ := node_ok.mp hnode
    rw [Operand.child?_ref] at hy
    cases hy
    refine passable_of_node (get?_push_self _ _) ⟨nofun, nofun⟩ fun j y _ hy => ?_
    have hpass : d.forest.Passable ((c.forest.size : Int) + 1) :=
      passable_slot (by rw [hd]; exact get?_push_self _ _)
    have hy := child_mem_children hy
    have hsym : (Operand.sym name).child? = none := rfl
    simp only [Node.children, hslot, List.filterMap_cons, Operand.child?_ref, hsym] at hy
    obtain rfl : y = (c.forest.size : Int) + 1 := by simpa using hy
    exact hpass.grow (grows_push _ _)

theorem lands_copies {owner : Node} {names : List Text} {key : Text → Text} (hc : c.Surveyed grade)
    (hid : c.forest.Has id) (hkeys : ∀ name ∈ names, key name ∈ env) :
    Lands .grades (names.mapM fun name =>
      copyIn env owner (key name) name) c grade fun vs d grade1 =>
      Grows c.forest d.forest ∧ ∀ v ∈ vs, Under d grade1 id v ∧
        ∀ y, v.child? = some y → d.forest.Passable y := by
  refine (lands_mapM (T := fun c d => Grows c.forest d.forest)
    (R := fun _ v d grade1 => Under d grade1 id v ∧ ∀ y, v.child? = some y → d.forest.Passable y)
    (fun c => .refl c.forest) (fun h h' => h.trans h') (fun name hname d grade1 ho _ => ?_)
    (fun ho ht h => ?_) hc).mono fun vs d grade1 _ _ ⟨hgrows, hvs⟩ => ⟨hgrows, fun v hv => ?_⟩
  · exact lands_copyIn ho.graded (ho.kept id hid) (hkeys name hname)
  · exact ⟨h.1.onward ho, fun y hy => (h.2 y hy).grow ht⟩
  · obtain ⟨_, -, h⟩ := forall₂_mem_left hvs.flip hv
    exact h

/-- A closure gets copies of the parameters that it shares, if these have slots and it has
statements. -/
theorem lands_shareParams {r : Resolver} (hc : c.Surveyed grade)
    (hkeys : ∀ name ∈ r.exportsOf id, exportKey name id ∈ env)
    (hbody : r.exportsOf id ≠ [] → c.forest.Bodied id) :
    Lands .grades (shareParams env r id) c grade fun _ d _ => Steady c.forest d.forest := by
  unfold shareParams
  by_cases he : r.exportsOf id = []
  · simp only [he, ne_eq, not_true_eq_false, if_false]
    exact lands_pure hc (.refl _)
  · obtain ⟨n, b, m, hn, -, hb, hm, ht, hlen⟩ := hbody he
    simp only [ne_eq, he, not_false_eq_true, if_true]
    refine .after_fetch hn ?_
    simp only [hb]
    refine .after_fetch hm ?_
    simp only [ht, not_true_eq_false, if_false]
    refine .after_operandAt hlen ?_
    refine (lands_copies hc ⟨m, hm⟩ hkeys).bind fun copies d grade1 _ ho ⟨hgrows, hcopies⟩ => ?_
    have hargs : m.arg 0 :: copies ++ m.args.drop 1 = m.args.take 1 ++ copies ++ m.args.drop 1 := by
      obtain ⟨vars, more, hargs⟩ := List.exists_cons_of_length_pos hlen
      simp [Node.arg, hargs]
    rw [hargs]
    have hm' := hgrows b m hm
    refine (lands_renewArgs ho.graded ⟨m, hm'⟩
      ((ho.graded.nodes b m hm').not_function (by simp [ht]))
      fun a ha => ?_).mono fun _ e _ hrun _ _ => ?_
    · have old : a ∈ m.args → Under d grade1 b a := fun ha =>
        (under_operand hc hm (by simp [ht]) ha).onward ho
      simp only [List.mem_append] at ha
      obtain (ha | ha) | ha := ha
      · exact old (List.mem_of_mem_take ha)
      · exact (hcopies a ha).1
      · exact old (List.mem_of_mem_drop ha)
    · obtain ⟨m', hm', rfl⟩ := renewArgs_ok.mp hrun
      obtain rfl := Option.some.inj ((hgrows b m hm).symm.trans hm')
      refine hgrows.steady.trans (steady_of_more hm' ht ?_ hlen fun a ha => ?_)
      · simp only [List.length_append, List.length_take, List.length_drop]
        omega
      · have ha : a ∈ copies ++ m.args.drop 1 := by
          rw [← hargs, List.cons_append, List.drop_one, List.tail_cons] at ha
          exact ha
        rcases List.mem_append.mp ha with ha | ha
        · exact .inr (hcopies a ha).2
        · exact .inl ha

/-- The statements that set an environment up may be put wherever its `let` is to go. -/
theorem lands_prologue {b : Body} {r : Resolver} (hc : c.Surveyed grade) (hid : c.forest.Has id) :
    Lands .grades (prologue b r env) c grade fun vs d grade1 =>
      Grows c.forest d.forest ∧ ∀ v ∈ vs, Under d grade1 id v := by
  unfold prologue
  refine .after_get ?_
  refine (lands_list hc hid (by simpa using under_int hid _)).bind
    fun bytes d1 grade1 h1 ho1 ubytes => ?_
  have hid1 := ubytes.place
  refine (lands_node ho1.graded hid1 (by simpa using ⟨under_sym hid1 _, ubytes⟩)).bind
    fun call d2 grade2 h2 ho2 ucall => ?_
  have hid2 := ucall.place
  refine (lands_node ho2.graded hid2 (by simpa using ⟨under_sym hid2 _, ucall⟩)).bind
    fun assign d3 grade3 h3 ho3 uassign => ?_
  refine (lands_node ho3.graded uassign.place (by simpa using uassign)).bind
    fun allocation d4 grade4 h4 ho4 ualloc => ?_
  refine (lands_copies ho4.graded ualloc.place
    fun name hname => (List.mem_filter.mp hname).1).bind
    fun copies d5 grade5 _ ho5 ⟨h5, hcopies⟩ => ?_
  refine lands_pure ho5.graded ⟨?_, List.forall_mem_cons.mpr ⟨ualloc.onward ho5, fun v hv => ?_⟩⟩
  · exact ((((node_grows h1).trans (node_grows h2)).trans (node_grows h3)).trans
      (node_grows h4)).trans h5
  · exact (hcopies v hv).1

theorem lands_collectRest (hc : c.Surveyed grade) (hid : c.forest.Has id) :
    Lands .grades (collectRest b) c grade fun vs d grade1 =>
      Grows c.forest d.forest ∧ ∀ v ∈ vs, Under d grade1 id v := by
  unfold collectRest
  cases b.rest.isEmpty with
  | true =>
    simp only [if_true]
    exact lands_pure hc ⟨.refl _, by simp⟩
  | false =>
    simp only [Bool.false_eq_true, if_false]
    refine (lands_node hc hid (by simpa using ⟨under_sym hid _, under_int hid _⟩)).bind
      fun count d1 grade1 h1 ho1 ucount => ?_
    have hid1 := ucount.place
    refine (lands_list ho1.graded hid1
      (by simpa using ⟨under_sym hid1 _, under_sym hid1 _, ucount⟩)).bind
      fun array d2 grade2 h2 ho2 uarray => ?_
    have hid2 := uarray.place
    refine (lands_node ho2.graded hid2 (by simpa using ⟨under_sym hid2 _, uarray⟩)).bind
      fun assign d3 grade3 h3 ho3 uassign => ?_
    refine (lands_node ho3.graded uassign.place (by simpa using uassign)).bind
      fun code d4 grade4 h4 ho4 ucode => lands_pure ho4.graded ⟨?_, by simpa using ucode⟩
    exact (((node_grows h1).trans (node_grows h2)).trans (node_grows h3)).trans (node_grows h4)

/-- The statements of a body with an environment: those there were, and others that may be put
wherever its `let` is to go. -/
theorem lands_withEnvironment (hc : c.Surveyed grade) (hid : c.forest.Has id)
    (hr : Prepared b.params b.stmts base r c)
    (hstmts : ∀ v ∈ b.stmts, ∀ y, v.child? = some y → c.forest.Has y) :
    Lands .grades (withEnvironment b r) c grade fun vs d grade1 =>
      Steady c.forest d.forest ∧ ∀ v ∈ vs, v ∈ b.stmts ∨ Under d grade1 id v := by
  obtain ⟨henv, hexport⟩ := envName_not_mem_slots hr.keyed
  refine .after_get ?_
  refine (lands_statements (k := c.forest.extent) (fun hc hv hf => ?_) hc (fun v hv => ?_)
    (levelsSuffice_self hc.acyclic hc.valid)).bind fun stmts d grade1 _ ho ⟨hd, hresult⟩ => ?_
  · exact lands_toSlots henv hexport (fun p hp => by cases hp)
      (by have := size_lt_extent c.forest; omega)
      hc hv hf
  · refine ⟨hstmts v hv, fun y hy => hr.steady.passable y (hr.passable v hv y hy), fun y hy => ?_⟩
    have hneed : need c.forest y = c.forest.budget y := if_pos (has_iff.mp (hstmts v hv y hy)).2
    rw [hneed]
    exact budget_le_extent _ _
  refine (lands_forM (T := fun c d => Steady c.forest d.forest) (fun c => .refl c.forest)
    (fun h h' => h.trans h') (fun x hx e grade2 ho' ht => ?_) ho.graded).bind
    fun _ e grade2 _ ho' hshared => ?_
  · refine lands_shareParams ho'.graded (fun name hname => ?_) fun he => ?_
    · rw [Keyed.slots hr.keyed]
      simp [hr.keyed.exportsOf hname]
    · exact ht.bodied x (hd.steady.bodied x (hr.bodied x hx he))
  refine (lands_prologue ho'.graded (ho'.kept id (ho.kept id hid))).bind
    fun start e' grade3 _ ho'' ⟨hgrows, hstart⟩ => ?_
  refine lands_pure ho''.graded ⟨(hd.steady.trans hshared).trans hgrows.steady, fun w hw => ?_⟩
  have hid' := ho''.kept id (ho'.kept id (ho.kept id hid))
  rcases List.mem_append.mp hw with hw | hw
  · exact .inr (hstart w hw)
  · split at hw
    · obtain rfl := List.mem_singleton.mp hw
      exact .inr (under_sym hid' _)
    · obtain ⟨v, hv, hswap, hunder⟩ := forall₂_mem_left hresult.flip hw
      rcases hswap with rfl | ⟨name, _, hview, -⟩
      · exact .inl hv
      · have hv : v.child? = none := by
          cases hchild : v.child? with
          | none => rfl
          | some y => simp [Operand.view_eq_child.mpr hchild] at hview
        obtain ⟨hbelow, hfree⟩ := hunder id (under_atom hid hv).toLiesBelow
        have hu : Under d grade1 id w :=
          ⟨hbelow, hfree.elim (fun he => he ▸ Register.free_of_atom hv)
          fun h => h⟩
        exact .inr ((hu.onward ho').onward ho'')

/-- A body comes to the point where its `let` is made. -/
theorem lands_materialize (hc : c.Surveyed grade) (hid : c.forest.Has id)
    (hstmts : ∀ v ∈ b.stmts, ∀ y, v.child? = some y → c.forest.Has y)
    (finish : ∀ {d grade1 args note}, Onward .grades c grade d grade1 → Steady c.forest d.forest →
      (∀ a ∈ args, a ∈ b.stmts ∨ Under d grade1 id a) → Lands .none (do
        let wrapped ← alloc .letIn b.owner.pos args
        update wrapped (·.annotate "varfreq" note)
        install b.site wrapped) d grade1 Q) : Lands .none (materialize b) c grade Q := by
  have enclosed : ∀ {d grade1 r stmts}, Onward .grades c grade d grade1 →
      Steady c.forest d.forest → (∀ a ∈ stmts, a ∈ b.stmts ∨ Under d grade1 id a) →
      Lands .none (putLet b r stmts) d grade1 Q := by
    intro d grade1 r stmts ho hs hargs
    refine (lands_collectRest ho.graded (ho.kept id hid)).noting.bind
      fun rest e grade2 _ _ ⟨ho', hgrows, hrest⟩ => ?_
    have hide := ho'.kept id (ho.kept id hid)
    refine (lands_list (s := .grades) ho'.graded hide (fun a ha => ?_)).noting.bind
      fun vars e' grade3 hvars _ ⟨ho'', uvars⟩ => ?_
    · obtain ⟨name, -, rfl⟩ := List.mem_map.mp ha
      exact under_sym hide name
    · refine finish ((ho.trans ho').trans ho'')
        (hs.trans (hgrows.trans (node_grows hvars)).steady) fun a ha => ?_
      rcases List.mem_append.mp ha with ha | ha
      · rcases List.mem_cons.mp ha with rfl | ha
        · exact .inr uvars
        · exact .inr ((hrest a ha).onward ho'')
      · exact (hargs a ha).imp_right fun h => (h.onward ho').onward ho''
  unfold materialize
  refine (lands_resolve hc hstmts).noting.bind fun r d grade1 _ _ ⟨ho, hr⟩ => ?_
  cases hplain : r.captures.isEmpty && r.closures.isEmpty with
  | true =>
    simp only [if_true, pure_bind]
    exact enclosed ho hr.steady fun a ha => .inl ha
  | false =>
    simp only [Bool.false_eq_true, if_false]
    refine (lands_withEnvironment ho.graded (ho.kept id hid) hr fun v hv y hy =>
      ho.kept y (hstmts v hv y hy)).noting.bind fun stmts e grade2 _ _ ⟨ho', hs, hargs⟩ => ?_
    exact enclosed (ho.trans ho') (hr.steady.trans hs) hargs

theorem lands_finish_definition (hc : c.Surveyed grade) (hn : c.forest.get? id = some n)
    (hlen : 2 < n.args.length) (hargs : ∀ a ∈ args, Under c grade id a) : Lands .grades (do
      let wrapped ← alloc .letIn pos args
      update wrapped (·.annotate "varfreq" note)
      install (.definition id) wrapped) c grade fun _ d _ => SameTags c d := by
  refine (lands_alloc hc ⟨n, hn⟩ hargs).bind fun wrapped d grade1 halloc ho hu => ?_
  obtain ⟨hwrapped, hd⟩ := alloc_ok.mp halloc
  have hnew : d.forest.get? wrapped = some { tag := .letIn, args, pos } := by
    rw [hwrapped, hd]
    exact get?_push_self _ _
  have hgrows : Steady c.forest d.forest := by
    rw [hd]
    exact (grows_push _ _).steady
  refine (lands_update ho.graded hnew rfl (.inl rfl) (by simp)).bind
    fun _ e grade2 hnote ho' _ => ?_
  have hsteady := hgrows.trans (steady_annotate hnote)
  obtain ⟨n', hn', -, hle⟩ := hsteady.tags id n hn
  refine .after_fetch hn' ?_
  refine .after (a := ⟨⟩) (discard_ok.mpr ⟨_, operandAt_ok.mpr ⟨by omega, rfl, rfl⟩⟩) ?_
  have hk := ho'.graded.nodes id n' hn'
  refine (lands_setArgs ho'.graded ⟨n', hn'⟩ (fun a ha => ?_) fun m hm =>
    ⟨fun name hmem => ⟨(hm.name name hmem).1, ?_⟩, hm.anchor, fun hfree a ha => ?_⟩).mono
    fun _ _ _ hset _ _ => ?_
  · rcases List.mem_or_eq_of_mem_set ha with ha | rfl
    · exact liesBelow_operand ho'.graded hn' ha
    · exact (hu.onward ho').toLiesBelow
  · -- a function has its name where it had it
    obtain ⟨vs, hvs⟩ := List.head?_eq_some_iff.mp (hk.name name hmem).2
    simp [hvs]
  · rcases List.mem_or_eq_of_mem_set ha with ha | rfl
    · exact hk.free hfree a ha
    · exact (hu.onward ho').free
  · exact (sameTags_of_steady hsteady).trans (sameTags_setArgs hset)

/-- The `let` of the root takes its place, above the node that the root has moved to. -/
theorem lands_finish_root (hc : c.Surveyed grade) (hroot : c.forest.Has root)
    (hf : ¬ grade.IsFunction root) (hmoved : c.forest.Has moved) (hf' : ¬ grade.IsFunction moved)
    (hne : moved ≠ root) (hgrade : grade moved = grade root)
    (hargs : ∀ a ∈ args, a = .ref moved ∨ Under c grade root a) : Lands .none (do
      let wrapped ← alloc .letIn pos args
      update wrapped (·.annotate "varfreq" note)
      install (.root root) wrapped) c grade Anything := by
  have hchild : ∀ y ∈ args.filterMap Operand.child?,
      c.forest.Has y ∧ grade y ≤ grade root ∧ y ≠ root := by
    intro y hy
    obtain ⟨a, ha, hay⟩ := List.mem_filterMap.mp hy
    rcases hargs a ha with rfl | hu
    · rw [Operand.child?_ref] at hay
      cases hay
      exact ⟨hmoved, hgrade.le, hne⟩
    · obtain ⟨hhas, hlt⟩ := hu.below y hay
      refine ⟨hhas, hlt.le, ?_⟩
      rintro rfl
      exact lt_irrefl _ hlt
  have hfree : ∀ a ∈ args, grade.Free a := fun a ha =>
    (hargs a ha).elim (fun he => he ▸ Register.free_ref hf') (·.free)
  have ho := onward_add (s := .grades) (n := { tag := .letIn, args, pos })
    (d := c.add { tag := .letIn, args, pos })
    (m := grade root + 1) hc ⟨rfl, rfl⟩ rfl
    (fun y hy => ⟨(hchild y hy).1, (hchild y hy).2.1.trans_lt (lt_add_one _)⟩)
      (hc.toRecorded.add hfree)
    (.same ⟨rfl, rfl, rfl, rfl⟩)
  refine (lands_of_ok (Q := Anything) (alloc_ok.mpr ⟨rfl, rfl⟩) ho trivial).noting.bind
    fun wrapped d grade1 halloc _ ⟨ho, _⟩ => ?_
  obtain ⟨rfl, rfl⟩ := alloc_ok.mp halloc
  refine (lands_update (s := .grades) ho.graded (get?_push_self _ _) rfl (.inl rfl)
    (by simp)).noting.bind
    fun _ e grade2 hnote _ ⟨ho', _⟩ => ?_
  obtain ⟨m, hm, rfl⟩ := update_ok.mp hnote
  obtain rfl := Option.some.inj ((get?_push_self _ _).symm.trans hm)
  have same : ∀ {y}, c.forest.Has y → grade2 y = grade y := fun hy =>
    ((ho.trans ho').same rfl _ hy)
  refine lands_replace ho'.graded ((ho.trans ho').kept root hroot)
    ((ho.trans ho').unlisted hroot hf)
    (by rw [Context.put_forest, get?_set, if_pos rfl, hm]; rfl) (by simp [Node.annotate]) (by simp)
    (fun y hy => ?_) (by simp)
  obtain ⟨hhas, hle, hyne⟩ := hchild y hy
  rw [same hhas, same hroot]
  exact ⟨hle, hyne⟩

theorem lands_rootBody (hc : c.Surveyed grade) (hroot : c.forest.Has root)
    (hp : grade.Ordinary root) :
    Lands .grades (rootBody root) c grade fun b d grade1 => b.site = .root root ∧ ∃ moved,
      b.stmts = [.ref moved] ∧ d.forest.Has moved ∧ ¬ grade1.IsFunction moved ∧ moved ≠ root ∧
        grade1 moved = grade1 root := by
  obtain ⟨n, hn⟩ := hroot
  refine .after_fetch hn ?_
  have hrecorded : Recorded grade.toRegister ((c.add n).share root ((c.forest.size : Int) + 1)) :=
    (hc.toRecorded.add ((hc.nodes root n hn).free hp.1)).share hp hc.new_ordinary
  have ho : Onward .grades c grade ((c.add n).share root ((c.forest.size : Int) + 1))
      ⟨grade.toRegister, Function.update grade ((c.forest.size : Int) + 1) (grade root)⟩ :=
    ⟨⟨hc.twin hn, hrecorded⟩, fun x hx => hx.push n, fun x y hx hy hlt => ?_, fun _ x hx => ?_,
      by simp, .same ⟨rfl, rfl, rfl, rfl⟩⟩
  · refine (lands_of_ok (Q := fun x d grade1 => d.forest.Has x ∧ ¬ grade1.IsFunction x ∧ x ≠ root ∧
      grade1 x = grade1 root) (twin_ok.mpr ⟨rfl, rfl⟩) ho ⟨?_, hc.new_ordinary.2, ?_, ?_⟩).bind
      fun moved d grade1 _ ho hq => lands_pure ho.graded ⟨rfl, moved, rfl, hq⟩
    · exact has_push_self _ _
    · exact (Has.ne_new ⟨n, hn⟩).symm
    · simp only [Function.update_self, Function.update_of_ne (Has.ne_new ⟨n, hn⟩)]
  · simpa only [Function.update_of_ne hx.ne_new, Function.update_of_ne hy.ne_new] using hlt
  · exact Function.update_of_ne hx.ne_new _ _

/-- A parameter for the remaining arguments is renamed; what stands above the parameters stays. -/
theorem lands_renameRest (hc : c.Surveyed grade) (hvs : ∀ v ∈ vs, Under c grade id v) :
    Lands .grades (renameRest vs) c grade fun _ d _ =>
      d.forest.get? id = c.forest.get? id ∧ SameTags c d := by
  induction vs with
  | nil => exact lands_pure hc ⟨rfl, .refl c⟩
  | cons v vs ih =>
    have ih := ih fun w hw => hvs w (List.mem_cons_of_mem v hw)
    unfold renameRest
    cases hv : v.child? with
    | none => exact ih
    | some x =>
      obtain ⟨⟨n, hn⟩, hlt⟩ := (hvs v (by simp)).below x hv
      refine .after_fetch hn ?_
      cases hr : restName? n with
      | none => exact ih
      | some name =>
        simp only []
        refine (lands_exchange hc hn ((hvs v (by simp)).free x hv) (fun a ha => ?_)
          fun a ha => ?_).bind
          fun _ d grade1 hset ho _ => lands_pure ho.graded ⟨?_, sameTags_setArgs hset⟩
        · rcases List.mem_cons.mp ha with rfl | ha
          · exact (under_sym ⟨n, hn⟩ _).toLiesBelow
          · exact liesBelow_operand hc hn (List.mem_of_mem_drop ha)
        · rcases List.mem_cons.mp ha with rfl | ha
          · exact .inr (Register.free_of_atom rfl)
          · exact .inl (List.mem_of_mem_drop ha)
        · rw [(setArgs_frame hset).2.2, if_neg]
          intro hmem
          obtain ⟨-, -, -, hgrade⟩ := hc.sharers_alike hn id hmem
          exact lt_irrefl _ (hgrade ▸ hlt)

theorem lands_definitionBody (hc : c.Surveyed grade) (hn : c.forest.get? id = some n)
    (ht : n.tag = .defm ∨ n.tag = .defun) :
    Lands .grades (definitionBody id) c grade fun b d grade1 => SameTags c d ∧
      b.site = .definition id ∧ (∃ n', d.forest.get? id = some n' ∧ 2 < n'.args.length) ∧
      ∀ v ∈ b.stmts, Under d grade1 id v := by
  refine .after_fetch hn (.after_check hc fun hm => ?_)
  have hlen : 2 < n.args.length := by
    rcases ht with ht | ht <;> exact Node.lt_length hm ht rfl (by decide)
  have hassign : n.tag ≠ .assign := by rcases ht with ht | ht <;> simp [ht]
  have hparams := under_arg hc hn hassign 1
  obtain ⟨names, hnames⟩ := exists_paramNames hc hparams
  obtain ⟨params, helems, hunder⟩ := exists_elems hc hparams
  refine .after_operandAt (by omega) (.after_query hnames (.after_query helems ?_))
  refine (lands_renameRest hc fun v hv =>
    hunder v (List.mem_reverse.mp (List.mem_of_mem_take hv))).bind
    fun rest d grade1 _ ho ⟨hsame, htags⟩ => ?_
  obtain ⟨stmts, hstmts, hunder⟩ := exists_elems ho.graded ((under_arg hc hn hassign 2).onward ho)
  refine .after_operandAt hlen (.after_query hstmts ?_)
  exact lands_pure ho.graded ⟨htags, rfl, ⟨n, hsame.trans hn, hlen⟩, hunder⟩

theorem lands_definition (hc : c.Surveyed grade) (hn : c.forest.get? id = some n)
    (ht : n.tag = .defm ∨ n.tag = .defun) :
    Lands .none (do materialize (← definitionBody id)) c grade fun _ d _ => SameTags c d := by
  refine (lands_definitionBody hc hn ht).noting.bind
    fun b d grade1 _ _ ⟨ho, htags, hsite, ⟨n', hn', hlen⟩, hstmts⟩ => ?_
  refine lands_materialize ho.graded ⟨n', hn'⟩ (fun v hv y hy => ((hstmts v hv).below y hy).1)
    fun ho' hs hargs => ?_
  obtain ⟨n'', hn'', -, hle⟩ := hs.tags id n' hn'
  rw [hsite]
  refine ((lands_finish_definition ho'.graded hn'' (by omega) fun a ha => ?_).free).mono
    fun _ _ _ _ _ h => (htags.trans (sameTags_of_steady hs)).trans h
  rcases hargs a ha with hb | hu
  · exact (hstmts a hb).onward ho'
  · exact hu

theorem lands_root (hc : c.Surveyed grade) (hroot : c.forest.Has root) (hp : grade.Ordinary root) :
    Lands .none (do materialize (← rootBody root)) c grade Anything := by
  refine (lands_rootBody hc hroot hp).noting.bind
    fun b d grade1 _ _ ⟨ho, hsite, moved, hstmts, hmoved, hf, hne, hgrade⟩ => ?_
  have hroot' := ho.kept root hroot
  refine lands_materialize ho.graded hroot' (fun v hv y hy => ?_) fun ho' _ hargs => ?_
  · rw [hstmts] at hv
    obtain rfl := List.mem_singleton.mp hv
    rw [Operand.child?_ref] at hy
    cases hy
    exact hmoved
  · rw [hsite]
    refine lands_finish_root ho'.graded (ho'.kept root hroot') ((ho.trans ho').unlisted hroot hp.2)
      (ho'.kept moved hmoved) (ho'.unlisted hmoved hf) hne ?_ ?_
    · rw [ho'.same rfl moved hmoved, ho'.same rfl root hroot', hgrade]
    · simpa [hstmts] using hargs

theorem exists_definitions {root : Int} (hc : c.Surveyed grade) (hroot : c.forest.Has root) :
    ∃ ids, definitions root c = .ok ids c ∧ ∀ id ∈ ids, ∃ n, c.forest.get? id = some n ∧
      (n.tag = .defm ∨ n.tag = .defun) := by
  obtain ⟨all, hall, horder⟩ := exists_preorderSkipping hc.valid hroot fun tag => tag = .sexp
  have hhas := horder.exist hc.valid hroot
  have filtered : ∀ {all : List Int}, (∀ x ∈ all, c.forest.Has x) → ∀ acc,
      ∃ ids, (List.filterAuxM (fun id => do
        return decide ((← fetch id).tag ∈ [Tag.defm, Tag.defun])) all acc : PassM (List Int)) c =
          .ok ids c := by
    intro all
    induction all with
    | nil => exact fun _ _ => ⟨_, rfl⟩
    | cons x all ih =>
      intro hx acc
      obtain ⟨n, hn⟩ := hx x (by simp)
      obtain ⟨ids, hids⟩ := ih (fun y hy => hx y (List.mem_cons_of_mem x hy)) _
      exact ⟨ids, bind_ok.mpr ⟨_, c, bind_ok.mpr ⟨n, c, fetch_ok.mpr ⟨hn, rfl⟩, rfl⟩, hids⟩⟩
  obtain ⟨found, hfound⟩ := filtered hhas []
  have hrun : definitions root c = .ok found.reverse c := by
    unfold definitions
    exact bind_ok.mpr ⟨all, c, query_ok.mpr ⟨hall, rfl⟩, bind_ok.mpr ⟨found, c, hfound, rfl⟩⟩
  refine ⟨_, hrun, fun id hid => ?_⟩
  obtain ⟨-, _, -, hids⟩ := definitions_ok hrun
  rw [hids] at hid
  obtain ⟨-, htag⟩ := List.mem_filter.mp hid
  cases hn : c.forest.get? id with
  | none => simp [hn] at htag
  | some n => exact ⟨n, rfl, by simpa [hn] using htag⟩

theorem lands_run (hc : c.Surveyed grade) (hroot : c.forest.Has root) (hp : grade.Ordinary root) :
    Lands .none (run root) c grade Anything := by
  obtain ⟨ids, hids, htags⟩ := exists_definitions hc hroot
  refine .after hids ?_
  refine (lands_forM (T := SameTags) .refl .trans (fun id hid d grade1 ho hsame => ?_) hc).bind
    fun _ d grade1 _ ho _ => ?_
  · obtain ⟨n, hn, ht⟩ := htags id hid
    obtain ⟨n', hn', ht'⟩ := hsame id n hn
    exact lands_definition ho.graded hn' (ht' ▸ ht)
  have hroot' := ho.kept root hroot
  have outer : Lands .none (hasOuterClosure root) d grade1 Anything := by
    refine (lands_walk (fun hc _ => ?_) (visits_sink_of_same fun h => ?_) ho.graded
      hroot').free.bind fun _ _ _ _ ho _ => lands_pure ho.graded trivial
    · exact lands_pure hc trivial
    · cases h
      rfl
  refine outer.bind fun found e grade2 _ ho' _ => ?_
  cases found with
  | true =>
    exact lands_root ho'.graded (ho'.kept root hroot')
      ((ho.trans ho').booked.plain hroot hp)
  | false => exact lands_pure ho'.graded trivial

end Pass.Environment

end Lowering
