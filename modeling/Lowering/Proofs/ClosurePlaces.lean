import Lowering.Proofs.BlockKeys
import Lowering.Proofs.Subtrees

namespace Lowering

namespace Tree

theorem ids_subset_of_elems {s t : Tree Mark} (h : s ∈ t.elems) : ∀ x ∈ s.ids, x ∈ t.ids := by
  unfold elems at h
  split at h
  · simp at h
  · rw [ids_node]
    exact fun x hx => List.mem_cons_of_mem _ (List.mem_flatMap.mpr ⟨s, h, hx⟩)
  · rw [List.mem_singleton.mp h]
    exact fun _ hx => hx

theorem ids_subset_of_parts {s t : Tree Mark} (h : s ∈ t.parts) : ∀ x ∈ s.ids, x ∈ t.ids := by
  cases t with
  | leaf a => simp [parts] at h
  | node mark tag args =>
    rw [ids_node]
    obtain ⟨u, hu, rfl | hs⟩ := mem_parts h
    · exact fun x hx => List.mem_cons_of_mem _ (List.mem_flatMap.mpr ⟨s, hu, hx⟩)
    · intro x hx
      exact List.mem_cons_of_mem _ (List.mem_flatMap.mpr ⟨u, hu, ids_subset_of_elems hs x hx⟩)

theorem ids_subset_at {t u : Tree Mark} (h : t.at? p = some u) : ∀ x ∈ u.ids, x ∈ t.ids := by
  induction p generalizing t with
  | nil =>
    obtain rfl := Option.some.inj h
    exact fun _ hx => hx
  | cons i p ih =>
    obtain ⟨s, hs, hu⟩ := Option.bind_eq_some_iff.mp h
    exact fun x hx => ids_subset_of_parts (List.mem_of_getElem? hs) x (ih hu x hx)

section Places

variable {s t u : Tree Mark} {mark : Mark} {tag : Tag} {args : List (Tree Mark)} {p : List Nat}

theorem mem_within_of_elem (hl : skips .list = false) (h : s ∈ t.elems) (hu : u ∈ s.within skips) :
    u ∈ t.within skips := by
  unfold elems at h
  split at h
  · simp at h
  · exact mem_within_operand hl h hu
  · rwa [← List.mem_singleton.mp h]

theorem mem_nodes_of_part (h : s ∈ t.parts) (hu : u ∈ s.nodes) : u ∈ t.nodes := by
  cases t with
  | leaf a => cases h
  | node mark tag args =>
    obtain ⟨r, hr, rfl | hs⟩ := mem_parts h
    · exact mem_nodes_operand hr hu
    · exact mem_nodes_operand hr (mem_within_of_elem rfl hs hu)

theorem mem_nodes_at (h : t.at? p = some (.node mark tag args)) :
    .node mark tag args ∈ t.nodes := by
  induction p generalizing t with
  | nil =>
    obtain rfl := Option.some.inj h
    exact self_mem_nodes
  | cons i p ih =>
    obtain ⟨s, hs, h⟩ := Option.bind_eq_some_iff.mp h
    exact mem_nodes_of_part (List.mem_of_getElem? hs) (ih h)

end Places

end Tree

namespace Forest

variable {f : Forest} {v : Operand} {s t u : Tree Mark} {p : List Nat}

theorem Denotes.part (h : Denotes f v t) (hs : s ∈ t.parts) : ∃ w, Denotes f w s := by
  cases t with
  | leaf a => simp [Tree.parts] at hs
  | node mark tag args =>
    obtain ⟨-, n, -, -, -, hargs⟩ := denotes_node.mp h
    obtain ⟨u, hu, hs⟩ := Tree.mem_parts hs
    obtain ⟨w, -, hw⟩ := forall₂_mem_left hargs.flip hu
    obtain rfl | hs := hs
    · exact ⟨w, hw⟩
    · obtain ⟨ws, -, hws⟩ := hw.elems
      obtain ⟨w, -, hw⟩ := forall₂_mem_left hws.flip hs
      exact ⟨w, hw⟩

theorem Denotes.place (h : Denotes f v t) (hu : t.at? p = some u) : ∃ w, Denotes f w u := by
  induction p generalizing t v with
  | nil =>
    obtain rfl := Option.some.inj hu
    exact ⟨v, h⟩
  | cons i p ih =>
    obtain ⟨s, hs, hu⟩ := Option.bind_eq_some_iff.mp hu
    obtain ⟨w, hw⟩ := h.part (List.mem_of_getElem? hs)
    exact ih hw hu

end Forest

namespace Scope

variable {s t u : Tree Mark} {p : List Nat} {id : Int} {params : List Text} {r r' : Resolver}

/-- The closure that an event enters. -/
def enter? : Event → Option Int
  | .enter id _ => some id
  | _ => none

/-- The name that an event uses. -/
def use? : Event → Option Text
  | .use name => some name
  | _ => none

/-- The closures that are entered, in their order. -/
def entered (es : List Event) : List Int := es.filterMap enter?

theorem mem_entered : id ∈ entered es ↔ ∃ params, .enter id params ∈ es := by
  unfold entered
  rw [List.mem_filterMap]
  constructor
  · intro ⟨e, he, hid⟩
    cases e with
    | enter id' params =>
      cases hid
      exact ⟨params, he⟩
    | use | define | leave | reject => cases hid
  · exact fun ⟨params, he⟩ => ⟨_, he, rfl⟩

theorem entered_append (es es' : List Event) : entered (es ++ es') = entered es ++ entered es' :=
  List.filterMap_append

theorem entered_flatMap (ts : List (Tree Mark)) :
    entered (ts.flatMap events) = ts.flatMap fun t => entered (events t) := by
  induction ts with
  | nil => rfl
  | cons t ts ih => rw [List.flatMap_cons, entered_append, ih, List.flatMap_cons]

/-- The events of a node are some of those of its operands, apart from an entry, an exit and a
definition of its own. -/
theorem filterMap_nodeEvents (hleave : g .leave = none) (hdefine : ∀ name, g (.define name) = none)
    (mark : Mark) (tag : Tag) (args : List (Tree Mark)) (parts : List (List Event)) :
    ∃ params, ((nodeEvents mark tag args parts).filterMap g).Sublist
      ((g (.enter mark.id params)).toList ++ parts.flatten.filterMap g) := by
  have sub : ∀ {ps : List (List Event)}, ps.Sublist parts →
      (ps.flatten.filterMap g).Sublist (parts.flatten.filterMap g) :=
    fun hs => hs.flatten.filterMap g
  have hnone : (definition args).filterMap g = [] := by
    unfold definition
    split <;> simp [hdefine]
  have closure : ∀ params,
      ((Event.enter mark.id params :: (parts.drop 1).flatten ++ [Event.leave]).filterMap g).Sublist
        ((g (.enter mark.id params)).toList ++ parts.flatten.filterMap g) := by
    intro params
    have hdrop := sub (List.drop_sublist 1 parts)
    cases he : g (.enter mark.id params) with
    | none => simpa [he, hleave] using hdrop
    | some a => simpa [he, hleave] using hdrop
  refine ⟨(args.head?.map Tree.paramNames).getD [], ?_⟩
  unfold nodeEvents
  split
  · rw [List.filterMap_append, hnone, List.append_nil]
    exact List.sublist_append_right _ _
  · exact (sub (List.eraseIdx_sublist _ _)).trans (List.sublist_append_right _ _)
  · exact (sub (List.drop_sublist _ _)).trans (List.sublist_append_right _ _)
  · exact closure _
  · exact closure _
  · exact List.sublist_append_right _ _

/-- A tree enters its own nodes, each once at most. -/
theorem entered_sublist (t : Tree Mark) : (entered (events t)).Sublist t.openIds := by
  induction t with
  | leaf a => cases a <;> exact .slnil
  | node mark tag args ih =>
    rw [Tree.openIds_node, events_node]
    split
    · exact List.nil_sublist _
    · rename_i hopen
      rw [if_neg (by rwa [Tag.isSealed_iff])]
      split
      · exact List.nil_sublist _
      · obtain ⟨params, hsub⟩ := filterMap_nodeEvents (g := enter?) rfl (fun _ => rfl) mark tag args
          (args.map events)
        refine hsub.trans (.cons_cons mark.id ?_)
        rw [← List.flatMap_def]
        show (entered (args.flatMap events)).Sublist _
        rw [entered_flatMap]
        exact Tree.flatMap_sublist ih

theorem closure_of_entered (h : id ∈ entered (events t)) :
    ∃ mark tag args, .node mark tag args ∈ t.nodes ∧ mark.id = id ∧ tag.isClosure = true := by
  induction t with
  | leaf a => cases a <;> cases h
  | node mark tag args ih =>
    obtain ⟨params, h⟩ := mem_entered.mp h
    rw [events_node] at h
    split at h
    · cases h
    split at h
    · simp at h
    obtain h | h | ⟨hc, _, h⟩ | ⟨_, _, h⟩ := mem_nodeEvents h
    · rw [← eventsEach_eq, mem_flatten_eventsEach] at h
      obtain ⟨s, hs, h⟩ := h
      obtain ⟨m, tag', as, hmem, hid, hc⟩ := ih s hs (mem_entered.mpr ⟨params, h⟩)
      exact ⟨m, tag', as, Tree.mem_nodes_operand hs hmem, hid, hc⟩
    · cases h
    · cases h
      exact ⟨mark, tag, args, Tree.self_mem_nodes, rfl, hc⟩
    · cases h

theorem entered_parts (h : Readable t) : entered (events t) =
    (t.closure?.map Prod.fst).toList ++ t.parts.flatMap fun s => entered (events s) := by
  cases t with
  | leaf a => cases a <;> rfl
  | node mark tag args =>
    rw [← entered_flatMap]
    cases ht : tag.isClosure with
    | true =>
      rw [events_closure ht h, entered_append, show entered [Event.leave] = [] from rfl,
        Tree.closure?_eq_some.mpr ⟨ht, rfl, rfl⟩, List.append_nil]
      rfl
    | false =>
      have hnone : ∀ names : List Text, entered (names.map Event.define) = [] := by
        intro names
        induction names with
        | nil => rfl
        | cons name names ih => exact ih
      rw [events_open ht h, entered_append, hnone, Tree.closure?_eq_none.mpr ht, List.append_nil]
      rfl

theorem entered_of_place (h : Readable t) (hu : t.at? p = some u)
    (hc : u.closure? = some (id, params)) : id ∈ entered (events t) := by
  induction p generalizing t with
  | nil =>
    obtain rfl := Option.some.inj hu
    rw [entered_parts h, hc]
    exact List.mem_append_left _ (by simp)
  | cons i p ih =>
    obtain ⟨s, hs, hu⟩ := Option.bind_eq_some_iff.mp hu
    have hs := List.mem_of_getElem? hs
    rw [entered_parts h]
    exact List.mem_append_right _ (List.mem_flatMap.mpr ⟨s, hs, ih (h.part hs) hu⟩)

/-- A closure that is entered has a place. -/
theorem place_of_entered (h : Readable t) (hid : id ∈ entered (events t)) :
    ∃ p u params, t.at? p = some u ∧ u.closure? = some (id, params) := by
  induction t using Tree.induct_parts with
  | step t ih =>
    rw [entered_parts h, List.mem_append, List.mem_flatMap] at hid
    obtain hid | ⟨s, hs, hid⟩ := hid
    · obtain ⟨c, hc, rfl⟩ := Option.map_eq_some_iff.mp (Option.mem_toList.mp hid)
      exact ⟨[], t, c.2, rfl, hc⟩
    · obtain ⟨p, u, params, hu, hc⟩ := ih s hs (h.part hs) hid
      obtain ⟨i, hi⟩ := List.mem_iff_getElem?.mp hs
      exact ⟨i :: p, u, params, by rw [Tree.at?, hi]; exact hu, hc⟩

namespace Resolver

theorem use_closed (r : Resolver) (name : Text) : (r.use name).closed = r.closed := by
  have hused := r.use_spec name
  generalize r.use name = r' at hused
  cases hused <;> rfl

theorem define_closed (r : Resolver) (name : Text) : (r.define name).closed = r.closed := by
  unfold define
  split <;> rfl

theorem closed_readAll_of_read (h : ∀ t ∈ ts, ∀ r : Resolver,
    ((r.read t).closed.map Closed.id).Perm (r.closed.map Closed.id ++ entered (events t)))
    (r : Resolver) : ((r.readAll ts).closed.map Closed.id).Perm
      (r.closed.map Closed.id ++ ts.flatMap fun t => entered (events t)) := by
  induction ts generalizing r with
  | nil => simp [readAll]
  | cons t ts ih =>
    refine (ih (fun s hs => h s (List.mem_cons_of_mem t hs)) (r.read t)).trans ?_
    rw [List.flatMap_cons, ← List.append_assoc]
    exact (h t (by simp) r).append_right _

theorem closed_read (h : Readable t) (r : Resolver) :
    ((r.read t).closed.map Closed.id).Perm (r.closed.map Closed.id ++ entered (events t)) := by
  induction t, h using Readable.induct generalizing r with
  | sym name h =>
    rw [entered_parts h, read_sym, use_closed]
    simp [Tree.parts, Tree.closure?]
  | closure t id params h hc ih =>
    have hadv := readAll_advances (fun s hs => h.part hs) (r.enter id params)
    obtain ⟨f, outer, -, -, -, -, hl⟩ := leave_entered hadv
    rw [entered_parts h, hc, read_closure h hc, hl, List.map_append]
    exact ((closed_readAll_of_read ih (r.enter id params)).append_right _).trans (by
      rw [List.append_assoc]
      exact List.perm_append_comm.append_left _)
  | other t h hc hsym ih =>
    have hdef : ∀ r : Resolver, (t.target?.toList.foldl define r).closed = r.closed := by
      intro r
      cases t.target? with
      | none => rfl
      | some name => exact define_closed r name
    rw [entered_parts h, hc, read_open h hc hsym, hdef]
    exact closed_readAll_of_read ih r

/-- In the end every closure that was entered is closed. -/
theorem closed_body {b : Block} (h : ∀ t ∈ b.stmts, Readable t) :
    (((start b.params).readAll b.stmts).closed.map Closed.id).Perm
      (b.stmts.flatMap fun t => entered (events t)) :=
  closed_readAll_of_read (fun t ht => closed_read (h t ht)) (start b.params)

theorem run_none {es : List Event} {r s : Resolver} (h : r.run es = (s, none)) :
    (∀ d, .reject d ∉ es) ∧ s = es.foldl step r := by
  induction es generalizing r with
  | nil =>
    cases h
    exact ⟨fun _ => List.not_mem_nil, rfl⟩
  | cons e es ih =>
    cases e with
    | reject d => cases h
    | use | define | enter | leave =>
      obtain ⟨hno, hs⟩ := ih h
      exact ⟨fun d hd => hno d ((List.mem_cons.mp hd).resolve_left nofun), hs⟩

theorem Step.closures (h : Step r e r') : r'.closures = r.closures ++ (enter? e).toList := by
  cases h with
  | kept idle =>
    cases e with
    | enter id params => exact absurd rfl (idle id params)
    | use | define | leave | reject => exact (List.append_nil _).symm
  | captured | defined | left => exact (List.append_nil _).symm
  | entered => rfl

theorem closures_foldl (r : Resolver) (es : List Event) :
    (es.foldl step r).closures = r.closures ++ entered es := by
  induction es generalizing r with
  | nil => simp [entered]
  | cons e es ih =>
    rw [List.foldl_cons, ih, (r.step_spec e).closures, entered, entered, List.filterMap_cons]
    cases enter? e <;> simp

/-- The closures of a block are those that are entered. -/
theorem closures_body (b : Block) : ((start b.params).readAll b.stmts).closures =
    b.stmts.flatMap fun t => entered (events t) := by
  rw [← foldl_events, closures_foldl, ← entered_flatMap]
  rfl

/-- The exported parameters of a closure, if no closure has been left twice. -/
theorem exportsOf_eq (hd : (r.closed.map Closed.id).Nodup) (h : cl ∈ r.closed) :
    r.exportsOf cl.id = cl.exports := by
  unfold exportsOf
  cases hf : r.closed.reverse.find? fun c => c.id = cl.id ∧ c.exports ≠ [] with
  | none =>
    have hnone := List.find?_eq_none.mp hf cl (List.mem_reverse.mpr h)
    have hexports : cl.exports = [] := by simpa using hnone
    exact hexports.symm
  | some c =>
    have hmem := List.mem_reverse.mp (List.mem_of_find?_eq_some hf)
    have hid : c.id = cl.id ∧ c.exports ≠ [] := by simpa using List.find?_some hf
    rw [List.inj_on_of_nodup_map hd hmem h hid.1]

/-- The closures that a resolver knows of, left or not. -/
def held (r : Resolver) : List Int := r.closed.map Closed.id ++ r.frames.filterMap Frame.closure

/-- A closure is open from the event that enters it on, until it is left. -/
theorem Step.held (h : Step r e r') : r'.held.Perm (r.held ++ (enter? e).toList) := by
  cases h with
  | kept idle =>
    cases e with
    | enter id params => exact absurd rfl (idle id params)
    | use | define | leave | reject => exact .of_eq (List.append_nil _).symm
  | captured _ found _ taken =>
    refine .of_eq (.trans ?_ (List.append_nil _).symm)
    simp [Resolver.held, found, List.filterMap_cons, taken.closure]
  | defined _ _ found =>
    refine .of_eq (.trans ?_ (List.append_nil _).symm)
    simp [Resolver.held, found, List.filterMap_cons]
  | @entered id params =>
    show (r.closed.map Closed.id ++ id :: r.frames.filterMap Frame.closure).Perm _
    rw [Resolver.held, List.append_assoc]
    exact (List.perm_append_singleton id _).symm.append_left _
  | left closure found =>
    refine .of_eq (.trans ?_ (List.append_nil _).symm)
    simp [Resolver.held, found, closure]

theorem held_foldl (r : Resolver) (es : List Event) :
    (es.foldl step r).held.Perm (r.held ++ entered es) := by
  induction es generalizing r with
  | nil => simp [entered]
  | cons e es ih =>
    have hsplit : entered (e :: es) = (enter? e).toList ++ entered es := by
      rw [entered, List.filterMap_cons]
      cases enter? e <;> rfl
    rw [List.foldl_cons, hsplit, ← List.append_assoc]
    exact (ih (r.step e)).trans ((r.step_spec e).held.append_right _)

theorem closed_run (params : List Text) (es : List Event) :
    (((start params).run es).1.closed.map Closed.id).Subperm (entered es) := by
  obtain ⟨es', hes, heq⟩ := (start params).run_eq es
  rw [heq]
  exact (List.sublist_append_left _ _).subperm.trans
    ((held_foldl (start params) es').subperm.trans (hes.sublist.filterMap enter?).subperm)

end Resolver

variable {b : Block}

/-- No closure is closed twice. -/
theorem nodup_closed (hread : ∀ t ∈ b.stmts, Readable t)
    (hd : (b.stmts.flatMap Tree.ids).Nodup) :
    (((Resolver.start b.params).readAll b.stmts).closed.map Closed.id).Nodup := by
  rw [(Resolver.closed_body hread).nodup_iff]
  refine hd.sublist (Tree.flatMap_sublist fun t _ => ?_)
  exact (entered_sublist t).trans t.openIds_sublist

/-- What is known of a closure that has been left. -/
def closedAs (closed : List Closed) (id : Int) : Closed :=
  (closed.find? fun cl => cl.id = id).getD ⟨id, [], []⟩

theorem closedAs_id (closed : List Closed) (id : Int) : (closedAs closed id).id = id := by
  unfold closedAs
  cases h : closed.find? fun cl => cl.id = id with
  | none => rfl
  | some cl => simpa using List.find?_some h

theorem closedAs_of_mem (hd : (closed.map Closed.id).Nodup) (h : cl ∈ closed) :
    closedAs closed cl.id = cl := by
  unfold closedAs
  cases hf : closed.find? fun cl' => cl'.id = cl.id with
  | none =>
    have := List.find?_eq_none.mp hf cl h
    simp at this
  | some cl' =>
    have hid : cl'.id = cl.id := by simpa using List.find?_some hf
    exact List.inj_on_of_nodup_map hd (List.mem_of_find?_eq_some hf) h hid

end Scope

end Lowering
