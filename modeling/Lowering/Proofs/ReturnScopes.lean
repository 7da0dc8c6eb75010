import Lowering.Proofs.TreePreservation

namespace Lowering

open Forest PassM

namespace Tree

/-- Where a node stands: the tags of the nodes above it, the nearest first, each with the operand
that the node is in. -/
abbrev Place := List (Tag × Nat)

/-- The tree `u` stands at a place `place` if `t`, of which it is a part, stands at the place
`above`. -/
inductive Stands : Place → Tree Mark → Place → Tree Mark → Prop where
  | self (above : Place) (t : Tree Mark) : Stands above t above t
  | inside {above place : Place} {s u : Tree Mark} {args : List (Tree Mark)} {tag : Tag} {i : Nat}
      (mark : Mark) (operand : args[i]? = some s) (rest : Stands ((tag, i) :: above) s place u) :
      Stands above (.node mark tag args) place u

namespace Place

/-- A place outside lowered code. -/
def isOpen (place : Place) : Bool := place.all fun p => p.1 ≠ .sexp

/-- The nearest function around is a proc, and its body. -/
def inProc (place : Place) : Bool := place.find? (fun p => p.1.isFunction) = some (.proc, 1)

/-- Some closure is around that becomes a function, and not its body: what stands there goes. -/
def isDropped : Place → Bool
  | [] => false
  | (tag, i) :: above => isDropped above || (tag.isClosure && i ≠ 1 && isOpen above)

end Place

variable {left : Bool} {mark : Mark} {tag : Tag} {args : List (Tree Mark)} {s t u : Tree Mark}
variable {above place : Place} {p : Int × Tag}

/-- The nodes of a tree by number and tag. -/
def tags (t : Tree Mark) : List (Int × Tag) :=
  t.nodes.filterMap fun
    | leaf _ => none
    | node mark tag _ => some (mark.id, tag)

@[simp] theorem tags_leaf (a : Atom) : (leaf a).tags = [] := by
  simp [tags, within]

theorem tags_node : (node mark tag args).tags = (mark.id, tag) :: args.flatMap tags := by
  rw [tags, nodes, within_node, if_neg (by simp), List.filterMap_cons, List.filterMap_flatMap]
  rfl

theorem fst_mem_ids (h : p ∈ t.tags) : p.1 ∈ t.ids := by
  obtain ⟨u, hu, hp⟩ := List.mem_filterMap.mp h
  obtain ⟨mark, tag, args, rfl⟩ := exists_of_mem_within hu
  cases hp
  exact root_mem_ids_of_within hu

theorem exists_tag (h : x ∈ t.ids) : ∃ tag, (x, tag) ∈ t.tags := by
  induction t with
  | leaf a => cases h
  | node mark tag args ih =>
    rw [tags_node]
    rw [ids_node, List.mem_cons, List.mem_flatMap] at h
    obtain rfl | ⟨s, hs, hx⟩ := h
    · exact ⟨tag, List.mem_cons_self⟩
    · obtain ⟨tag', h⟩ := ih s hs hx
      exact ⟨tag', List.mem_cons_of_mem _ (List.mem_flatMap.mpr ⟨s, hs, h⟩)⟩

/-- The tag that a node is left with outside lowered code, `left` if its returns leave by the
frame. -/
def settledTag (left : Bool) (tag : Tag) : Tag :=
  if tag.isClosure then .block else if left ∧ tag = .ret then .preturn else tag

/-- Whether the returns below a node leave by the frame. -/
def leftBelow (left : Bool) (tag : Tag) : Bool :=
  if tag.isFunction then tag = .proc else left

mutual
/-- The nodes that are left of a tree when its closures have become functions, with their tags then.
Of a closure only the body is kept. -/
def settled (left : Bool) : Tree Mark → List (Int × Tag)
  | leaf _ => []
  | node mark tag args =>
    if tag = .sexp then (node mark tag args).tags
    else (mark.id, settledTag left tag) ::
      if tag.isClosure then ((settledEach (leftBelow left tag) args)[1]?).getD []
      else (settledEach (leftBelow left tag) args).flatten

def settledEach (left : Bool) : List (Tree Mark) → List (List (Int × Tag))
  | [] => []
  | t :: ts => settled left t :: settledEach left ts
end

theorem settledEach_eq (left : Bool) (ts : List (Tree Mark)) :
    settledEach left ts = ts.map (settled left) :=
  eq_map rfl (fun _ _ => rfl) ts

@[simp] theorem settled_leaf (a : Atom) : (leaf a).settled left = [] := rfl

theorem settled_sexp : (node mark .sexp args).settled left = (node mark .sexp args).tags := by
  rw [settled, if_pos rfl]

theorem settled_closure (hc : tag.isClosure = true) : (node mark tag args).settled left =
    (mark.id, .block) :: ((args[1]?).getD (leaf .nil)).settled (tag = .proc) := by
  have hs : tag ≠ .sexp := by rintro rfl; cases hc
  have hf : tag.isFunction = true := by cases tag <;> first | rfl | cases hc
  rw [settled, if_neg hs, if_pos hc, settledEach_eq, settledTag, if_pos hc, leftBelow, if_pos hf,
    List.getElem?_map]
  cases args[1]? <;> simp

theorem settled_node (hs : tag ≠ .sexp) (hc : tag.isClosure = false) :
    (node mark tag args).settled left = (mark.id, settledTag left tag) ::
      args.flatMap (settled (leftBelow left tag)) := by
  rw [settled, if_neg hs, if_neg (by simp [hc]), settledEach_eq, List.flatMap_def]

theorem settled_ids (h : p ∈ t.settled left) : p.1 ∈ t.ids := by
  induction t generalizing left with
  | leaf a => simp at h
  | node mark tag args ih =>
    rw [ids_node, List.mem_cons, List.mem_flatMap]
    by_cases hs : tag = .sexp
    · subst hs
      rw [settled_sexp] at h
      have := fst_mem_ids h
      rwa [ids_node, List.mem_cons, List.mem_flatMap] at this
    cases hc : tag.isClosure with
    | true =>
      rw [settled_closure hc, List.mem_cons] at h
      obtain rfl | h := h
      · exact .inl rfl
      · cases hbody : args[1]? with
        | none => simp [hbody] at h
        | some s =>
          rw [hbody] at h
          exact .inr ⟨s, List.mem_of_getElem? hbody, ih s (List.mem_of_getElem? hbody) h⟩
    | false =>
      rw [settled_node hs hc, List.mem_cons, List.mem_flatMap] at h
      obtain rfl | ⟨s, hs, h⟩ := h
      · exact .inl rfl
      · exact .inr ⟨s, hs, ih s hs h⟩

/-- Returns that have been turned around are as they will be. -/
theorem settled_leaving (left : Bool) (t : Tree Mark) :
    t.leaving.settled left = t.settled true := by
  induction t generalizing left with
  | leaf a => simp
  | node mark tag args ih =>
    have hbelow (left : Bool) :
        (args.map leaving).flatMap (settled left) = args.flatMap (settled true) := by
      rw [List.flatMap_map]
      exact List.flatMap_congr fun s hs => ih s hs left
    cases ht : keepsReturns tag with
    | true =>
      rw [leaving_kept ht]
      by_cases hs : tag = .sexp
      · rw [hs, settled_sexp, settled_sexp]
      cases hc : tag.isClosure with
      | true => rw [settled_closure hc, settled_closure hc]
      | false =>
        have hret : tag ≠ .ret := by rintro rfl; cases ht
        have hf : tag.isFunction = true := by cases tag <;> simp_all [keepsReturns, Tag.isFunction]
        simp only [settled_node hs hc, settledTag, leftBelow, hf, hc, hret, and_false, if_false,
          if_true, Bool.false_eq_true]
    | false =>
      rw [leaving_node ht]
      have hs : tag ≠ .sexp := by rintro rfl; cases ht
      cases hc : tag.isClosure with
      | true =>
        have hproc : tag = .proc := by cases tag <;> simp_all [keepsReturns, Tag.isClosure]
        subst hproc
        rw [if_neg (by decide), settled_closure rfl, settled_closure rfl, List.getElem?_map]
        cases hbody : args[1]? with
        | none => rfl
        | some s => simpa using ih s (List.mem_of_getElem? hbody) true
      | false =>
        have hf : tag.isFunction = false := by
          cases tag <;> simp_all [keepsReturns, Tag.isFunction, Tag.isClosure]
        by_cases hret : tag = .ret
        · subst hret
          rw [if_pos rfl, settled_node (by decide) rfl, settled_node (by decide) rfl, hbelow]
          simp [settledTag, leftBelow, Tag.isClosure, Tag.isFunction]
        · rw [if_neg hret, settled_node hs hc, settled_node hs hc, hbelow]
          simp [settledTag, leftBelow, hf, hret]

theorem settled_closureBody (tag : Tag) (args : List (Tree Mark)) :
    (closureBody tag args).settled false = ((args[1]?).getD (leaf .nil)).settled (tag = .proc) := by
  unfold closureBody
  split
  · next h => rw [settled_leaving, h]; rfl
  · next h => simp [h]

theorem stands_node : Stands above (node mark tag args) place u ↔
    (place = above ∧ u = node mark tag args) ∨
      ∃ i s, args[i]? = some s ∧ Stands ((tag, i) :: above) s place u := by
  constructor
  · intro h
    cases h with
    | self => exact .inl ⟨rfl, rfl⟩
    | inside _ operand rest => exact .inr ⟨_, _, operand, rest⟩
  · rintro (⟨rfl, rfl⟩ | ⟨i, s, hs, h⟩)
    · exact .self ..
    · exact .inside mark hs h

theorem Stands.mem_nodes (h : Stands above t place (node mark tag args)) :
    node mark tag args ∈ t.nodes := by
  generalize hu : node mark tag args = u at h
  induction h with
  | self above t =>
    subst hu
    exact self_mem_nodes
  | inside _ operand _ ih => exact mem_nodes_operand (List.mem_of_getElem? operand) (ih hu)

theorem Stands.unique (hd : t.ids.Nodup) (h : Stands above t place (node mark tag args))
    (h' : Stands above t place' (node mark' tag' args')) (hid : mark'.id = mark.id) :
    place' = place ∧ tag' = tag := by
  have hsame : node mark' tag' args' = node mark tag args :=
    eq_of_same_root hd h'.mem_nodes h.mem_nodes hid
  cases hsame
  refine ⟨?_, rfl⟩
  have hmem {above place : Place} {t : Tree Mark} (h : Stands above t place (node mark tag args)) :
      mark.id ∈ t.ids := root_mem_ids_of_within h.mem_nodes
  generalize hu : node mark tag args = u at h
  induction h with
  | self above t =>
    subst hu
    rcases stands_node.mp h' with ⟨rfl, -⟩ | ⟨i, s, hs, h'⟩
    · rfl
    · rw [ids_node, List.nodup_cons] at hd
      exact absurd (List.mem_flatMap.mpr ⟨s, List.mem_of_getElem? hs, hmem h'⟩) hd.1
  | @inside above place s u args tag i mark0 operand rest ih =>
    subst hu
    rw [ids_node, List.nodup_cons] at hd
    rcases stands_node.mp h' with ⟨-, heq⟩ | ⟨j, s', hs', h'⟩
    · cases heq
      exact absurd (List.mem_flatMap.mpr ⟨s, List.mem_of_getElem? operand, hmem rest⟩) hd.1
    · obtain rfl := index_unique hd.2 operand hs' (hmem rest) (hmem h')
      cases operand.symm.trans hs'
      exact ih ((List.nodup_flatMap.mp hd.2).1 s (List.mem_of_getElem? operand)) h' rfl

theorem Stands.dropped (h : Stands above t place u) (ha : above.isDropped = true) :
    place.isDropped = true := by
  induction h with
  | self => exact ha
  | inside _ _ _ ih => exact ih (by simp [Place.isDropped, ha])

/-- The tag that a node has in the end. -/
def tagAt (place : Place) (tag : Tag) : Tag :=
  if place.isOpen then settledTag place.inProc tag else tag

/-- The nodes that are left of a tree at a place, with their tags then. -/
def settledAt (place : Place) (t : Tree Mark) : List (Int × Tag) :=
  if place.isOpen then t.settled place.inProc else t.tags

theorem inProc_cons (i : Nat) (hc : tag.isClosure = false) :
    Place.inProc ((tag, i) :: above) = leftBelow above.inProc tag := by
  cases hf : tag.isFunction with
  | false => simp [Place.inProc, leftBelow, hf]
  | true =>
    have hne : tag ≠ .proc := by rintro rfl; cases hc
    simp [Place.inProc, leftBelow, hf, hne]

theorem inProc_body (hc : tag.isClosure = true) :
    Place.inProc ((tag, 1) :: above) = decide (tag = .proc) := by
  cases tag <;> first | rfl | cases hc

theorem mem_settledAt_node (hkept : above.isDropped = false) :
    p ∈ (node mark tag args).settledAt above ↔ p = (mark.id, tagAt above tag) ∨
      ∃ i s, args[i]? = some s ∧ Place.isDropped ((tag, i) :: above) = false ∧
        p ∈ s.settledAt ((tag, i) :: above) := by
  have hall {g : Tree Mark → List (Int × Tag)} {Q : Nat → Prop}
      {g' : Nat → Tree Mark → List (Int × Tag)} (hQ : ∀ i, Q i) (hg : ∀ i s, g' i s = g s) :
      p ∈ args.flatMap g ↔ ∃ i s, args[i]? = some s ∧ Q i ∧ p ∈ g' i s := by
    rw [List.mem_flatMap]
    constructor
    · rintro ⟨s, hs, h⟩
      obtain ⟨i, hi⟩ := List.getElem?_of_mem hs
      exact ⟨i, s, hi, hQ i, hg i s ▸ h⟩
    · rintro ⟨i, s, hi, -, h⟩
      exact ⟨s, List.mem_of_getElem? hi, hg i s ▸ h⟩
  cases ho : above.isOpen with
  | false =>
    rw [settledAt, if_neg (by simp [ho]), tags_node, List.mem_cons, tagAt, if_neg (by simp [ho])]
    refine or_congr_right (hall (fun i => ?_) fun i s => ?_)
    · simp [Place.isDropped, hkept, ho]
    · rw [settledAt, if_neg]
      simp_all [Place.isOpen]
  | true =>
    rw [settledAt, if_pos ho, tagAt, if_pos ho]
    by_cases hs : tag = .sexp
    · subst hs
      rw [settled_sexp, tags_node, List.mem_cons, settledTag, if_neg (by decide), if_neg (by simp)]
      refine or_congr_right (hall (fun i => ?_) fun i s => ?_)
      · simp [Place.isDropped, hkept, Tag.isClosure]
      · rw [settledAt, if_neg (by simp [Place.isOpen])]
    have hopen (i : Nat) : Place.isOpen ((tag, i) :: above) = true := by
      simpa [Place.isOpen, hs] using ho
    cases hc : tag.isClosure with
    | true =>
      rw [settled_closure hc, List.mem_cons, settledTag, if_pos hc]
      refine or_congr_right ⟨fun h => ?_, fun h => ?_⟩
      · cases hbody : args[1]? with
        | none => simp [hbody] at h
        | some s =>
          refine ⟨1, s, hbody, by simp [Place.isDropped, hkept], ?_⟩
          rw [settledAt, if_pos (hopen 1), inProc_body hc]
          simpa [hbody] using h
      · obtain ⟨i, s, hi, hd, h⟩ := h
        obtain rfl : i = 1 := by simpa [Place.isDropped, hkept, hc, ho] using hd
        rw [settledAt, if_pos (hopen 1), inProc_body hc] at h
        simpa [hi] using h
    | false =>
      rw [settled_node hs hc, List.mem_cons]
      refine or_congr_right (hall (fun i => ?_) fun i s => ?_)
      · simp [Place.isDropped, hkept, hc]
      · rw [settledAt, if_pos (hopen i), inProc_cons i hc]

theorem mem_settledAt (hkept : above.isDropped = false) : p ∈ t.settledAt above ↔
    ∃ place mark tag args, Stands above t place (node mark tag args) ∧ place.isDropped = false ∧
      p = (mark.id, tagAt place tag) := by
  induction t generalizing above with
  | leaf a =>
    refine ⟨fun h => ?_, fun ⟨_, _, _, _, h, _⟩ => by cases h⟩
    unfold settledAt at h
    split at h <;> simp at h
  | node mark tag args ih =>
    rw [mem_settledAt_node hkept]
    constructor
    · rintro (rfl | ⟨i, s, hs, hd, h⟩)
      · exact ⟨above, mark, tag, args, .self .., hkept, rfl⟩
      · obtain ⟨place, mark', tag', args', h, hrest⟩ := (ih s (List.mem_of_getElem? hs) hd).mp h
        exact ⟨place, mark', tag', args', .inside mark hs h, hrest⟩
    · rintro ⟨place, mark', tag', args', h, hplace, rfl⟩
      rcases stands_node.mp h with ⟨rfl, heq⟩ | ⟨i, s, hs, h⟩
      · cases heq
        exact .inl rfl
      · have hd : Place.isDropped ((tag, i) :: above) = false := by
          cases hd : Place.isDropped ((tag, i) :: above) with
          | false => rfl
          | true => rw [h.dropped hd] at hplace; cases hplace
        exact .inr ⟨i, s, hs, hd, (ih s (List.mem_of_getElem? hs) hd).mpr
          ⟨place, mark', tag', args', h, hplace, rfl⟩⟩

end Tree

namespace Pass.Closures

open Environment

variable {c c' : Context} {t t' : Tree Mark} {ts ts' : List (Tree Mark)}

/-- Of the nodes that there were, those are left of a tree that `Tree.settled` lists. -/
def Settles (c : Context) (t : Tree Mark) (c' : Context) (t' : Tree Mark) : Prop :=
  c.forest.size ≤ c'.forest.size ∧
    ∀ p : Int × Tag, p.1 ≤ c.forest.size → (p ∈ t'.tags ↔ p ∈ t.settled false)

theorem settles_threads (h : Threads Settles c ts c' ts') : c.forest.size ≤ c'.forest.size ∧
    ∀ p : Int × Tag, p.1 ≤ c.forest.size →
      (p ∈ ts'.flatMap Tree.tags ↔ p ∈ ts.flatMap (Tree.settled false)) := by
  induction h with
  | nil c => exact ⟨le_rfl, fun _ _ => .rfl⟩
  | cons head _ ih =>
    refine ⟨head.1.trans ih.1, fun p hp => ?_⟩
    have hp' := hp.trans (Int.ofNat_le.mpr head.1)
    rw [List.flatMap_cons, List.flatMap_cons, List.mem_append, List.mem_append, head.2 p hp,
      ih.2 p hp']

theorem settled_assigned {params body : Tree Mark} :
    (Tree.node assign .assign
      [.leaf a, .node function .defun [.leaf b, params, body]]).settled false =
      (assign.id, .assign) :: (function.id, .defun) ::
      (params.settled false ++ body.settled false) := by
  rw [Tree.settled_node (by decide) rfl]
  simp only [List.flatMap_cons, List.flatMap_nil, Tree.settled_leaf,
    Tree.settled_node (show Tag.defun ≠ .sexp by decide) rfl, List.append_nil, List.nil_append]
  rfl

theorem settles_walk : Rewrites visit Settles fun _ => True where
  leaf c a := ⟨le_rfl, fun p _ => by simp⟩
  ok {U c v mark tag args n act c1} hh hn h := by
    obtain rfl := (hh.stored hn).1
    obtain ⟨rfl, rfl, hsexp⟩ | ⟨rfl, rfl, hsexp, hopen⟩ | ⟨rfl, hclosure, -, hconvert⟩ := visit_ok h
    · refine ⟨n.tag, args, .refl hh, .inl ⟨rfl, le_rfl, fun p _ => ?_⟩⟩
      rw [hsexp, Tree.settled_sexp]
    · refine ⟨n.tag, args, .refl hh, .inr ⟨rfl, fun _ _ _ => trivial, fun c' args' hthreads => ?_⟩⟩
      obtain ⟨hsize, hbelow⟩ := settles_threads hthreads
      refine ⟨hsize, fun p hp => ?_⟩
      have hleft : Tree.leftBelow false n.tag = false := by
        cases ht : n.tag <;> simp_all [Tree.leftBelow, Tag.isClosure]
      rw [Tree.tags_node, Tree.settled_node hsexp hopen, List.mem_cons, List.mem_cons, hbelow p hp,
        hleft]
      simp [Tree.settledTag, hopen]
    · obtain ⟨store, assign, function, params, make, _, rfl, -, -, -, hr, hnew, -⟩ :=
        convert_reworks hh hn hconvert
      refine ⟨.block, _, hr, .inr ⟨rfl, fun _ _ _ => trivial, fun c' args' hthreads => ?_⟩⟩
      obtain ⟨hsize, hbelow⟩ := settles_threads hthreads
      refine ⟨hr.size.trans hsize, fun p hp => ?_⟩
      -- Of the nodes that there were, only those of the body are below what is new.
      have hold {x : Int} (hx : x ∈ store.ids ++ assign.id :: function.id ::
        (params.ids ++ make.ids)) :
          p.1 ≠ x := by
        have := hnew x hx
        omega
      have hnone {s : Tree Mark} (hs : s ∈ [store, params, make]) : p ∉ s.settled false := by
        intro h
        refine hold ?_ rfl
        have := Tree.settled_ids h
        simp only [List.mem_cons, List.not_mem_nil, or_false] at hs
        rcases hs with rfl | rfl | rfl <;> simp [this]
      rw [Tree.tags_node, Tree.settled_closure hclosure, ← Tree.settled_closureBody, List.mem_cons,
        List.mem_cons, hbelow p (hp.trans (Int.ofNat_le.mpr hr.size))]
      refine or_congr_right ?_
      have hassign : p ≠ (assign.id, .assign) := fun h => hold (by simp) (congrArg Prod.fst h)
      have hfunction : p ≠ (function.id, .defun) := fun h => hold (by simp) (congrArg Prod.fst h)
      simp [settled_assigned, hnone, hassign, hfunction]
  refused {U c v mark tag args n e c1} hh hn h he := ⟨visit_refused h he, trivial⟩

end Pass.Closures

namespace Pipeline

/-- Whatever has been asked of the passes before: when closures have become functions, those nodes
are left that do not stand in a closure outside its body. A return has become one by the frame if
and only if it is not in lowered code and the nearest function around it is a proc with the return
in its body. Apart from these and from the closures outside lowered code, each node has the tag that
it had. -/
theorem returns_by_frame {file source : Text} {f : Forest} {root : Int} {options : Options}
    {c c' : Context} {u : Unit} (calls : List Call)
    (hparse : Forest.parse file source = .ok (f, root))
    (hc : c = after root calls (Context.ofForest f options))
    (hrun : Pass.lambda.run root c = .ok u c') :
    ∃ t t', c.forest.tree root = .ok t ∧ c'.forest.tree root = .ok t' ∧
      ∀ place mark tag args, t.Stands [] place (.node mark tag args) →
        (mark.id ∈ t'.ids ↔ place.isDropped = false) ∧
        ∀ mark' tag' args', .node mark' tag' args' ∈ t'.nodes → mark'.id = mark.id →
          (tag = .ret → (tag' = .preturn ↔ place.isOpen ∧
            place.find? (fun p => p.1.isFunction) = some (.proc, 1))) ∧
          (tag.isClosure → (tag' = .block ↔ place.isOpen)) ∧
          (tag' = tag ∨ (tag = .ret ∧ tag' = .preturn) ∨ (tag.isClosure ∧ tag' = .block)) := by
  subst hc
  have hplanted : Planted root (after root calls (Context.ofForest f options)) :=
    sturdy_planted.after calls (planted_of_parse hparse (Context.ofForest f options))
  obtain ⟨U, t, hh⟩ := hplanted.tree
  obtain ⟨b, hwalk⟩ := discard_ok.mp hrun
  obtain ⟨t', hreworks, -, hsettles⟩ :=
    (Pass.Closures.settles_walk.walk hh (Operand.child?_ref root)).1 b c' hwalk
  have hd : t.ids.Nodup := by simpa using hh.nodup
  have hd' : t'.ids.Nodup := by simpa using hreworks.bears.nodup
  have hdenotes := (List.forall₂_cons.mp hh.denotes).1
  refine ⟨t, t', hdenotes.operandTree hd,
    (List.forall₂_cons.mp hreworks.bears.denotes).1.operandTree hd', ?_⟩
  intro place mark tag args hplace
  have hold : mark.id ∈ t.ids := Tree.root_mem_ids_of_within hplace.mem_nodes
  have hmem (tag' : Tag) : (mark.id, tag') ∈ t'.tags ↔
      place.isDropped = false ∧ tag' = Tree.tagAt place tag := by
    rw [hsettles _ (hdenotes.ids_bounds _ hold).2]
    refine (Tree.mem_settledAt (show Tree.Place.isDropped [] = false from rfl)).trans ⟨?_, ?_⟩
    · rintro ⟨place1, mark1, tag1, args1, hstands, hkept, heq⟩
      obtain ⟨hid, rfl⟩ := Prod.mk.inj heq
      obtain ⟨rfl, rfl⟩ := hplace.unique hd hstands hid.symm
      exact ⟨hkept, rfl⟩
    · rintro ⟨hkept, rfl⟩
      exact ⟨place, mark, tag, args, hplace, hkept, rfl⟩
  refine ⟨⟨fun h => ?_, fun h => ?_⟩, fun mark' tag' args' hin hid => ?_⟩
  · obtain ⟨tag', h⟩ := Tree.exists_tag h
    exact ((hmem tag').mp h).1
  · exact Tree.fst_mem_ids ((hmem _).mpr ⟨h, rfl⟩)
  · have htag : tag' = Tree.tagAt place tag :=
      ((hmem tag').mp (List.mem_filterMap.mpr ⟨_, hin, by rw [← hid]⟩)).2
    subst htag
    have hproc : place.inProc = true ↔ place.find? (fun p => p.1.isFunction) = some (.proc, 1) :=
      decide_eq_true_iff
    rw [← hproc]
    unfold Tree.tagAt Tree.settledTag
    cases place.isOpen <;> cases place.inProc <;> cases tag <;> simp [Tag.isClosure]

/-- Returns in a parameter list, in lowered code, in functions and in closures within one
another. -/
def nestedReturns : Text :=
  "(do (return 0)
       (proc ((x default (return 1)))
         (do (return 2) (sexp (return 3)) (defm m () (return 4))
             (lambda () (if x (proc (y) (return 5)) (return 6))))))"

theorem returns_by_frame_nested : ∃ f root c' t t',
    Forest.parse "s" nestedReturns = .ok (f, root) ∧
    Pass.lambda.run root (Context.ofForest f {}) = .ok ⟨⟩ c' ∧
    f.tree root = .ok t ∧ c'.forest.tree root = .ok t' ∧
    (t.tags.map Prod.snd).count .ret = 7 ∧ (t'.tags.map Prod.snd).count .ret = 4 ∧
    (t'.tags.map Prod.snd).count .preturn = 2 ∧
    ∀ place mark tag args, t.Stands [] place (.node mark tag args) →
      (mark.id ∈ t'.ids ↔ place.isDropped = false) := by
  have hrun : testRun "s" nestedReturns (fun f root => Pass.lambda.run root (.ofForest f {}))
      (fun f root c' => (f.tree root).toOption.any fun t => (c'.forest.tree root).toOption.any
        fun t' => (t.tags.map Prod.snd).count .ret = 7 ∧
          (t'.tags.map Prod.snd).count .ret = 4 ∧ (t'.tags.map Prod.snd).count .preturn = 2) =
          true := by
    decide +kernel
  obtain ⟨f, root, ⟨⟩, c', hparse, hlambda, hrun⟩ := of_testRun hrun
  obtain ⟨t, t', ht, ht', hall⟩ :=
    returns_by_frame [] hparse (show Context.ofForest f {} = _ from rfl) hlambda
  rw [show f.tree root = .ok t from ht] at hrun
  simp only [ht', Except.toOption, Option.any_some, decide_eq_true_eq] at hrun
  exact ⟨f, root, c', t, t', hparse, hlambda, ht, ht', hrun.1, hrun.2.1, hrun.2.2,
    fun place mark tag args h => (hall place mark tag args h).1⟩

end Pipeline

end Lowering
