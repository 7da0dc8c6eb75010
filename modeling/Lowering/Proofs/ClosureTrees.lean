import Lowering.Pass.Closures
import Lowering.Proofs.Prologues
import Lowering.Proofs.Subtrees

namespace Lowering

open Forest PassM

namespace Tree

variable {α : Type}

/-- Whether the returns below a node are its own. -/
def keepsReturns : Tag → Bool
  | .sexp | .lambda | .defm | .defun => true
  | _ => false

mutual
/-- The tree with its returns going back to the frame in the environment. -/
def leaving : Tree α → Tree α
  | leaf a => leaf a
  | node mark tag args =>
    if keepsReturns tag then node mark tag args
    else node mark (if tag = .ret then .preturn else tag) (leavingEach args)

def leavingEach : List (Tree α) → List (Tree α)
  | [] => []
  | t :: ts => leaving t :: leavingEach ts
end

theorem leavingEach_eq (ts : List (Tree α)) : leavingEach ts = ts.map leaving :=
  eq_map rfl (fun _ _ => rfl) ts

@[simp] theorem leaving_leaf (a : Atom) : (leaf a : Tree α).leaving = leaf a := by rw [leaving]

theorem leaving_kept (ht : keepsReturns tag = true) (mark : α) (args : List (Tree α)) :
    (node mark tag args).leaving = node mark tag args := by
  rw [leaving, if_pos ht]

theorem leaving_node (ht : keepsReturns tag = false) (mark : α) (args : List (Tree α)) :
    (node mark tag args).leaving =
      node mark (if tag = .ret then .preturn else tag) (args.map leaving) := by
  rw [leaving, if_neg (by simp [ht]), leavingEach_eq]

/-- The parameters of a closure by its operands. -/
def closureNames (args : List (Tree α)) : List Text := ((args[0]?).getD (leaf .nil)).paramNames

/-- The body of the function that a closure becomes, before the closures in it are looked at. -/
def closureBody (tag : Tag) (args : List (Tree α)) : Tree α :=
  if tag = .proc then ((args[1]?).getD (leaf .nil)).leaving else (args[1]?).getD (leaf .nil)

mutual
/-- The closures of a tree, each before those in its body. Lowered code and the parameters of
closures are passed over. -/
def closures : Tree α → List (Tree α)
  | leaf _ => []
  | node mark tag args =>
    if tag = .sexp then []
    else if tag.isClosure then node mark tag args :: ((closuresEach args).drop 1).flatten
    else (closuresEach args).flatten

def closuresEach : List (Tree α) → List (List (Tree α))
  | [] => []
  | t :: ts => closures t :: closuresEach ts
end

theorem closuresEach_eq (ts : List (Tree α)) : closuresEach ts = ts.map closures :=
  eq_map rfl (fun _ _ => rfl) ts

@[simp] theorem closures_leaf (a : Atom) : (leaf a : Tree α).closures = [] := by rw [closures]

theorem closures_sexp (mark : α) (args : List (Tree α)) : (node mark .sexp args).closures = [] := by
  rw [closures, if_pos rfl]

theorem closures_closure (hc : tag.isClosure = true) (mark : α) (args : List (Tree α)) :
    (node mark tag args).closures = node mark tag args :: (args.drop 1).flatMap closures := by
  have hs : tag ≠ .sexp := by rintro rfl; cases hc
  rw [closures, if_neg hs, if_pos hc, closuresEach_eq, ← List.map_drop, List.flatMap_def]

theorem closures_node (hs : tag ≠ .sexp) (hc : tag.isClosure = false) (mark : α)
    (args : List (Tree α)) : (node mark tag args).closures = args.flatMap closures := by
  rw [closures, if_neg hs, if_neg (by simp [hc]), closuresEach_eq, List.flatMap_def]

theorem closures_shape (t : Tree α) : t.shape.closures = t.closures.map shape := by
  induction t with
  | leaf a => simp [shape]
  | node mark tag args ih =>
    have heach : ∀ ts : List (Tree α), (∀ t ∈ ts, t ∈ args) →
        (ts.map shape).flatMap closures = (ts.flatMap closures).map shape := by
      intro ts hts
      rw [List.flatMap_map, List.map_flatMap]
      exact List.flatMap_congr fun t ht => ih t (hts t ht)
    rw [shape_node]
    by_cases hs : tag = .sexp
    · rw [hs, closures_sexp, closures_sexp, List.map_nil]
    · cases hc : tag.isClosure with
      | true =>
        rw [closures_closure hc, closures_closure hc, List.map_cons, shape_node, ← List.map_drop,
          heach _ fun t => List.mem_of_mem_drop]
      | false => rw [closures_node hs hc, closures_node hs hc, heach args fun _ => id]

theorem closures_eq_nil {t : Tree α} (ht : t.shape = e) (he : e.closures = []) :
    t.closures = [] := by
  rw [← ht, closures_shape] at he
  exact List.map_eq_nil_iff.mp he

end Tree

/-- The label with a number. -/
def labelOf (stem : Text) (k : Nat) : Text := stem ++ Decimal.ofNat k

/-- Functions have been put on record, each with the next label. -/
structure Context.Enlists (c : Context) (functions : List (Int × Text)) (c' : Context) : Prop where
  hoisted : c'.hoisted = c.hoisted ++ functions.map Prod.fst
  labels : c'.labels = c.labels + functions.length
  options : c'.options = c.options

namespace Context.Enlists

variable {c c1 c' : Context} {functions others : List (Int × Text)}

theorem refl (c : Context) : c.Enlists [] c := ⟨by simp, rfl, rfl⟩

theorem trans (h : c.Enlists functions c1) (h' : c1.Enlists others c') :
    c.Enlists (functions ++ others) c' where
  hoisted := by rw [h'.hoisted, h.hoisted, List.map_append, List.append_assoc]
  labels := by rw [h'.labels, h.labels, List.length_append, Nat.add_assoc]
  options := h'.options.trans h.options

theorem aside (h : c.Enlists functions c1) (hf : ∃ f shared, c' = { c1 with forest := f, shared }) :
    c.Enlists functions c' := by
  obtain ⟨f, shared, rfl⟩ := hf
  exact ⟨h.hoisted, h.labels, h.options⟩

end Context.Enlists

namespace Pass.Closures

open Environment

variable {U : Int → Prop} {c c1 c2 c' : Context} {v w : Operand} {vs : List Operand}
variable {t : Tree Mark} {ts args : List (Tree Mark)} {mark : Mark} {n : Node} {u : Unit}

/-- Returns have become returns by the frame, and nothing else has changed. -/
def Left (c : Context) (t : Tree Mark) (c' : Context) (t' : Tree Mark) : Prop :=
  t' = t.leaving ∧ c.Enlists [] c'

theorem left_threads (h : Threads Left c ts c' ts') :
    ts' = ts.map Tree.leaving ∧ c.Enlists [] c' := by
  induction h with
  | nil c => exact ⟨rfl, .refl c⟩
  | cons head _ ih =>
    obtain ⟨rfl, hhead⟩ := head
    obtain ⟨rfl, hrest⟩ := ih
    exact ⟨rfl, hhead.trans hrest⟩

/-- The function that a closure becomes. -/
def functionNode (n : Node) (label : Text) (params : Operand) : Node where
  tag := .defun
  args := [.sym label, params, n.arg 1]
  pos := n.pos

theorem hoist_ok {names : List Text} (h : hoist n names c = .ok function c') :
    ∃ own d1 label d2 params d3,
      names.mapM (fun p => list n.pos [.sym p, .sym "default", .sym "nil"]) c = .ok own d1 ∧
      newLabel d1 = .ok label d2 ∧
      list n.pos ([.sym closureName, .sym envName, .sym "self"] ++ own) d2 = .ok params d3 ∧
      function = (d3.forest.size : Int) + 1 ∧
      c' = { d3.add (functionNode n label params) with hoisted := d3.hoisted ++ [function] } := by
  simp only [hoist, Closures.params, bind_ok, pure_ok, alloc_ok, modify_ok] at h
  obtain ⟨_, _, ⟨own, d1, hown, rfl, rfl⟩, label, d2, hlabel, params, d3, hparams, _, _,
    ⟨rfl, rfl⟩, _, _, rfl, rfl, rfl⟩ := h
  exact ⟨own, _, label, d2, params, d3, hown, hlabel, hparams, rfl, rfl⟩

theorem convert_eq (id : Int) (n : Node) :
    (n.tag = .proc → (n.arg 1).child? = none) ∧ convert id n = lift id n ∨
      n.tag = .proc ∧ ∃ body, (n.arg 1).child? = some body ∧
        convert id n = (leaveByFrame body >>= fun _ => lift id n) := by
  unfold convert
  by_cases ht : n.tag = .proc
  · simp only [ht, if_true]
    cases hb : (n.arg 1).child? with
    | none => exact .inl ⟨fun _ => rfl, rfl⟩
    | some body => exact .inr ⟨trivial, body, rfl, rfl⟩
  · exact .inl ⟨fun hproc => absurd hproc ht, if_neg ht⟩

/-- In the body of a proc returns have become returns by the frame. -/
def LeftByFrame (n : Node) (c c1 : Context) : Prop :=
  c1 = c ∧ (n.tag = .proc → (n.arg 1).child? = none) ∨
    n.tag = .proc ∧ ∃ body, (n.arg 1).child? = some body ∧ leaveByFrame body c = .ok ⟨⟩ c1

theorem convert_ok {id : Int} (h : convert id n c = .ok u c') :
    ∃ (names : List Text) (c1 : Context) (function : Int) (d0 : Context), LeftByFrame n c c1 ∧
      c1.forest.paramNames (n.arg 0) = .ok names ∧ hoist n names c1 = .ok function d0 ∧
      ∃ frame d1 args d2 make d3 here d4 first d5 second d6,
      slotAt n.pos 0 d0 = .ok frame d1 ∧
      list n.pos [.sym tmpProcName, .sym envName, .sym "self",
        .int (Int64.ofNat names.length)] d1 = .ok args d2 ∧
      sexpCall n.pos "__new_proc" [args] d2 = .ok make d3 ∧
      node .stackframe n.pos [] d3 = .ok here d4 ∧
      node .assign n.pos [frame, here] d4 = .ok first d5 ∧
      node .assign n.pos [.sym tmpProcName, .ref function] d5 = .ok second d6 ∧
      reshape id .block [first, second, make] d6 = .ok ⟨⟩ c' := by
  obtain ⟨c1, left, h⟩ : ∃ c1, LeftByFrame n c c1 ∧ lift id n c1 = .ok u c' := by
    obtain ⟨hnone, heq⟩ | ⟨ht, body, hbody, heq⟩ := convert_eq id n <;> rw [heq] at h
    · exact ⟨c, .inl ⟨rfl, hnone⟩, h⟩
    · obtain ⟨_, c1, hleave, h⟩ := bind_ok.mp h
      exact ⟨c1, .inr ⟨ht, body, hbody, hleave⟩, h⟩
  obtain ⟨names, hnames, h⟩ := query_bind_ok.mp h
  obtain ⟨function, d0, hhoist, h⟩ := bind_ok.mp h
  simp only [bind_ok] at h
  exact ⟨names, c1, function, d0, left, hnames, hhoist, by simpa [and_assoc] using h⟩

theorem leaving_cases {id : Int} (h : leaving id n c = .ok act c1) :
    (c1 = c ∧ act = .skip ∧ Tree.keepsReturns n.tag = true) ∨
      act = .descend ∧ Tree.keepsReturns n.tag = false ∧
        (c1 = c ∧ n.tag ≠ .ret ∨ n.tag = .ret ∧
          update id ({ · with tag := .preturn }) c = .ok ⟨⟩ c1) := by
  unfold leaving at h
  cases ht : n.tag
  case ret =>
    simp only [ht] at h
    obtain ⟨_, hupdate, rfl⟩ := bind_pure_ok.mp h
    exact .inr ⟨rfl, rfl, .inr ⟨rfl, hupdate⟩⟩
  all_goals
    simp only [ht] at h
    obtain ⟨rfl, rfl⟩ := pure_ok.mp h
    simp [Tree.keepsReturns]

theorem quiet_leaving (id : Int) (n : Node) : Quiet (leaving id n) := by
  unfold leaving
  cases ht : n.tag
  case ret => exact (quiet_update _ _).bind fun _ => quiet_pure _
  all_goals exact quiet_pure _

theorem leaving_rewrites : Rewrites leaving Left fun _ => False where
  leaf c a := ⟨(Tree.leaving_leaf a).symm, .refl c⟩
  ok {U c v mark tag args n act c1} hh hn h := by
    obtain rfl := (hh.stored hn).1
    obtain ⟨rfl, rfl, hkept⟩ | ⟨rfl, hkept, ⟨rfl, hret⟩ | ⟨hret, hupdate⟩⟩ := leaving_cases h
    · exact ⟨n.tag, args, .refl hh, .inl ⟨rfl, (Tree.leaving_kept hkept mark args).symm, .refl _⟩⟩
    · refine ⟨n.tag, args, .refl hh, .inr ⟨rfl, fun _ _ h => h, fun c' args' hthreads => ?_⟩⟩
      obtain ⟨rfl, hlist⟩ := left_threads hthreads
      exact ⟨by rw [Tree.leaving_node hkept, if_neg hret], hlist⟩
    · have hr := update_reworks hh hn (by rfl) (by rfl) hupdate
      refine ⟨.preturn, args, hr, .inr ⟨rfl, fun _ _ h => h, fun c' args' hthreads => ?_⟩⟩
      obtain ⟨rfl, hlist⟩ := left_threads hthreads
      obtain ⟨m, -, rfl⟩ := update_ok.mp hupdate
      exact ⟨by rw [Tree.leaving_node hkept, if_pos hret], ⟨hlist.hoisted, hlist.labels,
        hlist.options⟩⟩
  refused {U c v mark tag args n e c1} hh hn h he := absurd (quiet_leaving mark.id n c e c1 h) he

theorem LeftByFrame.reworks (hh : Bears U c [n.arg 1] [(args[1]?).getD (.leaf .nil)])
    (h : LeftByFrame n c c1) :
    Reworks U c [(args[1]?).getD (.leaf .nil)] c1 [n.arg 1] [Tree.closureBody n.tag args] ∧
      c.Enlists [] c1 := by
  unfold Tree.closureBody
  obtain ⟨rfl, hproc⟩ | ⟨hproc, body, hbody, h⟩ := h
  · refine ⟨?_, .refl _⟩
    split
    · next ht =>
      have hd := (List.forall₂_cons.mp hh.denotes).1
      cases hb : (args[1]?).getD (.leaf .nil) with
      | leaf a =>
        rw [hb] at hh
        rw [Tree.leaving_leaf]
        exact .refl hh
      | node mark tag ts =>
        rw [hb] at hd
        have hchild := Operand.view_eq_child.mp (denotes_node.mp hd).1
        rw [hproc ht] at hchild
        cases hchild
    · exact .refl hh
  · obtain ⟨b, h⟩ := discard_ok.mp h
    obtain ⟨t', hr, rfl, hlist⟩ := (leaving_rewrites.walk hh hbody).1 b c1 h
    rw [if_pos hproc]
    exact ⟨hr, hlist⟩

/-- `(assign (index __env__ 0) (stackframe))` -/
def frameStore : Tree Unit :=
  .node () .assign [slotForm 0, .node () .stackframe []]

/-- `(x default nil)` -/
def optional (name : Text) : Tree Unit :=
  .node () .list [.leaf (.sym name), .leaf (.sym "default"), .leaf (.sym "nil")]

/-- `(__closure__ __env__ self (x default nil) ...)` -/
def functionParams (names : List Text) : Tree Unit :=
  .node () .list ([.leaf (.sym closureName), .leaf (.sym envName), .leaf (.sym "self")] ++
    names.map optional)

/-- `(sexp (call __new_proc (__tmp_proc __env__ self <count>)))` -/
def procCall (count : Nat) : Tree Unit :=
  .node () .sexp [.node () .call [.leaf (.sym "__new_proc"),
    .node () .list [.leaf (.sym tmpProcName), .leaf (.sym envName), .leaf (.sym "self"),
      .leaf (.int (Int64.ofNat count))]]]

theorem closures_functionParams (names : List Text) : (functionParams names).closures = [] := by
  rw [functionParams, Tree.closures_node (by decide) rfl]
  simp only [List.flatMap_eq_nil_iff, List.mem_append, List.mem_map]
  rintro s (hs | ⟨name, -, rfl⟩)
  · simp only [List.mem_cons, List.not_mem_nil, or_false] at hs
    obtain rfl | rfl | rfl := hs <;> exact Tree.closures_leaf _
  · rfl

theorem defaults_make {names : List Text}
    (h : names.mapM (fun p => list pos [.sym p, .sym "default", .sym "nil"]) c = .ok vs c') :
    ∃ ts, Makes c [] c' vs ts ∧ ts.map Tree.shape = names.map optional ∧ c.Enlists [] c' := by
  induction names generalizing c vs with
  | nil =>
    obtain ⟨rfl, rfl⟩ := pure_ok.mp h
    exact ⟨[], .keep .nil, rfl, .refl c⟩
  | cons p names ih =>
    obtain ⟨v, d, vs, hv, hvs, rfl⟩ := mapM_cons_ok.mp h
    obtain ⟨ts, hts, hshape, hlist⟩ := ih hvs
    have hargs : Makes c [] c [.sym p, .sym "default", .sym "nil"]
        [.leaf (.sym p), .leaf (.sym "default"), .leaf (.sym "nil")] :=
      (Makes.sym c p).append ((Makes.sym c "default").append (Makes.sym c "nil"))
    refine ⟨_, (hargs.list hv).append hts, ?_, ?_⟩
    · rw [List.singleton_append, List.map_cons, hshape, List.map_cons]
      simp [optional, Tree.shape, Tree.shapes]
    · have hfirst : c.Enlists [] d := (Context.Enlists.refl c).aside ⟨_, _, (list_ok.mp hv).2⟩
      exact hfirst.trans hlist

theorem hoist_makes {names : List Text} (hd : Denotes c.forest (n.arg 1) t)
    (h : hoist n names c = .ok function c') : ∃ mark params, mark.id = function ∧
      Makes c [t] c' [.ref function] [.node mark .defun
        [.leaf (.sym (labelOf c.options.labelStem (c.labels + 1))), params, t]] ∧
      params.shape = functionParams names ∧
      c.Enlists [(function, labelOf c.options.labelStem (c.labels + 1))] c' := by
  obtain ⟨own, d1, label, d2, params, d3, hown, hlabel, hparams, rfl, rfl⟩ := hoist_ok h
  obtain ⟨ts, hts, hshape, hlist⟩ := defaults_make hown
  obtain ⟨rfl, rfl⟩ : labelOf d1.options.labelStem (d1.labels + 1) = label ∧
      { d1 with labels := d1.labels + 1 } = d2 := by
    cases hlabel
    exact ⟨rfl, rfl⟩
  have hnames := (Makes.sym c closureName).append ((Makes.sym c envName).append
    ((Makes.sym c "self").append hts))
  have hcounted : Makes c _ { d1 with labels := d1.labels + 1 } _ _ := hnames.congr rfl rfl
  have hmade := hcounted.list hparams
  have hbody : Makes d3 [t] d3 [n.arg 1] [t] := .keep (.cons (hd.grow hmade.grows) .nil)
  have hlabels : d1.labels = c.labels := by simpa using hlist.labels
  rw [hlist.options, hlabels]
  have hnode : PassM.node .defun n.pos
      [.sym (labelOf c.options.labelStem (c.labels + 1)), params, n.arg 1] d3 =
      .ok (.ref ((d3.forest.size : Int) + 1)) (d3.add (functionNode n _ params)) :=
    node_ok.mpr ⟨rfl, rfl⟩
  obtain ⟨-, rfl⟩ := list_ok.mp hparams
  refine ⟨_, _, rfl, ((((Makes.sym c _).append hmade).append hbody).node hnode).congr rfl rfl,
    ?_, ?_⟩
  · rw [Tree.shape_node, functionParams]
    simp [Tree.shape, hshape]
  · refine ⟨?_, ?_, hlist.options⟩
    · have hhoisted : d1.hoisted = c.hoisted := by simpa using hlist.hoisted
      exact congrArg (· ++ [_]) hhoisted
    · exact congrArg (· + 1) hlabels

theorem statements_make {s : Tree Mark} {function : Int} {names : List Text}
    {d1 d2 d3 d4 d5 d6 : Context} {frame args make here first second : Operand}
    (hfunction : Makes c ts c1 [.ref function] [s]) (hframe : slotAt n.pos 0 c1 = .ok frame d1)
    (hargs : list n.pos [.sym tmpProcName, .sym envName, .sym "self",
      .int (Int64.ofNat names.length)] d1 = .ok args d2)
    (hmake : sexpCall n.pos "__new_proc" [args] d2 = .ok make d3)
    (hhere : PassM.node .stackframe n.pos [] d3 = .ok here d4)
    (hfirst : PassM.node .assign n.pos [frame, here] d4 = .ok first d5)
    (hsecond : PassM.node .assign n.pos [.sym tmpProcName, .ref function] d5 = .ok second d6) :
    ∃ store assign proc, Makes c ts d6 [first, second, make]
        [store, .node assign .assign [.leaf (.sym tmpProcName), s], proc] ∧
      store.shape = frameStore ∧ proc.shape = procCall names.length ∧ c1.Enlists [] d6 := by
  obtain ⟨call, d, hcall, hsexp⟩ := bind_ok.mp hmake
  obtain ⟨slot, hslot, hslot_shape⟩ :
      ∃ r, Makes c1 [] d1 [frame] [r] ∧ r.shape = slotForm 0 := by
    refine ⟨_, ((Makes.sym c1 envName).append (Makes.int c1 (Int64.ofNat 0))).node hframe, ?_⟩
    simp [slotForm, Tree.shape, Tree.shapes]
  obtain ⟨proc, hproc, hproc_shape⟩ :
      ∃ r, Makes d1 [] d3 [make] [r] ∧ r.shape = procCall names.length := by
    have hlist := ((Makes.sym d1 tmpProcName).append ((Makes.sym d1 envName).append
      ((Makes.sym d1 "self").append (Makes.int d1 (Int64.ofNat names.length))))).list hargs
    refine ⟨_, (((Makes.sym d1 "__new_proc").append hlist).node hcall).node hsexp, ?_⟩
    simp [procCall, Tree.shape, Tree.shapes]
  have hstack := (Makes.keep .nil).node hhere
  have hframes : Makes c1 [] d4 ([make] ++ [frame, here]) ([proc] ++ [slot, _]) :=
    ((hslot.append hproc).swap rfl).append hstack
  obtain ⟨store, hstore, hstore_shape⟩ :
      ∃ r, Makes c ts d5 [make, first, .ref function] [proc, r, s] ∧ r.shape = frameStore := by
    have hboth := (hfunction.append (hframes.nodeOver rfl hfirst)).swap rfl
    rw [List.append_nil] at hboth
    exact ⟨_, hboth, by simp [Tree.shape, Tree.shapes, hslot_shape, frameStore]⟩
  -- The function is the last of these, and the name that it is assigned to goes before it.
  have hnamed : Makes c ts d5 ([make, first] ++ [.sym tmpProcName, .ref function])
      ([proc, store] ++ [.leaf (.sym tmpProcName), s]) := by
    obtain ⟨hmake, hrest⟩ := List.forall₂_cons.mp hstore.denotes
    obtain ⟨hfirst, hrest⟩ := List.forall₂_cons.mp hrest
    exact hstore.reorder (.cons hmake (.cons hfirst (.cons rfl hrest))) (by simp)
  have hall : Makes c ts d6 ([make] ++ [first, second]) ([proc] ++ [store,
      .node ⟨(d5.forest.size : Int) + 1, n.pos⟩ .assign [.leaf (.sym tmpProcName), s]]) :=
    hnamed.nodeOver rfl hsecond
  refine ⟨_, _, _, hall.swap rfl, hstore_shape, hproc_shape, ?_⟩
  obtain ⟨-, rfl⟩ := node_ok.mp hframe
  obtain ⟨-, rfl⟩ := list_ok.mp hargs
  obtain ⟨-, rfl⟩ := node_ok.mp hcall
  obtain ⟨-, rfl⟩ := node_ok.mp hsexp
  obtain ⟨-, rfl⟩ := node_ok.mp hhere
  obtain ⟨-, rfl⟩ := node_ok.mp hfirst
  obtain ⟨-, rfl⟩ := node_ok.mp hsecond
  exact (Context.Enlists.refl c1).aside ⟨_, _, rfl⟩

/-- What becomes of trees. The functions that are made are listed with their labels, whose numbers
follow `k`. -/
inductive Hoists (stem : Text) :
    Nat → List (Tree Mark) → List (Tree Mark) → List (Int × Text) → Prop where
  | nil (k : Nat) : Hoists stem k [] [] []
  | leaf {k : Nat} {ts ts' : List (Tree Mark)} {fs : List (Int × Text)} (a : Atom)
      (rest : Hoists stem k ts ts' fs) : Hoists stem k (.leaf a :: ts) (.leaf a :: ts') fs
  | lowered {k : Nat} {ts ts' : List (Tree Mark)} {fs : List (Int × Text)} (mark : Mark)
      (args : List (Tree Mark)) (rest : Hoists stem k ts ts' fs) :
      Hoists stem k (.node mark .sexp args :: ts) (.node mark .sexp args :: ts') fs
  | node {k : Nat} {ts ts' args args' : List (Tree Mark)} {fs gs : List (Int × Text)} {tag : Tag}
      (mark : Mark) (hs : tag ≠ .sexp) (hc : tag.isClosure = false)
      (below : Hoists stem k args args' fs) (rest : Hoists stem (k + fs.length) ts ts' gs) :
      Hoists stem k (.node mark tag args :: ts) (.node mark tag args' :: ts') (fs ++ gs)
  | closure {k : Nat} {ts ts' args : List (Tree Mark)} {fs gs : List (Int × Text)} {tag : Tag}
      {store params body make : Tree Mark} (mark assign function : Mark) (hc : tag.isClosure = true)
      (hlen : args.length ≤ 2) (hstore : store.shape = frameStore)
      (hparams : params.shape = functionParams (Tree.closureNames args))
      (inner : Hoists stem (k + 1) [Tree.closureBody tag args] [body] fs)
      (hmake : make.shape = procCall (Tree.closureNames args).length)
      (rest : Hoists stem (k + 1 + fs.length) ts ts' gs) :
      Hoists stem k (.node mark tag args :: ts)
        (.node mark .block [store, .node assign .assign [.leaf (.sym tmpProcName),
          .node function .defun [.leaf (.sym (labelOf stem (k + 1))), params, body]], make] :: ts')
        ((function.id, labelOf stem (k + 1)) :: fs ++ gs)

namespace Hoists

variable {stem : Text} {k : Nat} {us ts' us' : List (Tree Mark)} {t' : Tree Mark}
variable {fs gs : List (Int × Text)} {tag : Tag}

theorem append (h : Hoists stem k ts ts' fs) (h' : Hoists stem (k + fs.length) us us' gs) :
    Hoists stem k (ts ++ us) (ts' ++ us') (fs ++ gs) := by
  induction h with
  | nil k => exact h'
  | leaf a _ ih => exact .leaf a (ih h')
  | lowered mark args _ ih => exact .lowered mark args (ih h')
  | node mark hs hc below _ _ ih =>
    rw [List.append_assoc]
    refine .node mark hs hc below (ih ?_)
    simpa [Nat.add_assoc] using h'
  | closure mark assign function hc hlen hstore hparams inner hmake _ _ ih =>
    rw [List.append_assoc]
    refine .closure mark assign function hc hlen hstore hparams inner hmake (ih ?_)
    rw [List.length_append, List.length_cons] at h'
    convert h' using 1
    omega

theorem split (h : Hoists stem k (t :: ts) us' fs) :
    ∃ t' ts' fs1 fs2, us' = t' :: ts' ∧ fs = fs1 ++ fs2 ∧ Hoists stem k [t] [t'] fs1 ∧
      Hoists stem (k + fs1.length) ts ts' fs2 := by
  cases h with
  | leaf a rest => exact ⟨_, _, [], _, rfl, rfl, .leaf a (.nil k), rest⟩
  | lowered mark args rest => exact ⟨_, _, [], _, rfl, rfl, .lowered mark args (.nil k), rest⟩
  | @node _ _ _ _ _ fs _ _ mark hs hc below rest =>
    exact ⟨_, _, fs, _, rfl, rfl, by simpa using Hoists.node mark hs hc below (.nil _), rest⟩
  | @closure _ _ _ _ fs _ _ _ _ _ _ mark assign function hc hlen hstore hparams inner hmake rest =>
    refine ⟨_, _, _ :: fs, _, rfl, rfl, ?_, ?_⟩
    · simpa using Hoists.closure mark assign function hc hlen hstore hparams inner hmake (.nil _)
    · rwa [List.length_cons, show k + (fs.length + 1) = k + 1 + fs.length by omega]

theorem plain (h : Hoists stem k ts ts' fs) (hts : ts.flatMap Tree.closures = []) :
    ts' = ts ∧ fs = [] := by
  induction h with
  | nil k => exact ⟨rfl, rfl⟩
  | leaf a _ ih => simpa using ih (by simpa using hts)
  | lowered mark args _ ih => simpa using ih (by simpa [Tree.closures_sexp] using hts)
  | node mark hs hc _ _ ihargs ih =>
    rw [List.flatMap_cons, List.append_eq_nil_iff, Tree.closures_node hs hc] at hts
    obtain ⟨rfl, rfl⟩ := ihargs hts.1
    obtain ⟨rfl, rfl⟩ := ih hts.2
    exact ⟨rfl, rfl⟩
  | closure mark _ _ hc =>
    rw [List.flatMap_cons, Tree.closures_closure hc] at hts
    cases hts

theorem passes {e : Tree Unit} (h : Hoists stem k (t :: ts) us' fs) (ht : t.shape = e)
    (he : e.closures = []) : ∃ ts', us' = t :: ts' ∧ Hoists stem k ts ts' fs := by
  obtain ⟨t', ts', fs1, fs2, rfl, rfl, hhead, hrest⟩ := h.split
  obtain ⟨heq, rfl⟩ := hhead.plain (by simpa using Tree.closures_eq_nil ht he)
  cases heq
  exact ⟨ts', rfl, hrest⟩

theorem under (h : Hoists stem k (.node mark tag args :: ts) us' fs) (hs : tag ≠ .sexp)
    (hc : tag.isClosure = false) : ∃ args' ts' fs1 fs2, us' = .node mark tag args' :: ts' ∧
      fs = fs1 ++ fs2 ∧ Hoists stem k args args' fs1 ∧ Hoists stem (k + fs1.length) ts ts' fs2 := by
  cases h with
  | lowered mark args rest => exact absurd rfl hs
  | node mark _ _ below rest => exact ⟨_, _, _, _, rfl, rfl, below, rest⟩
  | closure mark assign function hclosure => exact absurd hclosure (by simp [hc])

/-- What a walk does to the statements in place of a closure: it goes on in the body alone. -/
theorem statements {store params make : Tree Mark} {assign function : Mark} {label : Text}
    {names : List Text} (hstore : store.shape = frameStore)
    (hparams : params.shape = functionParams names) (hmake : make.shape = procCall names.length)
    (h : Hoists stem k [store, .node assign .assign [.leaf (.sym tmpProcName),
      .node function .defun [.leaf (.sym label), params, t]], make] ts' fs) :
    ∃ body, Hoists stem k [t] [body] fs ∧ ts' = [store, .node assign .assign
      [.leaf (.sym tmpProcName), .node function .defun [.leaf (.sym label), params, body]],
      make] := by
  obtain ⟨_, rfl, hrest⟩ := h.passes hstore rfl
  obtain ⟨_, _, fs1, fs2, rfl, rfl, hassign, hlast⟩ := hrest.under (by decide) rfl
  obtain ⟨_, rfl, hend⟩ := hlast.passes hmake rfl
  obtain ⟨_, rfl, hvalue⟩ := hassign.passes rfl rfl
  obtain ⟨_, _, fs3, fs4, rfl, rfl, hdefun, hend'⟩ := hvalue.under (by decide) rfl
  obtain ⟨_, rfl, hsigned⟩ := hdefun.passes rfl rfl
  obtain ⟨_, rfl, htail⟩ := hsigned.passes hparams (closures_functionParams names)
  obtain ⟨body, _, fs5, fs6, rfl, rfl, hbody, hnil⟩ := htail.split
  cases hend
  cases hend'
  cases hnil
  exact ⟨body, by simpa using hbody, rfl⟩

end Hoists

/-- What takes the place of a closure, before the walk goes on in it. All of it is new but for the
body of the closure. -/
theorem convert_reworks (hh : Bears U c [v] [.node mark n.tag args])
    (hn : c.forest.get? mark.id = some n) (h : convert mark.id n c = .ok u c') :
    ∃ store assign function params make, ∃ stmts : List (Tree Mark), stmts = [store,
        .node assign .assign [.leaf (.sym tmpProcName), .node function .defun
          [.leaf (.sym (labelOf c.options.labelStem (c.labels + 1))), params,
            Tree.closureBody n.tag args]], make] ∧
      store.shape = frameStore ∧ params.shape = functionParams (Tree.closureNames args) ∧
      make.shape = procCall (Tree.closureNames args).length ∧
      Reworks U c [.node mark n.tag args] c' [v] [.node mark .block stmts] ∧
      (∀ x ∈ store.ids ++ assign.id :: function.id :: (params.ids ++ make.ids),
        (c.forest.size : Int) < x) ∧
      c.Enlists [(function.id, labelOf c.options.labelStem (c.labels + 1))] c' := by
  obtain ⟨names, c1, function, d0, hleft, hnames, hhoist, frame, d1, list, d2, make, d3, here, d4,
    first, d5, second, d6, h1, h2, h3, h4, h5, h6, hshape⟩ := convert_ok h
  have hargs := (hh.stored hn).2.2
  obtain ⟨hbody, hids⟩ := hargs.arg 1
  obtain ⟨hr, hlist⟩ := hleft.reworks hbody
  -- The parameters are where they were: they have no node in common with the body.
  obtain rfl : names = Tree.closureNames args := by
    obtain ⟨hparams, -⟩ := hargs.arg 0
    have hapart := Tree.operands_apart (t := .node mark n.tag args) (by simpa using hh.nodup)
      Nat.zero_lt_one
    have hkept := hr.keeps (List.forall₂_cons.mp hparams.denotes).1 fun x hx =>
      ⟨hparams.used x (by simpa using hx),
        fun hx' => hapart hx (by simpa [Tree.operand, Tree.operands] using hx')⟩
    exact Except.ok.inj (hnames.symm.trans hkept.paramNames)
  have hheld := hr.bears
  obtain ⟨fmark, params, rfl, hfunction, hparams, henlist⟩ :=
    hoist_makes (List.forall₂_cons.mp hheld.denotes).1 hhoist
  obtain ⟨store, assign, proc, hmade, hstore, hproc, hstay⟩ :=
    statements_make hfunction h1 h2 h3 h4 h5 h6
  have hbelow := (hr.trans hbody.uses (hmade.reworks hheld (.refl _))).widen
    fun y hy => hids.subset (by simpa using hy)
  have hlabels : c1.labels = c.labels := by simpa using hlist.labels
  rw [hlist.options, hlabels] at hbelow henlist
  refine ⟨store, assign, fmark, params, proc, _, rfl, hstore, hparams, hproc,
    reshape_reworks hh hbelow hshape, ?_, ?_⟩
  · obtain ⟨made, -, hmade, hperm⟩ := hmade.ids
    have hnew : (store.ids ++ assign.id :: fmark.id :: (params.ids ++ proc.ids)).Perm made := by
      refine (List.perm_append_right_iff (Tree.closureBody n.tag args).ids).mp (.trans ?_
        (by simpa using hperm))
      simp only [Tree.idsOf_cons, Tree.ids_node', Tree.ids_leaf, Tree.idsOf_nil, List.nil_append,
        List.append_nil, List.append_assoc, List.cons_append]
      exact (((List.perm_append_comm.append_left _).cons _).cons _).append_left _
    intro x hx
    have hsize := hr.size
    have := (hmade x (hnew.subset hx)).1
    omega
  · have hall := (hlist.trans (henlist.trans hstay))
    obtain ⟨m, -, rfl⟩ := reshape_ok.mp hshape
    exact ⟨hall.hoisted, hall.labels, hall.options⟩

theorem quiet_hoist (n : Node) (names : List Text) : Quiet (hoist n names) := by
  have hparams : Quiet (params n.pos names) :=
    (Quiet.mapM (fun _ => quiet_list _ _) names).bind fun _ => quiet_pure _
  exact hparams.bind fun _ => quiet_newLabel.bind fun _ => (quiet_list _ _).bind fun _ =>
    (quiet_alloc _ _ _).bind fun _ => (quiet_modify _).bind fun _ => quiet_pure _

theorem quiet_convert (id : Int) (n : Node) : Quiet (convert id n) := by
  have hlift : Quiet (lift id n) :=
    (quiet_query _).bind fun _ => (quiet_hoist _ _).bind fun _ => (quiet_node _ _ _).bind fun _ =>
      (quiet_list _ _).bind fun _ => (quiet_sexpCall _ _ _).bind fun _ =>
      (quiet_node _ _ _).bind fun _ => (quiet_node _ _ _).bind fun _ =>
      (quiet_node _ _ _).bind fun _ => quiet_reshape _ _ _
  obtain ⟨-, heq⟩ | ⟨-, body, -, heq⟩ := convert_eq id n <;> rw [heq]
  · exact hlift
  · exact ((quiet_walk quiet_leaving body).bind fun _ => quiet_pure _).bind fun _ => hlift

theorem visit_ok {id : Int} (h : visit id n c = .ok act c1) :
    (c1 = c ∧ act = .skip ∧ n.tag = .sexp) ∨
      (c1 = c ∧ act = .descend ∧ n.tag ≠ .sexp ∧ n.tag.isClosure = false) ∨
      (act = .descend ∧ n.tag.isClosure = true ∧ n.args.length ≤ 2 ∧
        convert id n c = .ok ⟨⟩ c1) := by
  unfold visit at h
  cases ht : n.tag
  case lambda | proc =>
    simp only [ht] at h
    obtain ⟨hwell, h⟩ := check_bind_ok.mp h
    obtain ⟨_, hconvert, rfl⟩ := bind_pure_ok.mp h
    exact .inr (.inr ⟨rfl, rfl, (Node.malformed?_closure (by rw [ht]; rfl)).mp hwell, hconvert⟩)
  all_goals
    simp only [ht] at h
    obtain ⟨rfl, rfl⟩ := pure_ok.mp h
    simp [Tag.isClosure]

theorem visit_refused {id : Int} (h : visit id n c = .error e c1) (he : ¬ e.IsFault) : c1 = c := by
  unfold visit at h
  cases ht : n.tag
  case lambda | proc =>
    simp only [ht] at h
    exact (Quiet.after_check (fun _ => (quiet_convert _ _).bind fun _ => quiet_pure _) h he).2
  all_goals
    simp only [ht] at h
    exact absurd h pure_error

/-- Closures have become functions, which are on record. -/
def Hoisted (c : Context) (t : Tree Mark) (c' : Context) (t' : Tree Mark) : Prop :=
  ∃ functions, Hoists c.options.labelStem c.labels [t] [t'] functions ∧ c.Enlists functions c'

theorem hoisted_threads {ts' : List (Tree Mark)} (h : Threads Hoisted c ts c' ts') :
    ∃ functions, Hoists c.options.labelStem c.labels ts ts' functions ∧ c.Enlists functions c' := by
  induction h with
  | nil c => exact ⟨[], .nil _, .refl c⟩
  | cons head _ ih =>
    obtain ⟨fs, hhead, hlist⟩ := head
    obtain ⟨gs, hrest, hlist'⟩ := ih
    rw [hlist.options, hlist.labels] at hrest
    exact ⟨fs ++ gs, hhead.append hrest, hlist.trans hlist'⟩

/-- The walk makes a function of each closure that it comes to. -/
theorem rewrites : Rewrites visit Hoisted fun _ => True where
  leaf c a := ⟨[], .leaf a (.nil _), .refl c⟩
  ok {U c v mark tag args n act c1} hh hn h := by
    obtain ⟨rfl, -, hargs⟩ := hh.stored hn
    obtain ⟨rfl, rfl, hsexp⟩ | ⟨rfl, rfl, hsexp, hopen⟩ | ⟨rfl, hclosure, hlen, hconvert⟩ :=
      visit_ok h
    · refine ⟨n.tag, args, .refl hh, .inl ⟨rfl, [], ?_, .refl _⟩⟩
      rw [hsexp]
      exact .lowered mark args (.nil _)
    · refine ⟨n.tag, args, .refl hh, .inr ⟨rfl, fun _ _ _ => trivial, fun c' args' hthreads => ?_⟩⟩
      obtain ⟨fs, hbelow, hlist⟩ := hoisted_threads hthreads
      exact ⟨fs, by simpa using Hoists.node mark hsexp hopen hbelow (.nil _), hlist⟩
    · obtain ⟨store, assign, function, params, make, _, rfl, hstore, hparams, hmake, hr, -,
        hlist⟩ := convert_reworks hh hn hconvert
      refine ⟨.block, _, hr, .inr ⟨rfl, fun _ _ _ => trivial, fun c' args' hthreads => ?_⟩⟩
      obtain ⟨fs, hbelow, hlist'⟩ := hoisted_threads hthreads
      rw [hlist.options, hlist.labels] at hbelow
      obtain ⟨body, hbody, rfl⟩ := hbelow.statements hstore hparams hmake
      refine ⟨_ :: fs, ?_, hlist.trans hlist'⟩
      have hcount : args.length ≤ 2 := hargs.denotes.length_eq ▸ hlen
      simpa using Hoists.closure mark assign function hclosure hcount hstore hparams hbody hmake
        (.nil _)
  refused {U c v mark tag args n e c1} hh hn h he := ⟨visit_refused h he, trivial⟩

end Pass.Closures

end Lowering
