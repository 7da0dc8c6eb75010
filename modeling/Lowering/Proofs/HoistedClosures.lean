import Lowering.Proofs.HoistedConstants

namespace Lowering

open Forest PassM

namespace Tree

section

variable {α : Type}

theorem symbol?_leaving (t : Tree α) : t.leaving.symbol? = t.symbol? := by
  cases t with
  | leaf a => rw [leaving_leaf]
  | node mark tag args =>
    cases ht : keepsReturns tag with
    | true => rw [leaving_kept ht]
    | false => rw [leaving_node ht]; rfl

theorem paramName?_leaving (t : Tree α) : t.leaving.paramName? = t.paramName? := by
  cases t with
  | leaf a => rw [leaving_leaf]
  | node mark tag args =>
    cases ht : keepsReturns tag with
    | true => rw [leaving_kept ht]
    | false =>
      rw [leaving_node ht]
      cases args with
      | nil => rfl
      | cons first rest => exact symbol?_leaving first

theorem paramNames_leaving (t : Tree α) : t.leaving.paramNames = t.paramNames := by
  have hself (t : Tree α) : [t.leaving].filterMap paramName? = [t].filterMap paramName? := by
    simp only [List.filterMap_cons, paramName?_leaving]
  cases t with
  | leaf a => rw [leaving_leaf]
  | node mark tag args =>
    by_cases htag : tag = .list
    · rw [htag, leaving_node rfl]
      simp only [paramNames, elems, reduceCtorEq, if_false, List.filterMap_map]
      exact List.filterMap_congr fun s _ => paramName?_leaving s
    · have helems : ∀ args : List (Tree α), ∀ tag ≠ Tag.list,
          (node mark tag args).elems = [node mark tag args] := by
        intro args tag ht
        cases tag <;> first | rfl | exact absurd rfl ht
      cases ht : keepsReturns tag with
      | true => rw [leaving_kept ht]
      | false =>
        have := hself (node mark tag args)
        rw [leaving_node ht] at this ⊢
        rw [paramNames, paramNames, helems _ _ htag, helems, this]
        split
        · decide
        · exact htag

theorem leaving_leaving (t : Tree α) : t.leaving.leaving = t.leaving := by
  induction t with
  | leaf a => rw [leaving_leaf, leaving_leaf]
  | node mark tag args ih =>
    cases ht : keepsReturns tag with
    | true => rw [leaving_kept ht, leaving_kept ht]
    | false =>
      have hargs : (args.map leaving).map leaving = args.map leaving := by
        rw [List.map_map]
        exact List.map_congr_left ih
      rw [leaving_node ht]
      by_cases hret : tag = .ret
      · rw [if_pos hret, leaving_node rfl, if_neg (by decide), hargs]
      · rw [if_neg hret, leaving_node ht, if_neg hret, hargs]

/-- A closure and what is left of it when returns around it are turned around. -/
def Twin (t u : Tree α) : Prop := u = t ∨ ∃ mark args, t = node mark .proc args ∧
  u = node mark .proc (args.map leaving)

theorem operand_leaving (args : List (Tree α)) (i : Nat) :
    ((args.map leaving)[i]?).getD (leaf .nil) = ((args[i]?).getD (leaf .nil)).leaving := by
  rw [List.getElem?_map]
  cases args[i]? with
  | none => exact (leaving_leaf _).symm
  | some t => rfl

theorem closureNames_leaving (args : List (Tree α)) :
    closureNames (args.map leaving) = closureNames args := by
  rw [closureNames, operand_leaving, paramNames_leaving, closureNames]

theorem closureBody_leaving (args : List (Tree α)) :
    closureBody .proc (args.map leaving) = closureBody .proc args := by
  rw [closureBody, closureBody, if_pos rfl, if_pos rfl, operand_leaving, leaving_leaving]

/-- Turning returns around changes no closure but for the returns in its body. -/
theorem closures_leaving (t : Tree α) : List.Forall₂ Twin t.closures t.leaving.closures := by
  have hrefl (t : Tree α) : List.Forall₂ Twin t.closures t.closures :=
    List.forall₂_same.mpr fun _ _ => .inl rfl
  induction t with
  | leaf a => rw [leaving_leaf]; exact hrefl _
  | node mark tag args ih =>
    have heach : ∀ ts : List (Tree α), (∀ t ∈ ts, t ∈ args) →
        List.Forall₂ Twin (ts.flatMap closures) ((ts.map leaving).flatMap closures) := by
      intro ts
      induction ts with
      | nil => intro _; exact .nil
      | cons t ts ihts =>
        intro hts
        rw [List.forall_mem_cons] at hts
        rw [List.map_cons, List.flatMap_cons, List.flatMap_cons]
        exact List.rel_append (ih t hts.1) (ihts hts.2)
    cases ht : keepsReturns tag with
    | true => rw [leaving_kept ht]; exact hrefl _
    | false =>
      rw [leaving_node ht]
      have hs : tag ≠ .sexp := by rintro rfl; cases ht
      cases hc : tag.isClosure with
      | true =>
        obtain rfl : tag = .proc := by cases tag <;> simp_all [keepsReturns, Tag.isClosure]
        rw [if_neg (by decide), closures_closure hc, closures_closure hc, ← List.map_drop]
        exact .cons (.inr ⟨mark, args, rfl, rfl⟩) (heach _ fun t => List.mem_of_mem_drop)
      | false =>
        have hs' : (if tag = .ret then Tag.preturn else tag) ≠ .sexp := by split <;> simp_all
        have hc' : (if tag = .ret then Tag.preturn else tag).isClosure = false := by
          split
          · rfl
          · exact hc
        rw [closures_node hs hc, closures_node hs' hc']
        exact heach args fun _ => id

theorem closures_closureBody (tag : Tag) (hlen : args.length ≤ 2) :
    List.Forall₂ Twin ((args.drop 1).flatMap closures) (closureBody tag args).closures := by
  have hbody : (args.drop 1).flatMap closures = ((args[1]?).getD (leaf .nil)).closures := by
    obtain _ | ⟨params, _ | ⟨body, _ | ⟨other, rest⟩⟩⟩ := args
    · simp
    · simp
    · simp
    · simp at hlen
  rw [hbody, closureBody]
  split
  · exact closures_leaving _
  · exact List.forall₂_same.mpr fun _ _ => .inl rfl

end

/-- Where no closure is found, there is none outside lowered code. -/
theorem not_closure_of_within {t : Tree Mark} (h : t.closures = [])
    (hu : node mark tag args ∈ t.within (· == .sexp)) : tag.isClosure = false := by
  induction t with
  | leaf a => simp [within] at hu
  | node mark' tag' args' ih =>
    rw [within_node, List.mem_cons] at hu
    cases hc : tag'.isClosure with
    | true =>
      rw [closures_closure hc] at h
      cases h
    | false =>
      rcases hu with hu | hu
      · cases hu
        exact hc
      · by_cases hs : tag' = .sexp
        · simp [hs] at hu
        · rw [closures_node hs hc, List.flatMap_eq_nil_iff] at h
          rw [if_neg (by simpa using hs)] at hu
          obtain ⟨s, hs, hu⟩ := List.mem_flatMap.mp hu
          exact ih s hs (h s hs) hu

theorem gathers_within : Gathers (within fun _ => false) := by
  intro mark tag args
  rw [within_node, if_neg (by simp)]
  exact List.sublist_cons_self _ _

/-- The number of a node. -/
def number? : Tree Mark → Option Int
  | leaf _ => none
  | node mark _ _ => some mark.id

/-- The nodes of a tree are its root and the operands of its nodes. -/
theorem within_perm (t : Tree Mark) : ((t.within fun _ => false).map root).Perm
    (t.number?.toList ++ (t.within fun _ => false).flatMap fun u =>
      u.operands.filterMap number?) := by
  induction t with
  | leaf a => simp [within, number?]
  | node mark tag args ih =>
    have heach : ∀ ts : List (Tree Mark), (∀ t ∈ ts, t ∈ args) →
        ((ts.flatMap (within fun _ => false)).map root).Perm (ts.filterMap number? ++
          (ts.flatMap (within fun _ => false)).flatMap fun u => u.operands.filterMap number?) := by
      intro ts
      induction ts with
      | nil => intro _; exact .refl _
      | cons t ts ihts =>
        intro hts
        rw [List.forall_mem_cons] at hts
        have hboth := (ih t hts.1).append (ihts hts.2)
        rw [List.flatMap_cons, List.map_append, List.flatMap_append]
        refine hboth.trans ?_
        have hcons : (t :: ts).filterMap number? = t.number?.toList ++ ts.filterMap number? := by
          rw [List.filterMap_cons]
          cases t.number? <;> rfl
        rw [hcons, List.append_assoc, List.append_assoc]
        refine List.Perm.append_left _ ?_
        rw [← List.append_assoc, ← List.append_assoc]
        exact List.Perm.append_right _ List.perm_append_comm
    rw [within_node, if_neg (by simp), List.map_cons, List.flatMap_cons]
    exact (heach args fun _ => id).cons mark.id

/-- The function that a node assigns to the name for new closures. -/
def procValue? : Tree Mark → Option Int
  | node _ .assign [leaf (.sym name), value] =>
    if name = Pass.Environment.tmpProcName then value.number? else none
  | _ => none

/-- What is assigned to the name for new closures anywhere in a tree. -/
def procValues (t : Tree Mark) : List Int := (t.within fun _ => false).filterMap procValue?

theorem procValue?_mem {u : Tree Mark} (h : u.procValue? = some x) :
    x ∈ u.operands.filterMap number? := by
  unfold procValue? at h
  split at h
  · split at h
    · exact List.mem_filterMap.mpr ⟨_, List.mem_cons_of_mem _ List.mem_cons_self, h⟩
    · cases h
  · cases h

/-- No function is assigned twice. -/
theorem procValues_nodup {t : Tree Mark} (h : t.ids.Nodup) : t.procValues.Nodup := by
  have hroots : (((t.within fun _ => false).map root)).Nodup := h.sublist (within_ids t)
  have hbelow := ((within_perm t).nodup_iff.mp hroots).of_append_right
  have hsub : ∀ ts : List (Tree Mark), (ts.filterMap procValue?).Sublist
      (ts.flatMap fun u => u.operands.filterMap number?) := by
    intro ts
    induction ts with
    | nil => exact .slnil
    | cons u ts ih =>
      rw [List.flatMap_cons, List.filterMap_cons]
      split
      · exact ih.trans (List.sublist_append_right _ _)
      · next x hx =>
        rw [← List.singleton_append]
        exact (List.singleton_sublist.mpr (procValue?_mem hx)).append ih
  exact hbelow.sublist (hsub _)

end Tree

namespace Pass.Closures

open Environment

variable {stem : Text} {k : Nat} {t t' : Tree Mark} {ts ts' nodes others : List (Tree Mark)}
variable {fs : List (Int × Text)} {p : Int × Text}

/-- A closure has become a function with a label: among some nodes is, in the place of the closure,
the one that assigns the function and makes a closure object of it. -/
inductive BecomesFunction (stem : Text) (nodes : List (Tree Mark)) :
    Tree Mark → Int × Text → Prop where
  | intro {k : Nat} {args : List (Tree Mark)} {fs : List (Int × Text)} {tag : Tag} {label : Text}
      {store params body make : Tree Mark} (mark assign function : Mark)
      (store_shape : store.shape = frameStore)
      (params_shape : params.shape = functionParams (Tree.closureNames args))
      (make_shape : make.shape = procCall (Tree.closureNames args).length)
      (body_hoists : Hoists stem k [Tree.closureBody tag args] [body] fs)
      (place : .node mark .block [store, .node assign .assign [.leaf (.sym tmpProcName),
        .node function .defun [.leaf (.sym label), params, body]], make] ∈ nodes) :
      BecomesFunction stem nodes (.node mark tag args) (function.id, label)

theorem BecomesFunction.mono (h : BecomesFunction stem nodes t p) (hsub : ∀ u ∈ nodes, u ∈ others) :
    BecomesFunction stem others t p := by
  obtain ⟨mark, assign, function, hstore, hparams, hmake, hbody, hplace⟩ := h
  exact ⟨mark, assign, function, hstore, hparams, hmake, hbody, hsub _ hplace⟩

theorem BecomesFunction.twin (h : BecomesFunction stem nodes t' p) (ht : t.Twin t') :
    BecomesFunction stem nodes t p := by
  obtain rfl | ⟨mark, args, rfl, rfl⟩ := ht
  · exact h
  · cases h with | intro _ assign function hstore hparams hmake hbody hplace =>
    rw [Tree.closureNames_leaving] at hparams hmake
    rw [Tree.closureBody_leaving] at hbody
    exact ⟨mark, assign, function, hstore, hparams, hmake, hbody, hplace⟩

theorem BecomesFunction.twins (h : List.Forall₂ (BecomesFunction stem nodes) ts' fs)
    (hts : List.Forall₂ Tree.Twin ts ts') : List.Forall₂ (BecomesFunction stem nodes) ts fs := by
  induction hts generalizing fs with
  | nil => exact h
  | cons ht _ ih =>
    cases h with
    | cons hhead hrest => exact .cons (hhead.twin ht) (ih hrest)

theorem BecomesFunction.mem_procValues (h : BecomesFunction stem (t'.within fun _ => false) t p) :
    p.1 ∈ t'.procValues := by
  obtain ⟨mark, assign, function, -, -, -, -, hplace⟩ := h
  refine ((Tree.gathers_within.within hplace).filterMap _).subset (List.mem_filterMap.mpr ?_)
  refine ⟨_, Tree.mem_nodes_operand (List.mem_cons_of_mem _ List.mem_cons_self)
    Tree.self_mem_nodes, ?_⟩
  simp [Tree.procValue?, Tree.number?]

namespace Hoists

/-- The functions are those of the closures, in their order. -/
theorem converted (h : Hoists stem k ts ts' fs) : List.Forall₂
    (BecomesFunction stem (ts'.flatMap (Tree.within fun _ => false)))
    (ts.flatMap Tree.closures) fs := by
  induction h with
  | nil k => exact .nil
  | leaf a _ ih => simpa [Tree.within] using ih
  | lowered mark args _ ih =>
    rw [List.flatMap_cons, List.flatMap_cons, Tree.closures_sexp, List.nil_append]
    exact ih.imp fun _ _ h => h.mono fun u hu => List.mem_append_right _ hu
  | node mark hs hc _ _ ihargs ih =>
    rw [List.flatMap_cons, List.flatMap_cons, Tree.closures_node hs hc]
    refine List.rel_append (ihargs.imp fun _ _ h => h.mono fun u hu => ?_)
      (ih.imp fun _ _ h => h.mono fun u hu => List.mem_append_right _ hu)
    rw [Tree.within_node]
    exact List.mem_append_left _ (List.mem_cons_of_mem _ (by simpa using hu))
  | @closure k ts ts' args fs gs tag store params body make mark assign function hc hlen hstore
      hparams
      inner hmake _ ihinner ih =>
    have hin : ∀ u ∈ body.within fun _ => false, u ∈ (Tree.node mark .block [store,
        .node assign .assign [.leaf (.sym tmpProcName), .node function .defun
          [.leaf (.sym (labelOf stem (k + 1))), params, body]], make]).within fun _ => false := by
      intro u hu
      have hdefun : u ∈ (Tree.node function .defun
          [.leaf (.sym (labelOf stem (k + 1))), params, body]).within fun _ => false :=
        Tree.mem_nodes_operand (by simp) hu
      exact Tree.mem_nodes_operand (List.mem_cons_of_mem _ List.mem_cons_self)
        (Tree.mem_nodes_operand (List.mem_cons_of_mem _ List.mem_cons_self) hdefun)
    rw [List.flatMap_cons, List.flatMap_cons, Tree.closures_closure hc, List.cons_append,
      List.cons_append]
    refine .cons ⟨mark, assign, function, hstore, hparams, hmake, inner, ?_⟩ (List.rel_append ?_ ?_)
    · rw [Tree.within_node]
      exact List.mem_append_left _ List.mem_cons_self
    · -- The closures in the body are those that the walk finds in it, but for their returns.
      refine BecomesFunction.twins ?_ (Tree.closures_closureBody tag hlen)
      rw [List.flatMap_singleton, List.flatMap_singleton] at ihinner
      exact ihinner.imp fun _ _ h => h.mono fun u hu => List.mem_append_left _ (hin u hu)
    · exact ih.imp fun _ _ h => h.mono fun u hu => List.mem_append_right _ hu

/-- Functions get labels with the next numbers. -/
theorem labels (h : Hoists stem k ts ts' fs) :
    fs.map Prod.snd = (List.range' (k + 1) fs.length).map (labelOf stem) := by
  induction h with
  | nil k => rfl
  | leaf a _ ih => exact ih
  | lowered mark args _ ih => exact ih
  | @node k _ _ _ _ fs gs _ mark hs hc _ _ ihargs ih =>
    rw [List.map_append, ihargs, ih, List.length_append, ← List.map_append,
      show k + fs.length + 1 = k + 1 + fs.length by omega, List.range'_append_1]
  | @closure k _ _ _ fs gs _ _ _ _ _ mark assign function _ _ _ _ _ _ _ ihinner ih =>
    rw [List.cons_append, List.map_cons, List.map_append, ihinner, ih, ← List.map_append,
      show k + 1 + fs.length + 1 = k + 1 + 1 + fs.length by omega, List.range'_append_1,
      List.length_cons, List.length_append, List.range'_succ, List.map_cons]

/-- No closure is left. -/
theorem none_left (h : Hoists stem k ts ts' fs) : ts'.flatMap Tree.closures = [] := by
  induction h with
  | nil k => rfl
  | leaf a _ ih => simpa using ih
  | lowered mark args _ ih => rw [List.flatMap_cons, Tree.closures_sexp, ih, List.append_nil]
  | node mark hs hc _ _ ihargs ih =>
    rw [List.flatMap_cons, Tree.closures_node hs hc, ihargs, ih, List.append_nil]
  | closure mark assign function _ _ hstore hparams _ hmake _ ihinner ih =>
    rw [List.flatMap_singleton] at ihinner
    rw [List.flatMap_cons, ih, List.append_nil, Tree.closures_node (by decide) rfl]
    simp only [List.flatMap_cons, List.flatMap_nil, Tree.closures_eq_nil hstore rfl,
      Tree.closures_eq_nil hmake rfl, Tree.closures_eq_nil hparams (closures_functionParams _),
      ihinner, Tree.closures_node (show Tag.assign ≠ .sexp by decide) rfl, Tree.closures_leaf,
      Tree.closures_node (show Tag.defun ≠ .sexp by decide) rfl, List.append_nil]

end Hoists

end Pass.Closures

/-- Labels with different numbers differ. -/
theorem labelOf_injective (stem : Text) : Function.Injective (labelOf stem) := by
  intro i j h
  have hbytes : stem.bytes ++ (Decimal.ofNat i).bytes = stem.bytes ++ (Decimal.ofNat j).bytes :=
    congrArg Text.bytes h
  exact Decimal.ofNat_injective (congrArg Text.mk (List.append_cancel_left hbytes))

theorem Register.Distinct.next_nodup {r : Register} (h : r.Distinct) (count : Nat) :
    (r.given ++ (List.range' (r.labels + 1) count).map (labelOf r.stem)).Nodup := by
  refine h.names.append ((List.nodup_range' (h := Nat.one_pos)).map (labelOf_injective _))
    fun name hold hnew => ?_
  obtain ⟨m, hm, rfl⟩ := h.numbered name hold
  obtain ⟨k, hk, heq⟩ := List.mem_map.mp hnew
  have hle := (List.mem_range'_1.mp hk).1
  have : k = m := labelOf_injective _ heq
  omega

/-- The functions on record have their names. -/
theorem Registered.names (hr : Registered r c) :
    List.Forall₂ (Pipeline.Names c.forest) c.hoisted (r.functions.map Prod.snd) := by
  rw [hr.hoisted, List.forall₂_map_left_iff, List.forall₂_map_right_iff, List.forall₂_same]
  intro p hp
  obtain ⟨n, hn⟩ := hr.functions p.1 ⟨p.2, hp⟩
  exact ⟨n, hn, (hr.nodes p.1 n hn).name p.2 hp⟩

namespace Pipeline

theorem Worked.after (h : Worked options roots c) (hroot : root ∈ roots) (calls : List Call) :
    Worked options roots (after root calls c) := by
  induction calls generalizing c with
  | nil => exact h
  | cons call calls ih => exact ih (h.call hroot call)

theorem worked_of_parse (h : Forest.parse file source = .ok (f, root)) (options : Options) :
    Worked options [root] (Context.ofForest f options) :=
  .read .start (Forest.parse_ok.mp h)

open Pass.Closures in
/-- Whatever has been asked of the passes before, a run of the pass that makes functions of closures
puts one function on record for each closure, in their order. Their labels are new and differ. Each
function is assigned in one place of the tree, where its closure was, and no closure is left outside
lowered code. -/
theorem closures_hoisted {file source : Text} {f : Forest} {root : Int} {options : Options}
    {c c' : Context} {u : Unit} (calls : List Call)
    (hparse : Forest.parse file source = .ok (f, root))
    (hc : c = after root calls (Context.ofForest f options))
    (hrun : Pass.lambda.run root c = .ok u c') :
    ∃ t t' functions names, c.forest.tree root = .ok t ∧ c'.forest.tree root = .ok t' ∧
      Hoists c.options.labelStem c.labels [t] [t'] functions ∧
      c'.hoisted = c.hoisted ++ functions.map Prod.fst ∧
      List.Forall₂ (BecomesFunction c.options.labelStem
        (t'.within fun _ => false)) t.closures functions ∧
      (∀ p ∈ functions, t'.procValues.count p.1 = 1) ∧
      List.Forall₂ (Names c.forest) c.hoisted names ∧
      (c.literals.entries.map (·.label) ++ names ++ functions.map Prod.snd).Nodup ∧
      ∀ mark tag args, .node mark tag args ∈ t'.within (· == .sexp) → tag.isClosure = false := by
  subst hc
  have hplanted : Planted root (after root calls (Context.ofForest f options)) :=
    sturdy_planted.after calls (planted_of_parse hparse (Context.ofForest f options))
  have hworked := (worked_of_parse hparse options).after List.mem_cons_self calls
  obtain ⟨r, -, -, hdistinct, hr⟩ := hworked.sorted.labelled
  obtain ⟨U, t, hh⟩ := hplanted.tree
  obtain ⟨b, hwalk⟩ := discard_ok.mp hrun
  obtain ⟨t', hreworks, functions, hhoists, hlist⟩ :=
    (Pass.Closures.rewrites.walk hh (Operand.child?_ref root)).1 b c' hwalk
  have hnodup : t'.ids.Nodup := by simpa using hreworks.bears.nodup
  have hconverted := hhoists.converted
  rw [List.flatMap_singleton, List.flatMap_singleton] at hconverted
  have hnone := hhoists.none_left
  rw [List.flatMap_singleton] at hnone
  refine ⟨t, t', functions, r.functions.map Prod.snd,
    (List.forall₂_cons.mp hh.denotes).1.operandTree (by simpa using hh.nodup),
    (List.forall₂_cons.mp hreworks.bears.denotes).1.operandTree hnodup, hhoists, hlist.hoisted,
    hconverted, ?_, hr.names, ?_, fun mark tag args => Tree.not_closure_of_within hnone⟩
  · intro p hp
    obtain ⟨s, -, hs⟩ := forall₂_mem_left hconverted.flip hp
    exact List.count_eq_one_of_mem (Tree.procValues_nodup hnodup) hs.mem_procValues
  · rw [hhoists.labels, hr.literals, hr.labels, hr.stem]
    exact hdistinct.next_nodup functions.length

/-- Closures in a closure, in a parameter list and in lowered code, and one with no body. -/
def nestedClosures : Text :=
  "(do (f \"s\" (proc (x (y default (lambda () z)))
                 (do (lambda (a) (return a)) (proc () (return x)))))
       (sexp (lambda () b))
       (lambda))"

theorem closures_hoisted_nested : ∃ f root c c' t t', ∃ functions : List (Int × Text),
    Forest.parse "s" nestedClosures = .ok (f, root) ∧
    c = after root [.pass .strings] (Context.ofForest f {}) ∧ c.labels = 1 ∧ c.hoisted = [] ∧
    Pass.lambda.run root c = .ok ⟨⟩ c' ∧ c.forest.tree root = .ok t ∧ c'.forest.tree root = .ok t' ∧
    c'.hoisted = functions.map Prod.fst ∧ functions.length = 4 ∧ t.closures.length = 4 ∧
    (∀ p ∈ functions, t'.procValues.count p.1 = 1) ∧
    (c.literals.entries.map (·.label) ++ functions.map Prod.snd).Nodup := by
  have hrun : testRun "s" nestedClosures
      (fun f root => Pass.lambda.run root (after root [.pass .strings] (.ofForest f {})))
      (fun f root c' => let c := after root [.pass .strings] (.ofForest f {})
        c.labels = 1 ∧ c.hoisted = [] ∧ c'.hoisted.length = 4) = true := by decide +kernel
  obtain ⟨f, root, ⟨⟩, c', hparse, hlambda, hrun⟩ := of_testRun hrun
  obtain ⟨hlabels, hhoisted, hcount⟩ := of_decide_eq_true hrun
  obtain ⟨t, t', functions, names, ht, ht', -, hrecord, hconverted, honce, hnames, hnodup, -⟩ :=
    closures_hoisted [.pass .strings] hparse rfl hlambda
  rw [hhoisted] at hnames
  cases hnames
  rw [hhoisted, List.nil_append] at hrecord
  have hfour : functions.length = 4 := by rw [← hcount, hrecord, List.length_map]
  exact ⟨f, root, _, c', t, t', functions, hparse, rfl, hlabels, hhoisted, hlambda, ht, ht',
    hrecord, hfour, hconverted.length_eq.trans hfour, honce, by simpa using hnodup⟩

end Pipeline

end Lowering
