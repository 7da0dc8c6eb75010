import Lowering.Proofs.OutputFunctions
import Lowering.Proofs.TreePreservation

namespace Lowering

open Forest PassM

namespace Pass

/-- A node of a form that code generation knows, with operands that it accepts. -/
structure FullyLowered (f : Forest) (n : Node) : Prop where
  form : n.tag ≠ .concat ∧ n.tag ≠ .range ∧ n.tag ≠ .yield ∧ n.tag ≠ .lambda ∧ n.tag ≠ .proc ∧
    ∀ o, n.tag ≠ .op o
  call : n.tag = .call → (n.arg 0).view ≠ .atom (.sym "yield")
  strings : n.tag ≠ .sexp → ∀ v ∈ n.args, ∀ text, v.view ≠ .atom (.str text)
  ints : n.tag ≠ .sexp → ∀ i v value, n.args[i]? = some v → v.view = .atom (.int value) →
    n.tag = .index ∧ i = 1
  target : n.tag = .assign → ∀ t d, (n.arg 0).view = .child t → f.get? t = some d →
    d.tag ≠ .destruct

section Trees

variable {f : Forest} {n : Node} {v : Operand} {t : Tree Mark} {args : List (Tree Mark)} {id : Int}

theorem denotes_getElem? (h : List.Forall₂ (Denotes f) n.args args) (hi : args[i]? = some t) :
    ∃ v, n.args[i]? = some v ∧ n.arg i = v ∧ Denotes f v t := by
  obtain ⟨hlt, rfl⟩ := List.getElem?_eq_some_iff.mp hi
  have hlt' : i < n.args.length := h.length_eq ▸ hlt
  have hget := List.getElem?_eq_getElem hlt'
  exact ⟨_, hget, by rw [Node.arg, hget]; rfl, h.get hlt' hlt⟩

theorem desugared_of_settled (h : SettledBy normalizing f n)
    (hargs : List.Forall₂ (Denotes f) n.args args) : Tree.Desugared true n.tag args where
  form := by
    have hc := h .concat (by simp [normalizing])
    have hr := h .range (by simp [normalizing])
    have ho := h .operators (by simp [normalizing])
    have hy := (h .yield (by simp [normalizing])).1
    refine ⟨hc, hr, hy, fun o hop => ?_⟩
    simp [Settled, hop, Tag.isOperator] at ho
  closure := nofun
  call ht hfirst := by
    obtain ⟨v, -, hv, hd⟩ := denotes_getElem? (i := 0) hargs (List.head?_eq_getElem? ▸ hfirst)
    have hno := ((h .yield (by simp [normalizing])).2 ht).2.2
    obtain ⟨hs, htext⟩ := Operand.view_eq_sym.mp (show v.view = _ from hd)
    simp [hv, Operand.is, hs, htext] at hno
  strings hs text hmem := by
    obtain ⟨v, hv, hd⟩ := forall₂_mem_left hargs.flip hmem
    have hno := h .strings (by simp [normalizing]) hs v hv
    simp [(Operand.view_eq_str.mp (show v.view = _ from hd)).1] at hno
  ints hs i value hi := by
    obtain ⟨v, hv, -, hd⟩ := denotes_getElem? hargs hi
    have hno := h .ints (by simp [normalizing]) hs v (List.mem_of_getElem? hv)
    simp [(Operand.view_eq_int.mp (show v.view = _ from hd)).1] at hno
  target ht mark as hfirst := by
    obtain ⟨v, -, hv, hd⟩ := denotes_getElem? (i := 0) hargs (List.head?_eq_getElem? ▸ hfirst)
    obtain ⟨hchild, m, hm, htag, -⟩ := denotes_node.mp hd
    exact (h .destruct (by simp [normalizing]) ht).2 mark.id m
      (by rw [hv]; exact Operand.view_eq_child.mp hchild) hm htag

theorem desugaredBelow_of_settled (h : Clear (SettledBy normalizing) f id) (hv : v.child? = some id)
    (hd : Denotes f v t) : t.DesugaredBelow true := by
  induction t generalizing v id with
  | leaf a => exact .leaf a
  | node mark tag args ih =>
    obtain ⟨hview, n, hn, rfl, -, hargs⟩ := denotes_node.mp hd
    obtain rfl : id = mark.id := Option.mem_unique hv (Operand.view_eq_child.mp hview)
    obtain ⟨m, hm, hset, hbelow⟩ := selfContained_clear _ f _ h
    obtain rfl : n = m := Option.mem_unique hn hm
    by_cases hcode : n.tag = .sexp
    · rw [hcode]
      exact .code mark args
    refine .node (desugared_of_settled hset hargs) fun s hs => ?_
    obtain ⟨w, hw, hd⟩ := forall₂_mem_left hargs.flip hs
    cases s with
    | leaf a => exact .leaf a
    | node mark' tag' args' =>
      have hchild := Operand.view_eq_child.mp (denotes_node.mp hd).1
      exact ih _ hs (hbelow hcode _ (List.mem_filterMap.mpr ⟨w, hw, hchild⟩)) hchild hd

theorem denotes_first (h : List.Forall₂ (Denotes f) n.args args)
    (hv : (n.arg 0).view ≠ .atom .nil) : ∃ t, args.head? = some t ∧ Denotes f (n.arg 0) t := by
  unfold Node.arg at hv ⊢
  cases hargs : n.args with
  | nil => exact absurd (by rw [hargs]; rfl) hv
  | cons w ws =>
    rw [hargs] at h
    cases h with
    | cons hd _ => exact ⟨_, rfl, hd⟩

theorem fullyLowered_of_desugared (h : Tree.Desugared false n.tag args)
    (hargs : List.Forall₂ (Denotes f) n.args args) : FullyLowered f n where
  form := by
    have hc := h.closure rfl
    obtain ⟨h1, h2, h3, h4⟩ := h.form
    exact ⟨h1, h2, h3, fun ht => by simp [ht, Tag.isClosure] at hc,
      fun ht => by simp [ht, Tag.isClosure] at hc, h4⟩
  call ht hv := by
    obtain ⟨t, hfirst, hd⟩ := denotes_first hargs (by simp [hv])
    exact h.call ht (hd.leaf_of_view hv ▸ hfirst)
  strings hs v hv text hview := by
    obtain ⟨t, ht, hd⟩ := forall₂_mem_left hargs hv
    exact h.strings hs text (hd.leaf_of_view hview ▸ ht)
  ints hs i v value hv hview := by
    obtain ⟨hlt, rfl⟩ := List.getElem?_eq_some_iff.mp hv
    have hlt' : i < args.length := hargs.length_eq ▸ hlt
    refine h.ints hs i value ?_
    rw [List.getElem?_eq_getElem hlt']
    exact congrArg some ((hargs.get hlt hlt').leaf_of_view hview)
  target ht x d hview hd htag := by
    obtain ⟨t, hfirst, ht'⟩ := denotes_first hargs (by simp [hview])
    cases t with
    | leaf a => cases hview.symm.trans ht'
    | node mark tag as =>
      obtain ⟨hchild, m, hm, rfl, -⟩ := denotes_node.mp ht'
      obtain rfl : x = mark.id := Operand.View.child.inj (hview.symm.trans hchild)
      obtain rfl : m = d := Option.mem_unique hm hd
      exact h.target ht mark as (htag ▸ hfirst)

theorem clear_of_desugaredBelow (hd : Denotes f v t) (ht : t.DesugaredBelow false)
    (hv : v.child? = some id) : Clear FullyLowered f id := by
  refine ⟨fun x => ∃ v t, v.child? = some x ∧ Denotes f v t ∧
    t.DesugaredBelow false, ?_, v, t, hv, hd, ht⟩
  rintro x ⟨v, t, hv, hd, ht⟩
  cases t with
  | leaf a => cases (Operand.view_eq_child.mpr hv).symm.trans (show v.view = _ from hd)
  | node mark tag args =>
    obtain ⟨hview, n, hn, rfl, -, hargs⟩ := denotes_node.mp hd
    obtain rfl : x = mark.id := Option.mem_unique hv (Operand.view_eq_child.mp hview)
    by_cases hcode : n.tag = .sexp
    · exact ⟨n, hn, fullyLowered_of_desugared (hcode ▸ Tree.desugared_code) hargs,
        fun h => absurd hcode h⟩
    obtain ⟨form, each⟩ := ht.operands hcode
    refine ⟨n, hn, fullyLowered_of_desugared form hargs, fun _ child hchild => ?_⟩
    obtain ⟨w, hw, hchild⟩ := List.mem_filterMap.mp hchild
    obtain ⟨s, hs, hd⟩ := forall₂_mem_left hargs hw
    exact ⟨w, s, hchild, hd, each s hs⟩

end Trees

namespace Closures

variable {closures : Bool} {t : Tree Mark} {ts ts' : List (Tree Mark)} {stem : Text} {k : Nat}
variable {fs : List (Int × Text)}

theorem mayReplace_leaving : t.MayReplace t.leaving := by
  cases t with
  | leaf a => exact .inl (Tree.leaving_leaf a)
  | node mark tag args =>
    cases hkeep : Tree.keepsReturns tag with
    | true => exact .inl (Tree.leaving_kept hkeep mark args)
    | false =>
      rw [Tree.leaving_node hkeep]
      split
      · exact Tree.mayReplace_of_ne nofun
      · exact Tree.mayReplace_node ..

theorem desugaredBelow_leaving (h : t.DesugaredBelow closures) :
    t.leaving.DesugaredBelow closures := by
  induction h with
  | leaf a => exact Tree.leaving_leaf a ▸ .leaf a
  | code mark args =>
    exact (Tree.leaving_kept
      (show Tree.keepsReturns .sexp = true from rfl) mark args).symm ▸ .code mark args
  | @node mark tag args form each ih =>
    cases hkeep : Tree.keepsReturns tag with
    | true =>
      rw [Tree.leaving_kept hkeep]
      exact .node form each
    | false =>
      rw [Tree.leaving_node hkeep]
      have hform : Tree.Desugared closures tag (args.map Tree.leaving) :=
        form.fit (List.forall₂_map_right_iff.mpr
          (List.forall₂_same.mpr fun _ _ => mayReplace_leaving))
      refine .node ?_ (List.forall_mem_map.mpr ih)
      split
      · next hret =>
        subst hret
        exact hform.returns
      · exact hform

theorem desugaredBelow_closureBody (tag : Tag) {args : List (Tree Mark)}
    (hargs : ∀ a ∈ args, a.NoConstant) (each : ∀ a ∈ args, a.DesugaredBelow closures) :
    (Tree.closureBody tag args).DesugaredBelow closures ∧
    (Tree.closureBody tag args).NoConstant := by
  rw [Tree.closureBody]
  cases hi : args[1]? with
  | none => split <;> exact ⟨.leaf .nil, Tree.noConstant_nil⟩
  | some body =>
    have hmem := List.mem_of_getElem? hi
    split
    · exact ⟨desugaredBelow_leaving (each body hmem),
        Tree.MayReplace.noConstant mayReplace_leaving (hargs body hmem)⟩
    · exact ⟨each body hmem, hargs body hmem⟩

theorem desugaredBelow_frameStore : frameStore.DesugaredBelow closures := by
  refine .node (Tree.desugared_assign (Tree.noConstant_node ..) (Tree.noConstant_node ..) nofun) ?_
  simp only [List.forall_mem_cons]
  exact ⟨Tree.desugaredBelow_slotForm 0, .node (Tree.desugared_of_noConstant (by simp) nofun) nofun,
    nofun⟩

theorem desugaredBelow_functionParams (names : List Text) :
    (functionParams names).DesugaredBelow closures := by
  refine Tree.desugaredBelow_list fun a ha => ?_
  obtain ha | ha := List.mem_append.mp ha
  · simp only [List.mem_cons, List.not_mem_nil, or_false] at ha
    obtain rfl | rfl | rfl := ha <;> exact ⟨.leaf _, Tree.noConstant_sym _⟩
  · obtain ⟨name, -, rfl⟩ := List.mem_map.mp ha
    exact ⟨Tree.desugaredBelow_namesForm [name, "default", "nil"], Tree.noConstant_node ..⟩

/-- No closure is left, and all is as desugared as it was. -/
theorem Hoists.clean (h : Hoists stem k ts ts' fs) (hts : ∀ t ∈ ts, t.DesugaredBelow true) :
    (∀ t ∈ ts', t.DesugaredBelow false) ∧ List.Forall₂ Tree.MayReplace ts ts' := by
  induction h with
  | nil k => exact ⟨nofun, .nil⟩
  | leaf a _ ih =>
    obtain ⟨hclean, hfits⟩ := ih (List.forall_mem_cons.mp hts).2
    exact ⟨List.forall_mem_cons.mpr ⟨.leaf a, hclean⟩, .cons (.inl rfl) hfits⟩
  | lowered mark args _ ih =>
    obtain ⟨hclean, hfits⟩ := ih (List.forall_mem_cons.mp hts).2
    exact ⟨List.forall_mem_cons.mpr ⟨.code mark args, hclean⟩, .cons (.inl rfl) hfits⟩
  | node mark hs hc _ _ ihargs ih =>
    obtain ⟨hself, hrest⟩ := List.forall_mem_cons.mp hts
    obtain ⟨form, each⟩ := hself.operands hs
    obtain ⟨hargs, hfit⟩ := ihargs each
    obtain ⟨hclean, hfits⟩ := ih hrest
    refine ⟨List.forall_mem_cons.mpr
      ⟨.node { form.fit hfit with closure := fun _ => hc } hargs, hclean⟩,
      .cons (Tree.mayReplace_node ..) hfits⟩
  | @closure k ts ts' args fs gs tag store params body make mark assign function hc hlen hstore
      hparams
      inner hmake _ ihbody ih =>
    obtain ⟨hself, hrest⟩ := List.forall_mem_cons.mp hts
    obtain ⟨form, each⟩ := hself.operands (by rintro rfl; cases hc)
    obtain ⟨hclean, hfits⟩ := ih hrest
    refine ⟨List.forall_mem_cons.mpr ⟨?_, hclean⟩, .cons (Tree.mayReplace_of_ne nofun) hfits⟩
    have hargs := form.noConstant (by rintro rfl; cases hc) (by rintro rfl; cases hc)
    have hbody := desugaredBelow_closureBody tag hargs each
    obtain ⟨hinner, hfit⟩ := ihbody (List.forall_mem_singleton.mpr hbody.1)
    have hinner := List.forall_mem_singleton.mp hinner
    have hno := Tree.MayReplace.noConstant (List.forall₂_cons.mp hfit).1 hbody.2
    have hfunction : (Tree.node function .defun
        [.leaf (.sym (labelOf stem (k + 1))), params, body]).DesugaredBelow false := by
      refine .node (Tree.desugared_of_noConstant (by simp) ?_) ?_ <;>
        simp only [List.forall_mem_cons]
      · exact ⟨Tree.noConstant_sym _, Tree.noConstant_of_shape hparams, hno, nofun⟩
      · exact ⟨.leaf _, Tree.desugaredBelow_of_shape hparams (desugaredBelow_functionParams _),
          hinner, nofun⟩
    have hassign : (Tree.node assign .assign [.leaf (.sym Environment.tmpProcName),
        .node function .defun
          [.leaf (.sym (labelOf stem (k + 1))), params, body]]).DesugaredBelow false := by
      refine .node (Tree.desugared_assign (Tree.noConstant_sym _)
        (Tree.noConstant_node ..) nofun) ?_
      simp only [List.forall_mem_cons]
      exact ⟨.leaf _, hfunction, nofun⟩
    refine .node (Tree.desugared_of_noConstant (by simp) ?_) ?_ <;> simp only [List.forall_mem_cons]
    · exact ⟨Tree.noConstant_of_shape hstore, Tree.noConstant_node ..,
        Tree.noConstant_of_shape hmake, nofun⟩
    · exact ⟨Tree.desugaredBelow_of_shape hstore desugaredBelow_frameStore, hassign,
        Tree.desugaredBelow_of_shape hmake (.code ..), nofun⟩

end Closures

namespace Validate

variable {c c' : Context} {root : Int} {n : Node}

/-- What the final check rejects is a node outside lowered code. -/
theorem run_rejected (h : run root c = .error (.rejected d) c') :
    ∃ id n, c.forest.Outside root id ∧ c.forest.get? id = some n ∧ n.tag ≠ .sexp ∧
      (n.malformed? = some d ∨ ∃ complaint, complaint? n = some complaint ∧
        d = n.diagnostic complaint) := by
  have steers : PassM.Steers (fun _ => visit) (fun c d => c = d)
      (fun c e _ => ∀ d, e = .rejected d → ∃ id n, c.forest.Outside root id ∧
        c.forest.get? id = some n ∧ n.tag ≠ .sexp ∧ (n.malformed? = some d ∨
          ∃ complaint, complaint? n = some complaint ∧ d = n.diagnostic complaint))
      fun _ c => c.forest.Outside root := by
    refine ⟨fun _ => rfl, .trans, fun h he => h ▸ he, fun h hx => h ▸ hx, fun _ _ => nofun,
      fun _ _ _ => nofun, fun {_ c x n} hx hn => ?_, fun {_ c d x n m} hx hn hv hm y hy => ?_⟩
    · obtain ⟨act, -, -, hrun⟩ | ⟨d, hrejected, hwhy, hrun⟩ := visit_cases n <;> rw [hrun c]
      · rfl
      · rintro _ ⟨⟩
        exact ⟨x, n, hx, hn, hrejected, hwhy⟩
    · obtain ⟨act, -, hopen, hrun⟩ | ⟨d, -, -, hrun⟩ :=
        visit_cases n <;> cases (hrun c).symm.trans hv
      obtain rfl := Option.mem_unique hn hm
      exact .operand hx hn (hopen rfl) hy
  have hends := steers.walk c _ .root
  rw [discard_error.mp h] at hends
  exact hends d rfl

/-- On a fully lowered node nothing is unresolved unless it is a `destruct`. -/
theorem complaint_leftOver (hs : n.tag ≠ .sexp) (hn : FullyLowered f n)
    (hc : complaint? n = some complaint) : n.tag = .destruct ∧ complaint = .leftOver := by
  unfold complaint? at hc
  split at hc
  · rename_i hsurface
    obtain ⟨h1, h2, h3, h4, h5, h6⟩ := hn.form
    refine ⟨?_, (Option.some.inj hc).symm⟩
    cases ht : n.tag <;> simp_all [isSurface]
  · split at hc
    · rename_i hcall
      obtain ⟨ht, hyield⟩ := hcall
      obtain ⟨hsym, htext⟩ : (n.arg 0).isSymbol = true ∧ (n.arg 0).text = "yield" := by
        simpa [Operand.is] using hyield
      exact absurd (Operand.view_eq_sym.mpr ⟨hsym, htext⟩) (hn.call ht)
    · obtain ⟨⟨v, i⟩, hmem, hop⟩ := List.exists_of_findSome?_eq_some hc
      have hv : n.args[i]? = some v := by simpa using List.mem_zipIdx_iff_getElem?.mp hmem
      change operandComplaint n.tag v i = some complaint at hop
      unfold operandComplaint at hop
      split at hop
      · exact absurd ‹_› (hn.strings hs v (List.mem_of_getElem? hv) _)
      · rw [if_pos (hn.ints hs i v _ hv ‹_›)] at hop
        cases hop
      · cases hop

end Validate

end Pass

namespace Pipeline

variable {c c' : Context} {root : Int} {u : Unit}

theorem noExports_of_parse (options : Options) (h : Forest.parse file source = .ok (f, root)) :
    (Context.ofForest f options).NoExports := by
  intro x
  change f.exportsAt x = []
  cases hx : f.get? x with
  | none => simp [Forest.exportsAt, hx]
  | some n => rw [Forest.exportsAt, hx, Option.map_some, (Forest.parse_grown h).plain x n hx]; rfl

/-- The state in which the environments are made. -/
theorem prepared {l : List Pass} (hparse : Forest.parse file source = .ok (f, root))
    (hl : ∀ p ∈ l, p ∈ Pass.classes :: Pass.normalizing)
    (h : l.forM (runPass root) (.ofForest f options) = .ok u c) : Planted root c ∧ c.NoExports := by
  have hplain : ∀ {c : Context} {l : List Pass}, (∀ p ∈ l, p ∈ Pass.classes :: Pass.normalizing) →
      Ready root c → c.NoExports → ∀ {d}, l.forM (runPass root) c = .ok u d → d.NoExports := by
    intro c l hl hr hc d h
    induction l generalizing c with
    | nil =>
      obtain ⟨-, rfl⟩ := pure_ok.mp h
      exact hc
    | cons p l ih =>
      obtain ⟨e, hp, h⟩ := forM_cons_ok.mp h
      have hne : p ≠ .env := fun he => absurd (he ▸ hl p List.mem_cons_self) (by decide)
      obtain ⟨grade, hgrade, -⟩ := hr.orderly.surveyed
      obtain ⟨grade1, ho, -⟩ := (Pass.lands_plain hne hgrade hr.root).ok (runPass_ok.mp hp)
      exact ih (fun q hq => hl q (List.mem_cons_of_mem p hq))
        ⟨⟨grade1, ho.graded.toGraded⟩, ho.kept root hr.root⟩ (ho.plain rfl hc) h
  constructor
  · exact (stable_forM sturdy_planted.pass l).ok (planted_of_parse hparse (.ofForest f options)) h
  · exact hplain hl (planted_of_parse hparse (Context.ofForest f options)).ready
      (noExports_of_parse options hparse) h

/-- The passes before the final check, on what the reader accepts. -/
theorem passes_lower {file source : Text} (hparse : Forest.parse file source = .ok (f, root))
    (h : (Pass.all.filter (· ≠ .validate)).forM (runPass root) (.ofForest f options) = .ok u c') :
    Clear Pass.FullyLowered c'.forest root := by
  have split : Pass.all.filter (· ≠ .validate) =
      .classes :: (Pass.normalizing.filter (fun _ => true) ++ [.env, .lambda]) := by decide
  rw [split] at h
  obtain ⟨d, hclasses, h⟩ := forM_cons_ok.mp h
  have hg := parse_grown hparse
  have hd : d.Tidy := Pass.ClassScopes.run_tidy ⟨rfl, hg.ordered.acyclic, hg.ordered.valid⟩
    (runPass_ok.mp hclasses)
  obtain ⟨d1, hnormalizing, h⟩ := forM_append_ok.mp h
  obtain ⟨-, hsettled⟩ := normalizing_settles hd hnormalizing
  have hclear : Clear (Pass.SettledBy Pass.normalizing) d1.forest root := by
    refine clear_iff.mpr fun id ho => ?_
    obtain ⟨n, hn, -⟩ := clear_iff.mp (hsettled .destruct (by decide)) id ho
    refine ⟨n, hn, fun p hp => ?_⟩
    obtain ⟨m, hm, hset⟩ := clear_iff.mp (hsettled p (by simpa using hp)) id ho
    obtain rfl : n = m := Option.mem_unique hn hm
    exact hset
  obtain ⟨hplanted, hplain⟩ := prepared (u := u)
    (l := .classes :: Pass.normalizing.filter fun _ => true) hparse
    (by decide) (forM_cons_ok.mpr ⟨d, hclasses, hnormalizing⟩)
  obtain ⟨U, t, hh⟩ := hplanted.tree
  have hclean := Pass.desugaredBelow_of_settled hclear (Operand.child?_ref root)
    (List.forall₂_cons.mp hh.denotes).1
  obtain ⟨d2, henv, h⟩ := forM_cons_ok.mp h
  have henv := runPass_ok.mp henv
  have hdone := Pass.Environment.concludes_run hh hplanted.ready.orderly (Operand.child?_ref root)
  rw [show Pass.Environment.run root d1 = _ from henv] at hdone
  obtain ⟨t', hr, hended⟩ := hdone
  have hclean' := (hended fun x _ => hplain x).1.clean (by simpa using hr.bears.nodup) hclean
  obtain ⟨d3, hlambda, h⟩ := forM_cons_ok.mp h
  obtain ⟨-, rfl⟩ := pure_ok.mp h
  obtain ⟨b, hwalk⟩ := discard_ok.mp (runPass_ok.mp hlambda)
  obtain ⟨t'', hr', functions, hhoists, -⟩ :=
    (Pass.Closures.rewrites.walk hr.bears (Operand.child?_ref root)).1 b d3 hwalk
  have hlowered := (hhoists.clean (List.forall_mem_singleton.mpr hclean')).1
  exact Pass.clear_of_desugaredBelow (List.forall₂_cons.mp hr'.bears.denotes).1
    (List.forall_mem_singleton.mp hlowered) (Operand.child?_ref root)

/-- The pipeline leaves no surface form behind: after the ten passes before the final check, every
node outside lowered code is fully lowered, and the check can find nothing unresolved but a
`destruct` that is not the target of an assignment. -/
theorem no_surface_form_left {file source : Text} {f : Forest}
    (hparse : Forest.parse file source = .ok (f, root)) (options : Options)
    (h : (Pass.all.filter (· ≠ .validate)).forM (runPass root) (.ofForest f options) = .ok u c') :
    (∀ id n, c'.forest.Outside root id → c'.forest.get? id = some n →
      Pass.FullyLowered c'.forest n) ∧
    ∀ d c'', Pass.Validate.run root c' = .error (.rejected d) c'' →
      d.complaint.kind = .unresolved → ∃ id n, c'.forest.Outside root id ∧
        c'.forest.get? id = some n ∧ n.tag = .destruct ∧ d = n.diagnostic .leftOver ∧
        ∀ x a, c'.forest.Outside root x → c'.forest.get? x = some a → a.tag = .assign →
          (a.arg 0).view ≠ .child id := by
  have hclear := passes_lower hparse h
  have lowered : ∀ id n, c'.forest.Outside root id → c'.forest.get? id = some n →
      Pass.FullyLowered c'.forest n := by
    intro id n ho hn
    obtain ⟨m, hm, hp⟩ := clear_iff.mp hclear id ho
    obtain rfl : n = m := Option.mem_unique hn hm
    exact hp
  refine ⟨lowered, fun d c'' hrun hkind => ?_⟩
  obtain ⟨id, n, ho, hn, hs, hd | ⟨complaint, hcomplaint, rfl⟩⟩ := Pass.Validate.run_rejected hrun
  · rw [Node.malformed?_kind hd] at hkind
    cases hkind
  obtain ⟨htag, rfl⟩ := Pass.Validate.complaint_leftOver hs (lowered id n ho hn) hcomplaint
  refine ⟨id, n, ho, hn, htag, rfl, fun x a hx ha hassign htarget => ?_⟩
  exact (lowered x a hx ha).target hassign id n htarget hn htag

/-- A source with each form that a pass replaces, and with a `destruct` that none does. -/
def allSurfaceForms : Text :=
  "(do (defm f (x) ((assign (destruct a b) (range 1 2)) (lambda (y) (concat \"s\" (+ x 1)))" ++
    " (proc () (return (call yield (a)))))) (destruct p q))"

/-- A run that the final check has refused. -/
def isUnresolved : EStateM.Result PassError Context Unit → Bool
  | .error (.rejected d) _ => d.complaint.kind = .unresolved
  | _ => false

theorem no_surface_form_left_allSurfaceForms : ∃ f root c',
    Forest.parse "all" allSurfaceForms = .ok (f, root) ∧
      (Pass.all.filter (· ≠ .validate)).forM (runPass root) (.ofForest f {}) = .ok () c' ∧
      (∀ id n, c'.forest.Outside root id → c'.forest.get? id = some n →
        Pass.FullyLowered c'.forest n) ∧
      ∃ d c'' id n, Pass.Validate.run root c' = .error (.rejected d) c'' ∧
        c'.forest.Outside root id ∧ c'.forest.get? id = some n ∧ n.tag = .destruct ∧
        d = n.diagnostic .leftOver := by
  have hrun : testRun "all" allSurfaceForms
      (fun f root => (Pass.all.filter (· ≠ .validate)).forM (runPass root) (.ofForest f {}))
      (fun _ root c' => isUnresolved (Pass.Validate.run root c')) = true := by decide +kernel
  obtain ⟨f, root, ⟨⟩, c', hp, hc, hrun⟩ := of_testRun hrun
  obtain ⟨lowered, unresolved⟩ := no_surface_form_left hp {} hc
  cases hv : Pass.Validate.run root c' with
  | ok u c'' => simp [hv, isUnresolved] at hrun
  | error e c'' =>
    cases e with
    | fault | circular => simp [hv, isUnresolved] at hrun
    | rejected d =>
      have hkind : d.complaint.kind = .unresolved := by simpa [hv, isUnresolved] using hrun
      obtain ⟨id, n, ho, hn, ht, hd, -⟩ := unresolved d c'' hv hkind
      exact ⟨f, root, c', hp, hc, lowered, d, c'', id, n, hv, ho, hn, ht, hd⟩

end Pipeline

end Lowering
