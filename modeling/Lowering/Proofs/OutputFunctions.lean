import Lowering.Proofs.DesugaredForms
import Lowering.Proofs.EnvironmentRun

namespace Lowering

namespace Tree

open Pass.Environment

variable {strict : Bool} {ids : List Int} {d s t u : Tree Mark} {mark : Mark} {tag : Tag}
variable {args : List (Tree Mark)} {x : Int}

theorem mem_definitions_node : d ∈ (node mark tag args).definitions ↔
    (d = node mark tag args ∧ (tag = .defm ∨ tag = .defun)) ∨
      tag ≠ .sexp ∧ ∃ s ∈ args, d ∈ s.definitions := by
  simp only [definitions, List.mem_filter, mem_within_node]
  constructor
  · rintro ⟨rfl | ⟨htag, s, hs, hd⟩, hdef⟩
    · exact .inl ⟨rfl, by simpa using hdef⟩
    · exact .inr ⟨by simpa using htag, s, hs, hd, hdef⟩
  · rintro (⟨rfl, hdef⟩ | ⟨htag, s, hs, hd, hdef⟩)
    · exact ⟨.inl rfl, by simpa using hdef⟩
    · exact ⟨.inr ⟨by simpa using htag, s, hs, hd⟩, hdef⟩

theorem definitions_functionFree (h : t.functionFree = true) : t.definitions = [] := by
  refine List.eq_nil_iff_forall_not_mem.mpr fun d => ?_
  induction t with
  | leaf a => exact List.not_mem_nil
  | node mark tag args ih =>
    rw [mem_definitions_node]
    obtain rfl | ⟨hopen, hargs⟩ := functionFree_node.mp h
    · simp
    · rintro (⟨-, rfl | rfl⟩ | ⟨-, s, hs, hd⟩)
      · cases hopen
      · cases hopen
      · exact ih s hs (hargs s hs) hd

theorem definitions_below (h : node mark tag args ∈ t.definitions) (ha : a ∈ args)
    (hd : d ∈ a.definitions) : d ∈ t.definitions := by
  obtain ⟨hin, htag⟩ := List.mem_filter.mp h
  obtain ⟨hd, hdef⟩ := List.mem_filter.mp hd
  refine List.mem_filter.mpr ⟨nodes_trans hin (mem_within_operand ?_ ha hd), hdef⟩
  cases tag <;> first | rfl | simp at htag

/-- The functions that one comes to have the numbers of some others; and what is outside them is
desugared if `strict`. -/
inductive FunctionsAmong (strict : Bool) (ids : List Int) : Tree Mark → Prop where
  | leaf (a : Atom) : FunctionsAmong strict ids (.leaf a)
  | code (mark : Mark) (args : List (Tree Mark)) : FunctionsAmong strict ids (.node mark .sexp args)
  | function {mark : Mark} {tag : Tag} {args : List (Tree Mark)}
      (isFunction : tag = .defm ∨ tag = .defun)
      (known : mark.id ∈ ids) : FunctionsAmong strict ids (.node mark tag args)
  | node {mark : Mark} {tag : Tag} {args : List (Tree Mark)} (isOpen : tag.isSealed = false)
      (form : strict = true → Desugared true tag args)
        (each : ∀ t ∈ args, FunctionsAmong strict ids t) :
      FunctionsAmong strict ids (.node mark tag args)

theorem functionsAmong_open (hopen : tag.isSealed = false) :
    (node mark tag args).FunctionsAmong strict ids ↔
    (strict = true → Desugared true tag args) ∧ ∀ t ∈ args, t.FunctionsAmong strict ids := by
  constructor
  · intro h
    cases h with
    | code => cases hopen
    | function hf =>
      rw [Tag.isSealed_iff.mpr (.inr hf)] at hopen
      cases hopen
    | node _ form each => exact ⟨form, each⟩
  · exact fun h => .node hopen h.1 h.2

theorem functionsAmong_definitions (h : strict = true → t.DesugaredBelow true)
    (hids : ∀ d ∈ t.definitions, d.root ∈ ids) : t.FunctionsAmong strict ids := by
  induction t with
  | leaf a => exact .leaf a
  | node mark tag args ih =>
    by_cases hcode : tag = .sexp
    · subst hcode
      exact .code mark args
    by_cases hf : tag = .defm ∨ tag = .defun
    · exact .function hf (hids _ (mem_definitions_node.mpr (.inl ⟨rfl, hf⟩)))
    have hopen : tag.isSealed = false :=
      Bool.eq_false_iff.mpr fun h => (Tag.isSealed_iff.mp h).elim hcode hf
    refine .node hopen (fun hs => ((h hs).operands hcode).1) fun t ht => ?_
    exact ih t ht (fun hs => ((h hs).operands hcode).2 t ht)
      fun d hd => hids d (mem_definitions_node.mpr (.inr ⟨hcode, t, ht, hd⟩))

theorem functionsAmong_of_shape (h : t.shape = e) (he : e.DesugaredBelow true)
    (hfree : e.functionFree = true) : t.FunctionsAmong strict ids := by
  refine functionsAmong_definitions (fun _ => desugaredBelow_of_shape h he) fun d hd => ?_
  rw [← h, functionFree_shape] at hfree
  exact absurd hd (by rw [definitions_functionFree hfree]; exact List.not_mem_nil)

/-- A tree is desugared if its functions are, and what is outside them. -/
theorem desugaredBelow_of_functionsAmong (h : t.FunctionsAmong true ids)
    (hfun : ∀ d ∈ t.definitions, ∃ mark tag args, d = node mark tag args ∧ Desugared true tag args ∧
      ∀ a ∈ args, a.FunctionsAmong true ids) : t.DesugaredBelow true := by
  induction t with
  | leaf a => exact .leaf a
  | node mark tag args ih =>
    by_cases hcode : tag = .sexp
    · subst hcode
      exact .code mark args
    have below : Desugared true tag args ∧ ∀ a ∈ args, a.FunctionsAmong true ids := by
      cases h with
      | code => exact absurd rfl hcode
      | function hf =>
        obtain ⟨_, _, _, heq, hform⟩ := hfun _ (mem_definitions_node.mpr (.inl ⟨rfl, hf⟩))
        cases heq
        exact hform
      | node _ form each => exact ⟨form rfl, each⟩
    exact .node below.1 fun a ha => ih a ha (below.2 a ha)
      fun d hd => hfun d (mem_definitions_node.mpr (.inr ⟨hcode, a, ha, hd⟩))

theorem Desugared.splat {closures : Bool} (h : Desugared closures tag args) :
    Desugared closures tag (.leaf (.sym splatName) :: args.drop 1) := by
  cases args with
  | nil => exact { h with
      call := fun _ heq => absurd heq (by decide)
      strings := by simp
      ints := fun _ i value hi => by cases i <;> cases hi
      target := by simp }
  | cons a args =>
    refine h.fit (.cons (.inr ⟨noConstant_sym _, by decide, nofun⟩) ?_)
    exact List.forall₂_same.mpr fun _ _ => .inl rfl

theorem mayReplace_graft : MayReplace t (t.graft x splatFirst) := by
  cases t with
  | leaf a => exact .inl rfl
  | node mark tag args =>
    by_cases hid : mark.id = x
    · rw [graft_self hid]
      exact mayReplace_node ..
    · rw [graft_node hid]
      exact mayReplace_node ..

/-- A renamed parameter has the functions in it that it had, and is one if it was. -/
theorem FunctionsAmong.graft (h : t.FunctionsAmong strict ids) :
    (t.graft x splatFirst).FunctionsAmong strict ids := by
  induction h with
  | leaf a => exact .leaf a
  | code mark args =>
    by_cases hid : mark.id = x
    · rw [graft_self hid]
      exact .code _ _
    · rw [graft_node hid]
      exact .code _ _
  | @function mark tag args hf known =>
    by_cases hid : mark.id = x
    · rw [graft_self hid]
      exact .function hf known
    · rw [graft_node hid]
      exact .function hf known
  | @node mark tag args hopen form each ih =>
    by_cases hid : mark.id = x
    · rw [graft_self hid, splatFirst]
      refine .node hopen (fun hs => ?_) fun t ht => ?_
      · exact (form hs).splat
      · obtain rfl | ht := List.mem_cons.mp ht
        · exact .leaf _
        · exact each t (List.mem_of_mem_drop ht)
    · rw [graft_node hid]
      refine .node hopen (fun hs => (form hs).fit ?_) (List.forall_mem_map.mpr ih)
      exact List.forall₂_map_right_iff.mpr (List.forall₂_same.mpr fun _ _ => mayReplace_graft)

theorem FunctionsAmong.elems (h : t.FunctionsAmong strict ids) :
    ∀ s ∈ t.elems, s.FunctionsAmong strict ids := by
  cases t with
  | leaf a =>
    intro s hs
    cases a <;> first | (obtain rfl := List.mem_singleton.mp hs; exact h) | cases hs
  | node mark tag args =>
    by_cases hlist : tag = .list
    · subst hlist
      exact ((functionsAmong_open rfl).mp h).2
    · rw [elems_node hlist]
      exact List.forall_mem_singleton.mpr h

end Tree

namespace Pass.Environment

open Scope

variable {r : Resolver} {around : List Enclosure} {d e t t' : Tree Mark} {ts ts' : List (Tree Mark)}
variable {ids rests : List Int} {b : Block} {s : Setup} {w : Int64} {strict : Bool}

/-- Induction over what is made of a tree, with the same for the trees below it. -/
theorem Renamed.induct {P : List Enclosure → Tree Mark → Tree Mark → Prop}
    (slot : ∀ {around name key k t}, KeyAt around name key → r.SlotOf key k →
      t.shape = slotForm k → P around (.leaf (.sym name)) t)
    (leaf : ∀ {around a}, (∀ name key k, a = .sym name → KeyAt around name key → ¬ r.SlotOf key k) →
      P around (.leaf a) (.leaf a))
    (shut : ∀ {around t t'}, t.isSealed = true → Like t t' → P around t t')
    (bare : ∀ {around mark tag args args'}, tag.isClosure = true →
      (∀ body, args[1]? = some body → body = .leaf .nil) → List.Forall₂ Like args args' →
      P around (.node mark tag args) (.node mark tag args'))
    (closure : ∀ {around mark m tag params params' body names shared vars copies stmts},
      tag.isClosure = true → body ≠ .leaf .nil → Like params params' →
      ⟨mark.id, names, shared⟩ ∈ r.closed → vars.shape = namesForm names → shared.Nodup →
      (∀ name, name ∈ shared ↔ (⟨params.paramNames, body.elems⟩ : Block).Shares name) →
      List.Forall₂ (fun name s => ∃ k, r.SlotOf (exportKey name mark.id) k ∧
        s.shape = copyForm k name) shared copies →
      List.Forall₂ (P (⟨mark.id, params.paramNames, names, shared⟩ :: around)) body.elems stmts →
      P around (.node mark tag [params, body])
        (.node mark tag [params', .node m .letIn (vars :: copies ++ stmts)]))
    (callm : ∀ {around mark receiver receiver' method rest rest'}, P around receiver receiver' →
      List.Forall₂ (P around) rest rest' →
      P around (.node mark .callm (receiver :: .leaf (.sym method) :: rest))
        (.node mark .callm (receiver' :: .leaf (.sym method) :: rest')))
    (letIn : ∀ {around mark vars vars' stmts stmts'}, Like vars vars' →
      List.Forall₂ (P around) stmts stmts' →
      P around (.node mark .letIn (vars :: stmts)) (.node mark .letIn (vars' :: stmts')))
    (node : ∀ {around mark tag args args'}, tag.isSealed = false → tag.isClosure = false →
      tag ≠ .callm → tag ≠ .letIn → List.Forall₂ (P around) args args' →
      P around (.node mark tag args) (.node mark tag args')) (h : Renamed r around t t') :
    P around t t' :=
  @Renamed.rec r (fun around t t' _ => P around t t')
    (fun around ts ts' _ => List.Forall₂ (P around) ts ts')
    slot leaf shut bare
    (fun hc hbody hlike hknown hvars hnodup hshares hfills _ ih =>
      closure hc hbody hlike hknown hvars hnodup hshares hfills ih)
    (fun _ _ hfirst hrest => callm hfirst hrest) (fun hlike _ ih => letIn hlike ih)
    (fun hopen hc hcall hlet _ ih => node hopen hc hcall hlet ih)
    .nil (fun _ _ hfirst hrest => .cons hfirst hrest) around t t' h

theorem Like.fits (h : Like t t') : t.MayReplace t' := by
  cases h with
  | leaf | code => exact .inl rfl
  | shut | node => exact Tree.mayReplace_node ..

theorem Like.known (h : Like t t') (hk : t.FunctionsAmong strict ids) :
    t'.FunctionsAmong strict ids := by
  induction hk generalizing t' with
  | leaf a =>
    cases h
    exact .leaf a
  | code mark args =>
    cases h with
    | code => exact .code mark args
    | shut | node => exact .code mark _
  | function hf known =>
    cases h with
    | code => exact .code ..
    | shut | node => exact .function hf known
  | node hopen form each ih =>
    obtain ⟨args', rfl, hargs⟩ := like_open hopen h
    refine .node hopen (fun hs => (form hs).fit (hargs.imp fun _ _ => Like.fits)) fun t' ht' => ?_
    obtain ⟨t, ht, hlike⟩ := Forest.forall₂_mem_left hargs.flip ht'
    exact ih t ht hlike

theorem knownEach (hP : ∀ {t t'}, P t t' → t.FunctionsAmong strict ids →
    t'.FunctionsAmong strict ids)
    (h : List.Forall₂ P ts ts') (hk : ∀ t ∈ ts, t.FunctionsAmong strict ids) :
    ∀ t' ∈ ts', t'.FunctionsAmong strict ids := by
  intro t' ht'
  obtain ⟨t, ht, hr⟩ := Forest.forall₂_mem_left h.flip ht'
  exact hP hr (hk t ht)

theorem Renamed.fits (h : Renamed r around t t') : t.MayReplace t' := by
  cases h with
  | slot _ _ made =>
    obtain ⟨mark, args, rfl, -⟩ := Tree.shape_eq_node.mp made
    exact Tree.mayReplace_of_ne nofun
  | leaf => exact .inl rfl
  | shut _ like => exact like.fits
  | bare | closure | callm | letIn | node => exact Tree.mayReplace_node ..

theorem names_functionsAmong {names : List Text} (h : t.shape = namesForm names) :
    t.FunctionsAmong strict ids ∧ t.NoConstant :=
  ⟨Tree.functionsAmong_of_shape h (Tree.desugaredBelow_namesForm names)
    (functionFree_namesForm names), Tree.noConstant_of_shape h⟩

theorem copy_functionsAmong {k : Nat} {name : Text} (h : t.shape = copyForm k name) :
    t.FunctionsAmong strict ids ∧ t.NoConstant :=
  ⟨Tree.functionsAmong_of_shape h (Tree.desugaredBelow_copyForm k name) rfl,
    Tree.noConstant_of_shape h⟩

theorem code_functionsAmong {es : List (Tree Unit)} (h : t.shape = .node () .sexp es) :
    t.FunctionsAmong strict ids ∧ t.NoConstant :=
  ⟨Tree.functionsAmong_of_shape h (.code ..) rfl, Tree.noConstant_of_shape h⟩

/-- The `let` of a body: what is listed first are nodes, and statements are no constants. -/
theorem let_functionsAmong {m : Mark} {firsts : List (Tree Mark)}
    (hfirsts : ∀ t ∈ firsts, t.FunctionsAmong strict ids ∧ t.NoConstant)
    (hno : strict = true → ∀ t ∈ ts, t.NoConstant)
    (hfits : List.Forall₂ Tree.MayReplace ts ts') (hts' : ∀ t ∈ ts', t.FunctionsAmong strict ids) :
    (Tree.node m .letIn (firsts ++ ts')).FunctionsAmong strict ids := by
  refine .node rfl (fun hs => Tree.desugared_of_noConstant (by simp) ?_) ?_
  · refine List.forall_mem_append.mpr ⟨fun t ht => (hfirsts t ht).2, fun t' ht' => ?_⟩
    obtain ⟨t, ht, hfit⟩ := Forest.forall₂_mem_left hfits.flip ht'
    exact Tree.MayReplace.noConstant hfit (hno hs t ht)
  · exact List.forall_mem_append.mpr ⟨fun t ht => (hfirsts t ht).1, hts'⟩

/-- The elements of an operand of a node are no constants, except in a slot. -/
theorem noConstant_elems {closures : Bool} {tag : Tag} {args : List (Tree Mark)}
    (h : Tree.Desugared closures tag args) (htag : tag ≠ .sexp) (hslot : tag ≠ .index)
    (ht : t ∈ args) (hk : t.FunctionsAmong true ids) : ∀ s ∈ t.elems, s.NoConstant := by
  have hself := h.noConstant htag hslot t ht
  cases t with
  | leaf a =>
    intro s hs
    cases a <;> first | (obtain rfl := List.mem_singleton.mp hs; exact hself) | cases hs
  | node mark tag args =>
    by_cases hlist : tag = .list
    · subst hlist
      exact (((Tree.functionsAmong_open rfl).mp hk).1 rfl).noConstant nofun nofun
    · rw [Tree.elems_node hlist]
      exact List.forall_mem_singleton.mpr hself

/-- Renaming keeps to the functions that there are. -/
theorem Renamed.known (h : Renamed r around t t') :
    t.FunctionsAmong strict ids → t'.FunctionsAmong strict ids := by
  refine (Renamed.induct (P := fun _ t t' =>
    (t.FunctionsAmong strict ids → t'.FunctionsAmong strict ids) ∧ t.MayReplace t')
    ?slot ?leaf ?shut ?bare ?closure ?callm ?letIn ?node h).1
  case slot =>
    intro around name key k t known slot made
    exact ⟨fun _ => Tree.functionsAmong_of_shape made (Tree.desugaredBelow_slotForm k) rfl,
      Renamed.fits (.slot known slot made)⟩
  case leaf => exact fun _ => ⟨id, .inl rfl⟩
  case shut => exact fun _ like => ⟨like.known, like.fits⟩
  case bare =>
    intro around mark tag args args' hc _ like
    exact ⟨Like.known (.node (Tag.isSealed_closure hc) like), Tree.mayReplace_node ..⟩
  case closure =>
    intro around mark m tag params params' body names shared vars copies stmts hc _ like _ hvars _ _
      hcopies ih
    refine ⟨fun hk => ?_, Tree.mayReplace_node ..⟩
    obtain ⟨form, each⟩ := (Tree.functionsAmong_open (Tag.isSealed_closure hc)).mp hk
    simp only [List.forall_mem_cons] at each
    obtain ⟨hparams, hbody, -⟩ := each
    refine .node (Tag.isSealed_closure hc) (fun hs => (form hs).fit (.cons like.fits
      (.cons (Tree.mayReplace_of_ne nofun) .nil))) ?_
    simp only [List.forall_mem_cons]
    have hfirsts : ∀ t ∈ vars :: copies, t.FunctionsAmong strict ids ∧ t.NoConstant := by
      refine List.forall_mem_cons.mpr ⟨names_functionsAmong hvars, fun s hs => ?_⟩
      obtain ⟨name, -, k, -, hshape⟩ := Forest.forall₂_mem_left hcopies.flip hs
      exact copy_functionsAmong hshape
    refine ⟨like.known hparams, let_functionsAmong hfirsts (fun hs => ?_) (ih.imp fun _ _ h => h.2)
      (knownEach And.left ih hbody.elems), nofun⟩
    · subst hs
      exact noConstant_elems (form rfl) (by rintro rfl; cases hc) (by rintro rfl; cases hc)
        (by simp) hbody
  case callm =>
    intro around mark receiver receiver' method rest rest' first each
    refine ⟨fun hk => ?_, Tree.mayReplace_node ..⟩
    rw [Tree.functionsAmong_open rfl] at hk ⊢
    simp only [List.forall_mem_cons] at hk ⊢
    exact ⟨fun hs => (hk.1 hs).fit (.cons first.2 (.cons (.inl rfl) (each.imp fun _ _ h => h.2))),
      first.1 hk.2.1, hk.2.2.1, knownEach And.left each hk.2.2.2⟩
  case letIn =>
    intro around mark vars vars' stmts stmts' like each
    refine ⟨fun hk => ?_, Tree.mayReplace_node ..⟩
    rw [Tree.functionsAmong_open rfl] at hk ⊢
    simp only [List.forall_mem_cons] at hk ⊢
    exact ⟨fun hs => (hk.1 hs).fit (.cons like.fits (each.imp fun _ _ h => h.2)), like.known hk.2.1,
      knownEach And.left each hk.2.2⟩
  case node =>
    intro around mark tag args args' hopen _ _ _ each
    refine ⟨fun hk => ?_, Tree.mayReplace_node ..⟩
    obtain ⟨form, hargs⟩ := (Tree.functionsAmong_open hopen).mp hk
    exact .node hopen (fun hs => (form hs).fit (each.imp fun _ _ h => h.2))
      (knownEach And.left each hargs)

theorem Starts.known (h : Starts b s ts) :
    ∀ t ∈ ts, t.FunctionsAmong strict ids ∧ t.NoConstant := by
  cases h with
  | absent => nofun
  | present _ allocates _ _ each =>
    refine List.forall_mem_cons.mpr ⟨code_functionsAmong allocates, fun t ht => ?_⟩
    obtain ⟨name, -, k, -, hshape⟩ := Forest.forall₂_mem_left each.flip ht
    exact copy_functionsAmong hshape

/-- The `let` of a body has the functions of its statements only. -/
theorem LetLayout.known {m : Mark} (h : LetLayout b s ts)
    (hk : ∀ t ∈ b.stmts, t.FunctionsAmong strict ids)
    (hno : strict = true → ∀ t ∈ b.stmts, t.NoConstant) :
    (Tree.node m .letIn ts).FunctionsAmong strict ids := by
  obtain ⟨-, declares, collects, starts, out⟩ := h
  have hout := renamedEach_iff.mp out
  refine let_functionsAmong ?_ hno (hout.imp fun _ _ => Renamed.fits)
    (knownEach Renamed.known hout hk)
  simp only [List.cons_append, List.forall_mem_cons, List.forall_mem_append]
  refine ⟨names_functionsAmong declares, fun t ht => ?_, starts.known⟩
  have hmem := List.mem_map_of_mem (f := Tree.shape) ht
  rw [collects, List.mem_map] at hmem
  obtain ⟨name, -, hform⟩ := hmem
  exact code_functionsAmong hform.symm

theorem Becomes.known (strict : Bool) (ids : List Int) (h : Becomes rests w (.node mark tag args) e)
    (hf : tag = .defm ∨ tag = .defun) (hform : strict = true → Tree.Desugared true tag args)
    (hk : ∀ a ∈ args, a.FunctionsAmong strict ids) :
    ∃ mark' args', e = .node mark' tag args' ∧ (strict = true → Tree.Desugared true tag args') ∧
      ∀ a ∈ args', a.FunctionsAmong strict ids := by
  have hcode : tag ≠ .sexp ∧ tag ≠ .index := by obtain rfl | rfl := hf <;> exact ⟨nofun, nofun⟩
  have hoperand (i : Nat) : ((Tree.node mark tag args).operand i).FunctionsAmong strict ids ∧
      (strict = true → ((Tree.node mark tag args).operand i).NoConstant ∧
        ∀ s ∈ ((Tree.node mark tag args).operand i).elems, s.NoConstant) := by
    obtain hnil | hi := (Tree.node mark tag args).operand_cases i
    · rw [hnil]
      exact ⟨.leaf .nil, fun _ => ⟨Tree.noConstant_nil, nofun⟩⟩
    · have hmem := List.mem_of_getElem? hi
      refine ⟨hk _ hmem, fun hs => ⟨(hform hs).noConstant hcode.1 hcode.2 _ hmem, ?_⟩⟩
      subst hs
      exact noConstant_elems (hform rfl) hcode.1 hcode.2 hmem (hk _ hmem)
  cases h with
  | @intro mark' m tag' name params body name' params' operands before named listed layout =>
    have hname : tag' = tag ∧ name.FunctionsAmong strict ids ∧
        (strict = true → name.NoConstant) := by
      unfold Tree.splatIn at before
      split at before
      · obtain ⟨-, rfl, hargs⟩ := Tree.node.inj before
        obtain ⟨rfl, -⟩ := List.cons.inj hargs
        exact ⟨rfl, .leaf _, fun _ => Tree.noConstant_sym _⟩
      · cases before
        exact ⟨rfl, (hoperand 0).1, fun hs => ((hoperand 0).2 hs).1⟩
    obtain ⟨rfl, hname, hname'⟩ := hname
    have hparams : (Tree.node mark tag' args).splatParams.FunctionsAmong strict ids ∧
        (strict = true → (Tree.node mark tag' args).splatParams.NoConstant) := by
      unfold Tree.splatParams
      split
      · exact ⟨(hoperand 1).1, fun hs => ((hoperand 1).2 hs).1⟩
      · exact ⟨(hoperand 1).1.graft,
          fun hs => Tree.MayReplace.noConstant Tree.mayReplace_graft ((hoperand 1).2 hs).1⟩
    refine ⟨mark', _, rfl, fun hs => Tree.desugared_of_noConstant ?_ ?_, ?_⟩
    · obtain rfl | rfl := hf <;> simp
    · simp only [List.forall_mem_cons]
      exact ⟨Tree.MayReplace.noConstant named.fits (hname' hs),
        Tree.MayReplace.noConstant listed.fits (hparams.2 hs), Tree.noConstant_node .., nofun⟩
    · simp only [List.forall_mem_cons]
      exact ⟨named.known hname, listed.known hparams.1,
        layout.known (hoperand 2).1.elems fun hs => ((hoperand 2).2 hs).2, nofun⟩

/-- The functions that one comes to from the root are those of the source. -/
theorem Ended.top_functionsAmong (h : Ended w t t')
    (hclean : strict = true → t.DesugaredBelow true) :
    t'.FunctionsAmong strict (t.definitions.map Tree.root) := by
  have hself : t.FunctionsAmong strict (t.definitions.map Tree.root) :=
    Tree.functionsAmong_definitions hclean fun _ => List.mem_map_of_mem
  by_cases hclosure : t.HasClosure
  · obtain ⟨id, mark, operands, -, -, rfl, hlayout⟩ := h.top hclosure
    cases t with
    | leaf a =>
      obtain ⟨u, hu, -⟩ := hclosure
      cases hu
    | node mark tag args =>
      refine hlayout.known (List.forall_mem_singleton.mpr ?_)
        fun _ => List.forall_mem_singleton.mpr (Tree.noConstant_node ..)
      exact (Tree.functionsAmong_open hclosure.isOpen).mpr
        ((Tree.functionsAmong_open hclosure.isOpen).mp hself)
  · exact (h.outside hclosure).known hself

/-- Each function in the end is what a function of the source has become. -/
theorem Ended.becomes (h : Ended w t t') (hd : t'.ids.Nodup) (he : e ∈ t'.definitions) :
    ∃ d ∈ t.definitions, Becomes (Tree.restIds t.definitions) w d e := by
  have known : ∀ s : Tree Mark, (∀ u ∈ s.exposed, u ∈ t'.exposed) →
      s.FunctionsAmong false (t.definitions.map Tree.root) → e ∈ s.definitions →
      ∃ d ∈ t.definitions, Becomes (Tree.restIds t.definitions) w d e := by
    intro s
    induction s with
    | leaf a => exact fun _ _ => nofun
    | node mark tag args ih =>
      intro hin hk he
      have below (hk : ∀ a ∈ args, a.FunctionsAmong false (t.definitions.map Tree.root))
        (htag : tag ≠ .sexp)
          (he : ∃ a ∈ args, e ∈ a.definitions) :
          ∃ d ∈ t.definitions, Becomes (Tree.restIds t.definitions) w d e := by
        obtain ⟨a, ha, he⟩ := he
        exact ih a ha (fun u hu => hin u (Tree.mem_within_operand (by simpa using htag) ha hu))
          (hk a ha) he
      cases hk with
      | code => exact absurd he (by simp [Tree.mem_definitions_node])
      | function hf hid =>
        -- a function of the source has become this one, so that what is below is known, too
        obtain ⟨d, hd', hroot⟩ := List.mem_map.mp hid
        obtain ⟨e', he', hbecomes⟩ := h.functions d hd'
        obtain rfl := Tree.eq_of_same_root hd (hin _ Tree.self_mem_nodes) he'
          (hroot.symm.trans hbecomes.root.symm)
        obtain ⟨rfl, -⟩ | ⟨htag, he⟩ := Tree.mem_definitions_node.mp he
        · exact ⟨d, hd', hbecomes⟩
        obtain ⟨hdin, -, mark', tag', args', rfl, hf'⟩ := Tree.mem_definitions hd'
        obtain ⟨_, _, heq, -, hargs⟩ := hbecomes.known false _ hf' nofun
          fun a ha => Tree.functionsAmong_definitions nofun fun u hu =>
            List.mem_map_of_mem (Tree.definitions_below hd' ha hu)
        cases heq
        exact below hargs htag he
      | node hopen _ each =>
        obtain ⟨-, rfl | rfl⟩ | ⟨htag, he⟩ := Tree.mem_definitions_node.mp he
        · cases hopen
        · cases hopen
        · exact below each htag he
  exact known t' (fun _ => id) (h.top_functionsAmong nofun) he

/-- What is left of a desugared tree is desugared. -/
theorem Ended.clean (h : Ended w t t') (hd : t'.ids.Nodup) (hclean : t.DesugaredBelow true) :
    t'.DesugaredBelow true := by
  refine Tree.desugaredBelow_of_functionsAmong (h.top_functionsAmong fun _ => hclean) fun e he => ?_
  obtain ⟨d, hd', hbecomes⟩ := h.becomes hd he
  obtain ⟨hdin, -, mark, tag, args, rfl, hf⟩ := Tree.mem_definitions hd'
  obtain ⟨form, each⟩ := (hclean.within hdin).operands (by obtain rfl | rfl := hf <;> nofun)
  obtain ⟨mark', args', rfl, hform, hargs⟩ := hbecomes.known true
    (t.definitions.map Tree.root) hf (fun _ => form) fun a ha =>
    Tree.functionsAmong_definitions (fun _ => each a ha) fun u hu =>
      List.mem_map_of_mem (Tree.definitions_below hd' ha hu)
  exact ⟨mark', tag, args', rfl, hform rfl, hargs⟩

end Pass.Environment

end Lowering
