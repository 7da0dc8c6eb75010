import Lowering.Proofs.ClosureConversion
import Lowering.Proofs.OutputFunctions

namespace Lowering

open Scope Forest

theorem Tree.mem_ids_node :
    x ∈ (Tree.node mark tag args).ids ↔ x = mark.id ∨ ∃ a ∈ args, x ∈ a.ids := by
  rw [Tree.ids_node, List.mem_cons, List.mem_flatMap]

namespace Pass.Environment

variable {r : Resolver} {around : List Enclosure} {b : Block} {s : Setup} {w : Int64}
variable {d e t t' u : Tree Mark} {ts ts' : List (Tree Mark)}

/-- What the pass has made in a tree: the slot of a key, or something at the start of the `let` of a
closure, where each parameter that the closure shares is copied once. -/
inductive Made (r : Resolver) (t : Tree Mark) : Tree Mark → Prop where
  | slot {u : Tree Mark} {key : Text} {k : Nat} (slot : r.SlotOf key k)
      (made : u.shape = slotForm k) :
      Made r t u
  | body {u params vars : Tree Mark} {mark m : Mark} {tag : Tag} {copies stmts : List (Tree Mark)}
      {shared : List Text} (isClosure : tag.isClosure = true)
      (closure : .node mark tag [params, .node m .letIn (vars :: copies ++ stmts)] ∈
        t.within Tag.isSealed)
      (nodup : shared.Nodup) (copied : List.Forall₂ (fun name s => ∃ k,
        r.SlotOf (exportKey name mark.id) k ∧ s.shape = copyForm k name) shared copies)
      (here : u ∈ .node m .letIn (vars :: copies ++ stmts) :: vars :: copies) : Made r t u

/-- What was made in a part of a tree was made in the tree. -/
theorem Made.mono (h : Made r t u)
    (hsub : ∀ v ∈ t.within Tag.isSealed, v ∈ t'.within Tag.isSealed) : Made r t' u := by
  cases h with
  | slot slot made => exact .slot slot made
  | body isClosure closure nodup copied here =>
    exact .body isClosure (hsub _ closure) nodup copied here

theorem mem_flat (h : t.shape = .node () tag es) (hes : ∀ e ∈ es, ∃ a, e = .leaf a)
    (hu : u ∈ t.within Tag.isSealed) : u = t := by
  obtain ⟨mark, args, rfl, rfl⟩ := Tree.shape_eq_node.mp h
  obtain rfl | ⟨-, s, hs, hu⟩ := Tree.mem_within_node.mp hu
  · rfl
  · obtain ⟨a, ha⟩ := hes _ (List.mem_map_of_mem hs)
    rw [Tree.shape_eq_leaf.mp ha] at hu
    cases hu

theorem mem_slot {k : Nat} (h : t.shape = slotForm k) (hu : u ∈ t.within Tag.isSealed) :
    u.shape = slotForm k := by
  rw [mem_flat h (by simp) hu, h]

theorem mem_names {names : List Text} (h : t.shape = namesForm names)
    (hu : u ∈ t.within Tag.isSealed) : u = t := by
  refine mem_flat h (fun e he => ?_) hu
  obtain ⟨name, -, rfl⟩ := List.mem_map.mp he
  exact ⟨_, rfl⟩

theorem mem_code {es : List (Tree Unit)} (h : t.shape = .node () .sexp es)
    (hu : u ∈ t.within Tag.isSealed) : u = t := by
  obtain ⟨mark, args, rfl, -⟩ := Tree.shape_eq_node.mp h
  obtain rfl | ⟨hno, -⟩ := Tree.mem_within_node.mp hu
  · rfl
  · cases hno

theorem Like.root_mem (h : Like t t') (hu : u ∈ t'.within Tag.isSealed) : u.root ∈ t.ids := by
  induction t generalizing t' with
  | leaf a =>
    cases h
    cases hu
  | node mark tag args ih =>
    cases hs : tag.isSealed with
    | true =>
      have hroot : t' = .node mark tag t'.operands := by cases h <;> rfl
      rw [hroot] at hu
      obtain rfl | ⟨hno, -⟩ := Tree.mem_within_node.mp hu
      · exact Tree.mem_ids_node.mpr (.inl rfl)
      · cases hs.symm.trans hno
    | false =>
      obtain ⟨args', rfl, hargs⟩ := like_open hs h
      obtain rfl | ⟨-, a', ha', hu⟩ := Tree.mem_within_node.mp hu
      · exact Tree.mem_ids_node.mpr (.inl rfl)
      · obtain ⟨a, ha, hlike⟩ := Forest.forall₂_mem_left hargs.flip ha'
        exact Tree.mem_ids_node.mpr (.inr ⟨a, ha, ih a ha hlike hu⟩)

/-- A node of a source is as it was, but for what is made below it. -/
theorem made_node {mark : Mark} {tag tag' : Tag} {args args' : List (Tree Mark)}
    (each : ∀ a' ∈ args', ∃ a ∈ args, ∀ u ∈ a'.within Tag.isSealed, u.root ∉ a.ids → Made r a' u)
    (hu : u ∈ (Tree.node mark tag' args').within Tag.isSealed)
    (hnew : u.root ∉ (Tree.node mark tag args).ids) : Made r (.node mark tag' args') u := by
  obtain rfl | ⟨hopen, a', ha', hu⟩ := Tree.mem_within_node.mp hu
  · exact absurd (Tree.mem_ids_node.mpr (.inl rfl)) hnew
  · obtain ⟨a, ha, hmade⟩ := each a' ha'
    exact (hmade u hu fun h => hnew (Tree.mem_ids_node.mpr (.inr ⟨a, ha, h⟩))).mono
      fun v hv => Tree.mem_within_operand hopen ha' hv

theorem made_each (h : List.Forall₂ (fun t t' => ∀ u ∈ t'.within Tag.isSealed, u.root ∉ t.ids →
    Made r t' u) ts ts') : ∀ t' ∈ ts', ∃ t ∈ ts, ∀ u ∈ t'.within Tag.isSealed, u.root ∉ t.ids →
      Made r t' u := by
  intro t' ht'
  obtain ⟨t, ht, hmade⟩ := Forest.forall₂_mem_left h.flip ht'
  exact ⟨t, ht, hmade⟩

theorem Like.made (h : Like t t') : ∀ u ∈ t'.within Tag.isSealed, u.root ∉ t.ids → Made r t' u :=
  fun _ hu hnew => absurd (h.root_mem hu) hnew

theorem mem_copy {k : Nat} {name : Text} (h : t.shape = copyForm k name)
    (hu : u ∈ t.within Tag.isSealed) : u = t ∨ u.shape = slotForm k := by
  obtain ⟨mark, args, rfl, hshape⟩ := Tree.shape_eq_node.mp h
  obtain ⟨slot, _, rfl, hslot, hrest⟩ := List.map_eq_cons_iff.mp hshape
  obtain ⟨value, _, rfl, hvalue, hnil⟩ := List.map_eq_cons_iff.mp hrest
  obtain rfl := List.map_eq_nil_iff.mp hnil
  obtain rfl := Tree.shape_eq_leaf.mp hvalue
  obtain rfl | ⟨-, s, hs, hin⟩ := Tree.mem_within_node.mp hu
  · exact .inl rfl
  obtain rfl | hs := List.mem_cons.mp hs
  · exact .inr (mem_slot hslot hin)
  · obtain rfl := List.mem_singleton.mp hs
    cases hin

/-- Every node that was not there before was made by the pass. -/
theorem Renamed.made (h : Renamed r around t t') :
    ∀ u ∈ t'.within Tag.isSealed, u.root ∉ t.ids → Made r t' u := by
  refine Renamed.induct (P := fun _ t t' => ∀ u ∈ t'.within Tag.isSealed, u.root ∉ t.ids →
    Made r t' u)
    ?slot ?leaf ?shut ?bare ?closure ?callm ?letIn ?node h
  case slot => exact fun _ slot made u hu _ => .slot slot (mem_slot made hu)
  case leaf => exact fun _ _ hu => nomatch hu
  case shut => exact fun _ like => like.made
  case bare => exact fun hc _ like => Like.made (.node (Tag.isSealed_closure hc) like)
  case closure =>
    intro around mark m tag params params' body names shared vars copies stmts hc _ like _ hvars
      hnodup _
      hcopies each u hu hnew
    have hopen := Tag.isSealed_closure hc
    have hbody : ∀ v ∈ .node m .letIn (vars :: copies ++ stmts) :: vars :: copies,
        Made r (.node mark tag [params', .node m .letIn (vars :: copies ++ stmts)]) v :=
      fun v hv => .body hc Tree.self_mem_nodes hnodup hcopies hv
    obtain rfl | ⟨-, a, ha, hu'⟩ := Tree.mem_within_node.mp hu
    · exact absurd (Tree.mem_ids_node.mpr (.inl rfl)) hnew
    simp only [List.mem_cons, List.not_mem_nil, or_false] at ha
    obtain rfl | rfl := ha
    · refine absurd (Tree.mem_ids_node.mpr (.inr ⟨params, by simp, ?_⟩)) hnew
      exact like.root_mem hu'
    obtain rfl | ⟨-, a, ha, hu''⟩ := Tree.mem_within_node.mp hu'
    · exact hbody _ (by simp)
    simp only [List.cons_append, List.mem_cons, List.mem_append] at ha
    obtain rfl | ha | ha := ha
    · exact hbody _ (by simp [mem_names hvars hu''])
    · obtain ⟨name, -, k, hslot, hshape⟩ := Forest.forall₂_mem_left hcopies.flip ha
      obtain rfl | hmade := mem_copy hshape hu''
      · exact hbody _ (by simp [ha])
      · exact .slot hslot hmade
    · obtain ⟨s, hs, hmade⟩ := made_each each a ha
      have hids : ∀ x ∈ s.ids, x ∈ (Tree.node mark tag [params, body]).ids := fun x hx =>
        Tree.mem_ids_node.mpr (.inr ⟨body, by simp, (Tree.gathers_ids.elems body).subset
          (List.mem_flatMap.mpr ⟨s, hs, hx⟩)⟩)
      refine (hmade u hu'' fun h => hnew (hids _ h)).mono fun v hv => ?_
      have hlet : v ∈ (Tree.node m .letIn (vars :: copies ++ stmts)).within Tag.isSealed :=
        Tree.mem_within_operand rfl (by simp [ha]) hv
      exact Tree.mem_within_operand hopen (List.mem_cons_of_mem _ List.mem_cons_self) hlet
  case callm =>
    intro around mark receiver receiver' method rest rest' first each u
    refine made_node (made_each (.cons first (.cons (fun _ hu => nomatch hu) each)))
  case letIn =>
    intro around mark vars vars' stmts stmts' like each u
    exact made_node (made_each (.cons like.made each))
  case node =>
    intro around mark tag args args' _ _ _ _ each u
    exact made_node (made_each each)

/-- The `let` of a body. The captures are numbered in the order of their first captures, between the
frame and the closure; and what the pass has made is an operand of the `let` that is no slot, or is
made in an operand. -/
structure LaidOut (b : Block) (s : Setup) (operands : List (Tree Mark)) : Prop where
  layout : LetLayout b s operands
  distinct : b.captures.Nodup
  ordered : b.captures =
    ((Resolver.start b.params).captureLog (b.stmts.flatMap events)).eraseDups
  numbered : ∀ key k, SlotOf b.captures key k → k ≤ b.captures.length + 1 ∧
    (k = 0 ↔ key = stackframeName) ∧ (k = b.captures.length + 1 ↔ key = closureName)
  bytes : ∀ n : Int, n = (b.captures.length + 2) * s.wordSize.toInt → -2 ^ 63 ≤ n → n < 2 ^ 63 →
    (s.bytes b.captures).toInt = n
  made : ∀ a ∈ operands, ∀ u ∈ a.within Tag.isSealed, u.root ∉ Tree.idsOf b.stmts →
    (u ∈ operands ∧ ∀ mark args, u ≠ .node mark .index args) ∨ Made b.reading a u

theorem slotOf_numbered (b : Block) {key : Text} {k : Nat} (h : SlotOf b.captures key k) :
    k ≤ b.captures.length + 1 ∧ (k = 0 ↔ key = stackframeName) ∧
      (k = b.captures.length + 1 ↔ key = closureName) := by
  have hordinary := (Resolver.keyed_body b).ordinary
  cases h with
  | frame => exact ⟨by omega, by simp, by simp; decide⟩
  | @capture i key found =>
    have hlt := (List.getElem?_eq_some_iff.mp found).1
    have hkey : isSpecial key = false := hordinary key (List.mem_of_getElem? found)
    refine ⟨by omega, ⟨by omega, fun h => ?_⟩, ⟨by omega, fun h => ?_⟩⟩ <;> subst h <;> cases hkey
  | closure => exact ⟨Nat.le_refl _, by simp; decide, by simp⟩

theorem Setup.toInt_bytes (s : Setup) (captures : List Text) {n : Int}
    (hn : n = (captures.length + 2) * s.wordSize.toInt) (hlow : -2 ^ 63 ≤ n) (hhigh : n < 2 ^ 63) :
    (s.bytes captures).toInt = n := by
  have hcast : ((captures.length + 2 : Nat) : Int) * s.wordSize.toInt = n := by
    push_cast
    exact hn.symm
  rw [Setup.bytes, Int64.toInt_mul, Int64.toInt_ofNat', Int.bmod_mul_bmod, hcast]
  exact Int.bmod_eq_of_le (by simpa using hlow) (by simpa using hhigh)

/-- A `let` lays its environment out. -/
theorem LetLayout.laidOut (h : LetLayout b s ts) : LaidOut b s ts where
  layout := h
  distinct := (Resolver.keyed_body b).nodup
  ordered := Resolver.captures_body b
  numbered _ _ := slotOf_numbered b
  bytes _ := Setup.toInt_bytes s b.captures
  made a ha u hu hnew := by
    have here {tag : Tag} {es : List (Tree Unit)} (h : u = a) (hshape : a.shape = .node () tag es)
        (htag : tag ≠ .index) : u ∈ ts ∧ ∀ mark args, u ≠ .node mark .index args := by
      refine ⟨h ▸ ha, fun mark args heq => htag ?_⟩
      rw [← h, heq, Tree.shape_node] at hshape
      exact (Tree.node.inj hshape).2.1.symm
    obtain ⟨-, declares, collects, starts, out⟩ := h
    obtain hfirst | ha := List.mem_append.mp ha
    · simp only [List.cons_append, List.mem_cons, List.mem_append] at hfirst
      obtain rfl | ha | ha := hfirst
      · exact .inl (here (mem_names declares hu) declares nofun)
      · have hmem := List.mem_map_of_mem (f := Tree.shape) ha
        rw [collects, List.mem_map] at hmem
        obtain ⟨name, -, hform⟩ := hmem
        exact .inl (here (mem_code hform.symm hu) hform.symm nofun)
      · cases starts with
        | absent => cases ha
        | present has allocates _ _ each =>
          obtain rfl | ha := List.mem_cons.mp ha
          · exact .inl (here (mem_code allocates hu) allocates nofun)
          · obtain ⟨name, -, k, hslot, hshape⟩ := forall₂_mem_left each.flip ha
            obtain hself | hmade := mem_copy hshape hu
            · exact .inl (here hself hshape nofun)
            · exact .inr (.slot ⟨has, hslot⟩ hmade)
    · obtain ⟨v, hv, hrenamed⟩ := forall₂_mem_left (renamedEach_iff.mp out).flip ha
      exact .inr (hrenamed.made u hu fun h => hnew (Tree.mem_idsOf.mpr ⟨v, hv, h⟩))

theorem Becomes.mem_definitions {rests : List Int} (h : Becomes rests w d e)
    (hd : d ∈ t.definitions) (he : e ∈ t'.exposed) : e ∈ t'.definitions := by
  obtain ⟨-, -, mark, tag, args, rfl, hf⟩ := Tree.mem_definitions hd
  cases h with
  | intro before =>
    unfold Tree.splatIn at before
    split at before <;> obtain ⟨-, rfl, -⟩ := Tree.node.inj before <;>
      exact List.mem_filter.mpr ⟨he, by simpa using hf⟩

variable {file source : Text} {f : Forest} {root : Int} {options : Options} {c : Context} {v : Unit}

/-- The pass renames and wraps, and does nothing else: each function of the output is what one of
the source has become, and what is outside the functions has stayed or stands in a `let`, too. -/
theorem run_renames (hparse : parse file source = .ok (f, root)) (htree : f.tree root = .ok t)
    (hrun : run root (.ofForest f options) = .ok v c) :
    ∃ t', c.forest.tree root = .ok t' ∧ t'.ids.Nodup ∧ Ended options.withDefaults.wordSize t t' ∧
      ∀ e ∈ t'.definitions, ∃ d ∈ t.definitions,
        Becomes (Tree.restIds t.definitions) options.withDefaults.wordSize d e := by
  obtain ⟨t', hdenotes, hnodup, hended⟩ := (parse_source hparse htree).ended hrun
  exact ⟨t', hdenotes.operandTree hnodup, hnodup, hended, fun e he => hended.becomes hnodup he⟩

/-- Remaining arguments, a parameter and a variable of a function and a parameter of a closure are
captured; and a closure is outside every function. -/
def capturing : Text :=
  "(do (defm f (x (r rest)) ((assign y x) (lambda (z) (lambda () (assign z (r x y))))))
       (lambda () (g)))"

theorem run_renames_capturing : ∃ f root t c t' d e, parse "" capturing = .ok (f, root) ∧
    f.tree root = .ok t ∧ run root (.ofForest f {}) = .ok () c ∧ c.forest.tree root = .ok t' ∧
    Ended 4 t t' ∧ t.HasClosure ∧ d ∈ t.definitions ∧ d.function.captures.length = 4 ∧
    e ∈ t'.definitions ∧ Becomes (Tree.restIds t.definitions) 4 d e := by
  have htest : testFunction capturing (fun t _ d =>
      (∃ u ∈ t.within Tag.isSealed, u.closure?.isSome = true) ∧
        d.function.captures.length = 4) = true := by decide +kernel
  obtain ⟨f, root, t, c, d, hparse, htree, hrun, hd, htest⟩ := of_testFunction htest
  obtain ⟨hclosure, hcaptures⟩ := of_decide_eq_true htest
  obtain ⟨t', htree', -, hended, -⟩ := run_renames hparse htree hrun
  obtain ⟨e, he, hbecomes⟩ := hended.functions d hd
  exact ⟨f, root, t, c, t', d, e, hparse, htree, hrun, htree', hended, hclosure, hd, hcaptures,
    hbecomes.mem_definitions hd he, hbecomes⟩

/-- Every body has its environment laid out: that of each function, and what is outside the
functions if there is a closure. -/
theorem run_lays_out (hparse : parse file source = .ok (f, root)) (htree : f.tree root = .ok t)
    (hrun : run root (.ofForest f options) = .ok v c) :
    ∃ t', c.forest.tree root = .ok t' ∧
      (∀ d ∈ t.definitions, ∃ mark tag name params m operands,
        .node mark tag [name, params, .node m .letIn operands] ∈ t'.definitions ∧ mark.id = d.root ∧
          LaidOut d.function (d.setup options.withDefaults.wordSize) operands) ∧
      (t.HasClosure → ∃ id mark operands, id ∉ t.ids ∧ t' = .node mark .letIn operands ∧
        LaidOut ⟨[], [t.renumbered id]⟩ (topSetup options.withDefaults.wordSize) operands) := by
  obtain ⟨t', hdenotes, hnodup, hended⟩ := (parse_source hparse htree).ended hrun
  refine ⟨t', hdenotes.operandTree hnodup, fun d hd => ?_, fun hclosure => ?_⟩
  · obtain ⟨e, he, hbecomes⟩ := hended.functions d hd
    have hmem := hbecomes.mem_definitions hd he
    have hroot := hbecomes.root
    cases hbecomes with
    | intro before named listed layout => exact ⟨_, _, _, _, _, _, hmem, hroot, layout.laidOut⟩
  · obtain ⟨id, mark, operands, hid, -, htop, hlayout⟩ := hended.top hclosure
    exact ⟨id, mark, operands, hid, htop, hlayout.laidOut⟩

theorem run_lays_out_capturing : ∃ f root t c t' d mark tag name params m operands,
    parse "" capturing = .ok (f, root) ∧ f.tree root = .ok t ∧
    run root (.ofForest f {}) = .ok () c ∧
    c.forest.tree root = .ok t' ∧ d ∈ t.definitions ∧ d.function.captures.length = 4 ∧
    (d.setup 4).restNames = ["r"] ∧ (d.setup 4).bytes d.function.captures = 24 ∧
    .node mark tag [name, params, .node m .letIn operands] ∈ t'.definitions ∧ mark.id = d.root ∧
    LaidOut d.function (d.setup 4) operands := by
  have htest : testFunction capturing (fun _ _ d => d.function.captures.length = 4 ∧
      (d.setup 4).restNames = ["r"] ∧ (d.setup 4).bytes d.function.captures = 24) = true := by
    decide +kernel
  obtain ⟨f, root, t, c, d, hparse, htree, hrun, hd, htest⟩ := of_testFunction htest
  obtain ⟨hcaptures, hrest, hbytes⟩ := of_decide_eq_true htest
  obtain ⟨t', htree', hfunctions, -⟩ := run_lays_out hparse htree hrun
  obtain ⟨mark, tag, name, params, m, operands, hmem, hroot, hlaid⟩ := hfunctions d hd
  exact ⟨f, root, t, c, t', d, mark, tag, name, params, m, operands, hparse, htree, hrun,
    htree', hd, hcaptures, hrest, hbytes, hmem, hroot, hlaid⟩

end Pass.Environment

end Lowering
