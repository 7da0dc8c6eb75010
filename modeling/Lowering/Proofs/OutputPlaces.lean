import Lowering.Proofs.EnvironmentRun

namespace Lowering

theorem Tree.nodup_renumbered {t : Tree Mark} {id : Int} (h : t.ids.Nodup) (hid : id ∉ t.ids) :
    (t.renumbered id).ids.Nodup := by
  cases t with
  | leaf a => exact h
  | node mark tag args =>
    rw [Tree.ids_node, List.nodup_cons] at h
    rw [Tree.ids_node, List.mem_cons, not_or] at hid
    rw [Tree.renumbered, Tree.ids_node, List.nodup_cons]
    exact ⟨hid.2, h.2⟩

namespace Pass.Environment

open Forest PassM Scope

/-- The operands of the node that an operand is. -/
def operandsOf (f : Forest) (v : Operand) : List Operand :=
  ((v.child?.bind f.get?).map (·.args)).getD []

/-- The last `k` operands. -/
def lastOperands (k : Nat) (vs : List Operand) : List Operand := vs.drop (vs.length - k)

/-- Where the parts of a tree stand in what the pass has made of it. -/
def outParts (f : Forest) : Tree Mark → Operand → List Operand
  | .leaf _, _ => []
  | .node mark tag args, v =>
    match tag with
    | .sexp | .defm | .defun => []
    | .callm => (operandsOf f v).eraseIdx 1
    | .lambda | .proc =>
      lastOperands (Tree.node mark tag args).parts.length
        (operandsOf f ((operandsOf f v)[1]?.getD .nil))
    | .letIn => lastOperands (args.length - 1) (operandsOf f v)
    | _ => operandsOf f v

/-- What stands in the output for a place of a tree. -/
def outAt (f : Forest) : Tree Mark → Operand → List Nat → Option Operand
  | _, v, [] => some v
  | t, v, i :: p => do outAt f (← t.parts[i]?) (← (outParts f t v)[i]?) p

/-- An operand that is a slot of the environment. -/
def IsSlot (f : Forest) (w : Operand) (k : Nat) : Prop :=
  ∃ n, w.child?.bind f.get? = some n ∧ n.tag = .index ∧
    n.args.map Operand.view = [.atom (.sym envName), .atom (.int (Int64.ofNat k))]

instance (f : Forest) (w : Operand) (k : Nat) : Decidable (IsSlot f w k) :=
  decidable_of_iff ((w.child?.bind f.get?).any fun n => n.tag = .index ∧
      n.args.map Operand.view = [.atom (.sym envName), .atom (.int (Int64.ofNat k))]) (by
    rw [Option.any_eq_true]
    simp only [decide_eq_true_eq, IsSlot])

/-- What stands in the output for a place of a block. -/
def blockOutAt (f : Forest) (b : Block) (ws : List Operand) : List Nat → Option Operand
  | [] => none
  | i :: p => do outAt f (← b.stmts[i]?) (← ws[i]?) p

variable {env : List Text} {f : Forest} {v w : Operand} {b : Block} {ws : List Operand} {i k : Nat}
variable {r : Resolver} {around : List Enclosure} {t t' u : Tree Mark} {ts : List (Tree Mark)}

theorem IsSlot.unique (h : IsSlot f w i) (h' : IsSlot f w k) : Int64.ofNat i = Int64.ofNat k := by
  obtain ⟨n, hn, -, hargs⟩ := h
  obtain ⟨m, hm, -, hargs'⟩ := h'
  obtain rfl : n = m := Option.mem_unique hn hm
  simpa using hargs.symm.trans hargs'

theorem IsSlot.congr (h : IsSlot f w i) (hk : Int64.ofNat i = Int64.ofNat k) : IsSlot f w k := by
  obtain ⟨n, hn, ht, hargs⟩ := h
  exact ⟨n, hn, ht, hk ▸ hargs⟩

theorem not_isSlot_of_atom (h : w.view = .atom a) : ¬ IsSlot f w k := by
  intro hw
  obtain ⟨n, hn, -⟩ := hw
  rw [Operand.child?_of_atom h] at hn
  cases hn

theorem lastOperands_append (pre : List Operand) (h : ops.length = k) :
    lastOperands k (pre ++ ops) = ops := by
  unfold lastOperands
  rw [List.length_append, h, Nat.add_sub_cancel, List.drop_left]

theorem operandsOf_node (h : Denotes f v (.node mark tag args)) :
    List.Forall₂ (Denotes f) (operandsOf f v) args := by
  obtain ⟨hview, n, hn, -, -, hargs⟩ := denotes_node.mp h
  have heq : operandsOf f v = n.args := by simp [operandsOf, Operand.view_eq_child.mp hview, hn]
  rwa [heq]

theorem lastOperands_trees (pre : List (Tree Mark))
    (h : List.Forall₂ (Denotes f) vs (pre ++ post)) :
    List.Forall₂ (Denotes f) (lastOperands post.length vs) post := by
  obtain ⟨vs1, vs2, -, hpost, rfl⟩ := forall₂_append_left h.flip
  rw [lastOperands_append vs1 hpost.length_eq.symm]
  exact hpost.flip

theorem outParts_closure (ht : tag.isClosure = true) :
    outParts f (.node mark tag args) v = lastOperands
      (Tree.node mark tag args).parts.length (operandsOf f ((operandsOf f v)[1]?.getD .nil)) := by
  cases tag <;> first | rfl | cases ht

/-- What stands where the parts of a tree stood is what is made of the parts, in the closures around
them. -/
theorem Renamed.parts (hd : (r.closed.map Closed.id).Nodup) (h : Renamed r around t t')
    (hv : Denotes f v t') : ∃ around' ss,
      (t.parts ≠ [] → keysOf around' = keysIn (closedAs r.closed) t (keysOf around)) ∧
      List.Forall₂ (Renamed r around') t.parts ss ∧
      List.Forall₂ (Denotes f) (outParts f t v) ss := by
  cases h with
  | slot | leaf => exact ⟨[], [], fun h => absurd rfl h, .nil, .nil⟩
  | shut hs =>
    cases t with
    | leaf a => cases hs
    | node mark tag args =>
      rcases Tag.isSealed_iff.mp hs with rfl | rfl | rfl <;>
        exact ⟨[], [], fun h => absurd rfl h, .nil, .nil⟩
  | @bare _ mark tag args args' ht noBody =>
    have hparts : (Tree.node mark tag args).parts = [] := by
      rw [Tree.parts_closure ht]
      cases hbody : args[1]? with
      | none => rfl
      | some body =>
        rw [noBody body hbody]
        rfl
    refine ⟨[], [], fun h => absurd hparts h, ?_, ?_⟩
    · rw [hparts]
      exact .nil
    · rw [outParts_closure ht, hparts]
      simp [lastOperands]
  | @closure _ mark m tag params params' body names shared vars copies stmts ht _ _ known _ _ _ _
      each =>
    have hparts : (Tree.node mark tag [params, body]).parts = body.elems := Tree.parts_closure ht
    have hkeys : keysIn (closedAs r.closed) (.node mark tag [params, body]) (keysOf around) =
        keysOf (⟨mark.id, params.paramNames, names, shared⟩ :: around) := by
      unfold keysIn
      rw [Tree.closure?_eq_some.mpr ⟨ht, rfl, rfl⟩]
      simp only [closedAs_of_mem hd known]
      rfl
    refine ⟨_, stmts, fun _ => hkeys.symm, hparts ▸ renamedEach_iff.mp each, ?_⟩
    rw [outParts_closure ht, hparts, (renamedEach_iff.mp each).length_eq]
    have hops := operandsOf_node hv
    generalize operandsOf f v = ops at hops
    cases hops with
    | cons _ hops =>
      cases hops with
      | cons hlet _ => exact lastOperands_trees (vars :: copies) (operandsOf_node hlet)
  | @callm _ mark receiver receiver' method rest rest' first each =>
    refine ⟨around, receiver' :: rest', fun _ => rfl, .cons first (renamedEach_iff.mp each), ?_⟩
    have hops := operandsOf_node hv
    simp only [outParts]
    generalize operandsOf f v = ops at hops
    cases hops with
    | cons h0 hops =>
      cases hops with
      | cons _ hops => exact .cons h0 hops
  | @letIn _ mark vars vars' stmts stmts' _ each =>
    refine ⟨around, stmts', fun _ => rfl, renamedEach_iff.mp each, ?_⟩
    have hlast := lastOperands_trees [vars'] (operandsOf_node hv)
    rwa [← (renamedEach_iff.mp each).length_eq] at hlast
  | @node _ mark tag args args' hs hc hcall hlet each =>
    refine ⟨around, args', fun _ => ?_, ?_, ?_⟩
    · unfold keysIn
      rw [Tree.closure?_eq_none.mpr hc]
    · cases tag <;> first | exact renamedEach_iff.mp each | contradiction
    · cases tag <;> first | exact operandsOf_node hv | contradiction

/-- What stands at a place is what is made of the tree of that place, in the closures around it. -/
theorem Renamed.outAt (hd : (r.closed.map Closed.id).Nodup) (h : Renamed r around t t')
    (hv : Denotes f v t') (hu : t.at? p = some u) :
    ∃ around' w u', outAt f t v p = some w ∧ Denotes f w u' ∧ Renamed r around' u u' ∧
      keysOf around' = keysAt (closedAs r.closed) (keysOf around) t p := by
  induction p generalizing t t' v around with
  | nil =>
    obtain rfl := Option.some.inj hu
    exact ⟨around, v, t', rfl, hv, h, rfl⟩
  | cons i p ih =>
    obtain ⟨s, hs, hu⟩ := Option.bind_eq_some_iff.mp hu
    obtain ⟨around', ss, hkeys, hparts, hout⟩ := h.parts hd hv
    obtain ⟨hi, rfl⟩ := List.getElem?_eq_some_iff.mp hs
    have hlen := hparts.length_eq
    have hlen' := hout.length_eq
    obtain ⟨around'', w, u', hw, hden, hren, heq⟩ :=
      ih (hparts.get hi (by omega)) (hout.get (by omega) (by omega)) hu
    refine ⟨around'', w, u', ?_, hden, hren, ?_⟩
    · rw [Environment.outAt, hs, List.getElem?_eq_getElem (by omega)]
      exact hw
    · rw [keysAt, hs, heq, hkeys (List.ne_nil_of_length_pos (by omega))]
      rfl

theorem isSlot_of_shape (hv : Denotes f v t) (h : t.shape = slotForm k) : IsSlot f v k := by
  obtain ⟨mark, args, rfl, hshape⟩ := Tree.shape_eq_node.mp h
  obtain ⟨hview, n, hn, htag, -, hargs⟩ := denotes_node.mp hv
  refine ⟨n, by simp [Operand.view_eq_child.mp hview, hn], htag, ?_⟩
  obtain ⟨a0, a1, rfl, h0, h1⟩ : ∃ a0 a1, args = [a0, a1] ∧ a0.shape = .leaf (.sym envName) ∧
      a1.shape = .leaf (.int (Int64.ofNat k)) := by
    rcases args with _ | ⟨a0, _ | ⟨a1, _ | ⟨a2, rest⟩⟩⟩ <;> simp at hshape
    exact ⟨a0, a1, rfl, hshape⟩
  obtain rfl := Tree.shape_eq_leaf.mp h0
  obtain rfl := Tree.shape_eq_leaf.mp h1
  generalize n.args = vs at hargs
  cases hargs with
  | cons hv0 hargs =>
    cases hargs with
    | cons hv1 hargs =>
      cases hargs
      rw [List.map_cons, List.map_cons, hv0.view, hv1.view]
      rfl

/-- What stands where the names of a block stood, by an environment and what is known of the
closures. -/
structure Named (f : Forest) (b : Block) (ws : List Operand) (env : List Text)
    (info : Int → Closed) : Prop where
  readable : ∀ t ∈ b.stmts, Readable t
  known : ∀ cl ∈ ((Resolver.start b.params).readAll b.stmts).closed, info cl.id = cl
  own : ∀ p u id params, b.at? p = some u → u.closure? = some (id, params) → (info id).id = id
  slot : ∀ p name, b.at? p = some (.leaf (.sym name)) → ∃ w, blockOutAt f b ws p = some w ∧
    ∀ k, IsSlot f w k ↔
      ∃ i, slot? env (blockKeysAt info b p) name = some i ∧ Int64.ofNat i = Int64.ofNat k

/-- The names of a body whose output has its layout. -/
theorem LetLayout.named (hd : (Tree.idsOf b.stmts).Nodup) (h : LetLayout b s ts)
    (hvs : List.Forall₂ (Denotes f) vs ts) :
    ∃ env info, EnvOf b env ∧ Named f b (lastOperands b.stmts.length vs) env info := by
  obtain ⟨readable, -, -, -, out⟩ := h
  rename_i vars collect start stmts
  have heach := renamedEach_iff.mp out
  have hws := lastOperands_trees (f := f) _ hvs
  rw [← heach.length_eq] at hws
  have hclosed : (b.reading.closed.map Closed.id).Nodup := nodup_closed readable hd
  obtain ⟨env, henv⟩ : ∃ env, EnvOf b env := by
    by_cases hhas : b.HasEnvironment
    · exact ⟨_, .slots hhas⟩
    · exact ⟨_, .absent hhas⟩
  refine ⟨env, closedAs b.reading.closed, henv, readable, fun cl hcl => closedAs_of_mem hclosed hcl,
    fun _ _ id _ _ _ => closedAs_id _ id, fun p name hat => ?_⟩
  cases p with
  | nil => cases hat
  | cons i p =>
    obtain ⟨t, ht, hu⟩ := Option.bind_eq_some_iff.mp hat
    obtain ⟨hi, rfl⟩ := List.getElem?_eq_some_iff.mp ht
    have hlen := heach.length_eq
    have hlen' := hws.length_eq
    obtain ⟨around, w, u', hw, hden, hren, hkeys⟩ :=
      (heach.get hi (by omega)).outAt hclosed (hws.get (by omega) (by omega)) hu
    have hkeys' : keysOf around = blockKeysAt (closedAs b.reading.closed) b (i :: p) := by
      rw [hkeys, blockKeysAt, ht]
      rfl
    refine ⟨w, ?_, fun k => ?_⟩
    · rw [blockOutAt, ht, List.getElem?_eq_getElem (by omega)]
      exact hw
    rw [← hkeys']
    have hslot : ∀ i, slot? env (keysOf around) name = some i ↔
        ∃ key, KeyAt around name key ∧ b.reading.SlotOf key i := by
      intro i
      rw [slot?, Option.bind_eq_some_iff]
      simp only [keyOf_keysOf, henv.slot_iff]
    cases hren with
    | shut hs => cases hs
    | @slot _ _ key i _ known slot made =>
      have hfound := (hslot i).mpr ⟨key, known, slot⟩
      have hisSlot := isSlot_of_shape hden made
      rw [hfound]
      constructor
      · exact fun hk => ⟨i, rfl, hisSlot.unique hk⟩
      · rintro ⟨j, hj, hjk⟩
        cases hj
        exact hisSlot.congr hjk
    | leaf noSlot =>
      refine ⟨fun hk => absurd hk (not_isSlot_of_atom hden), fun hk => ?_⟩
      obtain ⟨i, hi, -⟩ := hk
      obtain ⟨key, known, slot⟩ := (hslot i).mp hi
      exact absurd slot (noSlot name key i rfl known)

/-- The statements of a function in the output. -/
def definitionOutput (f : Forest) (d : Tree Mark) : List Operand :=
  lastOperands d.function.stmts.length
    (operandsOf f (((operandsOf f (.ref d.root))[2]?).getD .nil))

/-- What stands in the output for the statements outside functions. -/
def rootOutput (f : Forest) (root : Int) : List Operand := lastOperands 1 (operandsOf f (.ref root))

variable {options : Options} {root : Int} {c : Context} {u : Unit} {d : Tree Mark}

theorem denotes_root (h : Denotes f v (.node mark tag args)) :
    Denotes f (.ref mark.id) (.node mark tag args) := by
  refine h.congr ?_
  rw [(denotes_node.mp h).1, Operand.view_eq_child.mpr (Operand.child?_ref _)]

/-- In the end the names in the body of a function stand in its output. -/
theorem Source.named_function (h : Source f root t)
    (hrun : run root (.ofForest f options) = .ok u c) (hd : d ∈ t.definitions) :
    ∃ env info, EnvOf d.function env ∧
      Named c.forest d.function (definitionOutput c.forest d) env info := by
  obtain ⟨t', hden, -, hended⟩ := h.ended hrun
  obtain ⟨d', hd', hbecomes⟩ := hended.functions d hd
  obtain ⟨v, hv⟩ := hden.within hd'
  have hids : (Tree.idsOf d.function.stmts).Nodup :=
    h.nodup.sublist (((Tree.gathers_ids.elems _).trans (d.ids_operand 2)).trans
      (Tree.ids_within (Tree.mem_definitions hd).1))
  have hroot := hbecomes.root
  cases hbecomes with
  | intro _ _ _ layout =>
    have hops := operandsOf_node (denotes_root hv)
    rw [show Mark.id _ = d.root from hroot] at hops
    unfold definitionOutput
    generalize operandsOf c.forest (.ref d.root) = ops at hops
    cases hops with
    | cons _ hops =>
      cases hops with
      | cons _ hops =>
        cases hops with
        | cons hlet _ => exact layout.named hids (operandsOf_node hlet)

/-- In the end the names outside every function stand in the output of the root, if there is a
closure among the statements there. -/
theorem Source.named_root (h : Source f root t) (hrun : run root (.ofForest f options) = .ok u c)
    (hclosure : t.HasClosure) : ∃ id ∉ t.ids, ∃ env info, EnvOf ⟨[], [t.renumbered id]⟩ env ∧
      Named c.forest ⟨[], [t.renumbered id]⟩ (rootOutput c.forest root) env info := by
  obtain ⟨t', hden, -, hended⟩ := h.ended hrun
  obtain ⟨id, mark, operands, hid, -, rfl, hlayout⟩ := hended.top hclosure
  refine ⟨id, hid, hlayout.named ?_ (operandsOf_node hden)⟩
  rw [Tree.idsOf_cons, Tree.idsOf_nil, List.append_nil]
  exact Tree.nodup_renumbered h.nodup hid

end Pass.Environment

end Lowering
