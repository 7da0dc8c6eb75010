import Lowering.Proofs.Renaming

namespace Lowering

namespace Tree

open Scope

variable {t : Tree Mark}

theorem closure_not_below (hd : t.ids.Nodup) (hx : x ∈ (t.closure?.map Prod.fst).toList) :
    x ∉ t.operands.flatMap ids := by
  cases t with
  | leaf a => cases hx
  | node mark tag args =>
    rw [ids_node, List.nodup_cons] at hd
    cases hc : (node mark tag args).closure? with
    | none => simp [hc] at hx
    | some e =>
      obtain ⟨-, hid, -⟩ := closure?_eq_some.mp hc
      obtain rfl : x = mark.id := by simpa [hc, hid] using hx
      exact hd.1

theorem parts_of_bodiless {id : Int} (hc : t.closure? = some (id, params)) (hbare : t.Bodiless) :
    t.parts = [] := by
  cases t with
  | leaf a => rfl
  | node mark tag args =>
    rw [parts_closure (closure?_eq_some.mp hc).1]
    cases hbody : args[1]? with
    | none => rfl
    | some body =>
      rw [hbare body hbody]
      rfl

end Tree

namespace Pass.Environment

open Forest Scope

variable {r : Resolver} {env : List Text} {E : Int → List Text}
variable {lets : Int → Option (Closed × Int)} {more : Int → List (Tree Mark)}
variable {around : List Enclosure} {s t t' : Tree Mark}

/-- A tree of which each closure is known, and has a `let` with its copies if it has a body.
Closures that are not read have none, and only these `let`s get more statements. -/
structure Tailored (r : Resolver) (env : List Text) (E : Int → List Text)
    (lets : Int → Option (Closed × Int)) (more : Int → List (Tree Mark)) (t : Tree Mark) :
    Prop where
  readable : Readable t
  nodup : t.ids.Nodup
  old : ∀ x ∈ t.ids, more x = []
  closures : ∀ p u id params, t.at? p = some u → u.closure? = some (id, params) →
    ∃ cl ∈ r.closed, cl.id = id ∧ E id = cl.exports ∧ cl.exports.Nodup ∧
      (∀ name, name ∈ cl.exports ↔ (⟨params, u.parts⟩ : Block).Shares name) ∧
      (lets id = none ∧ u.Bodiless ∨
        ¬ u.Bodiless ∧ ∃ b, lets id = some (cl, b) ∧ Copies env id cl.exports (more b))
  entries : ∀ x ∈ t.ids, lets x ≠ none → x ∈ entered (events t)

namespace Tailored

theorem part (h : Tailored r env E lets more t) (hs : s ∈ t.parts) :
    Tailored r env E lets more s := by
  have hsub := Tree.ids_subset_of_parts hs
  have hparts := Tree.nodup_parts h.nodup
  refine ⟨h.readable.part hs, (List.nodup_flatMap.mp hparts).1 s hs,
    fun x hx => h.old x (hsub x hx), fun p u id params hu hc => ?_, fun x hx hlet => ?_⟩
  · obtain ⟨i, hi⟩ := List.mem_iff_getElem?.mp hs
    exact h.closures (i :: p) u id params (by rw [Tree.at?, hi]; exact hu) hc
  · have hmem := h.entries x (hsub x hx) hlet
    rw [entered_parts h.readable, List.mem_append] at hmem
    rcases hmem with hmem | hmem
    · exact absurd (t.parts_sublist.subset (List.mem_flatMap.mpr ⟨s, hs, hx⟩))
        (Tree.closure_not_below h.nodup hmem)
    · obtain ⟨s', hs', hmem⟩ := List.mem_flatMap.mp hmem
      have hx' : x ∈ s'.ids := s'.openIds_subset_ids x ((entered_sublist s').subset hmem)
      obtain ⟨i, hi⟩ := List.mem_iff_getElem?.mp hs
      obtain ⟨j, hj⟩ := List.mem_iff_getElem?.mp hs'
      obtain rfl := Tree.index_unique hparts hi hj hx hx'
      obtain rfl : s = s' := Option.mem_unique hi hj
      exact hmem

/-- An operand that is not read has no closures with a `let`. -/
theorem unread (h : Tailored r env E lets more (.node mark tag args)) (hs : s ∈ args)
    (hnot : ∀ x ∈ s.ids, x ∉ (Tree.node mark tag args).parts.flatMap Tree.ids) :
    s.wrapped lets = s ∧ s.inserted more = s := by
  have hmem : ∀ x ∈ s.ids, x ∈ args.flatMap Tree.ids :=
    fun x hx => List.mem_flatMap.mpr ⟨s, hs, hx⟩
  have hin : ∀ x ∈ s.ids, x ∈ (Tree.node mark tag args).ids := by
    intro x hx
    rw [Tree.ids_node]
    exact List.mem_cons_of_mem _ (hmem x hx)
  refine ⟨Tree.wrapped_eq fun x hx => ?_, Tree.inserted_eq fun x hx => h.old x (hin x hx)⟩
  by_contra hlet
  have hent := h.entries x (hin x hx) hlet
  rw [entered_parts h.readable, List.mem_append] at hent
  rcases hent with hent | hent
  · exact Tree.closure_not_below h.nodup hent (hmem x hx)
  · obtain ⟨s', hs', hent⟩ := List.mem_flatMap.mp hent
    refine hnot x hx (List.mem_flatMap.mpr ⟨s', hs', ?_⟩)
    exact s'.openIds_subset_ids x ((entered_sublist s').subset hent)

end Tailored

theorem inserted_slotTree (mark : Mark) (k : Nat) :
    (slotTree mark k).inserted more = slotTree mark k :=
  Tree.inserted_open (by simp)

theorem inserted_names (names : List Text) :
    (Tree.node mark .list (names.map fun x => .leaf (.sym x))).inserted more =
      .node mark .list (names.map fun x => .leaf (.sym x)) := by
  rw [Tree.inserted_open (by simp), List.map_map]
  rfl

theorem callm_operands (h : Tree.malformed? .callm args = none) :
    ∃ receiver method rest, args = receiver :: .leaf (.sym method) :: rest := by
  rcases args with _ | ⟨receiver, _ | ⟨method, rest⟩⟩
  · simp [Tree.malformed?, Complaint.ofOperands, Arity.ofTag, Arity.admits, Arity.between] at h
  · simp [Tree.malformed?, Complaint.ofOperands, Arity.ofTag, Arity.admits, Arity.between] at h
  · simp only [Tree.malformed?, Complaint.ofOperands, Arity.ofTag] at h
    split at h
    · cases h
    · cases method with
      | leaf a =>
        cases a with
        | sym name => exact ⟨receiver, name, rest, rfl⟩
        | _ => simp [Tree.symbol?] at h
      | node mark tag args => simp [Tree.symbol?] at h

theorem renamedEach_of_slotted
    (each : ∀ s ∈ ts, ∀ {s' : Tree Mark}, Slotted env E (keysOf around) (s.wrapped lets) s' →
      Renamed r around s (s'.inserted more))
    (h : List.Forall₂ (Slotted env E (keysOf around)) (ts.map (Tree.wrapped lets)) ts') :
    RenamedEach r around ts (ts'.map (Tree.inserted more)) := by
  rw [renamedEach_iff, List.forall₂_map_right_iff]
  rw [List.forall₂_map_left_iff] at h
  refine List.forall₂_iff_get.mpr ⟨h.length_eq, fun i hi hi' => ?_⟩
  exact each _ (List.get_mem ts ⟨i, hi⟩) (h.get hi hi')

theorem slot?_eq_some (hslot : ∀ key k, env.idxOf? key = some k ↔ r.SlotOf key k) {name : Text} :
    slot? env (keysOf around) name = some k ↔
      ∃ key, KeyAt around name key ∧ r.SlotOf key k := by
  unfold slot?
  rw [Option.bind_eq_some_iff]
  simp only [keyOf_keysOf, hslot]

/-- In a closure without a body nothing becomes a slot. -/
theorem kept_of_bare {id : Int} (ht : tag.isClosure = true)
    (hbare : ∀ body, args[1]? = some body → body = .leaf .nil)
    (h : SlottedEach env E (operandKeys E keys id tag args) args args') : args' = args := by
  by_cases hshort : args.length < 2
  · rw [operandKeys_short ht hshort] at h
    exact slottedEach_kept h
  rcases args with _ | ⟨params, _ | ⟨body, rest⟩⟩
  · exact absurd hshort (by simp)
  · exact absurd hshort (by simp)
  · obtain rfl := hbare body rfl
    rw [operandKeys_closure ht] at h
    cases h with
    | keep h =>
      cases h with
      | go first rest =>
        rw [slottedEach_kept rest]
        cases first
        rfl

theorem closure_renamed (ht : tag.isClosure = true)
    (h : Tailored r env E lets more (.node mark tag args))
    (hslot : ∀ key k, env.idxOf? key = some k ↔ r.SlotOf key k)
    (hrew : Slotted env E (keysOf around) ((Tree.node mark tag args).wrapped lets) t')
    (each : ∀ s ∈ (Tree.node mark tag args).parts, ∀ {around : List Enclosure} {s' : Tree Mark},
      Slotted env E (keysOf around) (s.wrapped lets) s' →
      Renamed r around s (s'.inserted more)) :
    Renamed r around (.node mark tag args) (t'.inserted more) := by
  have hclosure : (Tree.node mark tag args).closure? =
      some (mark.id, (args.head?.map Tree.paramNames).getD []) :=
    Tree.closure?_eq_some.mpr ⟨ht, rfl, rfl⟩
  have hparts : (Tree.node mark tag args).parts = ((args[1]?).map Tree.elems).getD [] :=
    Tree.parts_closure ht
  have hopen := Tag.isSealed_closure ht
  have hnolet : tag ≠ .letIn := by
    rintro rfl
    cases ht
  have hlen := closure_length ht (malformed?_of_read h.readable hopen)
  have hd := h.nodup
  rw [Tree.ids_node, List.nodup_cons] at hd
  obtain ⟨cl, hcl, hid, hE, hnodup, hshares, ⟨hlet, hbare⟩ | ⟨hbody, b, hlet, hcopies⟩⟩ :=
    h.closures [] _ _ _ rfl hclosure
  · -- nothing is read in it, and so nothing changes
    have hnil := Tree.parts_of_bodiless hclosure hbare
    have hkeep : ∀ s ∈ args, s.wrapped lets = s ∧ s.inserted more = s :=
      fun s hs => h.unread hs fun x _ => by simp [hnil]
    rw [Tree.wrapped_none (Tree.letOf_eq_none.mpr fun _ => hlet),
      Tree.map_eq_self fun s hs => (hkeep s hs).1] at hrew
    cases hrew with
    | @node _ _ _ _ args' each =>
      obtain rfl : args' = args := kept_of_bare ht hbare each
      rw [Tree.inserted_open hnolet, Tree.map_eq_self fun s hs => (hkeep s hs).2]
      exact .bare ht hbare (List.forall₂_same.mpr fun s _ => .refl s)
  · obtain ⟨params, body, rfl, hnil⟩ : ∃ params body, args = [params, body] ∧
        body ≠ .leaf .nil := by
      rcases args with _ | ⟨params, _ | ⟨body, _ | ⟨more, rest⟩⟩⟩
      · exact absurd (fun s hs => by cases hs) hbody
      · exact absurd (fun s hs => by cases hs) hbody
      · exact ⟨params, body, rfl, fun he => hbody fun s hs => by simp_all⟩
      · simp at hlen
    have hparams : params.wrapped lets = params ∧ params.inserted more = params := by
      refine h.unread (by simp) fun x hx hx' => ?_
      rw [hparts] at hx'
      have hx' := (Tree.ids_elems body).subset hx'
      rw [List.flatMap_cons, List.flatMap_cons, List.nodup_append'] at hd
      exact hd.2.2.2 hx (List.mem_append_left _ hx')
    rw [hparts] at hshares
    rw [Tree.wrapped_some (Tree.letOf_eq_some.mpr ⟨ht, hlet⟩)] at hrew
    obtain ⟨stmts, rfl, hstmts⟩ := Slotted.closure ht hrew
    rw [keysInside_eq hid hE, Tree.elems_wrapped] at hstmts
    have hinserted : (Tree.letTree mark.pos cl b stmts).inserted more =
        .node ⟨b, mark.pos⟩ .letIn
          (.node ⟨b - 1, mark.pos⟩ .list (cl.vars.map fun x => .leaf (.sym x)) ::
            more b ++ stmts.map (Tree.inserted more)) := by
      rw [Tree.letTree, Tree.inserted_let, List.map_cons, inserted_names]
      rfl
    rw [Tree.inserted_open hnolet]
    simp only [List.map_cons, List.map_nil, hinserted, hparams]
    have hknown : ⟨mark.id, cl.vars, cl.exports⟩ ∈ r.closed := hid ▸ hcl
    refine .closure ht hnil (.refl params) hknown (shape_names _ _) hnodup hshares
      (hcopies.imp fun name s h => h.imp fun k h => ⟨(hslot _ k).mp h.1, h.2⟩)
      (renamedEach_of_slotted (fun s hs _ hs' => each s (hparts ▸ hs) hs') ?_)
    have hkeys : keysOf (⟨mark.id, params.paramNames, cl.vars, cl.exports⟩ :: around) =
        closureKeys cl params.paramNames ++ keysOf around := by
      rw [← hid]
      rfl
    rw [hkeys]
    exact hstmts

theorem let_length (h : Tree.malformed? .letIn args = none) :
    ∃ vars stmts, args = vars :: stmts := by
  cases args with
  | nil =>
    simp [Tree.malformed?, Complaint.ofOperands, Arity.ofTag, Arity.admits,
      Arity.atLeast] at h
  | cons vars stmts => exact ⟨vars, stmts, rfl⟩

theorem open_renamed (ht : tag.isClosure = false)
    (h : Tailored r env E lets more (.node mark tag args)) (hrew : SlottedEach env E
      (operandKeys E (keysOf around) mark.id tag (args.map (Tree.wrapped lets)))
      (args.map (Tree.wrapped lets)) args')
    (each : ∀ s ∈ (Tree.node mark tag args).parts, ∀ {around : List Enclosure} {s' : Tree Mark},
      Slotted env E (keysOf around) (s.wrapped lets) s' →
      Renamed r around s (s'.inserted more)) :
    Renamed r around (.node mark tag args) ((Tree.node mark tag args').inserted more) := by
  have hd := h.nodup
  rw [Tree.ids_node, List.nodup_cons] at hd
  by_cases hs : tag.isSealed = true
  · have hparts : (Tree.node mark tag args).parts = [] := by
      rcases Tag.isSealed_iff.mp hs with rfl | rfl | rfl <;> rfl
    have hkeep := Tree.map_eq_self fun s hmem =>
      (h.unread hmem fun x _ => by rw [hparts]; exact List.not_mem_nil).1
    rw [operandKeys_sealed hs, hkeep] at hrew
    obtain rfl := slottedEach_kept hrew
    rw [Tree.inserted_eq fun x hx => h.old x hx]
    exact .shut hs (.refl _)
  have hs : tag.isSealed = false := by simpa using hs
  by_cases hcall : tag = .callm
  · subst hcall
    obtain ⟨receiver, method, rest, rfl⟩ := callm_operands (malformed?_of_read h.readable rfl)
    cases hrew with
    | go first hrew =>
      cases hrew with
      | keep hrew =>
        rw [Tree.inserted_open (by simp)]
        refine .callm (each receiver (by simp [Tree.parts]) first)
          (renamedEach_of_slotted (fun s hmem _ hs' => each s ?_ hs') (slottedEach_go hrew))
        simp [Tree.parts, hmem]
  by_cases hlet : tag = .letIn
  · subst hlet
    obtain ⟨vars, stmts, rfl⟩ := let_length (malformed?_of_read h.readable rfl)
    have hvars : vars.wrapped lets = vars ∧ vars.inserted more = vars := by
      refine h.unread (by simp) fun x hx hx' => ?_
      rw [List.flatMap_cons, List.nodup_append'] at hd
      exact hd.2.2.2 hx (by simpa [Tree.parts] using hx')
    cases hrew with
    | keep hrew =>
      rw [Tree.inserted_let]
      simp only [List.map_cons, hvars, h.old mark.id (by simp [Tree.ids_node]), List.append_nil,
        List.take_append_drop]
      exact .letIn (.refl vars) (renamedEach_of_slotted
        (fun s hmem _ hs' => each s (by simpa [Tree.parts] using hmem) hs') (slottedEach_go hrew))
  · have hparts : (Tree.node mark tag args).parts = args := by
      cases tag <;> first | rfl | contradiction
    have hkeys : operandKeys E (keysOf around) mark.id tag (args.map (Tree.wrapped lets)) =
        (args.map (Tree.wrapped lets)).map fun _ => some (keysOf around) := by
      cases tag <;> first | rfl | contradiction
    rw [hkeys] at hrew
    rw [Tree.inserted_open hlet]
    exact .node hs ht hcall hlet
      (renamedEach_of_slotted (fun s hmem _ hs' => each s (hparts.symm ▸ hmem) hs')
        (slottedEach_go hrew))

/-- What becomes of a tree in a body, in its parts and so as a whole. -/
theorem Tailored.renamed (h : Tailored r env E lets more t)
    (hslot : ∀ key k, env.idxOf? key = some k ↔ r.SlotOf key k)
    (hrew : Slotted env E (keysOf around) (t.wrapped lets) t') :
    Renamed r around t (t'.inserted more) := by
  induction t using Tree.induct_parts generalizing around t' with
  | step t ih =>
    have each : ∀ s ∈ t.parts, ∀ {around : List Enclosure} {s' : Tree Mark},
        Slotted env E (keysOf around) (s.wrapped lets) s' →
        Renamed r around s (s'.inserted more) :=
      fun s hs _ _ hs' => ih s hs (h.part hs) hs'
    cases t with
    | leaf a =>
      cases hrew with
      | slot found =>
        obtain ⟨key, hkey, hk⟩ := (slot?_eq_some hslot).mp found
        rw [inserted_slotTree]
        exact .slot hkey hk rfl
      | leaf absent =>
        refine .leaf fun name key k ha hkey hk => ?_
        have := (slot?_eq_some hslot).mpr ⟨key, hkey, hk⟩
        rw [absent name ha] at this
        cases this
    | node mark tag args =>
      cases ht : tag.isClosure with
      | true => exact closure_renamed ht h hslot hrew each
      | false =>
        rw [Tree.wrapped_none (Tree.letOf_eq_none.mpr (by simp [ht]))] at hrew
        cases hrew with
        | @node _ _ _ _ args' hargs => exact open_renamed ht h hargs each

end Pass.Environment

end Lowering
