import Lowering.Proofs.RestParams

namespace Lowering.Tree

open Pass.Environment

variable {α : Type} {closures : Bool} {tag : Tag} {a a' : Tree α} {args args' : List (Tree α)}

/-- A node of a form that the normalizing passes leave; `closures` says if closures may be. A
constant is the number of a slot. -/
structure Desugared (closures : Bool) (tag : Tag) (args : List (Tree α)) : Prop where
  form : tag ≠ .concat ∧ tag ≠ .range ∧ tag ≠ .yield ∧ ∀ o, tag ≠ .op o
  closure : closures = false → tag.isClosure = false
  call : tag = .call → args.head? ≠ some (.leaf (.sym "yield"))
  strings : tag ≠ .sexp → ∀ text, .leaf (.str text) ∉ args
  ints : tag ≠ .sexp → ∀ i value, args[i]? = some (.leaf (.int value)) → tag = .index ∧ i = 1
  target : tag = .assign → ∀ mark as, args.head? ≠ some (.node mark .destruct as)

/-- An operand that is no string and no integer. -/
def NoConstant (a : Tree α) : Prop :=
  (∀ text, a ≠ .leaf (.str text)) ∧ ∀ value, a ≠ .leaf (.int value)

theorem noConstant_node (mark : α) (tag : Tag) (args : List (Tree α)) :
    NoConstant (.node mark tag args) := ⟨nofun, nofun⟩

theorem noConstant_sym (name : Text) : NoConstant (.leaf (.sym name) : Tree α) := ⟨nofun, nofun⟩

theorem noConstant_nil : NoConstant (.leaf .nil : Tree α) := ⟨nofun, nofun⟩

/-- What may stand in the place of an operand. -/
def MayReplace (a a' : Tree α) : Prop :=
  a' = a ∨ NoConstant a' ∧ a' ≠ .leaf (.sym "yield") ∧
    ∀ mark as, a' = .node mark .destruct as → ∃ mark as, a = .node mark .destruct as

theorem mayReplace_node (mark mark' : α) (tag : Tag) (args args' : List (Tree α)) :
    MayReplace (.node mark tag args) (.node mark' tag args') := by
  refine .inr ⟨noConstant_node mark' tag args', nofun, fun m as h => ?_⟩
  cases h
  exact ⟨mark, args, rfl⟩

theorem mayReplace_of_ne (h : tag ≠ .destruct) : MayReplace a (.node mark tag args) := by
  refine .inr ⟨noConstant_node mark tag args, nofun, fun m as heq => ?_⟩
  cases heq
  exact absurd rfl h

/-- In the place of an operand that is no constant stands none. -/
theorem MayReplace.noConstant (h : MayReplace a a') (ha : NoConstant a) : NoConstant a' := by
  obtain rfl | ⟨ha', -⟩ := h
  · exact ha
  · exact ha'

/-- A node stays as it may be when operands are replaced. -/
theorem Desugared.fit (h : Desugared closures tag args)
    (hfit : List.Forall₂ MayReplace args args') : Desugared closures tag args' where
  form := h.form
  closure := h.closure
  call htag heq := by
    cases hfit with
    | nil => cases heq
    | cons first _ =>
      cases heq
      obtain rfl | ⟨-, hno, -⟩ := first
      · exact h.call htag rfl
      · exact hno rfl
  strings htag text hmem := by
    obtain ⟨a, ha, rfl | ⟨hno, -⟩⟩ := Forest.forall₂_mem_left hfit.flip hmem
    · exact h.strings htag text ha
    · exact hno.1 text rfl
  ints htag i value hi := by
    obtain ⟨hlt, hget⟩ := List.getElem?_eq_some_iff.mp hi
    have hlt' : i < args.length := hfit.length_eq ▸ hlt
    obtain heq | ⟨hno, -⟩ := hfit.get hlt' hlt
    · refine h.ints htag i value ?_
      rw [List.getElem?_eq_getElem hlt']
      exact congrArg some (heq.symm.trans hget)
    · exact absurd hget (hno.2 value)
  target htag mark as heq := by
    cases hfit with
    | nil => cases heq
    | cons first _ =>
      cases heq
      obtain rfl | ⟨-, -, hdestruct⟩ := first
      · exact h.target htag mark as rfl
      · obtain ⟨mark', as', rfl⟩ := hdestruct mark as rfl
        exact h.target htag mark' as' rfl

/-- Outside slots and lowered code no operand is a constant. -/
theorem Desugared.noConstant (h : Desugared closures tag args) (htag : tag ≠ .sexp)
    (hslot : tag ≠ .index) : ∀ a ∈ args, NoConstant a := by
  refine fun a ha => ⟨fun text heq => h.strings htag text (heq ▸ ha), fun value heq => ?_⟩
  obtain ⟨i, hi⟩ := List.getElem?_of_mem ha
  exact hslot (h.ints htag i value (heq ▸ hi)).1

/-- Forms that need no more than operands that are no constants. -/
theorem desugared_of_noConstant
    (htag : tag ∈ [Tag.list, .block, .letIn, .defm, .defun, .stackframe])
    (hargs : ∀ a ∈ args, NoConstant a) : Desugared closures tag args where
  form := by
    simp only [List.mem_cons, List.not_mem_nil, or_false] at htag
    obtain rfl | rfl | rfl | rfl | rfl | rfl := htag <;> simp
  closure _ := by
    simp only [List.mem_cons, List.not_mem_nil, or_false] at htag
    obtain rfl | rfl | rfl | rfl | rfl | rfl := htag <;> rfl
  call h := by
    subst h
    simp at htag
  strings _ text hmem := (hargs _ hmem).1 text rfl
  ints _ i value hi := absurd rfl ((hargs _ (List.mem_of_getElem? hi)).2 value)
  target h := by
    subst h
    simp at htag

theorem desugared_assign (h : target.NoConstant) (ha : a.NoConstant)
    (hdestruct : ∀ mark as, target ≠ .node mark .destruct as) :
    Desugared closures .assign [target, a] where
  form := by simp
  closure _ := rfl
  call := nofun
  strings _ text hmem := by
    obtain rfl | hmem := List.mem_cons.mp hmem
    · exact h.1 text rfl
    · exact ha.1 text (List.mem_singleton.mp hmem).symm
  ints _ i value hi := by
    match i with
    | 0 => exact absurd (Option.some.inj hi) (h.2 value)
    | 1 => exact absurd (Option.some.inj hi) (ha.2 value)
  target _ mark as heq := hdestruct mark as (Option.some.inj heq)

theorem desugared_slot (name : Text) (value : Int64) :
    Desugared closures .index [(.leaf (.sym name) : Tree α), .leaf (.int value)] where
  form := by simp
  closure _ := rfl
  call := nofun
  strings _ text := by simp
  ints _ i v hi := by
    match i with
    | 0 => cases hi
    | 1 => exact ⟨rfl, rfl⟩
  target := nofun

theorem desugared_code : Desugared closures .sexp args where
  form := by simp
  closure _ := rfl
  call := nofun
  strings h := absurd rfl h
  ints h := absurd rfl h
  target := nofun

theorem Desugared.returns (h : Desugared closures .ret args) : Desugared closures .preturn args :=
  { h with
    form := by simp
    call := nofun
    strings := fun _ => h.strings nofun
    ints := fun _ i value hi => nomatch (h.ints nofun i value hi).1
    target := nofun }

/-- All nodes that are not in lowered code are desugared. -/
inductive DesugaredBelow (closures : Bool) : Tree α → Prop where
  | leaf (a : Atom) : DesugaredBelow closures (.leaf a)
  | code (mark : α) (args : List (Tree α)) : DesugaredBelow closures (.node mark .sexp args)
  | node {mark : α} {tag : Tag} {args : List (Tree α)} (form : Desugared closures tag args)
      (each : ∀ t ∈ args, DesugaredBelow closures t) : DesugaredBelow closures (.node mark tag args)

theorem DesugaredBelow.operands (h : DesugaredBelow closures (.node mark tag args))
    (htag : tag ≠ .sexp) : Desugared closures tag args ∧ ∀ t ∈ args, DesugaredBelow closures t := by
  cases h with
  | code => exact absurd rfl htag
  | node form each => exact ⟨form, each⟩

theorem DesugaredBelow.within (h : DesugaredBelow closures t) (hu : u ∈ t.exposed) :
    DesugaredBelow closures u := by
  induction h with
  | leaf a => cases hu
  | code mark args =>
    obtain rfl | ⟨htag, -⟩ := mem_within_node.mp hu
    · exact .code mark args
    · cases htag
  | node form each ih =>
    obtain rfl | ⟨-, s, hs, hu⟩ := mem_within_node.mp hu
    · exact .node form each
    · exact ih s hs hu

theorem Desugared.of_shape (h : Desugared closures tag (args.map shape)) :
    Desugared closures tag args where
  form := h.form
  closure := h.closure
  call htag heq := h.call htag (by rw [List.head?_map, heq, Option.map_some, shape_eq_leaf.mpr rfl])
  strings htag text hmem :=
    h.strings htag text (List.mem_map.mpr ⟨_, hmem, shape_eq_leaf.mpr rfl⟩)
  ints htag i value hi := h.ints htag i value
    (by rw [List.getElem?_map, hi, Option.map_some, shape_eq_leaf.mpr rfl])
  target htag mark as heq := h.target htag () (as.map shape)
    (by rw [List.head?_map, heq, Option.map_some, shape_node])

/-- Whether a tree is desugared is a matter of its shape. -/
theorem desugaredBelow_of_shape (h : t.shape = e) (he : DesugaredBelow closures e) :
    DesugaredBelow closures t := by
  induction t generalizing e with
  | leaf a => exact .leaf a
  | node mark tag args ih =>
    rw [shape_node] at h
    subst h
    cases he with
    | code => exact .code mark args
    | node form each =>
      exact .node form.of_shape fun t ht =>
        ih t ht rfl (each _ (List.mem_map_of_mem ht))

theorem noConstant_of_shape {t : Tree α} (h : t.shape = .node () tag es) : t.NoConstant := by
  obtain ⟨mark, args, rfl, -⟩ := shape_eq_node.mp h
  exact noConstant_node mark tag args

theorem desugaredBelow_list (h : ∀ a ∈ args, a.DesugaredBelow closures ∧ a.NoConstant) :
    DesugaredBelow closures (.node mark .list args) :=
  .node (desugared_of_noConstant (by simp) fun a ha => (h a ha).2) fun a ha => (h a ha).1

theorem desugaredBelow_slotForm (k : Nat) : DesugaredBelow closures (slotForm k) := by
  refine .node (desugared_slot ..) ?_
  simp only [List.forall_mem_cons]
  exact ⟨.leaf _, .leaf _, nofun⟩

theorem desugaredBelow_copyForm (k : Nat) (name : Text) :
    DesugaredBelow closures (copyForm k name) := by
  refine .node (desugared_assign (noConstant_node ..) (noConstant_sym _) nofun) ?_
  simp only [List.forall_mem_cons]
  exact ⟨desugaredBelow_slotForm k, .leaf _, nofun⟩

theorem desugaredBelow_namesForm (names : List Text) :
    DesugaredBelow closures (namesForm names) := by
  refine desugaredBelow_list fun a ha => ?_
  obtain ⟨name, -, rfl⟩ := List.mem_map.mp ha
  exact ⟨.leaf _, noConstant_sym name⟩

end Lowering.Tree
