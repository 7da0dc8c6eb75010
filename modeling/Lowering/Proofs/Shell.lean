import Lowering.Proofs.Occurrences
import Lowering.Proofs.Parsed

namespace Lowering

namespace Tree

mutual
/-- The nodes of a tree that are not inside lowered code or a function, or such a form. -/
def openIds : Tree Mark → List Int
  | leaf _ => []
  | node mark tag args => if tag.isSealed then [] else mark.id :: openIdsEach args

def openIdsEach : List (Tree Mark) → List Int
  | [] => []
  | t :: ts => openIds t ++ openIdsEach ts
end

theorem openIds_node (mark : Mark) (tag : Tag) (args : List (Tree Mark)) :
    openIds (.node mark tag args) =
      if tag.isSealed then [] else mark.id :: args.flatMap openIds := by
  have each : ∀ ts : List (Tree Mark), openIdsEach ts = ts.flatMap openIds :=
    eq_flatMap rfl fun _ _ => rfl
  rw [openIds, each]

theorem mem_openIds_node : x ∈ openIds (.node mark tag args) ↔
      tag.isSealed = false ∧ (x = mark.id ∨ ∃ t ∈ args, x ∈ t.openIds) := by
  rw [openIds_node]
  cases tag.isSealed <;> simp

theorem flatMap_sublist {α : Type} {ts : List (Tree Mark)} {g g' : Tree Mark → List α}
    (h : ∀ t ∈ ts, (g t).Sublist (g' t)) : (ts.flatMap g).Sublist (ts.flatMap g') := by
  induction ts with
  | nil => exact .slnil
  | cons t ts ih =>
    rw [List.flatMap_cons, List.flatMap_cons]
    exact (h t (by simp)).append (ih fun s hs => h s (List.mem_cons_of_mem t hs))

theorem openIds_sublist (t : Tree Mark) : t.openIds.Sublist t.ids := by
  induction t with
  | leaf a => exact .slnil
  | node mark tag args ih =>
    rw [openIds_node, ids_node]
    split
    · exact List.nil_sublist _
    · exact (flatMap_sublist ih).cons_cons mark.id

theorem openIds_subset_ids (t : Tree Mark) : ∀ x ∈ t.openIds, x ∈ t.ids :=
  fun _ hx => t.openIds_sublist.subset hx

theorem elems_node (h : tag ≠ .list) : (node mark tag args).elems = [.node mark tag args] := by
  cases tag <;> first | rfl | exact absurd rfl h

/-- What an operand that stands for a tree looks like. -/
def view : Tree Mark → Operand.View
  | leaf a => .atom a
  | node mark _ _ => .child mark.id

theorem symbol?_eq_some {t : Tree Mark} : t.symbol? = some name ↔ t.view = .atom (.sym name) := by
  cases t with
  | leaf a => cases a <;> simp [symbol?, view]
  | node mark tag args => simp [symbol?, view]

end Tree

namespace Forest

variable {f : Forest} {v : Operand} {t : Tree Mark}

theorem symbol?_of_view (h : v.view = t.view) : v.symbol? = t.symbol? := by
  refine Option.ext fun name => ?_
  rw [Operand.symbol?_eq_some, Tree.symbol?_eq_some, h]

/-- An operand looks like the tree it stands for. -/
theorem Denotes.view (h : Denotes f v t) : v.view = t.view := by
  cases t with
  | leaf a => exact h
  | node mark tag args => exact (denotes_node.mp h).1

/-- The name that comes first among operands that have the views of some trees. -/
theorem first_symbol (h : List.Forall₂ (fun v t => v.view = Tree.view t) vs ts) :
    ((vs[0]?).getD Operand.nil).symbol? = ts.head?.bind Tree.symbol? := by
  cases h with
  | nil => rfl
  | cons hv _ => exact symbol?_of_view hv

/-- The exported parameters that a node is annotated with. -/
def exportsAt (f : Forest) (id : Int) : List Text :=
  ((f.get? id).map fun n => n.notes.namesAt "exports").getD []

/-- The elements of a list stand for those of its tree. -/
theorem Denotes.elems (h : Denotes f v t) :
    ∃ vs, f.elems v = .ok vs ∧ List.Forall₂ (Denotes f) vs t.elems := by
  cases t with
  | leaf a =>
    have hv : v.view = .atom a := h
    cases a with
    | nil => exact ⟨[], by simp [Forest.elems, hv], .nil⟩
    | sym | str | int | unknown =>
      exact ⟨[v], by simp [Forest.elems, hv], .cons h .nil⟩
  | node mark tag args =>
    obtain ⟨hv, n, hn, rfl, -, hargs⟩ := denotes_node.mp h
    by_cases hl : n.tag = .list
    · refine ⟨n.args, ?_, ?_⟩
      · simp [Forest.elems, hv, get_eq_ok.mpr hn, bind, Except.bind, pure, Except.pure, hl]
      · rw [hl]
        exact hargs
    · refine ⟨[v], ?_, ?_⟩
      · simp [Forest.elems, hv, get_eq_ok.mpr hn, bind, Except.bind, pure, Except.pure, hl]
      · rw [Tree.elems_node hl]
        exact .cons h .nil

theorem Denotes.declares (h : Denotes f v t) : f.declares v = .ok t.paramName? := by
  cases t with
  | leaf a =>
    have hv : v.view = .atom a := h
    unfold Forest.declares
    rw [hv]
    cases a <;> rfl
  | node mark tag args =>
    obtain ⟨hv, n, hn, -, -, hargs⟩ := denotes_node.mp h
    have hfirst : (n.arg 0).symbol? = args.head?.bind Tree.symbol? :=
      first_symbol (hargs.imp fun _ _ h => h.view)
    unfold Forest.declares
    rw [hv]
    simp only [get_eq_ok.mpr hn, Except.map, hfirst]
    cases args <;> rfl

/-- Parameters are those of the tree. -/
theorem Denotes.paramNames (h : Denotes f v t) : f.paramNames v = .ok t.paramNames := by
  obtain ⟨vs, hvs, hd⟩ := h.elems
  have hnames : vs.mapM f.declares = .ok (t.elems.map Tree.paramName?) :=
    mapM_eq_ok.mpr (List.forall₂_map_right_iff.mpr (hd.imp fun _ _ h => h.declares))
  rw [Forest.paramNames, hvs]
  simp [bind, Except.bind, pure, Except.pure, hnames, Tree.paramNames, List.filterMap_map]

end Forest

namespace Pass.Environment

/-- Two trees that differ at most inside functions, and not in a name that comes first there. -/
inductive Like : Tree Mark → Tree Mark → Prop where
  | leaf (a : Atom) : Like (.leaf a) (.leaf a)
  | code {mark : Mark} {args : List (Tree Mark)} :
      Like (.node mark .sexp args) (.node mark .sexp args)
  | shut {mark : Mark} {tag : Tag} {args args' : List (Tree Mark)}
      (isFunction : tag = .defm ∨ tag = .defun)
      (first : args'.head?.bind Tree.symbol? = args.head?.bind Tree.symbol?) :
      Like (.node mark tag args) (.node mark tag args')
  | node {mark : Mark} {tag : Tag} {args args' : List (Tree Mark)} (isOpen : tag.isSealed = false)
      (each : List.Forall₂ Like args args') : Like (.node mark tag args) (.node mark tag args')

variable {s t u : Tree Mark} {ts us : List (Tree Mark)}

theorem Like.refl (t : Tree Mark) : Like t t := by
  induction t with
  | leaf a => exact .leaf a
  | node mark tag args ih =>
    cases hs : tag.isSealed with
    | true =>
      rcases Tag.isSealed_iff.mp hs with rfl | hf
      · exact .code
      · exact .shut hf rfl
    | false => exact .node hs (List.forall₂_same.mpr ih)

theorem like_open (hs : tag.isSealed = false) (h : Like (.node mark tag args) t) :
    ∃ args', t = .node mark tag args' ∧ List.Forall₂ Like args args' := by
  cases h with
  | code => cases hs
  | shut hf =>
    rw [Tag.isSealed_iff.mpr (.inr hf)] at hs
    cases hs
  | node _ each => exact ⟨_, rfl, each⟩

theorem Like.trans (h : Like s t) (h' : Like t u) : Like s u := by
  induction s generalizing t u with
  | leaf a =>
    cases h
    exact h'
  | node mark tag args ih =>
    cases h with
    | code => exact h'
    | shut hf first =>
      cases h' with
      | code => simp at hf
      | shut _ first' => exact .shut hf (first'.trans first)
      | node hs _ =>
        rw [Tag.isSealed_iff.mpr (.inr hf)] at hs
        cases hs
    | @node _ _ _ args1 hs each =>
      obtain ⟨args2, rfl, each'⟩ := like_open hs h'
      refine .node hs (List.forall₂_iff_get.mpr ⟨each.length_eq.trans each'.length_eq, ?_⟩)
      intro i hi hi'
      have hmid : i < args1.length := each.length_eq ▸ hi
      exact ih _ (List.get_mem args ⟨i, hi⟩) (each.get hi hmid) (each'.get hmid hi')

theorem Like.symm (h : Like s t) : Like t s := by
  induction s generalizing t with
  | leaf a =>
    cases h
    exact .leaf a
  | node mark tag args ih =>
    cases h with
    | code => exact .code
    | shut hf first => exact .shut hf first.symm
    | node hs each =>
      refine .node hs (List.forall₂_iff_get.mpr ⟨each.length_eq.symm, fun i hi hi' => ?_⟩)
      exact ih _ (List.get_mem args ⟨i, hi'⟩) (each.get hi' hi)

theorem Like.symbol? (h : Like t u) : u.symbol? = t.symbol? := by
  cases h <;> rfl

theorem Like.paramName? (h : Like t u) : u.paramName? = t.paramName? := by
  cases h with
  | leaf a => rfl
  | code => rfl
  | @shut mark tag args args' _ first => cases args <;> cases args' <;> exact first
  | node _ each =>
    cases each with
    | nil => rfl
    | cons hfirst _ => exact hfirst.symbol?

theorem Like.elems (h : Like t u) : List.Forall₂ Like t.elems u.elems := by
  cases h with
  | leaf a => exact List.forall₂_same.mpr fun s _ => .refl s
  | code => exact List.forall₂_same.mpr fun s _ => .refl s
  | @shut mark tag args args' hf first =>
    have hl : tag ≠ .list := by
      rintro rfl
      simp at hf
    rw [Tree.elems_node hl, Tree.elems_node hl]
    exact .cons (.shut hf first) .nil
  | @node mark tag args args' hs each =>
    by_cases hl : tag = .list
    · rw [hl]
      exact each
    · rw [Tree.elems_node hl, Tree.elems_node hl]
      exact .cons (.node hs each) .nil

theorem map_of_like (h : List.Forall₂ Like ts us) (hg : ∀ t ∈ ts, ∀ {u}, Like t u → g u = g t) :
    us.map g = ts.map g := by
  induction h with
  | nil => rfl
  | @cons t u ts us htu _ ih =>
    rw [List.map_cons, List.map_cons, hg t (by simp) htu,
      ih fun s hs => hg s (List.mem_cons_of_mem t hs)]

/-- Trees that are alike have the same parameters. -/
theorem Like.paramNames (h : Like t u) : u.paramNames = t.paramNames := by
  have hnames := map_of_like h.elems fun _ _ _ hs => hs.paramName?
  simpa [Tree.paramNames, List.filterMap_map] using congrArg (List.filterMap id) hnames

end Pass.Environment

namespace Scope

open Pass.Environment

theorem malformed?_congr (h : args.map Tree.symbol? = args'.map Tree.symbol?) :
    Tree.malformed? tag args = Tree.malformed? tag args' := by
  have hlen : args.length = args'.length := by simpa using congrArg List.length h
  have hsym : ∀ i : Nat, (args[i]?).bind Tree.symbol? = (args'[i]?).bind Tree.symbol? := by
    intro i
    have hi := congrArg (fun l => (l[i]?).bind id) h
    simpa [Option.bind_map] using hi
  unfold Tree.malformed?
  simp only [hlen, hsym]

theorem nodeEvents_congr (h : args.map Tree.symbol? = args'.map Tree.symbol?)
    (hp : args.map Tree.paramNames = args'.map Tree.paramNames) :
    nodeEvents mark tag args parts = nodeEvents mark tag args' parts := by
  have hsym : args.head?.bind Tree.symbol? = args'.head?.bind Tree.symbol? := by
    have := congrArg (fun l => l.head?.bind id) h
    simpa [Option.bind_map] using this
  have hparams : args.head?.map Tree.paramNames = args'.head?.map Tree.paramNames := by
    have := congrArg List.head? hp
    simpa [List.head?_map] using this
  unfold nodeEvents definition
  simp only [hsym, hparams]

/-- What happens to variables can be seen from outside. -/
theorem events_of_like (h : Like t u) : events u = events t := by
  induction t generalizing u with
  | leaf a =>
    cases h
    rfl
  | node mark tag args ih =>
    cases h with
    | code => rfl
    | shut hf => rw [events_node, events_node, if_pos (.inr hf), if_pos (.inr hf)]
    | @node _ _ _ args' hs each =>
      have hsyms := map_of_like each fun _ _ _ hs => hs.symbol?
      have hparams := map_of_like each fun _ _ _ hs => hs.paramNames
      have hevents := map_of_like each fun s hs _ hsu => ih s hs hsu
      rw [events_node, events_node, malformed?_congr hsyms, hevents, nodeEvents_congr hsyms hparams]

end Scope

end Lowering
