import Lowering.Proofs.Parsed

namespace Lowering.Forest

variable {f : Forest} {root : Int}

/-- A node is reached from another by way of operands. -/
abbrev Below (f : Forest) : Int → Int → Prop := Relation.ReflTransGen f.Child

/-- Nothing below a node is missing, and nothing below it lies below itself. -/
structure Unfolds (f : Forest) (root : Int) : Prop where
  exist : ∀ id, f.Below root id → ∃ n, f.get? id = some n
  acyclic : ∀ id, f.Below root id → ¬ Relation.TransGen f.Child id id

theorem Unfolds.child {id child : Int} (h : f.Unfolds id) (hn : f.get? id = some n)
    (hc : child ∈ n.children) : f.Unfolds child := by
  have hstep : f.Child id child := ⟨n, hn, hc⟩
  exact ⟨fun x hx => h.exist x (.head hstep hx), fun x hx => h.acyclic x (.head hstep hx)⟩

theorem Ordered.unfolds (h : f.Ordered) (hn : f.get? root = some n) : f.Unfolds root := by
  refine ⟨fun id hid => ?_, fun id _ => h.acyclic id⟩
  induction hid with
  | refl => exact ⟨n, hn⟩
  | tail _ hstep _ =>
    obtain ⟨m, hm, hc⟩ := hstep
    exact h.valid _ m hm _ hc

theorem Ordered.push {n : Node} (h : f.Ordered) (hc : ∀ c ∈ n.children, 0 < c ∧ c ≤ f.size) :
    (f.push n).Ordered := by
  intro id m hm child hchild
  rw [get?_push] at hm
  split at hm
  · cases hm
    have := hc child hchild
    omega
  · exact h id m hm child hchild

theorem exists_forall₂ (h : ∀ a ∈ as, ∃ b, R a b) : ∃ bs, List.Forall₂ R as bs := by
  induction as with
  | nil => exact ⟨[], .nil⟩
  | cons a as ih =>
    obtain ⟨b, hb⟩ := h a (by simp)
    obtain ⟨bs, hbs⟩ := ih fun x hx => h x (List.mem_cons_of_mem a hx)
    exact ⟨b :: bs, .cons hb hbs⟩

/-- The tree below a node is found on every path of distinct nodes that leads to it, with as many
levels left as there are nodes off the path. -/
theorem Unfolds.treeFrom {k : Nat} {id : Int} {p : List Int} (h : f.Unfolds id)
    (hd : p.Nodup) (hp : ∀ x ∈ p, (∃ n, f.get? x = some n) ∧ Relation.TransGen f.Child x id)
    (hk : f.size + 1 ≤ p.length + k) : ∃ t, f.treeFrom k id = .ok t := by
  induction k generalizing id p with
  | zero =>
    have hlen : p.length ≤ f.size := length_le_size hd fun x hx => by
      obtain ⟨⟨n, hn⟩, -⟩ := hp x hx
      exact get?_eq_some_bounds hn
    omega
  | succ k ih =>
    obtain ⟨n, hn⟩ := h.exist id .refl
    have hnew : id ∉ p := fun hm => h.acyclic id .refl (hp id hm).2
    have hpath : ∀ v ∈ n.args, ∃ s, f.operandFrom k v = .ok s := by
      intro v hv
      unfold operandFrom
      cases hview : v.view with
      | atom a => exact ⟨_, rfl⟩
      | child c =>
        have hc : c ∈ n.children :=
          List.mem_filterMap.mpr ⟨v, hv, Operand.view_eq_child.mp hview⟩
        have hstep : f.Child id c := ⟨n, hn, hc⟩
        apply ih (p := id :: p) (h.child hn hc) (List.nodup_cons.mpr ⟨hnew, hd⟩)
        · intro x hx
          rcases List.mem_cons.mp hx with rfl | hx
          · exact ⟨⟨n, hn⟩, .single hstep⟩
          · exact ⟨(hp x hx).1, (hp x hx).2.tail hstep⟩
        · rw [List.length_cons]
          omega
    obtain ⟨args, hargs⟩ := exists_forall₂ hpath
    exact ⟨_, treeFrom_succ.mpr ⟨n, args, hn, hargs, rfl⟩⟩

theorem Unfolds.tree (h : f.Unfolds root) :
    ∃ t, f.tree root = .ok t ∧ Denotes f (.ref root) t := by
  obtain ⟨t, ht⟩ := h.treeFrom (k := f.size + 1) (p := []) List.nodup_nil (by simp) (by simp)
  exact ⟨t, ht, denotes_of_operandFrom (k := f.size + 1) ht⟩

/-- Every node at or below a root meets a condition. -/
def AllBelow (P : Node → Prop) (f : Forest) (root : Int) : Prop :=
  ∀ id n, f.Below root id → f.get? id = some n → P n

theorem allBelow_of_mem (h : ∀ n ∈ f.nodes, P n) : f.AllBelow P root := by
  intro id n _ hn
  unfold get? at hn
  split at hn
  · exact h n (Array.mem_of_getElem? hn)
  · cases hn

theorem AllBelow.child {id child : Int} (h : f.AllBelow P id) (hn : f.get? id = some n)
    (hc : child ∈ n.children) : f.AllBelow P child :=
  fun x m hx hm => h x m (.head ⟨n, hn, hc⟩ hx) hm

/-- Induction over the tree of a node: at each node its operands are atoms or again nodes whose
trees have the property. -/
theorem Denotes.induct_below {Q : Tree Mark → Prop}
    (leaf : ∀ n v a, P n → v ∈ n.args → v.view = .atom a → Q (.leaf a))
    (node : ∀ n mark args, P n → n.args.length = args.length → (∀ s ∈ args, Q s) →
      Q (.node mark n.tag args)) (h : Denotes f (.ref root) t) (hP : f.AllBelow P root) : Q t := by
  have below : ∀ (t : Tree Mark) (v : Operand) (id : Int), v.view = .child id → Denotes f v t →
      f.AllBelow P id → Q t := by
    intro t
    induction t with
    | leaf a =>
      intro v id hv h
      cases hv.symm.trans h
    | node mark tag args ih =>
      intro v id hv h hP
      obtain ⟨hview, n, hn, rfl, -, hargs⟩ := denotes_node.mp h
      obtain rfl : id = mark.id := by
        cases hv.symm.trans hview
        rfl
      have hp : P n := hP mark.id n .refl hn
      apply node n mark args hp hargs.length_eq
      intro s hs
      obtain ⟨w, hw, hws⟩ := forall₂_mem_left hargs.flip hs
      cases hwv : w.view with
      | atom a =>
        cases s with
        | leaf b =>
          cases hwv.symm.trans hws
          exact leaf n w a hp hw hwv
        | node mark' tag' args' => cases hwv.symm.trans (denotes_node.mp hws).1
      | child c =>
        apply ih s hs w c hwv hws
        exact hP.child hn (List.mem_filterMap.mpr ⟨w, hw, Operand.view_eq_child.mp hwv⟩)
  exact below t (.ref root) root rfl h hP

end Lowering.Forest
