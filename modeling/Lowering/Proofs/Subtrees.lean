import Lowering.Proofs.Shell
import Mathlib.Data.List.Pairwise

namespace Lowering

namespace Tree

mutual
/-- The nodes of a tree, each with what is below it, that one comes to without going below certain
tags. -/
def within (skips : Tag → Bool) : Tree Mark → List (Tree Mark)
  | leaf _ => []
  | node mark tag args => node mark tag args :: if skips tag then [] else withinEach skips args

def withinEach (skips : Tag → Bool) : List (Tree Mark) → List (Tree Mark)
  | [] => []
  | t :: ts => within skips t ++ withinEach skips ts
end

/-- The number of the node at the root. -/
def root : Tree Mark → Int
  | leaf _ => 0
  | node mark _ _ => mark.id

/-- The operands of the node at the root. -/
def operands : Tree Mark → List (Tree Mark)
  | leaf _ => []
  | node _ _ args => args

/-- A function or lowered code. -/
def isSealed : Tree Mark → Bool
  | leaf _ => false
  | node _ tag _ => tag.isSealed

variable {skips : Tag → Bool}

theorem within_node (mark : Mark) (tag : Tag) (args : List (Tree Mark)) :
    within skips (.node mark tag args) =
      .node mark tag args :: if skips tag then [] else args.flatMap (within skips) := by
  have each : ∀ ts : List (Tree Mark), withinEach skips ts = ts.flatMap (within skips) :=
    eq_flatMap rfl fun _ _ => rfl
  rw [within, each]

theorem exists_of_mem_within {t u : Tree Mark} (h : u ∈ t.within skips) :
    ∃ mark tag args, u = .node mark tag args := by
  induction t with
  | leaf a => cases h
  | node mark tag args ih =>
    rw [within_node] at h
    obtain rfl | h := List.mem_cons.mp h
    · exact ⟨mark, tag, args, rfl⟩
    · split at h
      · cases h
      · obtain ⟨t, ht, h⟩ := List.mem_flatMap.mp h
        exact ih t ht h

theorem within_subset (t : Tree Mark) : ∀ u ∈ t.within skips, u ∈ t.within fun _ => false := by
  induction t with
  | leaf a => exact fun _ h => h
  | node mark tag args ih =>
    intro u hu
    rw [within_node] at hu ⊢
    obtain rfl | hu := List.mem_cons.mp hu
    · simp
    · split at hu
      · simp at hu
      · obtain ⟨t, ht, hu⟩ := List.mem_flatMap.mp hu
        exact List.mem_cons_of_mem _ (by simpa using ⟨t, ht, ih t ht u hu⟩)

/-- A tree and everything below it. -/
abbrev nodes (t : Tree Mark) : List (Tree Mark) := t.within fun _ => false

/-- The trees below the nodes of a tree that are not in lowered code, and those below the nodes of
lowered code that are in no other. -/
abbrev exposed (t : Tree Mark) : List (Tree Mark) := t.within fun tag => tag = .sexp

section Nodes

variable {s t u : Tree Mark} {mark : Mark} {tag : Tag} {args : List (Tree Mark)}

theorem mem_within_node : u ∈ (node mark tag args).within skips ↔
    u = node mark tag args ∨ skips tag = false ∧ ∃ s ∈ args, u ∈ s.within skips := by
  rw [within_node, List.mem_cons]
  cases skips tag <;> simp

theorem mem_nodes_node : u ∈ (node mark tag args).nodes ↔
    u = node mark tag args ∨ ∃ s ∈ args, u ∈ s.nodes := by
  rw [nodes, mem_within_node, and_iff_right rfl]

theorem self_mem_nodes : node mark tag args ∈ (node mark tag args).within skips :=
  mem_within_node.mpr (.inl rfl)

theorem mem_within_operand (ht : skips tag = false) (hs : s ∈ args) (hu : u ∈ s.within skips) :
    u ∈ (node mark tag args).within skips :=
  mem_within_node.mpr (.inr ⟨ht, s, hs, hu⟩)

theorem mem_nodes_operand (hs : s ∈ args) (hu : u ∈ s.nodes) : u ∈ (node mark tag args).nodes :=
  mem_within_operand rfl hs hu

theorem mem_nodes_elems (h : u ∈ t.within skips) (hl : ∀ mark args, u ≠ .node mark .list args) :
    ∃ s ∈ t.elems, u ∈ s.within skips := by
  cases t with
  | leaf a => cases h
  | node mark tag args =>
    by_cases ht : tag = .list
    · subst ht
      exact ((mem_within_node.mp h).resolve_left (hl mark args)).2
    · rw [elems_node ht]
      exact ⟨_, List.mem_singleton_self _, h⟩

end Nodes

/-- The numbers of the nodes, in their order. -/
theorem within_ids (t : Tree Mark) : ((t.within skips).map root).Sublist t.ids := by
  induction t with
  | leaf a => exact .slnil
  | node mark tag args ih =>
    rw [within_node, ids_node, List.map_cons]
    refine List.Sublist.cons_cons mark.id ?_
    split
    · exact List.nil_sublist _
    · rw [List.map_flatMap]
      exact flatMap_sublist ih

/-- Operand `i`, or nil if there are fewer. -/
def operand (t : Tree Mark) (i : Nat) : Tree Mark := (t.operands[i]?).getD (.leaf .nil)

theorem operand_cases (t : Tree Mark) (i : Nat) :
    t.operand i = .leaf .nil ∨ t.operands[i]? = some (t.operand i) := by
  unfold operand
  cases t.operands[i]? with
  | none => exact .inl rfl
  | some s => exact .inr rfl

section Gathered

variable {α : Type} {g : Tree Mark → List α}

/-- A node has what its operands have, in their order. -/
def Gathers (g : Tree Mark → List α) : Prop :=
  ∀ (mark : Mark) (tag : Tag) (args : List (Tree Mark)),
    (args.flatMap g).Sublist (g (.node mark tag args))

theorem Gathers.within (hg : Gathers g) (h : u ∈ t.within skips) : (g u).Sublist (g t) := by
  induction t with
  | leaf a => cases h
  | node mark tag args ih =>
    rw [within_node] at h
    obtain rfl | h := List.mem_cons.mp h
    · exact .refl _
    · split at h
      · cases h
      · obtain ⟨s, hs, h⟩ := List.mem_flatMap.mp h
        have hsub := (List.singleton_sublist.mpr hs).flatMap g
        rw [List.flatMap_singleton] at hsub
        exact ((ih s hs h).trans hsub).trans (hg mark tag args)

theorem Gathers.operand (hg : Gathers g) (hnil : g (.leaf .nil) = []) (t : Tree Mark) (i : Nat) :
    (g (t.operand i)).Sublist (g t) := by
  obtain h | h := t.operand_cases i
  · rw [h, hnil]
    exact List.nil_sublist _
  · cases t with
    | leaf a => cases h
    | node mark tag args =>
      have hsub := (List.singleton_sublist.mpr (List.mem_of_getElem? h)).flatMap g
      rw [List.flatMap_singleton] at hsub
      exact hsub.trans (hg mark tag args)

theorem Gathers.elems (hg : Gathers g) (t : Tree Mark) : (t.elems.flatMap g).Sublist (g t) := by
  unfold Tree.elems
  split
  · exact List.nil_sublist _
  · exact hg _ _ _
  · rw [List.flatMap_singleton]

end Gathered

theorem gathers_ids : Gathers ids := by
  intro mark tag args
  rw [ids_node]
  exact List.sublist_cons_self _ _

theorem names_node (mark : Mark) (tag : Tag) (args : List (Tree Mark)) :
    names (.node mark tag args) = args.flatMap names := by
  have each : ∀ ts : List (Tree Mark), namesEach ts = ts.flatMap names :=
    eq_flatMap rfl fun _ _ => rfl
  rw [names, each]

theorem gathers_names : Gathers names := by
  intro mark tag args
  rw [names_node]

theorem ids_within {t u : Tree Mark} (h : u ∈ t.within skips) : u.ids.Sublist t.ids :=
  gathers_ids.within h

theorem ids_operand (t : Tree Mark) (i : Nat) : (t.operand i).ids.Sublist t.ids :=
  gathers_ids.operand rfl t i

/-- Different operands have no nodes in common. -/
theorem operands_apart {t : Tree Mark} (h : t.ids.Nodup) (hij : i < j) :
    List.Disjoint (t.operand i).ids (t.operand j).ids := by
  obtain hi | hi := t.operand_cases i
  · rw [hi]
    exact List.disjoint_nil_left _
  obtain hj | hj := t.operand_cases j
  · rw [hj]
    exact List.disjoint_nil_right _
  cases t with
  | leaf a => cases hi
  | node mark tag args =>
    rw [ids_node] at h
    have hpair := (List.nodup_flatMap.mp (List.nodup_cons.mp h).2).2
    obtain ⟨hi, hi'⟩ := List.getElem?_eq_some_iff.mp hi
    obtain ⟨hj, hj'⟩ := List.getElem?_eq_some_iff.mp hj
    rw [← hi', ← hj']
    exact List.pairwise_iff_getElem.mp hpair i j hi hj hij

theorem root_not_mem_operand {t : Tree Mark} (h : t.ids.Nodup) (i : Nat) :
    t.root ∉ (t.operand i).ids := by
  obtain hnil | hi := t.operand_cases i
  · rw [hnil]
    exact List.not_mem_nil
  · cases t with
    | leaf a => cases hi
    | node mark tag args =>
      rw [ids_node, List.nodup_cons] at h
      exact fun hx => h.1 (List.mem_flatMap.mpr ⟨_, List.mem_of_getElem? hi, hx⟩)

/-- In a tree with distinct numbers a number belongs to one node. -/
theorem eq_of_same_root {t d e : Tree Mark} (h : t.ids.Nodup) (hd : d ∈ t.within skips)
    (he : e ∈ t.within skips) (hroot : d.root = e.root) : d = e :=
  List.inj_on_of_nodup_map (h.sublist t.within_ids) hd he hroot

theorem parts_sublist (t : Tree Mark) :
    (t.parts.flatMap ids).Sublist (t.operands.flatMap ids) := by
  cases t with
  | leaf a => exact .slnil
  | node mark tag args =>
    cases tag
    case sexp | defm | defun => exact List.nil_sublist _
    case callm => exact (List.eraseIdx_sublist args 1).flatMap ids
    case letIn => exact (List.drop_sublist 1 args).flatMap ids
    case lambda | proc =>
      rw [parts_closure rfl]
      cases hbody : args[1]? with
      | none => exact List.nil_sublist _
      | some body =>
        have hsub := (List.singleton_sublist.mpr (List.mem_of_getElem? hbody)).flatMap ids
        rw [List.flatMap_singleton] at hsub
        exact (gathers_ids.elems body).trans hsub
    all_goals exact .refl _

theorem index_unique {ts : List (Tree Mark)} {u u' : Tree Mark} {x : Int} {i j : Nat}
    (hd : (ts.flatMap ids).Nodup)
    (hi : ts[i]? = some u) (hj : ts[j]? = some u') (hx : x ∈ u.ids) (hx' : x ∈ u'.ids) : i = j := by
  have hpair := List.pairwise_iff_getElem.mp (List.nodup_flatMap.mp hd).2
  obtain ⟨hlt, rfl⟩ := List.getElem?_eq_some_iff.mp hi
  obtain ⟨hlt', rfl⟩ := List.getElem?_eq_some_iff.mp hj
  rcases Nat.lt_trichotomy i j with h | h | h
  · exact absurd hx' (hpair i j hlt hlt' h hx)
  · exact h
  · exact absurd hx (hpair j i hlt' hlt h hx')

theorem root_mem_ids_of_within {e t : Tree Mark} (h : e ∈ t.within skips) : e.root ∈ t.ids := by
  obtain ⟨mark, tag, args, rfl⟩ := exists_of_mem_within h
  exact (ids_within h).subset (by simp [ids_node, root])

/-- Of two trees in a tree one is in the other, or they have no nodes in common. -/
theorem nodes_apart {t d e : Tree Mark} (h : t.ids.Nodup) (hd : d ∈ t.nodes) (he : e ∈ t.nodes) :
    e ∈ d.nodes ∨ d ∈ e.nodes ∨ List.Disjoint d.ids e.ids := by
  induction t with
  | leaf a => cases hd
  | node mark tag args ih =>
    rw [ids_node, List.nodup_cons] at h
    rcases mem_nodes_node.mp hd with rfl | ⟨a, ha, hda⟩
    · exact .inl he
    rcases mem_nodes_node.mp he with rfl | ⟨b, hb, heb⟩
    · exact .inr (.inl hd)
    by_cases hab : a = b
    · subst hab
      exact ih a ha ((List.nodup_flatMap.mp h.2).1 a ha) hda heb
    · have hsymm : Std.Symm (Function.onFun List.Disjoint ids) := ⟨fun _ _ hxy _ hx hy => hxy hy hx⟩
      have hdis := (List.nodup_flatMap.mp h.2).2.forall ha hb hab
      exact .inr (.inr fun x hx hx' =>
        hdis ((ids_within hda).subset hx) ((ids_within heb).subset hx'))

/-- What is open in a tree is not in its functions and its lowered code. -/
theorem not_mem_of_openIds {t e : Tree Mark} (h : t.ids.Nodup) (he : e ∈ t.nodes)
    (hs : e.isSealed = true) {x : Int} (hx : x ∈ t.openIds) : x ∉ e.ids := by
  induction t with
  | leaf a => cases he
  | node mark tag args ih =>
    rw [ids_node, List.nodup_cons] at h
    obtain ⟨hopen, hx⟩ := mem_openIds_node.mp hx
    rcases mem_nodes_node.mp he with rfl | ⟨a, ha, hea⟩
    · rw [isSealed, hopen] at hs
      cases hs
    intro hxe
    have hxa := (ids_within hea).subset hxe
    rcases hx with rfl | ⟨b, hb, hxb⟩
    · exact h.1 (List.mem_flatMap.mpr ⟨a, ha, hxa⟩)
    · obtain ⟨i, hi⟩ := List.mem_iff_getElem?.mp ha
      obtain ⟨j, hj⟩ := List.mem_iff_getElem?.mp hb
      obtain rfl := index_unique h.2 hi hj hxa (b.openIds_subset_ids x hxb)
      obtain rfl : a = b := Option.mem_unique hi hj
      exact ih a ha ((List.nodup_flatMap.mp h.2).1 a ha) hea hxb hxe

/-- The parts of a tree have distinct numbers. -/
theorem nodup_parts {t : Tree Mark} (h : t.ids.Nodup) : (t.parts.flatMap ids).Nodup := by
  cases t with
  | leaf a => exact .nil
  | node mark tag args =>
    rw [ids_node] at h
    exact (List.nodup_cons.mp h).2.sublist (parts_sublist (.node mark tag args))

end Tree

namespace Forest

variable {f : Forest} {v : Operand} {t u : Tree Mark} {skips : Tag → Bool}

theorem Denotes.within (h : Denotes f v t) (hu : u ∈ t.within skips) : ∃ w, Denotes f w u := by
  induction t generalizing v with
  | leaf a => cases hu
  | node mark tag args ih =>
    obtain ⟨-, n, -, -, -, hargs⟩ := denotes_node.mp h
    rw [Tree.within_node] at hu
    obtain rfl | hu := List.mem_cons.mp hu
    · exact ⟨v, h⟩
    · split at hu
      · simp at hu
      · obtain ⟨s, hs, hu⟩ := List.mem_flatMap.mp hu
        obtain ⟨w, -, hw⟩ := forall₂_mem_left hargs.flip hs
        exact ih s hs hw hu

end Forest

end Lowering
