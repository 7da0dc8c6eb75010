import Lowering.Proofs.Outside
import Mathlib.Data.List.Flatten
import Mathlib.Data.List.Nodup
import Mathlib.Data.List.Perm.Subperm

namespace Lowering

theorem eq_map {f : List α → List β} {g : α → β} (hnil : f [] = [])
    (hcons : ∀ a as, f (a :: as) = g a :: f as) (as : List α) : f as = as.map g := by
  induction as with
  | nil => exact hnil
  | cons a as ih => rw [hcons, ih, List.map_cons]

theorem eq_flatMap {f : List α → List β} {g : α → List β} (hnil : f [] = [])
    (hcons : ∀ a as, f (a :: as) = g a ++ f as) (as : List α) : f as = as.flatMap g := by
  induction as with
  | nil => exact hnil
  | cons a as ih => rw [hcons, ih, List.flatMap_cons]

namespace Tree

/-- Induction over trees, where the trees below a node form a list. -/
@[induction_eliminator]
theorem induct {α : Type} {P : Tree α → Prop} (leaf : ∀ a, P (.leaf a))
    (node : ∀ mark tag args, (∀ t ∈ args, P t) → P (.node mark tag args)) (t : Tree α) : P t := by
  refine @Tree.rec α P (fun ts => ∀ t ∈ ts, P t) leaf ?_ ?_ ?_ t
  · exact fun mark tag args ih => node mark tag args ih
  · simp
  · exact fun t ts ht hts => List.forall_mem_cons.mpr ⟨ht, hts⟩

mutual
def decEq {α : Type} [DecidableEq α] : (s t : Tree α) → Decidable (s = t)
  | leaf a, leaf b => decidable_of_iff (a = b) (by simp)
  | leaf _, node .. => isFalse nofun
  | node .., leaf _ => isFalse nofun
  | node mark tag args, node mark' tag' args' =>
    have := decEqEach args args'
    decidable_of_iff (mark = mark' ∧ tag = tag' ∧ args = args') (by simp)

def decEqEach {α : Type} [DecidableEq α] : (ss ts : List (Tree α)) → Decidable (ss = ts)
  | [], [] => isTrue rfl
  | [], _ :: _ => isFalse nofun
  | _ :: _, [] => isFalse nofun
  | s :: ss, t :: ts =>
    have := decEq s t
    have := decEqEach ss ts
    decidable_of_iff (s = t ∧ ss = ts) (by simp)
end

instance {α : Type} [DecidableEq α] : DecidableEq (Tree α) := decEq

mutual
/-- The numbers of the nodes of a tree. -/
def ids : Tree Mark → List Int
  | leaf _ => []
  | node mark _ args => mark.id :: idsEach args

def idsEach : List (Tree Mark) → List Int
  | [] => []
  | t :: ts => ids t ++ idsEach ts
end

theorem idsEach_eq (ts : List (Tree Mark)) : idsEach ts = ts.flatMap ids :=
  eq_flatMap rfl (fun _ _ => rfl) ts

theorem ids_node (mark : Mark) (tag : Tag) (args : List (Tree Mark)) :
    ids (.node mark tag args) = mark.id :: args.flatMap ids := by rw [ids, idsEach_eq]

end Tree

namespace Forest

mutual
/-- An operand stands for a tree. -/
def Denotes (f : Forest) : Operand → Tree Mark → Prop
  | v, .leaf a => v.view = .atom a
  | v, .node mark tag args => v.view = .child mark.id ∧ ∃ n, f.get? mark.id = some n ∧
      n.tag = tag ∧ n.pos = mark.pos ∧ DenotesEach f n.args args

def DenotesEach (f : Forest) : List Operand → List (Tree Mark) → Prop
  | [], [] => True
  | v :: vs, t :: ts => Denotes f v t ∧ DenotesEach f vs ts
  | _, _ => False
end

variable {f f' : Forest} {v : Operand} {t : Tree Mark}

theorem denotesEach_iff : DenotesEach f vs ts ↔ List.Forall₂ (Denotes f) vs ts := by
  induction vs generalizing ts with
  | nil => cases ts <;> simp [DenotesEach]
  | cons v vs ih => cases ts <;> simp [DenotesEach, ih]

theorem denotes_node :
    Denotes f v (.node mark tag args) ↔ v.view = .child mark.id ∧ ∃ n, f.get? mark.id = some n ∧
      n.tag = tag ∧ n.pos = mark.pos ∧ List.Forall₂ (Denotes f) n.args args := by
  rw [Denotes]
  simp only [denotesEach_iff]

theorem forall₂_append_left (h : List.Forall₂ R (as ++ as') bs) :
    ∃ bs1 bs2, List.Forall₂ R as bs1 ∧ List.Forall₂ R as' bs2 ∧ bs = bs1 ++ bs2 := by
  induction as generalizing bs with
  | nil => exact ⟨[], bs, .nil, h, rfl⟩
  | cons a as ih =>
    cases h with
    | cons hab h =>
      obtain ⟨bs1, bs2, h1, h2, rfl⟩ := ih h
      exact ⟨_, bs2, .cons hab h1, h2, rfl⟩

theorem forall₂_mem_left (h : List.Forall₂ R as bs) (ha : a ∈ as) : ∃ b ∈ bs, R a b := by
  induction h with
  | nil => simp at ha
  | cons hab _ ih =>
    rcases List.mem_cons.mp ha with rfl | ha
    · exact ⟨_, by simp, hab⟩
    · obtain ⟨b, hb, hr⟩ := ih ha
      exact ⟨b, by simp [hb], hr⟩

theorem Denotes.congr (h : Denotes f v t) (hv : v.view = w.view) : Denotes f w t := by
  cases t with
  | leaf a => exact hv.symm.trans h
  | node mark tag args =>
    obtain ⟨hm, n, hn⟩ := denotes_node.mp h
    exact denotes_node.mpr ⟨hv ▸ hm, n, hn⟩

/-- An operand stands for one tree only. -/
theorem Denotes.unique {u : Tree Mark} (h : Denotes f v t) (h' : Denotes f v u) : t = u := by
  induction t generalizing v u with
  | leaf a =>
    cases u with
    | leaf b =>
      cases h.symm.trans h'
      rfl
    | node mark tag args => cases h.symm.trans (denotes_node.mp h').1
  | node mark tag args ih =>
    cases u with
    | leaf b => cases h'.symm.trans (denotes_node.mp h).1
    | node mark' tag' args' =>
      obtain ⟨hv, n, hn, rfl, hpos, hargs⟩ := denotes_node.mp h
      obtain ⟨hv', n', hn', rfl, hpos', hargs'⟩ := denotes_node.mp h'
      have hid : mark.id = mark'.id := Operand.View.child.inj (hv.symm.trans hv')
      rw [hid] at hn
      cases hn.symm.trans hn'
      have hmark : mark = mark' := by
        cases mark
        cases mark'
        simp_all
      have heq : args = args' := by
        have hlen : args.length = args'.length := by rw [← hargs.length_eq, hargs'.length_eq]
        refine List.ext_getElem hlen fun i hi hi' => ?_
        have hin : i < n.args.length := by rw [hargs.length_eq]; exact hi
        exact ih _ (List.getElem_mem hi) (hargs.get hin hi) (hargs'.get hin hi')
      rw [hmark, heq]

theorem Denotes.child {id : Int} (h : Denotes f v t) (hv : v.child? = some id) :
    ∃ mark tag args, t = .node mark tag args ∧ id = mark.id := by
  have hview := Operand.view_eq_child.mpr hv
  cases t with
  | leaf a => cases hview.symm.trans h
  | node mark tag args =>
    refine ⟨mark, tag, args, rfl, ?_⟩
    have hsame := hview.symm.trans (denotes_node.mp h).1
    simpa using hsame

theorem Denotes.child_mem_ids {id : Int} (h : Denotes f v t) (hv : v.child? = some id) :
    id ∈ t.ids := by
  obtain ⟨mark, tag, args, rfl, rfl⟩ := h.child hv
  simp [Tree.ids]

/-- What is outside a tree does not matter to it. -/
theorem Denotes.frame (h : Denotes f v t) (hf : ∀ id ∈ t.ids, f'.get? id = f.get? id) :
    Denotes f' v t := by
  induction t generalizing v with
  | leaf a => exact h
  | node mark tag args ih =>
    obtain ⟨hv, n, hn, ht, hp, hargs⟩ := denotes_node.mp h
    rw [Tree.ids_node] at hf
    refine denotes_node.mpr ⟨hv, n, by rw [hf _ (by simp), hn], ht, hp, ?_⟩
    refine List.forall₂_iff_get.mpr ⟨hargs.length_eq, fun i hi hi' => ?_⟩
    refine ih _ (List.get_mem args ⟨i, hi'⟩) (hargs.get hi hi') fun id hid => hf id ?_
    exact List.mem_cons_of_mem _ (List.mem_flatMap.mpr ⟨_, List.get_mem args ⟨i, hi'⟩, hid⟩)

theorem Denotes.ids_bounds (h : Denotes f v t) : ∀ id ∈ t.ids, 0 < id ∧ id ≤ f.size := by
  induction t generalizing v with
  | leaf a => simp [Tree.ids]
  | node mark tag args ih =>
    obtain ⟨-, n, hn, -, -, hargs⟩ := denotes_node.mp h
    rw [Tree.ids_node]
    refine List.forall_mem_cons.mpr ⟨get?_eq_some_bounds hn, fun id hid => ?_⟩
    obtain ⟨s, hs, hid⟩ := List.mem_flatMap.mp hid
    obtain ⟨i, hi, rfl⟩ := List.getElem_of_mem hs
    exact ih _ hs (hargs.get (hargs.length_eq ▸ hi) hi) id hid

theorem Denotes.grow (h : Denotes f v t) (hg : Grows f f') : Denotes f' v t := by
  refine h.frame fun id hid => ?_
  obtain ⟨hl, hu⟩ := h.ids_bounds id hid
  obtain ⟨n, hn⟩ := get?_of_bounds hl hu
  rw [hn, hg id n hn]

end Forest

namespace Tree

mutual
/-- The levels of a tree. -/
def depth : Tree Mark → Nat
  | leaf _ => 0
  | node _ _ args => depthEach args + 1

def depthEach : List (Tree Mark) → Nat
  | [] => 0
  | t :: ts => max (depth t) (depthEach ts)
end

theorem depth_le_depthEach (h : t ∈ ts) : depth t ≤ depthEach ts := by
  induction ts with
  | nil => simp at h
  | cons s ts ih =>
    rw [depthEach]
    rcases List.mem_cons.mp h with rfl | h
    · exact Nat.le_max_left _ _
    · exact Nat.le_trans (ih h) (Nat.le_max_right _ _)

theorem depthEach_le (h : ∀ t ∈ ts, depth t ≤ k) : depthEach ts ≤ k := by
  induction ts with
  | nil => exact Nat.zero_le k
  | cons t ts ih =>
    rw [depthEach]
    exact Nat.max_le.mpr ⟨h t (by simp), ih fun s hs => h s (List.mem_cons_of_mem t hs)⟩

/-- A tree has no more levels than nodes. -/
theorem depth_le_length_ids (t : Tree Mark) : depth t ≤ t.ids.length := by
  induction t with
  | leaf a => exact Nat.zero_le _
  | node mark tag args ih =>
    rw [depth, ids_node, List.length_cons]
    refine Nat.succ_le_succ (depthEach_le fun s hs => Nat.le_trans (ih s hs) ?_)
    have hsub := ((List.singleton_sublist.mpr hs).flatMap ids).length_le
    simpa using hsub

end Tree

namespace Forest

variable {f : Forest} {v : Operand} {t : Tree Mark}

theorem mapM_eq_ok {g : α → Except ε β} :
    as.mapM g = .ok bs ↔ List.Forall₂ (fun a b => g a = .ok b) as bs := by
  induction as generalizing bs with
  | nil => cases bs <;> simp [pure, Except.pure]
  | cons a as ih =>
    rw [List.mapM_cons]
    cases ha : g a with
    | error e => cases bs <;> simp [bind, Except.bind, ha]
    | ok b =>
      cases has : as.mapM g with
      | error e =>
        have hno : ∀ bs, ¬ List.Forall₂ (fun a b => g a = .ok b) as bs := fun bs h => by
          rw [← ih, has] at h
          cases h
        cases bs <;> simp [bind, Except.bind, hno]
      | ok bs' =>
        have hbs := ih.mp has
        cases bs with
        | nil => simp [bind, Except.bind, pure, Except.pure]
        | cons b2 bs2 =>
          rw [List.forall₂_cons, ← ih, ha, has]
          simp [bind, Except.bind, pure, Except.pure]

/-- The tree of an operand, read off down to a depth. -/
def operandFrom (f : Forest) (k : Nat) (v : Operand) : Except Fault (Tree Mark) :=
  match v.view with
  | .atom a => .ok (.leaf a)
  | .child c => f.treeFrom k c

theorem treeFrom_succ {k : Nat} {id : Int} : f.treeFrom (k + 1) id = .ok t ↔
    ∃ n args, f.get? id = some n ∧
      List.Forall₂ (fun v s => f.operandFrom k v = .ok s) n.args args ∧
      t = .node ⟨id, n.pos⟩ n.tag args := by
  have unfolded : f.treeFrom (k + 1) id = (do
      let n ← f.get id
      let args ← n.args.mapM (f.operandFrom k)
      return .node ⟨id, n.pos⟩ n.tag args) := rfl
  rw [unfolded]
  cases hn : f.get? id with
  | none => simp [Forest.get, hn, bind, Except.bind]
  | some n =>
    rw [get_eq_ok.mpr hn]
    simp only [← mapM_eq_ok]
    cases hargs : n.args.mapM (f.operandFrom k) with
    | error e => simp [bind, Except.bind, hargs]
    | ok args =>
      simp [bind, Except.bind, hargs, pure, Except.pure, eq_comm]

/-- Reading off finds the tree that an operand stands for, if it goes deep enough. -/
theorem Denotes.operandFrom {k : Nat} (h : Denotes f v t) (hk : t.depth ≤ k) :
    f.operandFrom k v = .ok t := by
  induction t generalizing k v with
  | leaf a =>
    unfold Forest.operandFrom
    rw [show v.view = .atom a from h]
  | node mark tag args ih =>
    obtain ⟨hv, n, hn, ht, hp, hargs⟩ := denotes_node.mp h
    unfold Forest.operandFrom
    rw [hv]
    cases k with
    | zero => simp [Tree.depth] at hk
    | succ k =>
      rw [Tree.depth] at hk
      refine treeFrom_succ.mpr ⟨n, args, hn, ?_, by rw [ht, hp]⟩
      refine List.forall₂_iff_get.mpr ⟨hargs.length_eq, fun i hi hi' => ?_⟩
      have hmem := List.get_mem args ⟨i, hi'⟩
      have := Tree.depth_le_depthEach hmem
      exact ih _ hmem (hargs.get hi hi') (by omega)

/-- A tree that is read is one that the operand stands for. -/
theorem denotes_of_operandFrom {k : Nat} (h : f.operandFrom k v = .ok t) : Denotes f v t := by
  induction t generalizing k v with
  | leaf a =>
    unfold Forest.operandFrom at h
    cases hv : v.view with
    | atom b =>
      rw [hv] at h
      cases h
      exact hv
    | child c =>
      rw [hv] at h
      cases k with
      | zero => cases h
      | succ k =>
        obtain ⟨n, args, -, -, ht⟩ := treeFrom_succ.mp h
        cases ht
  | node mark tag args ih =>
    unfold Forest.operandFrom at h
    cases hv : v.view with
    | atom b =>
      rw [hv] at h
      cases h
    | child c =>
      rw [hv] at h
      cases k with
      | zero => cases h
      | succ k =>
        obtain ⟨n, args', hn, hargs, ht⟩ := treeFrom_succ.mp h
        cases ht
        refine denotes_node.mpr ⟨hv, n, hn, rfl, rfl, ?_⟩
        refine List.forall₂_iff_get.mpr ⟨hargs.length_eq, fun i hi hi' => ?_⟩
        exact ih _ (List.get_mem _ ⟨i, hi'⟩) (hargs.get hi hi')

theorem operandTree_eq (f : Forest) (v : Operand) :
    f.operandTree v = f.operandFrom (f.size + 1) v := rfl

/-- Nodes of a forest, none of them twice, are no more than it has. -/
theorem length_le_size {ids : List Int} (hd : ids.Nodup) (hb : ∀ id ∈ ids, 0 < id ∧ id ≤ f.size) :
    ids.length ≤ f.size := by
  have hsub : ids ⊆ (List.range f.size).map fun (i : Nat) => (i : Int) + 1 := by
    intro id hid
    obtain ⟨hl, hu⟩ := hb id hid
    exact List.mem_map.mpr ⟨id.toNat - 1, List.mem_range.mpr (by omega), by omega⟩
  have hlen := (List.Nodup.subperm hd hsub).length_le
  rwa [List.length_map, List.length_range] at hlen

/-- A tree with no node twice is no deeper than the forest has nodes. -/
theorem Denotes.operandTree (h : Denotes f v t) (hd : t.ids.Nodup) : f.operandTree v = .ok t := by
  rw [operandTree_eq]
  refine h.operandFrom ?_
  have hlen := length_le_size hd h.ids_bounds
  have := t.depth_le_length_ids
  omega

end Forest

end Lowering
