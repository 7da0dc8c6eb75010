import Lowering.Proofs.Outside
import Mathlib.Algebra.Order.BigOperators.Group.List
import Mathlib.Algebra.Order.Ring.Nat
import Mathlib.Logic.Relation

namespace Lowering.Forest

/-- The node `b` is an operand of the node `a`. -/
def Child (f : Forest) (a b : Int) : Prop := ∃ n, f.get? a = some n ∧ b ∈ n.children

/-- No node lies below itself. -/
def Acyclic (f : Forest) : Prop := ∀ id, ¬ Relation.TransGen f.Child id id

/-- Every operand that refers to a node refers to one that exists. -/
def Valid (f : Forest) : Prop :=
  ∀ id n, f.get? id = some n → ∀ child ∈ n.children, ∃ m, f.get? child = some m

/-- By how much more than one level a node may grow, and one. -/
def growth (n : Node) : Nat := n.args.length + 6

open Classical in
/-- What the nodes at and below a node may grow by, all together. -/
noncomputable def budget (f : Forest) (id : Int) : Nat :=
  ((f.nodes.toList.zipIdx 1).map fun p =>
    if Relation.ReflTransGen f.Child id p.2 then growth p.1 else 0).sum

theorem sum_add_le_sum {α : Type} {g h : α → Nat} {d : Nat} {q : α} {l : List α}
    (hle : ∀ p ∈ l, g p ≤ h p) (hq : q ∈ l) (hd : g q + d ≤ h q) :
    (l.map g).sum + d ≤ (l.map h).sum := by
  induction l with
  | nil => simp at hq
  | cons p l ih =>
    simp only [List.map_cons, List.sum_cons]
    have hp := hle p (by simp)
    have hl := fun x hx => hle x (List.mem_cons_of_mem p hx)
    rcases List.mem_cons.mp hq with rfl | hq
    · have := List.sum_le_sum hl
      omega
    · have := ih hl hq
      omega

theorem get?_mem_zipIdx {f : Forest} {id : Int} {n : Node} (h : f.get? id = some n) :
    ∃ i : Nat, id = i ∧ (n, i) ∈ f.nodes.toList.zipIdx 1 := by
  obtain ⟨hl, hu⟩ := get?_eq_some_bounds h
  unfold get? at h
  rw [if_pos hl] at h
  refine ⟨id.toNat, by omega, ?_⟩
  rw [List.mem_zipIdx_iff_le_and_getElem?_sub]
  exact ⟨by omega, by simpa using h⟩

theorem extent_eq (f : Forest) :
    f.extent = 8 + ((f.nodes.toList.zipIdx 1).map fun p => growth p.1).sum := by
  have fold : ∀ (l : List Node) (a : Nat),
      l.foldl (fun total n => total + n.args.length + 6) a = a + (l.map growth).sum := by
    intro l
    induction l with
    | nil => simp
    | cons n l ih =>
      intro a
      simp only [List.foldl_cons, List.map_cons, List.sum_cons, ih, growth]
      omega
  have hmap : (f.nodes.toList.zipIdx 1).map (fun p => growth p.1) =
      f.nodes.toList.map growth := by
    conv_rhs => rw [← List.zipIdx_map_fst 1 f.nodes.toList]
    rw [List.map_map]
    rfl
  rw [hmap, ← fold, extent, Array.foldl_toList]

theorem size_lt_extent (f : Forest) : f.size < f.extent := by
  rw [extent_eq]
  have hlen := List.length_le_sum_of_one_le
    ((f.nodes.toList.zipIdx 1).map fun p => growth p.1) (by simp [growth]; omega)
  simp only [List.length_map, List.length_zipIdx, Array.length_toList] at hlen
  unfold size
  omega

/-- A budget covers the growth of its node and the budget of any node below. -/
theorem budget_child {f : Forest} (hf : f.Acyclic) {id child : Int} {n : Node}
    (hn : f.get? id = some n) (hc : child ∈ n.children) :
    f.budget child + growth n ≤ f.budget id := by
  classical
  obtain ⟨i, rfl, hi⟩ := get?_mem_zipIdx hn
  have hstep : f.Child i child := ⟨n, hn, hc⟩
  refine sum_add_le_sum (q := (n, i)) ?_ hi ?_
  · intro p _
    by_cases h : Relation.ReflTransGen f.Child child p.2
    · rw [if_pos h, if_pos (.head hstep h)]
    · rw [if_neg h]
      omega
  · have hno : ¬ Relation.ReflTransGen f.Child child i := fun h => hf i (.head' hstep h)
    simp only [if_neg hno, if_pos Relation.ReflTransGen.refl]
    omega

theorem growth_le_budget {f : Forest} {id : Int} {n : Node} (hn : f.get? id = some n) :
    growth n ≤ f.budget id := by
  classical
  obtain ⟨i, rfl, hi⟩ := get?_mem_zipIdx hn
  have hsum := List.single_le_sum (l := (f.nodes.toList.zipIdx 1).map fun p =>
    if Relation.ReflTransGen f.Child i p.2 then growth p.1 else 0) (by simp) (growth n)
  apply hsum
  exact List.mem_map.mpr ⟨(n, i), hi, if_pos .refl⟩

theorem budget_le_extent (f : Forest) (id : Int) : f.budget id ≤ f.extent := by
  classical
  rw [extent_eq]
  have h : f.budget id ≤ ((f.nodes.toList.zipIdx 1).map fun p => growth p.1).sum := by
    apply List.sum_le_sum
    intro p _
    split <;> omega
  omega

/-- How many nodes have not been visited. -/
def unseen (f : Forest) (seen : List Int) : Nat :=
  ((f.nodes.toList.zipIdx 1).map fun p => if (p.2 : Int) ∈ seen then 0 else 1).sum

theorem unseen_cons {f : Forest} {seen : List Int} {id : Int} {n : Node}
    (hn : f.get? id = some n) (hid : id ∉ seen) : f.unseen (id :: seen) < f.unseen seen := by
  obtain ⟨i, rfl, hi⟩ := get?_mem_zipIdx hn
  refine sum_add_le_sum (q := (n, i)) (d := 1) ?_ hi ?_
  · intro p _
    by_cases hp : (p.2 : Int) ∈ seen
    · simp [hp]
    · simp only [if_neg hp]
      split <;> omega
  · simp [hid]

theorem unseen_antitone (f : Forest) {seen seen' : List Int} (h : seen ⊆ seen') :
    f.unseen seen' ≤ f.unseen seen := by
  apply List.sum_le_sum
  intro p _
  by_cases hp : (p.2 : Int) ∈ seen
  · rw [if_pos (h hp), if_pos hp]
  · rw [if_neg hp]
    split <;> omega

theorem unseen_le_extent (f : Forest) : f.unseen [] ≤ f.extent := by
  have h : f.unseen [] = f.size := by simp [unseen, size]
  rw [h]
  exact f.size_lt_extent.le

end Lowering.Forest
