import Lowering.Proofs.Unfolding

namespace Lowering

/-- An operand that can be written. -/
def Operand.Writable (v : Operand) : Prop :=
  match v.view with
  | .atom a => a.Writable
  | .child _ => True

instance (v : Operand) : Decidable v.Writable :=
  match h : v.view with
  | .atom a => decidable_of_iff a.Writable (by rw [Operand.Writable, h])
  | .child _ => isTrue (by rw [Operand.Writable, h]; trivial)

/-- The tag of a node has a meaning, and so has the kind of each operand; symbols are such as the
notation can hold. -/
def Node.Writable (n : Node) : Prop := n.tag ∈ Tag.assigned ∧ ∀ v ∈ n.args, v.Writable

instance (n : Node) : Decidable n.Writable :=
  inferInstanceAs (Decidable (n.tag ∈ Tag.assigned ∧ ∀ v ∈ n.args, v.Writable))

namespace Forest

theorem Denotes.writable (h : Denotes f (.ref root) t) (hw : f.AllBelow Node.Writable root) :
    t.Writable := by
  apply h.induct_below (Q := Tree.Writable) ?_ ?_ hw
  · intro n v a hn hv hview
    have hv := hn.2 v hv
    rw [Operand.Writable, hview] at hv
    exact .leaf hv
  · intro n mark args hn _ hargs
    exact .node hn.1 hargs

end Forest

namespace Reader

open Forest

/-- Everything read so far can be written. -/
structure WritableSoFar (f : Forest) (vs : List Operand) : Prop where
  nodes : ∀ id n, f.get? id = some n → n.Writable
  pending : ∀ v ∈ vs, v.Writable

theorem keptByReader_writableSoFar : KeptByReader WritableSoFar where
  atom hl hview hw := by
    refine ⟨hl.nodes, List.forall_mem_cons.mpr ⟨?_, hl.pending⟩⟩
    rwa [Operand.Writable, hview]
  node {f elems rest pre n} hl hargs _ _ htag := by
    obtain ⟨helems, hrest⟩ := List.forall_mem_append.mp hl.pending
    refine ⟨fun id m hm => ?_, List.forall_mem_cons.mpr ⟨trivial, hrest⟩⟩
    rw [get?_push] at hm
    split at hm
    · cases hm
      refine ⟨htag, fun v hv => helems v (List.mem_reverse.mp ?_)⟩
      rw [hargs]
      exact List.mem_append_right pre hv
    · exact hl.nodes id m hm

theorem read_legible (h : read file source {} = .ok root f) :
    ∀ id n, f.get? id = some n → n.Writable := by
  obtain ⟨v, -, hl⟩ := keptByReader_writableSoFar.read
    ⟨fun id n hn => by simp [get?] at hn, by simp⟩ h
  exact hl.nodes

end Reader

namespace Forest

/-- The root of a source stands for a tree, and everything below it can be written. -/
theorem parse_writable (h : parse file source = .ok (f, root)) :
    f.Unfolds root ∧ f.AllBelow Node.Writable root := by
  have hg := parse_grown h
  have hr := parse_ok.mp h
  obtain ⟨ts, hts, -⟩ := hg.trees
  cases hts with
  | @cons _ t _ _ ht _ =>
    cases t with
    | leaf a => cases ht
    | node mark tag args =>
      obtain ⟨hv, n, hn, -⟩ := denotes_node.mp ht
      cases hv
      exact ⟨hg.ordered.unfolds hn, fun id m _ hm => Reader.read_legible hr id m hm⟩

end Forest

end Lowering
