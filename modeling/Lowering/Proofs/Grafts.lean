import Lowering.Proofs.KeptTrees
import Lowering.Proofs.Subtrees

namespace Lowering

namespace Tree

mutual
/-- A tree that is changed at the node with a number. -/
def graft (x : Int) (change : Tree Mark → Tree Mark) : Tree Mark → Tree Mark
  | leaf a => leaf a
  | node mark tag args =>
    if mark.id = x then change (node mark tag args) else node mark tag (graftEach x change args)

def graftEach (x : Int) (change : Tree Mark → Tree Mark) : List (Tree Mark) → List (Tree Mark)
  | [] => []
  | t :: ts => graft x change t :: graftEach x change ts
end

variable {x : Int} {change change' : Tree Mark → Tree Mark} {s t u : Tree Mark}
variable {ts : List (Tree Mark)} {mark : Mark} {tag : Tag} {args : List (Tree Mark)}
variable {skips : Tag → Bool}

theorem nodes_trans (hs : s ∈ t.within skips) (hu : u ∈ s.within skips) : u ∈ t.within skips := by
  induction t with
  | leaf a => cases hs
  | node mark tag args ih =>
    rcases mem_within_node.mp hs with rfl | ⟨ht, a, ha, hs⟩
    · exact hu
    · exact mem_within_operand ht ha (ih a ha hs)

theorem graftEach_eq (ts : List (Tree Mark)) : graftEach x change ts = ts.map (graft x change) :=
  eq_map rfl (fun _ _ => rfl) ts

theorem graft_self (h : mark.id = x) :
    graft x change (node mark tag args) = change (node mark tag args) := by
  rw [graft, if_pos h]

theorem graft_node (h : mark.id ≠ x) :
    graft x change (node mark tag args) = node mark tag (args.map (graft x change)) := by
  rw [graft, if_neg h, graftEach_eq]

theorem map_eq_self (h : ∀ s ∈ ts, g s = s) : ts.map g = ts := by
  conv => rhs; rw [← List.map_id ts]
  exact List.map_congr_left h

/-- Where there is no such number nothing is changed. -/
theorem graft_of_not_mem (h : x ∉ t.ids) : t.graft x change = t := by
  induction t with
  | leaf a => rfl
  | node mark tag args ih =>
    rw [ids_node, List.mem_cons, List.mem_flatMap, not_or] at h
    rw [graft_node (Ne.symm h.1), map_eq_self fun s hs => ih s hs fun hx => h.2 ⟨s, hs, hx⟩]

theorem map_graft_of_not_mem (h : x ∉ idsOf ts) : ts.map (graft x change) = ts :=
  map_eq_self fun s hs => graft_of_not_mem fun hx => h (mem_idsOf.mpr ⟨s, hs, hx⟩)

/-- Any other node stands where it stood, changed below if the node is there, or it stands below the
node itself. -/
theorem graft_mem_nodes (hu : u ∈ t.within skips) (hne : u.root ≠ x) :
    u.graft x change ∈ (t.graft x change).within skips ∨
      ∃ s ∈ t.within skips, s.root = x ∧ u ∈ s.within skips := by
  induction t with
  | leaf a => cases hu
  | node mark tag args ih =>
    by_cases hid : mark.id = x
    · exact .inr ⟨_, self_mem_nodes, hid, hu⟩
    rcases mem_within_node.mp hu with rfl | ⟨ht, s, hs, hu⟩
    · rw [graft_node hid]
      exact .inl self_mem_nodes
    · rcases ih s hs hu with h | ⟨r, hr, hroot, hu⟩
      · rw [graft_node hid]
        exact .inl (mem_within_operand ht (List.mem_map_of_mem hs) h)
      · exact .inr ⟨r, mem_within_operand ht hs hr, hroot, hu⟩

theorem graft_id (x : Int) (t : Tree Mark) : t.graft x id = t := by
  induction t with
  | leaf a => rfl
  | node mark tag args ih =>
    by_cases hid : mark.id = x
    · exact graft_self hid
    · rw [graft_node hid, map_eq_self ih]

theorem change_mem_nodes (hd : t.ids.Nodup) (hs : s ∈ t.within skips) (hroot : s.root = x) :
    ∀ u ∈ (change s).within skips, u ∈ (t.graft x change).within skips := by
  induction t with
  | leaf a => cases hs
  | node mark tag args ih =>
    intro u hu
    rw [ids_node, List.nodup_cons] at hd
    rcases mem_within_node.mp hs with rfl | ⟨ht, a, ha, hs⟩
    · rwa [graft_self hroot]
    · have hid : mark.id ≠ x := by
        rintro rfl
        refine hd.1 (List.mem_flatMap.mpr ⟨a, ha, ?_⟩)
        exact hroot ▸ root_mem_ids_of_within hs
      rw [graft_node hid]
      refine mem_within_operand ht (List.mem_map_of_mem ha) ?_
      exact ih a ha ((List.nodup_flatMap.mp hd.2).1 a ha) hs u hu

/-- In trees with distinct numbers a number belongs to one node. -/
theorem eq_of_same_root_each (hd : (idsOf ts).Nodup) (ht : t ∈ ts) (ht' : t' ∈ ts)
    (hs : s ∈ t.nodes) (hu : u ∈ t'.nodes) (h : s.root = u.root) : s = u := by
  have heq : t = t' := by
    by_contra hne
    have : Std.Symm (Function.onFun List.Disjoint ids) := ⟨fun _ _ h _ hx hy => h hy hx⟩
    have hapart := (List.nodup_flatMap.mp hd).2.forall ht ht' hne
    exact hapart (root_mem_ids_of_within hs) (h ▸ root_mem_ids_of_within hu)
  subst heq
  exact eq_of_same_root ((List.nodup_flatMap.mp hd).1 t ht) hs hu h

end Tree

open Forest

variable {U : Int → Prop} {c c' : Context} {v : Operand} {vs : List Operand} {n : Node}
variable {s t : Tree Mark} {ts : List (Tree Mark)} {mark : Mark} {tag : Tag} {x : Int}

/-- A node of some trees. What comes in the place of the tree below it comes with all that is around
it. -/
structure Grafts (U : Int → Prop) (c : Context) (vs : List Operand) (ts : List (Tree Mark))
    (x : Int) (s : Tree Mark) : Prop where
  bears : Bears U c [.ref x] [s]
  graft : ∀ change {c'}, Reworks U c [s] c' [.ref x] [change s] →
    Reworks U c ts c' vs (ts.map (Tree.graft x change))

namespace Grafts

theorem cons_head (hh : Bears U c (v :: vs) (t :: ts)) (hx : x ∉ Tree.idsOf ts)
    (h : Grafts U c [v] [t] x s) : Grafts U c (v :: vs) (t :: ts) x s where
  bears := h.bears
  graft change _ hr := by
    rw [List.map_cons, Tree.map_graft_of_not_mem hx]
    exact (h.graft change hr).keepTail hh

theorem cons_tail (hh : Bears U c (v :: vs) (t :: ts)) (hx : x ∉ t.ids)
    (h : Grafts U c vs ts x s) : Grafts U c (v :: vs) (t :: ts) x s where
  bears := h.bears
  graft change _ hr := by
    rw [List.map_cons, Tree.graft_of_not_mem hx]
    exact (h.graft change hr).keepHead hh

theorem below (hh : Bears U c [v] [.node mark tag ts]) (hn : c.forest.get? mark.id = some n)
    (hx : x ≠ mark.id) (h : Grafts U c n.args ts x s) : Grafts U c [v] [.node mark tag ts] x s where
  bears := h.bears
  graft change _ hr := by
    rw [List.map_singleton, Tree.graft_node (Ne.symm hx)]
    exact (h.graft change hr).below hh hn

end Grafts

theorem Bears.grafts_of_each (hh : Bears U c vs ts) (ht : t ∈ ts) (hx : x ∈ t.ids)
    (each : ∀ {v}, Bears U c [v] [t] → Grafts U c [v] [t] x s) : Grafts U c vs ts x s := by
  induction ts generalizing vs with
  | nil => cases ht
  | cons t' ts ih =>
    obtain ⟨v, vs, -, -, rfl⟩ := List.forall₂_cons_right_iff.mp hh.denotes
    have hd := hh.nodup
    rw [Tree.idsOf_cons, List.nodup_append'] at hd
    rcases List.mem_cons.mp ht with rfl | ht
    · exact (each hh.head).cons_head hh (hd.2.2 hx)
    · exact (ih hh.tail ht).cons_tail hh fun hx' => hd.2.2 hx' (Tree.mem_idsOf.mpr ⟨t, ht, hx⟩)

/-- Any of the nodes can be worked on by itself. -/
theorem Bears.grafts (hh : Bears U c vs ts) (ht : t ∈ ts) (hs : s ∈ t.nodes) :
    Grafts U c vs ts s.root s := by
  refine hh.grafts_of_each ht (Tree.root_mem_ids_of_within hs) ?_
  clear ht hh
  induction t with
  | leaf a => cases hs
  | node mark tag args ih =>
    intro v hv
    obtain ⟨hview, -, hnot, n, hn, -, -, hargs⟩ := hv.node
    rcases Tree.mem_nodes_node.mp hs with rfl | ⟨a, ha, hs⟩
    · refine ⟨⟨hv.uses, ?_, hv.nodup, hv.used⟩, fun change c' hr => ?_⟩
      · exact .cons ((List.forall₂_cons.mp hv.denotes).1.congr hview) .nil
      · rw [List.map_singleton, Tree.graft_self (x := (Tree.node mark tag args).root) rfl]
        exact hr.of_view hview.symm
    · have hroot := Tree.root_mem_ids_of_within hs
      refine (hargs.grafts_of_each ha hroot (ih a ha hs)).below hv hn fun heq => hnot ?_
      exact heq ▸ Tree.mem_idsOf.mpr ⟨a, ha, hroot⟩

end Lowering
