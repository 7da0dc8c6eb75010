import Lowering.Proofs.Prologues
import Lowering.Proofs.Subtrees

namespace Lowering

open Forest PassM

namespace Tree

mutual
/-- The tree in which every node outside lowered code has been made anew, over operands that have
been made anew. -/
def rebuild (make : Tag → List (Tree Unit) → Tree Unit) : Tree Unit → Tree Unit
  | leaf a => leaf a
  | node _ tag args => if tag = .sexp then node () tag args else make tag (rebuildEach make args)

def rebuildEach (make : Tag → List (Tree Unit) → Tree Unit) : List (Tree Unit) → List (Tree Unit)
  | [] => []
  | t :: ts => rebuild make t :: rebuildEach make ts
end

variable {make : Tag → List (Tree Unit) → Tree Unit}

theorem rebuildEach_eq (ts : List (Tree Unit)) : rebuildEach make ts = ts.map (rebuild make) :=
  eq_map rfl (fun _ _ => rfl) ts

@[simp] theorem rebuild_leaf (a : Atom) : rebuild make (.leaf a) = .leaf a := by rw [rebuild]

theorem rebuild_node (ht : tag ≠ .sexp) (args : List (Tree Unit)) :
    rebuild make (.node () tag args) = make tag (args.map (rebuild make)) := by
  rw [rebuild, if_neg ht, rebuildEach_eq]

theorem rebuild_sexp (args : List (Tree Unit)) :
    rebuild make (.node () .sexp args) = .node () .sexp args := by
  rw [rebuild, if_pos rfl]

/-- The shape in which every form has been expanded. -/
def rebuilt (make : Tag → List (Tree Unit) → Tree Unit) (t : Tree Mark) : Tree Unit :=
  t.shape.rebuild make

@[simp] theorem rebuilt_leaf (a : Atom) : rebuilt make (.leaf a) = .leaf a := by
  rw [rebuilt, shape, rebuild_leaf]

theorem rebuilt_node (ht : tag ≠ .sexp) (mark : Mark) (args : List (Tree Mark)) :
    rebuilt make (.node mark tag args) = make tag (args.map (rebuilt make)) := by
  rw [rebuilt, shape_node, rebuild_node ht, List.map_map]
  rfl

/-- Some node outside lowered code is such that the pass refuses it. -/
def Refused (faulty : Tag → List (Tree Mark) → Prop) (t : Tree Mark) : Prop :=
  ∃ mark tag args, .node mark tag args ∈ t.within (· = .sexp) ∧ faulty tag args

variable {faulty : Tag → List (Tree Mark) → Prop}

theorem not_refused_leaf (a : Atom) : ¬ Refused faulty (.leaf a) := by
  rintro ⟨mark, tag, args, h, -⟩
  simp [within] at h

theorem refused_node : Refused faulty (.node mark tag args) ↔
      faulty tag args ∨ (tag ≠ .sexp ∧ ∃ t ∈ args, Refused faulty t) := by
  unfold Refused
  simp only [within_node, List.mem_cons]
  constructor
  · rintro ⟨mark', tag', args', h | h, hf⟩
    · cases h
      exact .inl hf
    · by_cases ht : tag = .sexp
      · simp [ht] at h
      · rw [if_neg (by simpa using ht), List.mem_flatMap] at h
        obtain ⟨t, hmem, h⟩ := h
        exact .inr ⟨ht, t, hmem, mark', tag', args', h, hf⟩
  · rintro (hf | ⟨ht, t, hmem, mark', tag', args', h, hf⟩)
    · exact ⟨mark, tag, args, .inl rfl, hf⟩
    · rw [if_neg (by simpa using ht)]
      exact ⟨mark', tag', args', .inr (List.mem_flatMap.mpr ⟨t, hmem, h⟩), hf⟩

theorem refused_unless (h : ¬ faulty tag args) : Refused faulty (.node mark tag args) ↔
      tag ≠ .sexp ∧ ∃ t ∈ args, Refused faulty t := by
  rw [refused_node]
  simp [h]

end Tree

/-- What the visits of a pass that expands forms do. They leave alone what is no form, refuse a
faulty one, and put into the place of the others what the pass makes of them. -/
structure Expands (visit : Int → Node → PassM Walk.Action) (isForm : Tag → Bool)
    (make : Tag → List (Tree Unit) → Tree Unit) (faulty : Tag → List (Tree Mark) → Prop) :
    Prop where
  sexp : isForm .sexp = false
  skips : ∀ {id n}, n.tag = .sexp → visit id n = pure .skip
  passes : ∀ {id n}, n.tag ≠ .sexp → isForm n.tag = false → visit id n = pure .descend
  plain : ∀ {tag}, isForm tag = false →
    (∀ args, ¬ faulty tag args) ∧ ∀ es, make tag es = .node () tag es
  form : ∀ {U c v mark args n act c1}, isForm n.tag = true →
    Bears U c [v] [.node mark n.tag args] → c.forest.get? mark.id = some n → n.pos = mark.pos →
    Bears U c n.args args → visit mark.id n c = .ok act c1 →
    act = .descend ∧ ∃ tag1 args1,
      Reworks U c [.node mark n.tag args] c1 [v] [.node mark tag1 args1] ∧
      ((Tree.node mark n.tag args).Refused faulty ↔ ∃ t ∈ args1, t.Refused faulty) ∧
      make n.tag (args.map (Tree.rebuilt make)) =
        .node () tag1 (args1.map (Tree.rebuilt make))
  refused : ∀ {U c args n id e c1}, isForm n.tag = true → Bears U c n.args args →
    visit id n c = .error e c1 → ¬ e.IsFault → c1 = c ∧ faulty n.tag args

/-- A tree has been expanded and no form in it refused. -/
def Expanded (make : Tag → List (Tree Unit) → Tree Unit) (faulty : Tag → List (Tree Mark) → Prop)
    (_ : Context) (t : Tree Mark) (_ : Context) (t' : Tree Mark) : Prop :=
  ¬ t.Refused faulty ∧ t'.shape = t.rebuilt make

variable {visit : Int → Node → PassM Walk.Action}
variable {make : Tag → List (Tree Unit) → Tree Unit} {faulty : Tag → List (Tree Mark) → Prop}

theorem Threads.expanded (h : Threads (Expanded make faulty) c ts c' ts') :
    (¬ ∃ t ∈ ts, t.Refused faulty) ∧
      ts'.map Tree.shape = ts.map (Tree.rebuilt make) := by
  induction h with
  | nil c => simp
  | cons head _ ih =>
    refine ⟨?_, by rw [List.map_cons, List.map_cons, head.2, ih.2]⟩
    rintro ⟨t, ht, hr⟩
    rcases List.mem_cons.mp ht with rfl | ht
    · exact head.1 hr
    · exact ih.1 ⟨t, ht, hr⟩

/-- A pass that expands forms from the root down makes the tree anew from the leaves up. -/
theorem Expands.rewrites (h : Expands visit isForm make faulty) :
    Rewrites visit (Expanded make faulty) (Tree.Refused faulty) where
  leaf c a := ⟨Tree.not_refused_leaf a, by simp [Tree.shape]⟩
  ok {U c v mark tag args n act c1} hh hn hact := by
    obtain ⟨rfl, hpos, hargs⟩ := hh.stored hn
    -- Where the visit goes on, what it has put below the node decides.
    have hclose : ∀ {tag1 args1}, n.tag ≠ .sexp →
        ((Tree.node mark n.tag args).Refused faulty ↔ ∃ t ∈ args1, t.Refused faulty) →
        make n.tag (args.map (Tree.rebuilt make)) =
          .node () tag1 (args1.map (Tree.rebuilt make)) →
        ∀ c' args', Threads (Expanded make faulty) c1 args1 c' args' →
          Expanded make faulty c (.node mark n.tag args) c' (.node mark tag1 args') := by
      intro tag1 args1 ht hsame hmake c' args' hthreads
      obtain ⟨hargs, hshapes⟩ := hthreads.expanded
      refine ⟨fun hr => hargs (hsame.mp hr), ?_⟩
      rw [Tree.shape_node, hshapes, Tree.rebuilt_node ht, hmake]
    by_cases ht : n.tag = .sexp
    · rw [h.skips ht] at hact
      obtain ⟨rfl, rfl⟩ := pure_ok.mp hact
      refine ⟨n.tag, args, .refl hh, .inl ⟨rfl, ?_, ?_⟩⟩
      · simp [Tree.refused_node, ht, (h.plain h.sexp).1]
      · rw [Tree.rebuilt, Tree.shape_node, ht, Tree.rebuild_sexp]
    cases hf : isForm n.tag with
    | false =>
      rw [h.passes ht hf] at hact
      obtain ⟨rfl, rfl⟩ := pure_ok.mp hact
      refine ⟨n.tag, args, .refl hh, .inr ⟨rfl, fun t hmem hr => ?_, ?_⟩⟩
      · exact Tree.refused_node.mpr (.inr ⟨ht, t, hmem, hr⟩)
      · refine hclose ht ?_ ((h.plain hf).2 _)
        simp [Tree.refused_node, (h.plain hf).1, ht]
    | true =>
      obtain ⟨rfl, tag1, args1, hrework, hsame, hmake⟩ :=
        h.form hf hh hn hpos hargs hact
      exact ⟨tag1, args1, hrework, .inr ⟨rfl, fun t hmem hr => hsame.mpr ⟨t, hmem, hr⟩,
        hclose ht hsame hmake⟩⟩
  refused {U c v mark tag args n e c1} hh hn hvisit he := by
    obtain ⟨rfl, -, hargs⟩ := hh.stored hn
    have ht : n.tag ≠ .sexp := by
      intro ht
      rw [h.skips ht] at hvisit
      exact pure_error hvisit
    cases hf : isForm n.tag with
    | false =>
      rw [h.passes ht hf] at hvisit
      exact absurd hvisit pure_error
    | true =>
      obtain ⟨rfl, hfaulty⟩ := h.refused hf hargs hvisit he
      exact ⟨rfl, Tree.refused_node.mpr (.inl hfaulty)⟩

end Lowering
