import Lowering.Proofs.AssignmentExpansions
import Lowering.Proofs.CleanOutcomes

namespace Lowering

open Forest PassM

/-- What a pass makes of a node whose operands it has expanded, and which nodes it refuses. -/
structure Forms where
  make : Tag → List (Tree Unit) → Tree Unit
  Faulty : Tag → List (Tree Mark) → Prop

namespace Pass

/-- The forms of the passes that do nothing but expand forms. -/
def forms? : Pass → Option Forms
  | destruct => some ⟨Destruct.make, Destruct.Faulty⟩
  | concat => some ⟨Concat.make, Concat.Faulty⟩
  | range => some ⟨Range.make, Range.Faulty⟩
  | operators => some ⟨Operators.make, Operators.Faulty⟩
  | yield => some ⟨Yield.make, Yield.Faulty⟩
  | _ => none

variable {p : Pass} {forms : Forms}

theorem rewrites_forms (hp : p.forms? = some forms) : ∃ visit,
    Rewrites visit (Expanded forms.make forms.Faulty) (Tree.Refused forms.Faulty) ∧
      ∀ root, p.run root = discard (walk root visit) := by
  cases p with
  | destruct =>
    cases hp
    exact ⟨_, Destruct.expands.rewrites, fun _ => rfl⟩
  | concat =>
    cases hp
    exact ⟨_, Concat.expands.rewrites, fun _ => rfl⟩
  | range =>
    cases hp
    exact ⟨_, Range.expands.rewrites, fun _ => rfl⟩
  | operators =>
    cases hp
    exact ⟨_, Operators.expands.rewrites, fun _ => rfl⟩
  | yield =>
    cases hp
    exact ⟨_, Yield.expands.rewrites, fun _ => rfl⟩
  | _ => cases hp

/-- What a pass that expands forms does to a tree that is held. -/
theorem run_forms (hp : p.forms? = some forms) (hh : Bears U c [.ref root] [t]) :
    (∀ u c', p.run root c = .ok u c' → ¬ t.Refused forms.Faulty ∧
      ∃ t', Reworks U c [t] c' [.ref root] [t'] ∧ t'.shape = t.shape.rebuild forms.make) ∧
    ∀ e c', p.run root c = .error e c' → ¬ e.IsFault → t.Refused forms.Faulty := by
  obtain ⟨visit, hrewrites, hrun⟩ := rewrites_forms hp
  obtain ⟨hok, hrefused⟩ := hrewrites.walk hh rfl
  rw [hrun]
  constructor
  · intro u c' h
    obtain ⟨b, h⟩ := discard_ok.mp h
    obtain ⟨t', hrework, hfine, hshape⟩ := hok b c' h
    exact ⟨hfine, t', hrework, hshape⟩
  · intro e c' h he
    exact (hrefused e c' (discard_error.mp h) he).2

/-- On every source, whatever the options and the other state are: a pass that expands forms fails
exactly if some node that it checks has a wrong number of operands, and otherwise the tree becomes
the one that is made from the leaves up. -/
theorem desugars {file source : Text} {f : Forest} {root : Int}
    (hparse : parse file source = .ok (f, root)) (hp : p.forms? = some forms) (c : Context) :
    ∃ t, f.tree root = .ok t ∧
      ((∃ e c', p.run root (c.withForest f) = .error e c') ↔ t.Refused forms.Faulty) ∧
      ∀ c', p.run root (c.withForest f) = .ok () c' →
        ∃ t', c'.forest.tree root = .ok t' ∧ t'.shape = t.shape.rebuild forms.make := by
  obtain ⟨t, ht, hd⟩ := parse_tree hparse
  have hh : Bears (· ∈ t.ids) (c.withForest f) [.ref root] [t] := bears_of_denotes rfl ht hd
  obtain ⟨hok, hrefused⟩ := run_forms hp hh
  refine ⟨t, ht.operandTree hd, ⟨?_, fun hr => ?_⟩, fun c' h => ?_⟩
  · rintro ⟨e, c', h⟩
    have hvalid := Pipeline.valid_of_parse hparse
    have hacyclic : f.Acyclic := (parse_grown hparse).ordered.acyclic
    have tidy : (c.withForest f).Tidy := ⟨rfl, hacyclic, hvalid.1⟩
    obtain ⟨grade, hgrade, hplain⟩ := tidy.orderly.surveyed
    obtain ⟨hexcused, -⟩ := (p.lands hgrade hvalid.2 (hplain root)).error h
    exact hrefused e c' h hexcused.not_fault
  · cases h : p.run root (c.withForest f) with
    | ok u c' => exact absurd hr (hok u c' h).1
    | error e c' => exact ⟨e, c', rfl⟩
  · obtain ⟨-, t', hrework, hshape⟩ := hok () c' h
    obtain ⟨ht', -⟩ := List.forall₂_cons.mp hrework.bears.denotes
    exact ⟨t', ht'.operandTree (by simpa using hrework.bears.nodup), hshape⟩

/-- A multiple assignment among the targets of another one, over forms of other passes, and one in
lowered code that nobody looks at. -/
def nestedTargets : Text :=
  "(do (assign (destruct a (destruct b c)) (concat x (range 1 2))) (sexp (assign (destruct))))"

theorem desugars_nestedTargets : ∃ f root t c' t',
    parse "t" nestedTargets = .ok (f, root) ∧ f.tree root = .ok t ∧
      forms? .destruct = some ⟨Destruct.make, Destruct.Faulty⟩ ∧
      Destruct.run root ((Context.ofForest f {}).withForest f) = .ok () c' ∧
      ¬ t.Refused Destruct.Faulty ∧ c'.forest.tree root = .ok t' ∧
      t'.shape = t.shape.rebuild Destruct.make := by
  have hrun : testRun "t" nestedTargets
      (fun f root => Destruct.run root ((Context.ofForest f {}).withForest f))
      (fun _ _ _ => true) = true := by decide +kernel
  obtain ⟨f, root, ⟨⟩, c', hparse, hok, -⟩ := of_testRun hrun
  have hforms : forms? .destruct = some ⟨Destruct.make, Destruct.Faulty⟩ := rfl
  obtain ⟨t, htree, hfails, hmade⟩ := desugars hparse hforms (Context.ofForest f {})
  obtain ⟨t', htree', hshape⟩ := hmade c' hok
  refine ⟨f, root, t, c', t', hparse, htree, hforms, hok, fun hr => ?_, htree', hshape⟩
  obtain ⟨e, d, herror⟩ := hfails.mpr hr
  cases hok.symm.trans herror

end Pass

end Lowering
