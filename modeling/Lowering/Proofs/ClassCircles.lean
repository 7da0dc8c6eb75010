import Lowering.Proofs.ClassReading
import Lowering.Proofs.TreePreservation

namespace Lowering

open Forest PassM Classes

namespace Pass.ClassScopes

variable {c : Context} {root : Int} {t : Tree Mark}

/-- A run that does not end, since the superclasses of a class come back to one of them. -/
def Circles (r : EStateM.Result PassError Context Unit) : Prop :=
  ∃ c, r = .error .circular c ∧ ¬ c.classes.Rooted

/-- The class table that a run leaves, and why it has stopped early. -/
def ended (r : EStateM.Result PassError Context Unit) : Table × Option Stop :=
  ((stateOf r).classes, match r with
    | .ok _ _ => none
    | .error e _ => Stop.ofError? e)

/-- On a tree the pass makes the changes that are read off the tree, and it meets no fault. -/
theorem run_ended (hs : c.shared = []) (hf : c.forest.TreeBelow root)
    (ht : c.forest.tree root = .ok t) :
    (t.reading .global c.classes).outcome c.classes = ended (run root c) ∧
      ∀ e d, run root c = .error e d → e.Excused d := by
  have hd : Denotes c.forest (.ref root) t := denotes_of_operandFrom ht
  obtain ⟨n, -, hn, -⟩ := treeFrom_succ.mp ht
  have tidy : c.Tidy := ⟨hs, hf.acyclic, hf.valid⟩
  obtain ⟨grade, hgrade, -⟩ := tidy.orderly.surveyed
  have hexcused : ∀ e d, run root c = .error e d → e.Excused d :=
    fun _ _ h => ((lands_run hgrade ⟨n, hn⟩).error h).1
  refine ⟨?_, hexcused⟩
  have htold : Told (t.reading .global c.classes) c.classes (run root c) :=
    build_tells _ .global (bears_of_denotes hs hd (nodup_of_once hd rfl hf.once))
  cases hrun : run root c with
  | ok u d =>
    rw [hrun] at htold
    exact Prod.ext htold.2.symm htold.1
  | error e d =>
    rw [hrun] at htold
    obtain ⟨hstop, hclasses⟩ := htold (hexcused e d hrun).not_fault
    exact Prod.ext hclasses.symm hstop

/-- However often the class pass has run, and whether it succeeds or not, it goes on from a table by
changes, on a tree by those that are read off the tree. Afterwards chains of superclasses end
exactly if they did before and none of the changes closes a circle; and where they end, the
ancestors of a class go up to one without a superclass, and every search comes to an end. -/
theorem rooted_run_iff (c : Context) (root : Int) (reserved : List Text) (before : List Change) :
    let t := (Table.ofReserved reserved).after before
    let t' := (stateOf (run root { c with classes := t })).classes
    (∃ changes, t' = t.after changes ∧ (t'.Rooted ↔ t.Rooted ∧ t.NeverCloses changes)) ∧
      (∀ tree, c.shared = [] → c.forest.TreeBelow root → c.forest.tree root = .ok tree →
        t' = t.after (tree.reading .global t).changes ∧
          (t'.Rooted ↔ t.Rooted ∧ t.NeverCloses (tree.reading .global t).changes)) ∧
      (t'.Rooted → ∀ name k, t'.find? name = some k →
        (∃ top, (t'.ancestors name).getLast? = some top ∧ top.super = none) ∧
          t'.ends name = true ∧ ∀ x, t'.settles (.named name) x = true) := by
  intro t t'
  have hsound : t.NamesKnown := (Table.namesKnown_ofReserved reserved).after before
  have hiff : ∀ {changes}, t' = t.after changes →
      (t'.Rooted ↔ t.Rooted ∧ t.NeverCloses changes) := by
    intro changes h
    rw [h]
    exact Table.rooted_after_iff hsound
  obtain ⟨changes, hchanges⟩ := (history_run root { c with classes := t }).exists_changes
  refine ⟨⟨changes, hchanges, hiff hchanges⟩, fun tree hs hf htree => ?_,
    fun hrooted name k hk => ?_⟩
  · have hread : t' = t.after (tree.reading .global t).changes :=
      (congrArg Prod.fst (run_ended (c := { c with classes := t }) hs hf htree).1).symm
    exact ⟨hread, hiff hread⟩
  · have hsound' : t'.NamesKnown := by
      rw [show t' = t.after changes from hchanges]
      exact hsound.after changes
    exact ⟨Table.ancestors_top hsound' (hrooted name) hk, hrooted.ends name, hrooted.settles _⟩

/-- The first class is opened again under the second one, which was opened under the first. -/
def eachOther : Text := "(do (class A) (class B A) (class A B))"

/-- Two classes become superclasses of each other. -/
theorem not_rooted_eachOther : ∃ f root c', Forest.parse "" eachOther = .ok (f, root) ∧
    run root (.ofForest f {}) = .ok () c' ∧ ¬ c'.classes.Rooted := by
  have htest : testRun "" eachOther (fun f root => run root (.ofForest f {}))
      (fun _ _ c' => ¬ c'.classes.Rooted) = true := by decide +kernel
  obtain ⟨f, root, ⟨⟩, c', hparse, hrun, hcircle⟩ := of_testRun htest
  exact ⟨f, root, c', hparse, hrun, of_decide_eq_true hcircle⟩

end Pass.ClassScopes

end Lowering
