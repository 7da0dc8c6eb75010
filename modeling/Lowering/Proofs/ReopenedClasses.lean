import Lowering.Proofs.ClassCircles

namespace Lowering

open Forest PassM

namespace Classes

theorem Constants.lookup_put (name x : Text) (target : Option Text) (cs : Constants) :
    (cs.put name target).lookup x = if x = name then some target else cs.lookup x := by
  induction cs with
  | nil =>
    rw [put]
    by_cases h : x = name <;> simp [h, List.lookup_cons, beq_false_of_ne]
  | cons entry cs ih =>
    obtain ⟨n, t⟩ := entry
    rw [put]
    by_cases hn : n = name
    · subst hn
      by_cases h : x = n
      · simp [h]
      · simp [h, List.lookup_cons, beq_false_of_ne h]
    · rw [if_neg hn]
      by_cases h : x = n
      · subst h
        simp [hn]
      · simp only [List.lookup_cons, beq_false_of_ne h]
        exact ih

theorem Constants.put_of_lookup {cs : Constants} (h : cs.lookup name = some target) :
    cs.put name target = cs := by
  induction cs with
  | nil => cases h
  | cons entry cs ih =>
    obtain ⟨n, t⟩ := entry
    rw [put]
    by_cases hn : n = name
    · subst hn
      obtain rfl : t = target := by simpa using h
      rw [if_pos rfl]
    · have hne : ¬ name = n := fun h => hn h.symm
      rw [if_neg hn, ih (by simpa [List.lookup_cons, beq_false_of_ne hne] using h)]

namespace Table

variable {t t' : Table} {name : Text}

/-- A class that has been opened: it is there, and its name stands for it everywhere. -/
structure Opened (t : Table) (name : Text) : Prop where
  found : t.knows (.named name) = true
  constant : t.constant .global name = some (some name)

/-- A name goes on standing for the class of that name. -/
theorem constant_addConstant (h : t.constant .global name = some (some name)) :
    (t.addConstant scope x (some x)).constant .global name = some (some name) := by
  cases scope with
  | named c => exact h
  | global =>
    change (t.constants.put x (some x)).lookup name = _
    rw [Constants.lookup_put]
    split
    · rename_i heq
      rw [heq]
    · exact h

theorem constant_enter (h : x = name ∨ t.constant .global name = some (some name)) :
    (t.enter kind x parent super).constant .global name = some (some name) := by
  have hlinked : (t.linked kind x parent super).constants = t.constants := by
    unfold linked
    repeat' split
    all_goals rfl
  have hglobal : ((t.linked kind x parent super).addConstant .global x (some x)).constant
      .global name = some (some name) := by
    rcases h with rfl | h
    · change ((t.linked kind x parent super).constants.put x (some x)).lookup x = _
      rw [Constants.lookup_put, if_pos rfl]
    · refine constant_addConstant ?_
      change (t.linked kind x parent super).constants.lookup name = _
      rw [hlinked]
      exact h
  rw [enter_eq]
  cases parent with
  | none => exact hglobal
  | some p => exact constant_addConstant hglobal

theorem opened_enter : (t.enter kind name parent super).Opened name :=
  ⟨knows_enter, constant_enter (.inl rfl)⟩

theorem Opened.step (h : t.Opened name) (hstep : Step t t') : t'.Opened name := by
  refine ⟨hstep.knows h.found, ?_⟩
  cases hstep with
  | method scope x =>
    cases scope <;> exact h.constant
  | ivar scope x =>
    cases scope <;> exact h.constant
  | opening named known x super => exact constant_enter (.inr h.constant)

/-- A class stays open to whatever is declared later. -/
theorem Opened.history (h : t.Opened name) (hh : History t t') : t'.Opened name := by
  induction hh with
  | refl => exact h
  | tail _ hstep ih => exact ih.step hstep

/-- Opening a class again, without a superclass, changes nothing. -/
theorem Opened.enter_again (h : t.Opened name) (kind : Kind) :
    t.enter kind name (some .global) Text.empty = t := by
  obtain ⟨c, hc⟩ := Option.isSome_iff_exists.mp h.found
  have hlinked : t.linked kind name (some .global) Text.empty = t := by
    unfold linked
    simp [hc, findSuper, Text.isEmpty, Text.empty]
  have hput : ∀ {t : Table}, t.constant .global name = some (some name) →
      t.addConstant .global name (some name) = t := by
    intro t ht
    have hconstants : t.constants.put name (some name) = t.constants :=
      Constants.put_of_lookup ht
    change { t with constants := t.constants.put name (some name) } = t
    rw [hconstants]
  rw [enter_eq, hlinked]
  simp only [hput h.constant]

end Table

end Classes

open Classes

namespace Tree

/-- `(class C _ (statements))` -/
def classOf (name : Text) (statements : List (Tree Unit)) : Tree Unit :=
  .node () .classDef [.leaf (.sym name), .leaf .nil, .node () .list statements]

theorem reading_classOf (name : Text) (statements : List (Tree Unit)) :
    (classOf name statements).reading .global =
      Reading.andThen (fun _ => { changes := [.opening .ofClass name (some .global) Text.empty] })
        (Reading.inTurn (statements.map reading) (.named name)) := by
  have hfits : objection? .classDef [.leaf (.sym name), .leaf .nil,
      .node () .list statements] = none := rfl
  have hbody : (Tree.node () .list statements).reading (.named name) =
      Reading.inTurn (statements.map reading) (.named name) := by
    rw [reading_node]
    rfl
  rw [classOf, reading_node, hfits]
  change Reading.opening .ofClass name .global Text.empty
    ((Tree.node () .list statements).reading (.named name)) = _
  rw [hbody]
  rfl

/-- A class in two pieces comes to what it comes to in one. -/
theorem reading_reopened (name : Text) (first second : List (Tree Unit)) (t : Table) :
    ((Tree.node () .block [classOf name first, classOf name second]).reading .global t).outcome t =
      ((classOf name (first ++ second)).reading .global t).outcome t := by
  have hpieces : (Tree.node () .block [classOf name first, classOf name second]).reading .global =
      Reading.andThen ((classOf name first).reading .global)
        ((classOf name second).reading .global) := by
    rw [reading_node]
    change Reading.andThen _ (Reading.andThen _ (Reading.skip .global)) = _
    rw [Reading.andThen_skip]
  rw [hpieces, reading_classOf, reading_classOf, reading_classOf, List.map_append,
    Reading.inTurn_append, Reading.andThen_assoc]
  refine Reading.outcome_andThen fun _ => Reading.outcome_andThen fun _ => ?_
  have hevolves : Reading.MakesHistory (Reading.inTurn (first.map reading)) := by
    refine Reading.makesHistory_inTurn fun r hr => ?_
    obtain ⟨s, -, rfl⟩ := List.mem_map.mp hr
    exact makesHistory_reading s
  have hopened : (t.enter .ofClass name (some .global) Text.empty).Opened name := Table.opened_enter
  exact Reading.outcome_of_apply_eq
    ((hopened.history (hevolves Table.knows_enter)).enter_again .ofClass)

section

variable {α : Type}

theorem operandAt_shape (args : List (Tree α)) (i : Nat) :
    operandAt (args.map shape) i = (operandAt args i).shape := by
  unfold operandAt
  rw [List.getElem?_map]
  cases args[i]? with
  | none => exact (shape_leaf _).symm
  | some t => rfl

theorem symbols_shape (t : Tree α) : t.shape.symbols = t.symbols := by
  rw [symbols, symbols, elems_shape, List.filterMap_map]
  exact List.filterMap_congr fun s _ => symbol?_shape s

theorem ivar?_shape (t : Tree α) : t.shape.ivar? = t.ivar? := by
  rw [ivar?, ivar?, symbol?_shape]

theorem ivars_shape (t : Tree α) : t.shape.ivars = t.ivars := by
  induction t with
  | leaf a => rw [shape_leaf]; rfl
  | node mark tag args ih =>
    rw [shape_node, ivars, ivars, ivarsEach_eq, ivarsEach_eq, List.filterMap_map, List.flatMap_map]
    congr 1
    · exact List.filterMap_congr fun t _ => ivar?_shape t
    · exact List.flatMap_congr ih

theorem reading_shape (t : Tree α) : t.shape.reading = t.reading := by
  induction t with
  | leaf a => rw [shape_leaf]; rfl
  | node mark tag args ih =>
    have hparts : (args.map shape).map reading = args.map reading := by
      rw [List.map_map]
      exact List.map_congr_left ih
    have hname : ∀ i, nameAt (args.map shape) i = nameAt args i := fun i => by
      rw [nameAt, nameAt, operandAt_shape, symbol?_shape]
    have haccessors : accessors (args.map shape) = accessors args := by
      rw [accessors, accessors, operandAt_shape, symbol?_shape]
    have hobjection : objection? tag (args.map shape) = objection? tag args := by
      rw [objection?, objection?, malformed?_shape]
    have hdeclaring : declaring tag (args.map shape) (args.map reading) =
        declaring tag args (args.map reading) := by
      unfold declaring
      simp only [hname, haccessors, operandAt_shape, symbols_shape, ivar?_shape, ivars_shape]
    funext scope
    rw [shape_node, reading_node, reading_node, hparts, hobjection, hdeclaring]

end

end Tree

namespace Pass.ClassScopes

variable {f f1 f2 : Forest} {root root1 root2 : Int}

/-- Two runs end alike: with one class table, or with the same words about nodes of one tag. -/
inductive EndsAlike : (one two : EStateM.Result PassError Context Unit) → Prop where
  | tables {c d : Context} (classes : c.classes = d.classes) : EndsAlike (.ok ⟨⟩ c) (.ok ⟨⟩ d)
  | complaints {c d : Context} {e e' : Diagnostic} (kind : e.complaint.kind = e'.complaint.kind)
      (tag : e.tag = e'.tag) (text : e.text = e'.text) :
      EndsAlike (.error (.rejected e) c) (.error (.rejected e') d)

/-- What the pass makes of a tree depends on the shape of the tree only, and it meets no fault. -/
theorem run_shape (hf : f.TreeBelow root) (hshape : (f.tree root).map Tree.shape = .ok shape)
    (options : Options) :
    (shape.reading .global (.ofReserved options.reserved)).outcome (.ofReserved options.reserved) =
        ended (run root (.ofForest f options)) ∧
      ∀ e c, run root (.ofForest f options) = .error e c → e.Excused c := by
  cases htree : f.tree root with
  | error e => simp [htree, Except.map] at hshape
  | ok t =>
    obtain rfl : t.shape = shape := by simpa [htree, Except.map] using hshape
    rw [Tree.reading_shape]
    exact run_ended (c := .ofForest f options) rfl hf htree

theorem endsAlike_of_stops (he : e.Excused c) (he' : e'.Excused d)
    (hstop : Stop.ofError? e = Stop.ofError? e') :
    EndsAlike (.error e c) (.error e' d) ∨ (Circles (.error e c) ∧ Circles (.error e' d)) := by
  cases e with
  | fault f => exact absurd trivial he.not_fault
  | circular =>
    cases e' with
    | fault f => exact absurd trivial he'.not_fault
    | rejected g => cases hstop
    | circular =>
      exact .inr ⟨⟨c, rfl, (he.resolve_left id).2⟩, ⟨d, rfl, (he'.resolve_left id).2⟩⟩
  | rejected g =>
    cases e' with
    | fault f => exact absurd trivial he'.not_fault
    | circular => cases hstop
    | rejected g' =>
      obtain ⟨htag, hcomplaint⟩ := Stop.refused.inj (Option.some.inj hstop)
      exact .inl (.complaints (by rw [hcomplaint]) htag
        (by rw [Diagnostic.text, Diagnostic.text, htag, hcomplaint]))

/-- A class that is opened a second time declares what it declares in one piece, whatever stands in
its two parts: fresh states with the same reserved names come to one table, or refuse nodes of one
tag with the same words; or neither run ends, once superclasses come back to one of them. -/
theorem reopening_alike {name : Text} {first second : List (Tree Unit)} {o1 o2 : Options}
    (hreserved : o1.reserved = o2.reserved) (hone : f1.TreeBelow root1) (htwo : f2.TreeBelow root2)
    (hone' : (f1.tree root1).map Tree.shape = .ok (Tree.classOf name (first ++ second)))
    (htwo' : (f2.tree root2).map Tree.shape =
      .ok (.node () .block [Tree.classOf name first, Tree.classOf name second])) :
    EndsAlike (run root1 (.ofForest f1 o1)) (run root2 (.ofForest f2 o2)) ∨
      (Circles (run root1 (.ofForest f1 o1)) ∧ Circles (run root2 (.ofForest f2 o2))) := by
  obtain ⟨hended1, hexcused1⟩ := run_shape hone hone' o1
  obtain ⟨hended2, hexcused2⟩ := run_shape htwo htwo' o2
  have hsame : ended (run root1 (.ofForest f1 o1)) = ended (run root2 (.ofForest f2 o2)) := by
    rw [← hended1, ← hended2, hreserved, Tree.reading_reopened]
  cases hrun1 : run root1 (.ofForest f1 o1) <;> cases hrun2 : run root2 (.ofForest f2 o2) <;>
    rw [hrun1, hrun2] at hsame <;> obtain ⟨hclasses, hstop⟩ := Prod.mk.inj hsame
  case ok.ok c _ d => exact .inl (.tables hclasses)
  case ok.error c e d =>
    obtain ⟨stop, hsome⟩ := Stop.isSome_ofError? (hexcused2 e d hrun2).not_fault
    cases hstop.trans hsome
  case error.ok e c _ d =>
    obtain ⟨stop, hsome⟩ := Stop.isSome_ofError? (hexcused1 e c hrun1).not_fault
    cases hstop.symm.trans hsome
  case error.error e c e' d =>
    exact endsAlike_of_stops (hexcused1 e c hrun1) (hexcused2 e' d hrun2) hstop

/-- Methods, attributes, and a class that is opened in its own body with a superclass. -/
def inOnePiece : Text :=
  "(class C _ ((defm f () (@x)) (class D) (class C D ((call attr_writer (:y)))) (defm f () (@z))))"

/-- A class in two pieces, with a class of its own name in the second. -/
def inTwoPieces : Text :=
  "(do (class C _ ((defm f () (@x)) (class D)))
       (class C _ ((class C D ((call attr_writer (:y)))) (defm f () (@z)))))"

/-- `(defm f () (<name>))` -/
def methodOver (name : Text) : Tree Unit :=
  .node () .defm [.leaf (.sym "f"), .node () .list [], .node () .list [.leaf (.sym name)]]

/-- The body of the first piece. -/
def firstPiece : List (Tree Unit) :=
  [methodOver "@x", .node () .classDef [.leaf (.sym "D")]]

/-- The body of the second piece. -/
def secondPiece : List (Tree Unit) :=
  [.node () .classDef [.leaf (.sym "C"), .leaf (.sym "D"), .node () .list
    [.node () .call [.leaf (.sym "attr_writer"), .node () .list [.leaf (.sym ":y")]]]],
    methodOver "@z"]

/-- Whether a source is read as a tree of a shape and passes a test. -/
def isRead (source : Text) (shape : Tree Unit) (test : Forest → Int → Bool) : Bool :=
  match parse "t" source with
  | .ok (f, root) => match f.tree root with
    | .ok t => t.shape = shape && test f root
    | .error _ => false
  | .error _ => false

theorem exists_of_isRead (h : isRead source shape test = true) :
    ∃ f root, parse "t" source = .ok (f, root) ∧ f.TreeBelow root ∧
      (f.tree root).map Tree.shape = .ok shape ∧ test f root = true := by
  unfold isRead at h
  cases hparse : parse "t" source with
  | error e => simp [hparse] at h
  | ok r =>
    obtain ⟨f, root⟩ := r
    simp only [hparse] at h
    refine ⟨f, root, rfl, (Pipeline.planted_of_parse hparse (.ofForest f {})).treeBelow, ?_⟩
    cases htree : f.tree root with
    | error e => simp [htree] at h
    | ok t => simpa [htree, Except.map] using h

/-- A run that goes round in a circle. -/
def isCircular : EStateM.Result PassError Context Unit → Bool
  | .error .circular _ => true
  | _ => false

theorem Circles.isCircular (h : Circles r) : isCircular r = true := by
  obtain ⟨c, rfl, -⟩ := h
  rfl

theorem reopening_alike_nested : ∃ f1 root1 f2 root2,
    parse "t" inOnePiece = .ok (f1, root1) ∧ parse "t" inTwoPieces = .ok (f2, root2) ∧
      f1.TreeBelow root1 ∧ f2.TreeBelow root2 ∧
      (f1.tree root1).map Tree.shape = .ok (Tree.classOf "C" (firstPiece ++ secondPiece)) ∧
      (f2.tree root2).map Tree.shape = .ok (.node () .block
        [Tree.classOf "C" firstPiece, Tree.classOf "C" secondPiece]) ∧
      EndsAlike (run root1 (.ofForest f1 { reserved := ["new"] }))
        (run root2 (.ofForest f2 { reserved := ["new"] })) := by
  have hread1 : isRead inOnePiece (Tree.classOf "C" (firstPiece ++ secondPiece))
      (fun f root => !isCircular (run root (.ofForest f { reserved := ["new"] }))) = true := by
    decide +kernel
  have hread2 : isRead inTwoPieces
      (.node () .block [Tree.classOf "C" firstPiece, Tree.classOf "C" secondPiece])
      (fun _ _ => true) = true := by
    decide +kernel
  obtain ⟨f1, root1, hparse1, hone, hshape1, hends⟩ := exists_of_isRead hread1
  obtain ⟨f2, root2, hparse2, htwo, hshape2, -⟩ := exists_of_isRead hread2
  refine ⟨f1, root1, f2, root2, hparse1, hparse2, hone, htwo, hshape1, hshape2, ?_⟩
  refine (reopening_alike rfl hone htwo hshape1 hshape2).resolve_right fun hcircles => ?_
  rw [hcircles.1.isCircular] at hends
  cases hends

/-- Two classes become superclasses of each other, and then another one is searched for. -/
def circling : Text := "(class C _ ((class B C) (class C B) (class D Unknown)))"

/-- Two pieces of a class, the first with a circle in it. -/
def circlingInTwo : Text :=
  "(do (class C _ ((class B C) (class C B))) (class C _ ((class D Unknown))))"

/-- `(class <name> <super>)` -/
def subclass (name super : Text) : Tree Unit :=
  .node () .classDef [.leaf (.sym name), .leaf (.sym super)]

/-- Where superclasses come back to one of them, there is neither a table nor a refusal. -/
theorem reopening_not_alike_circling : ∃ f1 root1 f2 root2,
    parse "t" circling = .ok (f1, root1) ∧ parse "t" circlingInTwo = .ok (f2, root2) ∧
      (f1.tree root1).map Tree.shape = .ok (Tree.classOf "C"
        ([subclass "B" "C", subclass "C" "B"] ++ [subclass "D" "Unknown"])) ∧
      (f2.tree root2).map Tree.shape = .ok (.node () .block
        [Tree.classOf "C" [subclass "B" "C", subclass "C" "B"],
          Tree.classOf "C" [subclass "D" "Unknown"]]) ∧
      ¬ EndsAlike (run root1 (.ofForest f1 {})) (run root2 (.ofForest f2 {})) := by
  have hread1 : isRead circling (Tree.classOf "C"
        ([subclass "B" "C", subclass "C" "B"] ++ [subclass "D" "Unknown"]))
      (fun f root => isCircular (run root (.ofForest f {}))) = true := by decide +kernel
  have hread2 : isRead circlingInTwo (.node () .block
        [Tree.classOf "C" [subclass "B" "C", subclass "C" "B"],
          Tree.classOf "C" [subclass "D" "Unknown"]])
      (fun _ _ => true) = true := by decide +kernel
  obtain ⟨f1, root1, hparse1, -, hshape1, hcircular⟩ := exists_of_isRead hread1
  obtain ⟨f2, root2, hparse2, -, hshape2, -⟩ := exists_of_isRead hread2
  refine ⟨f1, root1, f2, root2, hparse1, hparse2, hshape1, hshape2, fun halike => ?_⟩
  generalize run root1 (.ofForest f1 {}) = one at halike hcircular
  generalize run root2 (.ofForest f2 {}) = two at halike
  cases halike <;> cases hcircular

end Pass.ClassScopes

end Lowering
