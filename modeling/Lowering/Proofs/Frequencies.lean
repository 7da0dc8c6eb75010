import Lowering.Proofs.BodyLayouts
import Mathlib.Data.List.Induction

namespace Lowering

namespace Tree

mutual
/-- The names that stand where variables stand, in the order in which they are read. -/
def usedNames : Tree Mark → List Text
  | leaf (.sym name) => [name]
  | leaf _ => []
  | node _ tag args =>
    match tag with
    | .sexp | .defm | .defun => []
    | .callm => ((usedNamesEach args).eraseIdx 1).flatten
    | .letIn | .lambda | .proc => ((usedNamesEach args).drop 1).flatten
    | _ => (usedNamesEach args).flatten

def usedNamesEach : List (Tree Mark) → List (List Text)
  | [] => []
  | t :: ts => usedNames t :: usedNamesEach ts
end

theorem usedNamesEach_eq (ts : List (Tree Mark)) : usedNamesEach ts = ts.map usedNames :=
  eq_map rfl (fun _ _ => rfl) ts

theorem usedNames_elems (t : Tree Mark) : t.elems.flatMap usedNames = t.usedNames := by
  unfold elems
  split
  · rfl
  · simp [usedNames, usedNamesEach_eq, List.flatMap_def]
  · simp

theorem usedNames_renumbered (t : Tree Mark) (id : Int) :
    (t.renumbered id).usedNames = t.usedNames := by
  cases t with
  | leaf a => rfl
  | node mark tag args => simp only [renumbered, usedNames]

end Tree

/-- The variables that a body uses, once for each use. -/
def Block.occurrences (b : Block) : List Text :=
  (b.stmts.flatMap Tree.usedNames).filter fun name => !Scope.isSpecial name

/-- Names in the order of how often they occur, and those that occur equally often in the order of
their first occurrences. -/
structure ByFrequency (occurrences names : List Text) : Prop where
  nodup : names.Nodup
  mem : ∀ x, x ∈ names ↔ x ∈ occurrences
  order : names.Pairwise fun a b => occurrences.count b < occurrences.count a ∨
    occurrences.count a = occurrences.count b ∧ occurrences.idxOf a < occurrences.idxOf b

/-- The first of each name, in order. -/
theorem Names.idxOf_eraseDups (names : List Text) :
    names.eraseDups.Pairwise fun a b => names.idxOf a < names.idxOf b := by
  induction names using List.reverseRecOn with
  | nil => exact .nil
  | append_singleton names x ih =>
    have hold : names.eraseDups.Pairwise fun a b =>
        (names ++ [x]).idxOf a < (names ++ [x]).idxOf b := by
      refine ih.imp_of_mem fun {a b} ha hb hlt => ?_
      rwa [List.idxOf_append_of_mem (List.mem_eraseDups.mp ha),
        List.idxOf_append_of_mem (List.mem_eraseDups.mp hb)]
    rw [List.eraseDups_append]
    by_cases hx : x ∈ names
    · simpa [List.removeAll, hx] using hold
    · refine List.pairwise_append.mpr ⟨hold, by simp [List.removeAll, hx, List.eraseDups_cons],
        fun a ha b hb => ?_⟩
      obtain rfl : b = x := by simpa [List.removeAll, hx] using hb
      have ha := List.mem_eraseDups.mp ha
      rw [List.idxOf_append_of_mem ha, List.idxOf_append_of_notMem hx]
      have := List.idxOf_lt_length_of_mem ha
      omega

/-- Names that are sorted by rank, the highest first. Those of one rank stay in their order. -/
theorem Names.sorted_mergeSort {names : List Text} {R : Text → Text → Prop} (rank : Text → Nat)
    (h : names.Pairwise R) : (names.mergeSort fun a b => rank b ≤ rank a).Pairwise
      fun a b => rank b < rank a ∨ rank a = rank b ∧ R a b := by
  have htrans : ∀ a b c, decide (rank b ≤ rank a) = true → decide (rank c ≤ rank b) = true →
      decide (rank c ≤ rank a) = true := by grind
  have htotal : ∀ a b, (decide (rank b ≤ rank a) || decide (rank a ≤ rank b)) = true := by grind
  induction names with
  | nil => simp
  | cons x names ih =>
    obtain ⟨hx, hrest⟩ := List.pairwise_cons.mp h
    obtain ⟨before, after, hnew, hold, hlt⟩ := List.mergeSort_cons htrans htotal x names
    have hsorted := List.pairwise_mergeSort htrans htotal (x :: names)
    have hmem : ∀ b ∈ after, b ∈ names := fun b hb =>
      List.mem_mergeSort.mp (hold ▸ List.mem_append_right before hb)
    have ih := ih hrest
    rw [hold] at ih
    rw [hnew] at hsorted ⊢
    grind [List.pairwise_cons]

namespace Scope

variable {t : Tree Mark}

theorem usedNames_closure {id : Int} {params : List Text} (h : Readable t)
    (hc : t.closure? = some (id, params)) : t.usedNames = t.parts.flatMap Tree.usedNames := by
  cases t with
  | leaf a => cases hc
  | node mark tag args =>
    obtain ⟨ht, -⟩ := Tree.closure?_eq_some.mp hc
    have hlen := closure_length ht (malformed?_of_read h (Tag.isSealed_closure ht))
    have hvars : (Tree.node mark tag args).usedNames =
        ((args.map Tree.usedNames).drop 1).flatten := by
      rw [← Tree.usedNamesEach_eq]
      cases tag <;> first | rfl | cases ht
    rw [hvars, Tree.parts_closure ht]
    rcases args with _ | ⟨p, _ | ⟨body, _ | ⟨x, rest⟩⟩⟩
    · rfl
    · rfl
    · simp [Tree.usedNames_elems]
    · simp at hlen

theorem usedNames_open (hc : t.closure? = none) (hsym : ∀ name, t ≠ .leaf (.sym name)) :
    t.usedNames = t.parts.flatMap Tree.usedNames := by
  cases t with
  | leaf a =>
    cases a with
    | sym name => exact absurd rfl (hsym name)
    | nil | str | int | unknown => rfl
  | node mark tag args =>
    have ht := Tree.closure?_eq_none.mp hc
    cases tag
    case lambda | proc => cases ht
    all_goals simp [Tree.usedNames, Tree.parts, Tree.usedNamesEach_eq, List.flatMap,
      List.eraseIdx_map]

/-- What is used in a tree are its variables. -/
theorem uses_events (h : Readable t) : (events t).filterMap use? = t.usedNames := by
  induction t, h using Readable.induct with
  | sym name => rfl
  | closure t id params h hc ih =>
    cases t with
    | leaf a => cases hc
    | node mark tag args =>
      have ht := (Tree.closure?_eq_some.mp hc).1
      rw [usedNames_closure h hc, events_closure ht h, List.cons_append,
        List.filterMap_cons_none rfl, List.filterMap_append, List.filterMap_flatMap,
        List.flatMap_congr ih]
      exact List.append_nil _
  | other t h hc hsym ih =>
    rw [usedNames_open hc hsym]
    cases t with
    | leaf a =>
      cases a with
      | sym name => exact absurd rfl (hsym name)
      | nil | str | int | unknown => rfl
    | node mark tag args =>
      have hnone : ∀ names : List Text, (names.map Event.define).filterMap use? = [] := by
        simp [List.filterMap_map, use?, Function.comp_def]
      rw [events_open (Tree.closure?_eq_none.mp hc) h, List.filterMap_append, hnone,
        List.append_nil, List.filterMap_flatMap, List.flatMap_congr ih]

namespace Resolver

theorem uses_step (r : Resolver) (e : Event) :
    (r.step e).uses = r.uses ++ (use? e).toList.filter fun name => !isSpecial name := by
  cases e with
  | use name =>
    show (r.use name).uses = _
    unfold use
    by_cases hs : isSpecial name = true
    · simp [use?, hs]
    · rw [if_neg hs]
      dsimp only
      split
      · unfold capture
        split <;> simp [addCapture, use?, hs]
      · simp [use?, hs]
  | define name =>
    show (r.define name).uses = _
    unfold define
    split <;> simp [use?]
  | enter id params => exact (List.append_nil _).symm
  | leave =>
    show r.leave.uses = _
    unfold leave
    split <;> simp [use?]
  | reject d => exact (List.append_nil _).symm

theorem uses_foldl (r : Resolver) (es : List Event) :
    (es.foldl step r).uses = r.uses ++ (es.filterMap use?).filter fun name => !isSpecial name := by
  induction es generalizing r with
  | nil => simp
  | cons e es ih =>
    rw [List.foldl_cons, ih, uses_step, List.append_assoc, ← List.filter_append,
      List.filterMap_cons]
    cases use? e <;> rfl

theorem uses_body {b : Block} (h : ∀ t ∈ b.stmts, Readable t) : b.reading.uses = b.occurrences := by
  rw [Block.reading, ← foldl_events, uses_foldl, List.filterMap_flatMap,
    List.flatMap_congr fun t ht => uses_events (h t ht)]
  rfl

theorem byFrequency_eq (r : Resolver) :
    r.byFrequency = r.uses.eraseDups.mergeSort fun a b => r.uses.count b ≤ r.uses.count a := by
  have hmap := List.map_mergeSort (f := fun name => (name, r.uses.count name))
    (r := fun a b => decide (r.uses.count b ≤ r.uses.count a)) (s := fun a b => decide (b.2 ≤ a.2))
    (l := r.uses.eraseDups) fun _ _ _ _ => rfl
  rw [byFrequency, ← hmap, List.map_map]
  exact List.map_id _

theorem byFrequency_spec (r : Resolver) : ByFrequency r.uses r.byFrequency := by
  have hfirst := Names.idxOf_eraseDups r.uses
  have hperm : r.byFrequency.Perm r.uses.eraseDups := byFrequency_eq r ▸ List.mergeSort_perm _ _
  refine ⟨hperm.nodup_iff.mpr (hfirst.imp fun hlt h => ?_), fun x => ?_, ?_⟩
  · rw [h] at hlt
    exact lt_irrefl _ hlt
  · rw [hperm.mem_iff, List.mem_eraseDups]
  · rw [byFrequency_eq]
    exact Names.sorted_mergeSort r.uses.count hfirst

end Resolver

end Scope

namespace Pass.Environment

open Scope Forest

/-- A node is annotated with the names that occur, in the order of how often they do; with no list
if there are none. -/
def Ranked (f : Forest) (id : Int) (occurrences : List Text) : Prop :=
  ∃ names, f.Carries id (.names (if names.isEmpty then none else some names)) ∧
    ByFrequency occurrences names

theorem ranked_body {f : Forest} {id : Int} {b : Block} (h : ∀ t ∈ b.stmts, Readable t)
    (hc : f.Carries id b.frequencies) : Ranked f id b.occurrences :=
  ⟨b.reading.byFrequency, hc, Resolver.uses_body h ▸ b.reading.byFrequency_spec⟩

/-- Each body is annotated with the names that it uses, in the order of how often it does so: that
of each function, and what is outside the functions if there is a closure. -/
theorem run_frequencies {file source : Text} {f : Forest} {root : Int} {t : Tree Mark}
    {options : Options} {c : Context} {v : Unit} (hparse : parse file source = .ok (f, root))
    (htree : f.tree root = .ok t) (hrun : run root (.ofForest f options) = .ok v c) :
    ∃ t', c.forest.tree root = .ok t' ∧
      (∀ d ∈ t.definitions, ∃ mark tag name params m operands,
        .node mark tag [name, params, .node m .letIn operands] ∈ t'.definitions ∧ mark.id = d.root ∧
          Ranked c.forest m.id d.function.occurrences) ∧
      (t.HasClosure → ∃ mark operands, t' = .node mark .letIn operands ∧
        Ranked c.forest mark.id (Block.occurrences ⟨[], [t]⟩)) := by
  obtain ⟨t', hdenotes, hnodup, hended, htallied⟩ := (parse_source hparse htree).tallied hrun
  refine ⟨t', hdenotes.operandTree hnodup, fun d hd => ?_, fun hclosure => ?_⟩
  · obtain ⟨e, he, rests, w, hbecomes, hcarries⟩ := htallied.functions d hd
    have hmem := hbecomes.mem_definitions hd he
    have hroot := hbecomes.root
    cases hbecomes with
    | intro before named listed layout =>
      obtain ⟨hread, -⟩ := layout
      exact ⟨_, _, _, _, _, _, hmem, hroot, ranked_body hread hcarries⟩
  · obtain ⟨id, mark, operands, -, hroot, htop, hlayout⟩ := hended.top hclosure
    obtain ⟨id', hread, hcarries⟩ := htallied.top hclosure
    refine ⟨mark, operands, htop, ?_⟩
    have hranked := ranked_body (b := ⟨[], [t.renumbered id']⟩) (by simpa using hread) hcarries
    simpa [Block.occurrences, Tree.usedNames_renumbered, hroot] using hranked

/-- Four names are used, one of them twice. -/
theorem run_frequencies_capturing : ∃ f root t c t' d mark tag name params m operands,
    parse "" capturing = .ok (f, root) ∧ f.tree root = .ok t ∧
    run root (.ofForest f {}) = .ok () c ∧ c.forest.tree root = .ok t' ∧ d ∈ t.definitions ∧
    d.function.occurrences = ["y", "x", "z", "r", "x", "y"] ∧
    .node mark tag [name, params, .node m .letIn operands] ∈ t'.definitions ∧ mark.id = d.root ∧
    Ranked c.forest m.id d.function.occurrences := by
  have htest : testFunction capturing (fun _ _ d =>
      d.function.occurrences = ["y", "x", "z", "r", "x", "y"]) = true := by decide +kernel
  obtain ⟨f, root, t, c, d, hparse, htree, hrun, hd, htest⟩ := of_testFunction htest
  obtain ⟨t', htree', hfunctions, -⟩ := run_frequencies hparse htree hrun
  obtain ⟨mark, tag, name, params, m, operands, hmem, hroot, hranked⟩ := hfunctions d hd
  exact ⟨f, root, t, c, t', d, mark, tag, name, params, m, operands, hparse, htree, hrun, htree',
    hd, of_decide_eq_true htest, hmem, hroot, hranked⟩

end Pass.Environment

end Lowering
