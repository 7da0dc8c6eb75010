import Lowering.Pass.Calls
import Lowering.Proofs.Expansions

namespace Lowering

open Forest PassM

/-- The number of operands does not fit the tag. -/
def Miscounted {α : Type} (tag : Tag) (args : List (Tree α)) : Prop :=
  ∃ a, Arity.ofTag tag = some a ∧ a.admits args.length = false

theorem Node.malformed?_eq_none_iff {n : Node} {args : List (Tree Mark)}
    (ht : n.tag ∉ [.callm, .defm, .defun, .classDef, .moduleDef])
    (hl : n.args.length = args.length) : n.malformed? = none ↔ ¬ Miscounted n.tag args := by
  unfold Miscounted
  cases ha : Arity.ofTag n.tag with
  | none => simp [Node.malformed?, Complaint.ofOperands, ha]
  | some a =>
    rw [Node.malformed?_eq_none ha ht, hl]
    simp

theorem Forest.Denotes.is_iff (h : Denotes f v t) : v.is name = true ↔ t.symbol? = some name := by
  have hview : v.is name = true ↔ v.view = .atom (.sym name) := by
    rw [Operand.view_eq_sym, Operand.is]
    simp
  rw [hview]
  cases t with
  | leaf a =>
    rw [show v.view = .atom a from h]
    cases a <;> simp [Tree.symbol?]
  | node mark tag args =>
    rw [(denotes_node.mp h).1]
    simp [Tree.symbol?]

theorem miscounted_of_check {n : Node} (ht : n.tag ∉ [.callm, .defm, .defun, .classDef, .moduleDef])
    (hargs : Bears U c n.args args) (h : n.malformed? ≠ none) : Miscounted n.tag args := by
  by_contra hfine
  exact h ((Node.malformed?_eq_none_iff ht hargs.denotes.length_eq).mpr hfine)

namespace Pass

variable {U : Int → Prop} {c c1 : Context} {v : Operand} {mark : Mark} {tag : Tag}
variable {args : List (Tree Mark)} {n : Node} {act : Walk.Action}

namespace Range

/-- The forms that the pass expands. -/
def isForm (tag : Tag) : Bool := tag = .range

/-- `(callm Range new (a b))` -/
def make : Tag → List (Tree Unit) → Tree Unit
  | .range, bounds =>
    .node () .callm [.leaf (.sym "Range"), .leaf (.sym "new"), .node () .list bounds]
  | tag, args => .node () tag args

/-- The forms that the pass refuses. -/
def Faulty {α : Type} (tag : Tag) (args : List (Tree α)) : Prop :=
  tag = .range ∧ Miscounted tag args

theorem expands : Expands visit isForm make Faulty where
  sexp := rfl
  skips {id n} ht := by rw [visit, ht]
  passes {id n} hs ht := by
    unfold visit
    split <;> simp_all [isForm]
  plain {tag} ht := by
    refine ⟨fun args h => ?_, fun es => ?_⟩
    · simp [isForm, h.1] at ht
    · unfold make
      split <;> simp_all [isForm]
  form {U c v mark args n act c1} hf hh hn hpos hargs h := by
    have ht : n.tag = .range := by simpa [isForm] using hf
    have hcount := Node.malformed?_eq_none_iff (n := n) (by simp [ht]) hargs.denotes.length_eq
    rw [visit, ht] at h
    obtain ⟨hwell, h⟩ := check_bind_ok.mp h
    obtain ⟨w, c2, hmove, h⟩ := bind_ok.mp h
    obtain ⟨_, hshape, rfl⟩ := bind_pure_ok.mp h
    obtain ⟨hmoved, -⟩ := moveArgs_reworks hh hn hmove
    have hfine : ¬ Faulty n.tag args := fun hfaulty => hcount.mp hwell hfaulty.2
    refine ⟨rfl, .callm, _, reshape_reworks hh ((hmoved.sym "new").sym "Range") hshape, ?_, ?_⟩
    · rw [Tree.refused_unless hfine]
      simp [ht, Tree.refused_node, Faulty, Tree.not_refused_leaf]
    · simp [make, ht, Tree.rebuilt_node]
  refused {U c args n id e c1} hf hargs h he := by
    have ht : n.tag = .range := by simpa [isForm] using hf
    rw [visit, ht] at h
    obtain ⟨hbad, rfl⟩ := Quiet.after_check (fun _ => (quiet_moveArgs _ _).bind fun _ =>
      (quiet_reshape _ _ _).bind fun _ => quiet_pure _) h he
    exact ⟨rfl, ht, miscounted_of_check (by simp [ht]) hargs hbad⟩

end Range

namespace Operators

def isForm (tag : Tag) : Bool := tag.isOperator

/-- `(callm a + (b))` -/
def make : Tag → List (Tree Unit) → Tree Unit
  | .op o, [left, right] =>
    .node () .callm [left, .leaf (.sym o.spelling), .node () .list [right]]
  | .op o, [operand] => .node () .callm [operand, .leaf (.sym o.spelling)]
  | tag, args => .node () tag args

def Faulty {α : Type} (tag : Tag) (args : List (Tree α)) : Prop :=
  tag.isOperator = true ∧ Miscounted tag args

theorem expands : Expands visit isForm make Faulty where
  sexp := rfl
  skips {id n} ht := by rw [visit, ht]
  passes {id n} hs ht := by
    unfold visit
    split <;> simp_all [isForm, Tag.isOperator]
  plain {tag} ht := by
    refine ⟨fun args h => ?_, fun es => ?_⟩
    · simp [isForm, h.1] at ht
    · unfold make
      split <;> simp_all [isForm, Tag.isOperator]
  form {U c v mark args n act c1} hf hh hn hpos hargs h := by
    obtain ⟨o, ht⟩ : ∃ o, n.tag = .op o := by
      cases hn : n.tag <;> simp_all [isForm, Tag.isOperator]
    have hcount := Node.malformed?_eq_none_iff (n := n) (by simp [ht]) hargs.denotes.length_eq
    rw [visit, ht] at h
    obtain ⟨hwell, h⟩ := check_bind_ok.mp h
    have hfine : ¬ Faulty n.tag args := fun hfaulty => hcount.mp hwell hfaulty.2
    obtain ⟨left, hvs⟩ | ⟨left, right, hvs⟩ := Node.args_operator ht hwell
    · rw [hvs] at h hargs
      obtain ⟨t, _, -, hnil, rfl⟩ := List.forall₂_cons_left_iff.mp hargs.denotes
      cases hnil
      obtain ⟨-, h⟩ := operandAt_bind_ok.mp h
      obtain ⟨_, hshape, rfl⟩ := bind_pure_ok.mp h
      have hleft : n.arg 0 = left := by simp [Node.arg, hvs]
      rw [hleft] at hshape
      have hmade : Makes c [t] c [left, .sym o.spelling] [t, .leaf (.sym o.spelling)] :=
        (Makes.keep hargs.denotes).append (Makes.sym c o.spelling)
      refine ⟨rfl, .callm, _, reshape_reworks hh (hmade.reworks hargs (.refl _)) hshape, ?_, ?_⟩
      · rw [Tree.refused_unless hfine]
        simp [ht, Tree.not_refused_leaf]
      · simp [make, ht]
    · rw [hvs] at h hargs
      obtain ⟨t, _, hleft, hds, rfl⟩ := List.forall₂_cons_left_iff.mp hargs.denotes
      obtain ⟨s, _, hright, hnil, rfl⟩ := List.forall₂_cons_left_iff.mp hds
      cases hnil
      obtain ⟨w, d, hlist, h⟩ := bind_ok.mp h
      obtain ⟨_, hshape, rfl⟩ := bind_pure_ok.mp h
      have hmade : Makes c [t, s] d [left, .sym o.spelling, w]
          [t, .leaf (.sym o.spelling), .node ⟨(c.forest.size : Int) + 1, n.pos⟩ .list [s]] :=
        (Makes.keep (.cons hleft .nil)).append
          ((Makes.sym c o.spelling).append ((Makes.keep hds).list hlist))
      refine ⟨rfl, .callm, _, reshape_reworks hh (hmade.reworks hargs (.refl _)) hshape, ?_, ?_⟩
      · rw [Tree.refused_unless hfine]
        simp [ht, Tree.not_refused_leaf, Tree.refused_node, Faulty, Tag.isOperator]
      · simp [make, ht, Tree.rebuilt_node]
  refused {U c args n id e c1} hf hargs h he := by
    obtain ⟨o, ht⟩ : ∃ o, n.tag = .op o := by
      cases hn : n.tag <;> simp_all [isForm, Tag.isOperator]
    rw [visit, ht] at h
    obtain ⟨hbad, rfl⟩ := Quiet.after_check (fun _ => by
      split
      · exact (quiet_list _ _).bind fun _ => (quiet_reshape _ _ _).bind fun _ => quiet_pure _
      · exact (quiet_operandAt _ _).bind fun _ => (quiet_reshape _ _ _).bind fun _ =>
          quiet_pure _) h he
    exact ⟨rfl, hf, miscounted_of_check (by simp [ht]) hargs hbad⟩

end Operators

namespace Yield

def isForm (tag : Tag) : Bool := tag = .yield ∨ tag = .call

/-- `(callm __closure__ call (a b))` -/
def make : Tag → List (Tree Unit) → Tree Unit
  | .yield, [] => .node () .callm [.leaf (.sym "__closure__"), .leaf (.sym "call")]
  | .yield, args =>
    .node () .callm [.leaf (.sym "__closure__"), .leaf (.sym "call"), .node () .list args]
  | .call, function :: args =>
    if function.symbol? = some ("yield" : Text) then
      .node () .callm (.leaf (.sym "__closure__") :: .leaf (.sym "call") :: args)
    else .node () .call (function :: args)
  | tag, args => .node () tag args

def Faulty {α : Type} (tag : Tag) (args : List (Tree α)) : Prop := tag = .call ∧ Miscounted tag args

theorem symbol?_make (tag : Tag) (es : List (Tree Unit)) : (make tag es).symbol? = none := by
  unfold make
  repeat' split
  all_goals rfl

theorem symbol?_rebuilt (t : Tree Mark) : (t.rebuilt make).symbol? = t.symbol? := by
  cases t with
  | leaf a =>
    rw [Tree.rebuilt_leaf]
    cases a <;> rfl
  | node mark tag args =>
    by_cases ht : tag = .sexp
    · rw [Tree.rebuilt, Tree.shape_node, ht, Tree.rebuild_sexp]
      rfl
    · rw [Tree.rebuilt_node ht, symbol?_make]
      rfl

theorem expands : Expands visit isForm make Faulty where
  sexp := rfl
  skips {id n} ht := by rw [visit, ht]
  passes {id n} hs ht := by
    unfold visit
    split <;> simp_all [isForm]
  plain {tag} ht := by
    refine ⟨fun args h => ?_, fun es => ?_⟩
    · simp [isForm, h.1] at ht
    · unfold make
      split <;> simp_all [isForm]
  form {U c v mark args n act c1} hf hh hn hpos hargs h := by
    have ht : n.tag = .yield ∨ n.tag = .call := by simpa [isForm] using hf
    rcases ht with ht | ht
    · rw [visit, ht] at h
      have hfine : ¬ Faulty n.tag args := by
        intro hfaulty
        simp [ht] at hfaulty
        exact nomatch hfaulty.1
      cases hempty : n.args.isEmpty with
      | true =>
        simp only [hempty, if_true, pure_bind] at h
        obtain ⟨_, hshape, rfl⟩ := bind_pure_ok.mp h
        obtain rfl : args = [] := by
          rw [List.isEmpty_iff.mp hempty] at hargs
          exact List.forall₂_nil_left_iff.mp hargs.denotes
        rw [List.isEmpty_iff.mp hempty] at hargs
        refine ⟨rfl, .callm, _,
          reshape_reworks hh (((Reworks.refl hargs).sym "call").sym "__closure__") hshape, ?_, ?_⟩
        · rw [Tree.refused_unless hfine]
          simp [Tree.not_refused_leaf]
        · simp [make, ht]
      | false =>
        simp only [hempty, Bool.false_eq_true, if_false, pure_bind] at h
        obtain ⟨w, d, hmove, h⟩ := bind_ok.mp h
        obtain ⟨_, hshape, rfl⟩ := bind_pure_ok.mp h
        obtain ⟨hmoved, -⟩ := moveArgs_reworks hh hn hmove
        refine ⟨rfl, .callm, _,
          reshape_reworks hh ((hmoved.sym "call").sym "__closure__") hshape, ?_, ?_⟩
        · rw [Tree.refused_unless hfine]
          simp [ht, Tree.refused_node, Faulty, Tree.not_refused_leaf]
        · have hne : args ≠ [] := by
            rintro rfl
            simp [List.forall₂_nil_right_iff.mp hargs.denotes] at hempty
          obtain ⟨t, ts, rfl⟩ := List.exists_cons_of_ne_nil hne
          simp [make, ht, Tree.rebuilt_node]
    · rw [visit, ht] at h
      have hcount := Node.malformed?_eq_none_iff (n := n) (by simp [ht]) hargs.denotes.length_eq
      obtain ⟨hwell, h⟩ := check_bind_ok.mp h
      have hfine : ¬ Faulty n.tag args := fun hfaulty => hcount.mp hwell hfaulty.2
      obtain ⟨hlt, h⟩ := operandAt_bind_ok.mp h
      obtain ⟨w, ws, hvs⟩ := List.exists_cons_of_length_pos hlt
      have hw : n.arg 0 = w := by simp [Node.arg, hvs]
      rw [hw] at h
      rw [hvs] at hargs
      obtain ⟨t, ts, hfirst, hrest, rfl⟩ := List.forall₂_cons_left_iff.mp hargs.denotes
      have hsymbol : w.is "yield" = true ↔ t.symbol? = some ("yield" : Text) := hfirst.is_iff
      cases his : w.is "yield" with
      | true =>
        simp only [his, if_true] at h
        obtain ⟨_, hshape, rfl⟩ := bind_pure_ok.mp h
        rw [hvs, List.drop_one, List.tail_cons] at hshape
        have hselect := (Reworks.refl hargs).select hrest (by
          rw [Tree.idsOf_cons]
          exact (List.sublist_append_right _ _).subperm)
        have ht' := hsymbol.mp his
        refine ⟨rfl, .callm, _,
          reshape_reworks hh ((hselect.sym "call").sym "__closure__") hshape, ?_, ?_⟩
        · have hleaf : ¬ t.Refused Faulty := by
            cases t with
            | leaf a => exact Tree.not_refused_leaf a
            | node mark tag args => cases ht'
          rw [Tree.refused_unless hfine]
          simp [ht, Tree.not_refused_leaf, hleaf]
        · simp [make, ht, symbol?_rebuilt, ht']
      | false =>
        simp only [his, Bool.false_eq_true, if_false] at h
        obtain ⟨rfl, rfl⟩ := pure_ok.mp h
        have ht' : t.symbol? ≠ some ("yield" : Text) := fun hs => by simp [hsymbol.mpr hs] at his
        refine ⟨rfl, n.tag, _, .refl hh, ?_, ?_⟩
        · rw [Tree.refused_unless hfine]
          simp [ht]
        · simp [make, ht, symbol?_rebuilt, ht']
  refused {U c args n id e c1} hf hargs h he := by
    have ht : n.tag = .yield ∨ n.tag = .call := by simpa [isForm] using hf
    rcases ht with ht | ht
    · rw [visit, ht] at h
      have hquiet : ∀ args, Quiet (do reshape id .callm args; pure Walk.Action.descend) :=
        fun args => (quiet_reshape _ _ _).bind fun _ => quiet_pure _
      cases hempty : n.args.isEmpty with
      | true =>
        simp only [hempty, if_true, pure_bind] at h
        exact absurd (hquiet _ _ _ _ h) he
      | false =>
        simp only [hempty, Bool.false_eq_true, if_false, pure_bind] at h
        exact absurd ((quiet_moveArgs _ _).bind (fun _ => hquiet _) _ _ _ h) he
    · rw [visit, ht] at h
      obtain ⟨hbad, rfl⟩ := Quiet.after_check (fun _ => (quiet_operandAt _ _).bind fun _ => by
        split
        · exact (quiet_reshape _ _ _).bind fun _ => quiet_pure _
        · exact quiet_pure _) h he
      exact ⟨rfl, ht, miscounted_of_check (by simp [ht]) hargs hbad⟩

end Yield

namespace Concat

def isForm (tag : Tag) : Bool := tag = .concat

/-- `(callm a to_s)` -/
def text (part : Tree Unit) : Tree Unit := .node () .callm [part, .leaf (.sym "to_s")]

/-- `(callm <left> concat ((callm b to_s)))` -/
def join (left part : Tree Unit) : Tree Unit :=
  .node () .callm [left, .leaf (.sym "concat"), .node () .list [text part]]

/-- What the pass makes of a form. -/
def make : Tag → List (Tree Unit) → Tree Unit
  | .concat, first :: rest => rest.foldl join (text first)
  | tag, args => .node () tag args

def Faulty {α : Type} (tag : Tag) (args : List (Tree α)) : Prop :=
  tag = .concat ∧ Miscounted tag args

/-- The calls that append some parts to each other, the parts last one first. -/
inductive Chained : List (Tree Mark) → Tree Mark → Prop where
  | one (mark : Mark) (part : Tree Mark) :
      Chained [part] (.node mark .callm [part, .leaf (.sym "to_s")])
  | more {before left : Tree Mark} {earlier : List (Tree Mark)} (mark args text : Mark)
      (last : Tree Mark) (h : Chained (before :: earlier) left) :
      Chained (last :: before :: earlier) (.node mark .callm [left, .leaf (.sym "concat"),
        .node args .list [.node text .callm [last, .leaf (.sym "to_s")]]])

variable {parts : List (Tree Mark)} {t : Tree Mark}

theorem Chained.rebuilt (h : Chained parts t) :
    t.rebuilt make = make .concat (parts.map (Tree.rebuilt make)).reverse := by
  induction h with
  | one mark part => simp [Tree.rebuilt_node, make, Concat.text]
  | @more before left earlier mark args text last h ih =>
    obtain ⟨first, rest, hfirst⟩ := List.exists_cons_of_ne_nil
      (show ((before :: earlier).map (Tree.rebuilt make)).reverse ≠ [] by simp)
    rw [List.map_cons, List.reverse_cons, hfirst, List.cons_append]
    simp only [make, List.foldl_append, List.foldl_cons, List.foldl_nil]
    rw [hfirst] at ih
    simp only [make] at ih
    rw [← ih]
    simp [Tree.rebuilt_node, make, join, Concat.text]

theorem Chained.refused (h : Chained parts t) :
    t.Refused Faulty ↔ ∃ part ∈ parts, part.Refused Faulty := by
  induction h with
  | one mark part => simp [Tree.refused_node, Faulty, Tree.not_refused_leaf]
  | more mark args text last h ih =>
    simp [Tree.refused_node, Faulty, Tree.not_refused_leaf] at ih ⊢
    rw [ih, or_comm]

theorem quiet_chain (pos : Position) (last : Operand) (earlier : List Operand) :
    Quiet (chain pos last earlier) := by
  induction earlier generalizing last with
  | nil => exact quiet_node _ _ _
  | cons before earlier ih =>
    exact (quiet_node _ _ _).bind fun _ => (ih before).bind fun _ => (quiet_list _ _).bind fun _ =>
      quiet_node _ _ _

theorem chain_makes (hds : List.Forall₂ (Denotes c.forest) (last :: earlier) ts)
    (h : chain pos last earlier c = .ok v c') :
    ∃ id args, Makes c ts c' [v] [.node ⟨id, pos⟩ .callm args] ∧
      Chained ts (.node ⟨id, pos⟩ .callm args) := by
  induction earlier generalizing last c c' ts v with
  | nil =>
    obtain ⟨t, _, hlast, hnil, rfl⟩ := List.forall₂_cons_left_iff.mp hds
    cases hnil
    have hargs : Makes c [t] c [last, .sym "to_s"] [t, .leaf (.sym "to_s")] :=
      (Makes.keep hds).append (Makes.sym c "to_s")
    exact ⟨_, _, hargs.node h, .one _ t⟩
  | cons before earlier ih =>
    obtain ⟨t, us, hlast, hrest, rfl⟩ := List.forall₂_cons_left_iff.mp hds
    obtain ⟨s, ss, -, -, us_eq⟩ := List.forall₂_cons_left_iff.mp hrest
    subst us_eq
    obtain ⟨right, c1, hright, h⟩ := bind_ok.mp h
    obtain ⟨left, c2, hleft, h⟩ := bind_ok.mp h
    obtain ⟨args, c3, hargs, h⟩ := bind_ok.mp h
    have hlastArgs : Makes c [t] c [last, .sym "to_s"] [t, .leaf (.sym "to_s")] :=
      (Makes.keep (.cons hlast .nil)).append (Makes.sym c "to_s")
    have hmade := hlastArgs.node hright
    obtain ⟨id, leftArgs, hmadeLeft, hchained⟩ := ih (Denotes.growEach hrest hmade.grows) hleft
    have hboth := hmade.append hmadeLeft
    obtain ⟨hr, hl⟩ := List.forall₂_cons.mp hboth.denotes
    obtain ⟨hl, -⟩ := List.forall₂_cons.mp hl
    have hordered : Makes c (t :: s :: ss) c2 ([left, .sym "concat"] ++ [right])
        ([.node ⟨id, pos⟩ .callm leftArgs, .leaf (.sym "concat")] ++ [_]) :=
      hboth.reorder (.cons hl (.cons rfl (.cons hr .nil))) (by
        simp only [Tree.idsOf_append, Tree.idsOf_cons, Tree.idsOf_nil, Tree.ids_leaf,
          List.append_nil]
        exact List.perm_append_comm)
    exact ⟨_, _, (hordered.nodeOver rfl hargs).node h, .more _ _ _ t hchained⟩

theorem expands : Expands visit isForm make Faulty where
  sexp := rfl
  skips {id n} ht := by rw [visit, ht]
  passes {id n} hs ht := by
    unfold visit
    split <;> simp_all [isForm]
  plain {tag} ht := by
    refine ⟨fun args h => ?_, fun es => ?_⟩
    · simp [isForm, h.1] at ht
    · unfold make
      split <;> simp_all [isForm]
  form {U c v mark args n act c1} hf hh hn hpos hargs h := by
    have ht : n.tag = .concat := by simpa [isForm] using hf
    have hcount := Node.malformed?_eq_none_iff (n := n) (by simp [ht]) hargs.denotes.length_eq
    rw [visit, ht] at h
    obtain ⟨hwell, h⟩ := check_bind_ok.mp h
    have hfine : ¬ Faulty n.tag args := fun hfaulty => hcount.mp hwell hfaulty.2
    have hds : List.Forall₂ (Denotes c.forest) n.args.reverse args.reverse :=
      List.forall₂_reverse_iff.mpr hargs.denotes
    cases hrev : n.args.reverse with
    | nil =>
      rw [hrev] at h
      exact absurd h throw_ok
    | cons last earlier =>
      rw [hrev] at h hds
      obtain ⟨top, c2, hchain, h⟩ := bind_ok.mp h
      obtain ⟨_, hreplace, rfl⟩ := bind_pure_ok.mp h
      obtain ⟨id, topArgs, hmade, hchained⟩ := chain_makes hds hchain
      have hperm : (Tree.idsOf args.reverse).Perm (Tree.idsOf args) :=
        (List.reverse_perm args).flatMap_right _
      refine ⟨rfl, .callm, topArgs,
        replace_reworks hh (hmade.reworks hargs hperm.subperm) hpos hreplace, ?_, ?_⟩
      · have hrefused := hchained.refused
        simp only [Tree.refused_node, List.mem_reverse] at hrefused
        rw [Tree.refused_unless hfine]
        simpa [ht, Faulty] using hrefused.symm
      · have hrebuilt := hchained.rebuilt
        rw [Tree.rebuilt_node (by simp), List.map_reverse, List.reverse_reverse] at hrebuilt
        rw [ht, ← hrebuilt]
        rfl
  refused {U c args n id e c1} hf hargs h he := by
    have ht : n.tag = .concat := by simpa [isForm] using hf
    rw [visit, ht] at h
    obtain ⟨hbad, rfl⟩ := Quiet.after_check (fun _ => by
      split
      · exact quiet_throw _
      · exact (quiet_chain _ _ _).bind fun _ => (quiet_replace _ _).bind fun _ => quiet_pure _)
      h he
    exact ⟨rfl, ht, miscounted_of_check (by simp [ht]) hargs hbad⟩

end Concat

end Pass

end Lowering
