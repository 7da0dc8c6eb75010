import Lowering.Pass.Destruct
import Lowering.Proofs.CallExpansions

namespace Lowering.Pass.Destruct

open Forest PassM

variable {c c' : Context} {v : Operand} {t : Tree Mark} {ts us : List (Tree Mark)} {pos : Position}

/-- The forms that the pass expands. -/
def isForm (tag : Tag) : Bool := tag = .assign

/-- `(callm __destruct [] (i))` -/
def element (i : Nat) : Tree Unit :=
  .node () .callm [.leaf (.sym "__destruct"), .leaf (.sym "[]"),
    .node () .list [.leaf (.int (Int64.ofNat i))]]

mutual
/-- The assignment of a value to a target, to its parts one by one if it has parts. -/
def assignTo : Tree Unit → Tree Unit → Tree Unit
  | .node _ .destruct targets, value =>
    .node () .letIn [.node () .list [.leaf (.sym "__destruct")],
      .node () .block (.node () .assign [.leaf (.sym "__destruct"), value] :: assignEach 0 targets)]
  | target, value => .node () .assign [target, value]

/-- The assignments of the elements from `i` on. -/
def assignEach : Nat → List (Tree Unit) → List (Tree Unit)
  | _, [] => []
  | i, target :: targets => assignTo target (element i) :: assignEach (i + 1) targets
end

/-- What the pass makes of a form. -/
def make : Tag → List (Tree Unit) → Tree Unit
  | .assign, [target, value] => assignTo target value
  | tag, args => .node () tag args

mutual
/-- The targets of each multiple assignment that an assignment to a tree comes down to. -/
def targetLists {α : Type} : Tree α → List (List (Tree α))
  | .node _ .destruct targets => targets :: targetListsEach targets
  | _ => []

def targetListsEach {α : Type} : List (Tree α) → List (List (Tree α))
  | [] => []
  | t :: ts => targetLists t ++ targetListsEach ts
end

/-- An assignment, or one that it comes down to, has a wrong number of operands. -/
def Faulty {α : Type} (tag : Tag) (args : List (Tree α)) : Prop :=
  tag = .assign ∧ (Miscounted tag args ∨
    ∃ target ∈ args.head?, ∃ targets ∈ targetLists target, Miscounted .destruct targets)

theorem targetListsEach_eq (ts : List (Tree α)) : targetListsEach ts = ts.flatMap targetLists :=
  eq_flatMap rfl (fun _ _ => rfl) ts

theorem targetLists_destruct (mark : α) (targets : List (Tree α)) :
    targetLists (.node mark .destruct targets) = targets :: targets.flatMap targetLists := by
  rw [targetLists, targetListsEach_eq]

/-- The assignments of the elements of a value from `i` on, as the pass makes them. -/
inductive Elements : Nat → List (Tree Mark) → List (Tree Mark) → Prop where
  | nil (i : Nat) : Elements i [] []
  | cons {i : Nat} {ts us : List (Tree Mark)} (assign call list : Mark) (t : Tree Mark)
      (h : Elements (i + 1) ts us) :
      Elements i (t :: ts) (.node assign .assign [t, .node call .callm
        [.leaf (.sym "__destruct"), .leaf (.sym "[]"),
          .node list .list [.leaf (.int (Int64.ofNat i))]]] :: us)

theorem assignElement_makes (ht : Denotes c.forest target t)
    (h : assignElement pos target i c = .ok v c') :
    ∃ assign call list, Makes c [t] c' [v] [.node assign .assign [t, .node call .callm
        [.leaf (.sym "__destruct"), .leaf (.sym "[]"),
          .node list .list [.leaf (.int (Int64.ofNat i))]]]] := by
  obtain ⟨position, c1, hposition, h⟩ := bind_ok.mp h
  obtain ⟨element, c2, helement, h⟩ := bind_ok.mp h
  have hargs : Makes c [] c1 [temporary, .sym "[]", position] _ :=
    (Makes.sym c "__destruct").append
      ((Makes.sym c "[]").append ((Makes.int c (Int64.ofNat i)).list hposition))
  have hboth : Makes c [t] c2 [target, element] _ :=
    (Makes.keep (.cons ht .nil)).append (hargs.node helement)
  exact ⟨_, _, _, hboth.node h⟩

theorem elements_makes (hts : List.Forall₂ (Denotes c.forest) targets ts)
    (h : ((targets.zipIdx i).mapM fun x => assignElement pos x.1 x.2 : PassM (List Operand)) c =
      .ok vs c') : ∃ us, Makes c ts c' vs us ∧ Elements i ts us := by
  induction targets generalizing c i vs ts with
  | nil =>
    obtain rfl := List.forall₂_nil_left_iff.mp hts
    obtain ⟨rfl, rfl⟩ := pure_ok.mp h
    exact ⟨[], .keep .nil, .nil i⟩
  | cons target targets ih =>
    obtain ⟨t, ts, ht, hrest, rfl⟩ := List.forall₂_cons_left_iff.mp hts
    rw [List.zipIdx_cons] at h
    obtain ⟨w, c1, ws, hw, hws, rfl⟩ := mapM_cons_ok.mp h
    obtain ⟨assign, call, list, hfirst⟩ := assignElement_makes ht hw
    obtain ⟨us, hmade, helements⟩ := ih (Denotes.growEach hrest hfirst.grows) hws
    exact ⟨_, hfirst.append hmade, .cons assign call list t helements⟩

/-- What a multiple assignment becomes is made of its targets and its value. -/
theorem expand_makes {id : Int} (hts : List.Forall₂ (Denotes c.forest) targets ts)
    (ht : Denotes c.forest value t) (h : expand id pos targets value c = .ok u c') :
    ∃ d vars body varsMark bodyMark first us,
      Makes c (t :: ts) d [vars, body]
        [.node varsMark .list [.leaf (.sym "__destruct")],
          .node bodyMark .block (.node first .assign [.leaf (.sym "__destruct"), t] :: us)] ∧
      Elements 0 ts us ∧ reshape id .letIn [vars, body] d = .ok u c' := by
  obtain ⟨first, c1, hfirst, h⟩ := bind_ok.mp h
  obtain ⟨rest, c2, hrest, h⟩ := bind_ok.mp h
  obtain ⟨vars, c3, hvars, h⟩ := bind_ok.mp h
  obtain ⟨body, c4, hbody, h⟩ := bind_ok.mp h
  have hfirstArgs : Makes c [t] c [temporary, value] [.leaf (.sym "__destruct"), t] :=
    (Makes.sym c "__destruct").append (Makes.keep (.cons ht .nil))
  have hmadeFirst := hfirstArgs.node hfirst
  obtain ⟨us, hmadeRest, helements⟩ :=
    elements_makes (Denotes.growEach hts hmadeFirst.grows) hrest
  have hall := (hmadeFirst.append hmadeRest).append ((Makes.sym c2 "__destruct").list hvars)
  rw [List.append_nil] at hall
  have hswapped := hall.swap (by simp [hmadeRest.denotes.length_eq])
  exact ⟨c4, vars, body, _, _, _, us, hswapped.nodeOver rfl hbody, helements, h⟩

theorem not_miscounted_assign (t u : Tree Mark) : ¬ Miscounted .assign [t, u] := by
  rintro ⟨a, ha, hcount⟩
  cases ha
  cases hcount

theorem Elements.rebuilt (h : Elements i ts us) :
    us.map (Tree.rebuilt make) = assignEach i (ts.map (Tree.rebuilt make)) := by
  induction h with
  | nil i => rfl
  | cons assign call list t h ih =>
    rw [List.map_cons, List.map_cons, assignEach, ← ih]
    simp [Tree.rebuilt_node, make, element]

theorem faulty_pair : Faulty .assign [t, u] ↔
    ∃ targets ∈ targetLists t, Miscounted .destruct targets := by
  simp [Faulty, not_miscounted_assign]

theorem Elements.refused (h : Elements i ts us) : (∃ u ∈ us, u.Refused Faulty) ↔
      ∃ t ∈ ts, t.Refused Faulty ∨ ∃ targets ∈ targetLists t, Miscounted .destruct targets := by
  induction h with
  | nil i => simp
  | cons assign call list t h ih =>
    rw [List.exists_mem_cons_iff, List.exists_mem_cons_iff, ih]
    refine or_congr ?_ Iff.rfl
    simp [Tree.refused_node, Faulty, not_miscounted_assign, Tree.not_refused_leaf, or_comm]

theorem rebuilt_ne_destruct (ht : tag ≠ .destruct) (es : List (Tree Unit)) :
    (Tree.node mark tag args).rebuilt make ≠ .node () .destruct es := by
  by_cases hs : tag = .sexp
  · rw [Tree.rebuilt, Tree.shape_node, hs, Tree.rebuild_sexp]
    simp
  · rw [Tree.rebuilt_node hs]
    unfold make
    split
    · unfold assignTo
      split <;> simp
    · simpa using fun h => absurd h ht

theorem assignTo_plain (h : ∀ es, target ≠ .node () .destruct es) (value : Tree Unit) :
    assignTo target value = .node () .assign [target, value] := by
  unfold assignTo
  split
  · exact absurd rfl (h _)
  · rfl

theorem targetLists_plain {t : Tree α} (h : ∀ mark ts, t ≠ .node mark .destruct ts) :
    targetLists t = [] := by
  unfold targetLists
  split
  · exact absurd rfl (h _ _)
  · rfl

theorem quiet_expand (id : Int) (pos : Position) (targets : List Operand) (value : Operand) :
    Quiet (expand id pos targets value) :=
  (quiet_node _ _ _).bind fun _ => (Quiet.mapM (fun _ => (quiet_list _ _).bind fun _ =>
    (quiet_node _ _ _).bind fun _ => quiet_node _ _ _) _).bind fun _ =>
    (quiet_list _ _).bind fun _ => (quiet_node _ _ _).bind fun _ => quiet_reshape _ _ _

theorem assign_plain (hh : Bears U c [v] [.node mark .assign [target, value]])
    (htarget : (∃ a, target = .leaf a) ∨ ∃ m tag args, target = .node m tag args ∧
      tag ≠ .destruct) :
    ∃ tag1 args1,
      Reworks U c [.node mark .assign [target, value]] c [v] [.node mark tag1 args1] ∧
      ((Tree.node mark .assign [target, value]).Refused Faulty ↔
        ∃ t ∈ args1, t.Refused Faulty) ∧
      make .assign ([target, value].map (Tree.rebuilt make)) =
        .node () tag1 (args1.map (Tree.rebuilt make)) := by
  have hlists : targetLists target = [] := by
    obtain ⟨a, rfl⟩ | ⟨m, tag, args, rfl, ht⟩ := htarget
    · exact targetLists_plain nofun
    · exact targetLists_plain fun m' ts heq => ht (by cases heq; rfl)
  have hrebuilt : ∀ es, target.rebuilt make ≠ .node () .destruct es := by
    intro es
    obtain ⟨a, rfl⟩ | ⟨m, tag, args, rfl, ht⟩ := htarget
    · rw [Tree.rebuilt_leaf]
      nofun
    · exact rebuilt_ne_destruct ht es
  refine ⟨.assign, _, .refl hh, ?_, ?_⟩
  · rw [Tree.refused_node, faulty_pair, hlists]
    simp
  · simp only [List.map_cons, List.map_nil, make]
    exact assignTo_plain hrebuilt _

theorem expands : Expands visit isForm make Faulty where
  sexp := rfl
  skips {id n} ht := by rw [visit, ht]
  passes {id n} hs ht := by
    unfold visit
    split <;> simp_all [isForm]
  plain {tag} ht := by
    refine ⟨fun args h => ?_, fun es => ?_⟩
    · simp [isForm, h.1] at ht
    · unfold make
      split <;> simp_all [isForm]
  form {U c v mark args n act c1} hf hh hn hpos hargs h := by
    have ht : n.tag = .assign := by simpa [isForm] using hf
    rw [visit, ht] at h
    obtain ⟨hwell, h⟩ := check_bind_ok.mp h
    obtain ⟨target, value, hvs⟩ := List.length_eq_two.mp ((Node.malformed?_assign ht).mp hwell)
    rw [hvs] at hargs
    obtain ⟨t, _, htarget, hds, rfl⟩ := List.forall₂_cons_left_iff.mp hargs.denotes
    obtain ⟨s, _, hvalue, hnil, rfl⟩ := List.forall₂_cons_left_iff.mp hds
    cases hnil
    obtain ⟨-, h⟩ := operandAt_bind_ok.mp h
    have hfirst : n.arg 0 = target := by simp [Node.arg, hvs]
    rw [hfirst] at h
    rw [ht] at hh ⊢
    cases t with
    | leaf a =>
      rw [Operand.child?_of_atom htarget] at h
      obtain ⟨rfl, rfl⟩ := pure_ok.mp h
      exact ⟨rfl, assign_plain hh (.inl ⟨a, rfl⟩)⟩
    | node m tag targets =>
      obtain ⟨hview, d, hd, htag, -, htargets⟩ := denotes_node.mp htarget
      rw [Operand.view_eq_child.mp hview] at h
      obtain ⟨_, hd', h⟩ := fetch_bind_ok.mp h
      obtain rfl := Option.mem_unique hd hd'
      by_cases hdest : d.tag = .destruct
      · simp only [if_pos hdest] at h
        obtain ⟨hwelld, h⟩ := check_bind_ok.mp h
        obtain ⟨-, h⟩ := operandAt_bind_ok.mp h
        obtain ⟨_, hexpand, rfl⟩ := bind_pure_ok.mp h
        have hsecond : n.arg 1 = value := by simp [Node.arg, hvs]
        rw [hsecond] at hexpand
        obtain rfl : tag = .destruct := htag ▸ hdest
        have hcount : ¬ Miscounted .destruct targets := by
          have := (Node.malformed?_eq_none_iff (by simp [hdest]) htargets.length_eq).mp hwelld
          rwa [hdest] at this
        obtain ⟨e, vars, body, varsMark, bodyMark, first, us, hmade, helements, hshape⟩ :=
          expand_makes htargets hvalue hexpand
        have hsub : (Tree.idsOf (s :: targets)).Subperm
            (Tree.idsOf [.node m .destruct targets, s]) := by
          simp only [Tree.idsOf_cons, Tree.idsOf_nil, Tree.ids_node', List.append_nil]
          exact List.perm_append_comm.subperm.trans (List.sublist_cons_self _ _).subperm
        refine ⟨rfl, .letIn, _, reshape_reworks hh (hmade.reworks hargs hsub) hshape, ?_, ?_⟩
        · have helems := helements.refused
          rw [Tree.refused_node, faulty_pair, targetLists_destruct]
          simp [Tree.refused_node, Faulty, not_miscounted_assign, Tree.not_refused_leaf,
            targetLists, hcount, helems]
          grind
        · have helems := helements.rebuilt
          simp [Tree.rebuilt_node, make, assignTo, helems]
      · simp only [if_neg hdest] at h
        obtain ⟨rfl, rfl⟩ := pure_ok.mp h
        exact ⟨rfl, assign_plain hh (.inr ⟨m, tag, targets, rfl, htag ▸ hdest⟩)⟩
  refused {U c args n id err c1} hf hargs h herr := by
    have ht : n.tag = .assign := by simpa [isForm] using hf
    rw [visit, ht] at h
    rcases bind_error.mp h with h | ⟨_, _, hcheck, h⟩
    · obtain ⟨hbad, rfl⟩ := check_error h
      exact ⟨rfl, ht, .inl (miscounted_of_check (by simp [ht]) hargs hbad)⟩
    obtain ⟨-, rfl⟩ := check_ok.mp hcheck
    rcases bind_error.mp h with h | ⟨_, _, hoperand, h⟩
    · exact absurd (quiet_operandAt _ _ _ _ _ h) herr
    obtain ⟨hlt, rfl, rfl⟩ := operandAt_ok.mp hoperand
    obtain ⟨target, rest, hvs⟩ := List.exists_cons_of_length_pos hlt
    have hfirst : n.arg 0 = target := by simp [Node.arg, hvs]
    rw [hfirst] at h
    rw [hvs] at hargs
    obtain ⟨t, ts, htarget, -, rfl⟩ := List.forall₂_cons_left_iff.mp hargs.denotes
    cases hchild : target.child? with
    | none =>
      rw [hchild] at h
      exact absurd h pure_error
    | some x =>
      rw [hchild] at h
      rcases bind_error.mp h with h | ⟨e, _, hfetch, h⟩
      · exact absurd (quiet_fetch _ _ _ _ h) herr
      obtain ⟨he, rfl⟩ := fetch_ok.mp hfetch
      by_cases hdest : e.tag = .destruct
      · simp only [if_pos hdest] at h
        obtain ⟨hbad, rfl⟩ := Quiet.after_check (fun _ => (quiet_operandAt _ _).bind fun _ =>
          (quiet_expand _ _ _ _).bind fun _ => quiet_pure _) h herr
        refine ⟨rfl, ht, .inr ⟨t, rfl, ?_⟩⟩
        cases t with
        | leaf a =>
          rw [Operand.child?_of_atom htarget] at hchild
          cases hchild
        | node m tag targets =>
          obtain ⟨hview, e', he', htag, -, htargets⟩ := denotes_node.mp htarget
          obtain rfl : m.id = x :=
            Option.some.inj ((Operand.view_eq_child.mp hview).symm.trans hchild)
          obtain rfl := Option.mem_unique he he'
          obtain rfl : tag = .destruct := htag ▸ hdest
          refine ⟨targets, by simp [targetLists_destruct], ?_⟩
          by_contra hcount
          rw [← hdest] at hcount
          exact hbad ((Node.malformed?_eq_none_iff (by simp [hdest]) htargets.length_eq).mpr hcount)
      · simp only [if_neg hdest] at h
        exact absurd h pure_error

end Lowering.Pass.Destruct
