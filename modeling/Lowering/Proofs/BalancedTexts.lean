import Lowering.Proofs.Parsed

namespace Lowering

namespace Token

variable {ks a b : List Kind} {k : Kind}

/-- Parentheses that nest, with anything else between them. -/
inductive Nested : List Kind → Prop where
  | nil : Nested []
  | value {ks : List Kind} {k : Kind} (before : Nested ks) (opens : k ≠ .opening)
      (closes : k ≠ .closing) : Nested (ks ++ [k])
  | list {ks inner : List Kind} (before : Nested ks) (within : Nested inner) :
      Nested (ks ++ .opening :: (inner ++ [.closing]))

theorem Nested.append (h : Nested a) (h' : Nested b) : Nested (a ++ b) := by
  induction h' with
  | nil => rwa [List.append_nil]
  | value _ opens closes ih =>
    rw [← List.append_assoc]
    exact .value ih opens closes
  | list _ within ih =>
    rw [← List.append_assoc]
    exact .list ih within

theorem Nested.count (h : Nested ks) : ks.count .opening = ks.count .closing := by
  induction h with
  | nil => rfl
  | value _ opens closes ih => simp [List.count_append, ih, opens, closes]
  | list _ _ ih ih' => simp [List.count_append, ih, ih']

/-- In what nests no more is closed than was opened before. -/
theorem Nested.count_le (h : Nested ks) (ha : a <+: ks) : a.count .closing ≤ a.count .opening := by
  induction h generalizing a with
  | nil => simp [List.prefix_nil.mp ha]
  | @value ks k before opens closes ih =>
    rcases List.prefix_concat_iff.mp ha with rfl | ha
    · exact (before.value opens closes).count.ge
    · exact ih ha
  | @list ks inner before within ih ih' =>
    obtain ⟨c, hc⟩ := ha
    rcases List.append_eq_append_iff.mp hc with ⟨d, rfl, -⟩ | ⟨rest, rfl, hrest⟩
    · exact ih (List.prefix_append a d)
    · have hrest : rest <+: .opening :: (inner ++ [.closing]) := ⟨c, hrest.symm⟩
      cases rest with
      | nil => simpa using before.count.ge
      | cons k rest =>
        obtain rfl := (List.cons_prefix_cons.mp hrest).1
        rcases List.prefix_concat_iff.mp (List.cons_prefix_cons.mp hrest).2 with rfl | hrest
        · exact (before.list within).count.ge
        · have := ih' hrest
          have := before.count
          simp [List.count_append]
          omega

/-- The tokens with these numbers, counted from zero, are parentheses that belong together. -/
def Matched (ks : List Kind) (i j : Nat) : Prop := ∃ a inner b,
  ks = a ++ .opening :: (inner ++ .closing :: b) ∧ Nested inner ∧ i = a.length ∧
    j = a.length + inner.length + 1

theorem Matched.append (h : Matched ks i j) (more : List Kind) : Matched (ks ++ more) i j := by
  obtain ⟨a, inner, b, rfl, hinner, hi, hj⟩ := h
  exact ⟨a, inner, b ++ more, by simp, hinner, hi, hj⟩

theorem Matched.unique (h : Matched ks i j) (h' : Matched ks i j') : j = j' := by
  have not_less : ∀ {x y c d : List Kind}, Nested x → Nested y →
      x ++ .closing :: c = y ++ .closing :: d → ¬ x.length < y.length := by
    intro x y c d hx hy heq hlt
    have hsub : x ++ [.closing] <+: y := by
      refine List.prefix_of_prefix_length_le ?_ (List.prefix_append y (.closing :: d)) (by simpa)
      exact ⟨c, by simpa using heq⟩
    have hcount := hy.count_le hsub
    have := hx.count
    simp [List.count_append] at hcount
    omega
  obtain ⟨a, x, c, rfl, hx, rfl, rfl⟩ := h
  obtain ⟨a', y, d, heq, hy, hlen, rfl⟩ := h'
  obtain rfl := (List.append_inj heq hlen).1
  have hsame := (List.cons.inj (List.append_cancel_left heq)).2
  have := not_less hx hy hsame
  have := not_less hy hx hsame.symm
  omega

/-- The tokens of one list. -/
def IsList (ks : List Kind) : Prop := ∃ inner, Nested inner ∧ ks = .opening :: (inner ++ [.closing])

/-- Why a token is refused after others, if it is: a closing parenthesis, if all that was opened has
been closed before; or a string that cannot be read. -/
def refusal? (before : List Kind) (k : Kind) : Option ReadError.Cause :=
  if k = .closing ∧ before.count .opening ≤ before.count .closing then some .unexpectedClosing
  else k.fault?

/-- No token is refused where it stands. -/
def Unrefused (ks : List Kind) : Prop := ∀ a k b, ks = a ++ k :: b → refusal? a k = none

theorem unrefused_concat : Unrefused (ks ++ [k]) ↔ Unrefused ks ∧ refusal? ks k = none := by
  constructor
  · intro h
    exact ⟨fun a x b hks => h a x (b ++ [k]) (by simp [hks]), h ks k [] rfl⟩
  · rintro ⟨h, hk⟩ a x b hks
    rcases List.eq_nil_or_concat b with rfl | ⟨b', y, rfl⟩
    · obtain ⟨rfl, hx⟩ := List.append_inj' hks rfl
      cases hx
      exact hk
    · have hks : ks ++ [k] = (a ++ x :: b') ++ [y] := by simpa using hks
      exact h a x b' (List.append_inj' hks rfl).1

/-- Where parentheses nest, only strings may be refused. -/
theorem Nested.unrefused_iff (h : Nested ks) : Unrefused ks ↔ ∀ k ∈ ks, k.fault? = none := by
  have hopen : ∀ {a b : List Kind} {k : Kind}, ks = a ++ k :: b → k = .closing →
      a.count .closing < a.count .opening := by
    rintro a b k rfl rfl
    have := h.count_le (show a ++ [.closing] <+: _ from ⟨b, by simp⟩)
    simp [List.count_append] at this
    omega
  have hsame : ∀ {a b : List Kind} {k : Kind}, ks = a ++ k :: b → refusal? a k = k.fault? := by
    intro a b k hks
    refine if_neg fun hrefused => ?_
    obtain ⟨hk, hle⟩ := hrefused
    have := hopen hks hk
    omega
  constructor
  · intro hclear k hk
    obtain ⟨a, b, hks⟩ := List.append_of_mem hk
    rw [← hsame hks]
    exact hclear a k b hks
  · intro hfine a k b hks
    rw [hsame hks]
    exact hfine k (by simp [hks])

end Token

namespace Reader

open Forest Token

variable {base f f' : Forest} {ts : List Token} {p : Progress} {is : List Nat}
  {ps : List (Nat × Nat)} {ks : List Kind} {vs : List Operand}

/-- The forms of a text, the last one first. -/
inductive FormsOf : List Kind → List Operand → Prop where
  | nil : FormsOf [] []
  | value {ks : List Kind} {k : Kind} {vs : List Operand} {v : Operand} (before : FormsOf ks vs)
      (opens : k ≠ .opening) (closes : k ≠ .closing) (atom : v.child? = none) :
      FormsOf (ks ++ [k]) (v :: vs)
  | list {ks inner : List Kind} {vs : List Operand} {id : Int} (before : FormsOf ks vs)
      (within : Nested inner) : FormsOf (ks ++ .opening :: (inner ++ [.closing])) (.ref id :: vs)

theorem FormsOf.nested (h : FormsOf ks vs) : Nested ks := by
  induction h with
  | nil => exact .nil
  | value _ opens closes _ ih => exact .value ih opens closes
  | list _ within ih => exact .list ih within

/-- One form that is a node: the text is one list. -/
theorem FormsOf.isList_iff (h : FormsOf ks vs) :
    IsList ks ↔ ∃ v root, vs = [v] ∧ v.child? = some root := by
  constructor
  · rintro ⟨inner, hinner, rfl⟩
    generalize hks : Kind.opening :: (inner ++ [Kind.closing]) = ks at h
    cases h with
    | nil => cases hks
    | value _ _ closes _ =>
      rw [← List.cons_append] at hks
      exact absurd (List.cons.inj (List.append_inj' hks rfl).2).1.symm closes
    | @list ks' inner' vs id before within =>
      rw [← List.cons_append, ← List.cons_append, ← List.append_assoc] at hks
      have hks := (List.append_inj' hks rfl).1
      cases ks' with
      | nil =>
        generalize hnil : ([] : List Kind) = none at before
        cases before with
        | nil => exact ⟨_, id, rfl, Operand.child?_ref id⟩
        | value | list => simp at hnil
      | cons k ks' =>
        -- what comes first would be closed before the end
        obtain ⟨rfl, rfl⟩ := List.cons.inj hks
        have hcount := before.nested.count
        have hle := hinner.count_le (List.prefix_append ks' _)
        simp at hcount
        omega
  · rintro ⟨v, root, rfl, hv⟩
    cases h with
    | value before _ _ atom => rw [atom] at hv; cases hv
    | list before within =>
      cases before
      exact ⟨_, within, rfl⟩

/-- Tokens that have been read, with the lists that are open after them, the numbers of the tokens
that opened these, and the forms that are complete. -/
inductive Standing : List Token → List OpenList → List Nat → List Operand → Prop where
  | closed {ts : List Token} {vs : List Operand} (shaped : FormsOf (ts.map (·.kind)) vs) :
      Standing ts [] [] vs
  | opened {ts inner : List Token} {os : List OpenList} {is : List Nat} {vs : List Operand}
      {o : OpenList} (around : Standing ts os is vs) (within : Nested (inner.map (·.kind))) :
      Standing (ts ++ ⟨o.pos, .opening⟩ :: inner) (o :: os) (ts.length :: is) vs

theorem Standing.count (h : Standing ts os is vs) : os.length = is.length ∧
    (ts.map (·.kind)).count .opening = (ts.map (·.kind)).count .closing + is.length := by
  induction h with
  | closed shaped => exact ⟨rfl, by simpa using shaped.nested.count⟩
  | opened _ within ih =>
    have := within.count
    simp [List.count_append]
    omega

theorem Standing.add (h : Standing ts p.opened is p.forms) (hmore : Nested (more.map (·.kind)))
    (hs : ∀ {ks vs}, FormsOf ks vs → FormsOf (ks ++ more.map (·.kind)) (v :: vs)) :
    Standing (ts ++ more) (p.add v).opened is (p.add v).forms := by
  obtain ⟨opened, forms⟩ := p
  cases h with
  | closed shaped =>
    refine .closed ?_
    rw [List.map_append]
    exact hs shaped
  | @opened ts inner os is vs o around within =>
    rw [List.append_assoc, List.cons_append]
    refine .opened (o := { o with elems := v :: o.elems }) around ?_
    rw [List.map_append]
    exact within.append hmore

/-- A node stands where the first of two parentheses stands that belong together. -/
def AtParens (ts : List Token) (n : Node) (q : Nat × Nat) : Prop :=
  ts[q.1]? = some ⟨n.pos, .opening⟩ ∧ Matched (ts.map (·.kind)) q.1 q.2

theorem AtParens.append (h : AtParens ts n q) (more : List Token) : AtParens (ts ++ more) n q := by
  refine ⟨?_, by simpa using h.2.append (more.map (·.kind))⟩
  rw [List.getElem?_append_left (List.getElem?_eq_some_iff.mp h.1).1, h.1]

/-- The state after some tokens. The numbers of parentheses that belong together stand in the order
of the nodes that have been made of them. -/
structure Along (base : Forest) (ts : List Token) (p : Progress) (f : Forest) (is : List Nat)
    (ps : List (Nat × Nat)) : Prop where
  standing : Standing ts p.opened is p.forms
  clear : Unrefused (ts.map (·.kind))
  made : ∃ new, f.nodes.toList = base.nodes.toList ++ new ∧ List.Forall₂ (AtParens ts) new ps
  sorted : (ps.map Prod.snd).Pairwise (· < ·)
  past : ∀ q ∈ ps, q.2 < ts.length
  covered : ∀ i, (ts.map (·.kind))[i]? = some .opening → i ∈ is ∨ i ∈ ps.map Prod.fst
  count : (ts.map (·.kind)).count .opening = ps.length + is.length

theorem along_start (base : Forest) : Along base [] {} base [] [] where
  standing := .closed .nil
  clear a k b h := by simp at h
  made := ⟨[], by simp, .nil⟩
  sorted := .nil
  past := by simp
  covered i hi := by simp at hi
  count := rfl

theorem operand?_kind {k : Kind} (h : k.operand? = some v) :
    k ≠ .opening ∧ k ≠ .closing ∧ k.fault? = none ∧ v.child? = none := by
  cases k with
  | opening | closing | unclosed => cases h
  | atom text =>
    obtain rfl := Option.some.inj h
    refine ⟨by simp, by simp, rfl, ?_⟩
    unfold atom
    split
    · rfl
    · split <;> rfl
  | string body =>
    obtain ⟨text, htext, rfl⟩ := Option.map_eq_some_iff.mp h
    exact ⟨by simp, by simp, by simp [Kind.fault?, htext], rfl⟩

theorem getElem?_concat_opening {t : Token} (h : ((ts ++ [t]).map (·.kind))[i]? = some .opening) :
    (ts.map (·.kind))[i]? = some .opening ∨ i = ts.length ∧ t.kind = .opening := by
  rw [List.map_append, List.getElem?_append] at h
  split at h
  · exact .inl h
  · rename_i hi
    obtain ⟨hlt, h⟩ := List.getElem?_eq_some_iff.mp h
    simp at hi hlt h
    exact .inr ⟨by omega, h⟩

theorem Along.close {inner : OpenList} (h : Along base ts p f is ps)
    (hopened : p.opened = inner :: outer) (pos : Position)
    (hclear : Unrefused ((ts ++ [(⟨pos, .closing⟩ : Token)]).map (·.kind))) : ∃ is ps,
    Along base (ts ++ [⟨pos, .closing⟩])
      (({ p with opened := outer } : Progress).add (.ref ((f.size : Int) + 1)))
      (f.push (listNode inner.pos inner.elems.reverse)) is ps := by
  obtain ⟨opens, forms⟩ := p
  obtain rfl : opens = inner :: outer := hopened
  obtain ⟨new, hnew, hmakes⟩ := h.made
  have hcount := h.count
  have hcovered := h.covered
  have hpast := h.past
  have hsorted := h.sorted
  cases h.standing with
  | @opened ts' within _ is' _ _ around hwithin =>
    set first : Token := ⟨inner.pos, .opening⟩
    set last : Token := ⟨pos, .closing⟩
    have hlist : Nested ((first :: (within ++ [last])).map (·.kind)) := by
      simpa [first, last] using Nested.list .nil hwithin
    have hadd := Standing.add (p := { opened := outer, forms := forms })
      (v := .ref ((f.size : Int) + 1)) around hlist
      fun hshaped => by simpa [first, last] using FormsOf.list hshaped hwithin
    have hmatched : Matched ((ts' ++ first :: within ++ [last]).map (·.kind)) ts'.length
        (ts' ++ first :: within).length :=
      ⟨ts'.map (·.kind), within.map (·.kind), [], by simp [first, last], hwithin, by simp,
        by simp; omega⟩
    refine ⟨is', ps ++ [(ts'.length, (ts' ++ first :: within).length)], ?_, hclear,
      ⟨new ++ [listNode inner.pos inner.elems.reverse], ?_, ?_⟩, ?_, ?_, fun i hi => ?_, ?_⟩
    · simpa using hadd
    · simp [push, hnew]
    · refine List.rel_append (hmakes.imp fun _ _ hm => hm.append [last]) (.cons ⟨?_, hmatched⟩ .nil)
      simp [first, listNode_pos]
    · rw [List.map_append, List.pairwise_append]
      refine ⟨hsorted, List.pairwise_singleton _ _, fun j hj j' hj' => ?_⟩
      obtain ⟨q, hq, rfl⟩ := List.mem_map.mp hj
      obtain rfl := List.mem_singleton.mp hj'
      exact hpast q hq
    · intro q hq
      rw [List.length_append]
      rcases List.mem_append.mp hq with hq | hq
      · exact Nat.lt_succ_of_lt (hpast q hq)
      · obtain rfl := List.mem_singleton.mp hq
        exact Nat.lt_succ_self _
    · rcases getElem?_concat_opening hi with hi | ⟨-, hkind⟩
      · rcases hcovered i hi with hi | hi
        · rcases List.mem_cons.mp hi with rfl | hi
          · exact .inr (by simp)
          · exact .inl hi
        · exact .inr (by simp only [List.map_append]; exact List.mem_append_left _ hi)
      · cases hkind
    · rw [List.map_append, List.count_append, hcount]
      simp [last]
      omega

/-- A token is refused as it should be, or leads on. -/
theorem Along.step (h : Along base ts p f is ps) (t : Token) : match Reader.step p t f with
    | .ok q g => ∃ is ps, Along base (ts ++ [t]) q g is ps
    | .error e _ => refusal? (ts.map (·.kind)) t.kind = some e.cause ∧ e.pos = t.pos := by
  have hcount := h.standing.count
  obtain ⟨new, hnew, hmakes⟩ := h.made
  have hmakes : List.Forall₂ (AtParens (ts ++ [t])) new ps := hmakes.imp fun _ _ hm => hm.append [t]
  have hpast : ∀ q ∈ ps, q.2 < (ts ++ [t]).length := fun q hq => (h.past q hq).trans (by simp)
  have hclear : refusal? (ts.map (·.kind)) t.kind = none →
      Unrefused ((ts ++ [t]).map (·.kind)) := by
    intro hnone
    rw [List.map_append]
    exact unrefused_concat.mpr ⟨h.clear, hnone⟩
  have hstep := stepped p f t
  revert hstep
  generalize Reader.step p t f = r
  intro hstep
  cases hstep with
  | opening kind =>
    obtain ⟨pos, k⟩ := t
    obtain rfl : k = .opening := kind
    refine ⟨ts.length :: is, ps, .opened (o := ⟨pos, []⟩) h.standing .nil, hclear rfl,
      ⟨new, hnew, hmakes⟩, h.sorted, hpast, fun i hi => ?_, ?_⟩
    · rcases getElem?_concat_opening hi with hi | ⟨rfl, -⟩
      · exact (h.covered i hi).imp_left (List.mem_cons_of_mem _)
      · exact .inl List.mem_cons_self
    · simp [List.count_append, h.count]
      omega
  | closing kind opened =>
    obtain ⟨pos, k⟩ := t
    obtain rfl : k = .closing := kind
    refine h.close opened pos (hclear (if_neg fun ⟨_, hle⟩ => ?_))
    rw [opened] at hcount
    simp at hcount
    omega
  | @value v operand =>
    obtain ⟨hopens, hcloses, hfault, hatom⟩ := operand?_kind operand
    refine ⟨is, ps, ?_, hclear ((if_neg fun hk => hcloses hk.1).trans hfault), ⟨new, hnew, hmakes⟩,
      h.sorted, hpast, fun i hi => ?_, ?_⟩
    · refine h.standing.add (by simpa using Nested.value .nil hopens hcloses) fun hshaped => ?_
      exact hshaped.value hopens hcloses hatom
    · rcases getElem?_concat_opening hi with hi | ⟨-, hkind⟩
      · exact h.covered i hi
      · exact absurd hkind hopens
    · simp [List.count_append, h.count, hopens]
  | unmatched kind closed =>
    refine ⟨if_pos ⟨kind, ?_⟩, rfl⟩
    rw [closed] at hcount
    simp at hcount
    omega
  | faulty fault =>
    refine ⟨(if_neg fun hk => ?_).trans fault, rfl⟩
    rw [hk.1] at fault
    cases fault

/-- The error that these tokens deserve: at the first token that is refused, or at the innermost
parenthesis that is still open after the last. -/
inductive Blamed : List Token → ReadError → Prop where
  | refused {a b : List Token} {t : Token} {cause : ReadError.Cause}
      (clear : Unrefused (a.map (·.kind)))
      (refusal : refusal? (a.map (·.kind)) t.kind = some cause) :
      Blamed (a ++ t :: b) ⟨t.pos, cause⟩
  | unended {a inner : List Token} {pos : Position}
      (clear : Unrefused ((a ++ ⟨pos, .opening⟩ :: inner).map (·.kind)))
      (within : Nested (inner.map (·.kind))) :
      Blamed (a ++ ⟨pos, .opening⟩ :: inner) ⟨pos, .unterminatedList⟩

theorem Blamed.unique (h : Blamed ts e) (h' : Blamed ts e') : e = e' := by
  have first : ∀ {a a' b b' : List Token} {t t' : Token} {cause : ReadError.Cause},
      Unrefused (a.map (·.kind)) → refusal? (a'.map (·.kind)) t'.kind = some cause →
      a ++ t :: b = a' ++ t' :: b' → ¬ a'.length < a.length := by
    intro a a' b b' t t' cause hclear hrefusal heq hlt
    rcases List.append_eq_append_iff.mp heq with ⟨c, rfl, -⟩ | ⟨c, rfl, hc⟩
    · simp at hlt
    · cases c with
      | nil => simp at hlt
      | cons u c =>
        obtain ⟨rfl, -⟩ := List.cons.inj hc
        rw [hclear (a'.map (·.kind)) t'.kind (c.map (·.kind)) (by simp)] at hrefusal
        cases hrefusal
  have innermost : ∀ {a a' inner inner' : List Token} {t t' : Token}, t'.kind = .opening →
      Nested (inner.map (·.kind)) → Nested (inner'.map (·.kind)) →
      a ++ t :: inner = a' ++ t' :: inner' → ¬ a.length < a'.length := by
    intro a a' inner inner' t t' hopens hin hin' heq hlt
    rcases List.append_eq_append_iff.mp heq with ⟨c, rfl, hc⟩ | ⟨c, rfl, -⟩
    · cases c with
      | nil => simp at hlt
      | cons u c =>
        obtain ⟨rfl, rfl⟩ := List.cons.inj hc
        have hle := hin.count_le (a := c.map (·.kind)) ⟨_, (List.map_append ..).symm⟩
        have hcount := hin.count
        have hcount' := hin'.count
        simp [List.count_append, hopens] at hcount
        omega
    · simp at hlt
  cases h with
  | @refused a b t cause clear refusal =>
    generalize hts : a ++ t :: b = ts at h'
    cases h' with
    | @refused a' b' t' cause' clear' refusal' =>
      have := first clear refusal' hts
      have := first clear' refusal hts.symm
      obtain ⟨rfl, heq⟩ := List.append_inj hts (by omega)
      obtain ⟨rfl, -⟩ := List.cons.inj heq
      rw [refusal] at refusal'
      rw [Option.some.inj refusal']
    | unended clear' =>
      rw [← hts, List.map_append, List.map_cons] at clear'
      rw [clear' _ _ _ rfl] at refusal
      cases refusal
  | @unended a inner pos clear within =>
    generalize hts : a ++ (⟨pos, .opening⟩ : Token) :: inner = ts at h' clear
    cases h' with
    | refused clear' refusal =>
      rw [List.map_append, List.map_cons] at clear
      rw [clear _ _ _ rfl] at refusal
      cases refusal
    | unended clear' within' =>
      have := innermost rfl within within' hts
      have := innermost rfl within' within hts.symm
      obtain ⟨rfl, heq⟩ := List.append_inj hts (by omega)
      obtain ⟨hpos, -⟩ := List.cons.inj heq
      cases hpos
      rfl

theorem Blamed.not_nested (h : Blamed ts e) (hclear : Unrefused (ts.map (·.kind))) :
    ¬ Nested (ts.map (·.kind)) := by
  intro hnested
  cases h with
  | refused _ refusal =>
    rw [List.map_append, List.map_cons] at hclear
    rw [hclear _ _ _ rfl] at refusal
    cases refusal
  | @unended a inner pos clear within =>
    have hle := hnested.count_le (a := a.map (·.kind)) ⟨_, (List.map_append ..).symm⟩
    have hcount := hnested.count
    have hinner := within.count
    simp [List.count_append] at hcount
    omega

theorem Along.run (h : Along base ts p f is ps) (hrun : more.foldlM Reader.step p f = .ok q f') :
    ∃ is ps, Along base (ts ++ more) q f' is ps := by
  induction more generalizing ts p f is ps with
  | nil =>
    obtain ⟨rfl, rfl⟩ := pure_ok.mp hrun
    exact ⟨is, ps, by simpa using h⟩
  | cons t more ih =>
    rw [List.foldlM_cons] at hrun
    obtain ⟨q, d, hstep, hrun⟩ := bind_ok.mp hrun
    have hnext := h.step t
    rw [hstep] at hnext
    obtain ⟨is, ps, hnext⟩ := hnext
    simpa using ih hnext hrun

theorem Along.run_error (h : Along base ts p f is ps)
    (hrun : more.foldlM Reader.step p f = .error e f') : Blamed (ts ++ more) e := by
  induction more generalizing ts p f is ps with
  | nil => exact absurd hrun pure_error
  | cons t more ih =>
    rw [List.foldlM_cons] at hrun
    have hnext := h.step t
    rcases bind_error.mp hrun with hstep | ⟨q, d, hstep, hrun⟩
    · rw [hstep] at hnext
      obtain ⟨pos, cause⟩ := e
      obtain ⟨hrefusal, rfl⟩ : refusal? (ts.map (·.kind)) t.kind = some cause ∧ pos = t.pos := hnext
      exact .refused h.clear hrefusal
    · rw [hstep] at hnext
      obtain ⟨is, ps, hnext⟩ := hnext
      simpa using ih hnext hrun

/-- What a text that is read looks like, and what has been made of it. -/
theorem forms_along (h : forms tokens base = .ok vs f) :
    ∃ p ps, vs = p.forms.reverse ∧ FormsOf (tokens.map (·.kind)) p.forms ∧
      Along base tokens p f [] ps := by
  obtain ⟨p, hfold, hclosed, rfl⟩ := forms_ok.mp h
  obtain ⟨is, ps, halong⟩ := (along_start base).run hfold
  rw [List.nil_append] at halong
  have hstanding := halong.standing
  rw [hclosed] at hstanding
  cases hstanding with
  | closed shaped => exact ⟨p, ps, rfl, shaped, halong⟩

theorem forms_blamed (h : forms tokens base = .error e f) : Blamed tokens e := by
  rcases forms_error.mp h with hfold | ⟨p, inner, outer, hfold, hopened, rfl⟩
  · exact (along_start base).run_error hfold
  · obtain ⟨is, ps, halong⟩ := (along_start base).run hfold
    rw [List.nil_append] at halong
    have hclear := halong.clear
    have hstanding := halong.standing
    rw [hopened] at hstanding
    cases hstanding with
    | opened _ within => exact .unended hclear within

/-- What is made of a text: a node for each pair of parentheses, by the order in which they close,
and one more over all forms unless they are one list. -/
structure MadeOfText (file : Text) (base : Forest) (ts : List Token) (root : Int) (f : Forest)
    (ps : List (Nat × Nat)) (new wrap : List Node) : Prop where
  nodes : f.nodes.toList = base.nodes.toList ++ (new ++ wrap)
  each : List.Forall₂ (AtParens ts) new ps
  sorted : (ps.map Prod.snd).Pairwise (· < ·)
  covered : ∀ i, (ts.map (·.kind))[i]? = some .opening → i ∈ ps.map Prod.fst
  count : (ts.map (·.kind)).count .opening = new.length
  wrapped : IsList (ts.map (·.kind)) ∧ wrap = [] ∨ ¬ IsList (ts.map (·.kind)) ∧
    ∃ n, wrap = [n] ∧ f.get? root = some n ∧ n.tag = .block ∧ n.pos = ⟨file, 1, 1⟩

theorem read_madeOfText (h : read file source base = .ok root f) :
    Unrefused ((scan file source).map (·.kind)) ∧ Nested ((scan file source).map (·.kind)) ∧
      ∃ ps new wrap, MadeOfText file base (scan file source) root f ps new wrap := by
  obtain ⟨vs, d, hforms, hroot⟩ := read_ok h
  obtain ⟨p, ps, rfl, hshaped, halong⟩ := forms_along hforms
  obtain ⟨new, hnodes, heach⟩ := halong.made
  have hcovered : ∀ i, ((scan file source).map (·.kind))[i]? = some .opening →
      i ∈ ps.map Prod.fst :=
    fun i hi => (halong.covered i hi).resolve_left List.not_mem_nil
  have hcount : ((scan file source).map (·.kind)).count .opening = new.length := by
    rw [halong.count, heach.length_eq]
    rfl
  refine ⟨halong.clear, hshaped.nested, ps, new, ?_⟩
  cases hroot with
  | single forms child =>
    exact ⟨[], by simpa using hnodes, heach, halong.sorted, hcovered, hcount,
      .inl ⟨hshaped.isList_iff.mpr ⟨_, _, by simpa using forms, child⟩, rfl⟩⟩
  | wrapped several =>
    refine ⟨[{ tag := .block, args := p.forms.reverse, pos := Position.start file }],
      by simp [push, hnodes], heach, halong.sorted, hcovered, hcount,
      .inr ⟨fun hlist => ?_, _, rfl, get?_push_self _ _, rfl, rfl⟩⟩
    obtain ⟨v, id, hv, hid⟩ := hshaped.isList_iff.mp hlist
    exact several v id (by simp [hv]) hid

theorem MadeOfText.first_mem (h : MadeOfText file base ts root f ps new wrap) (i : Nat) :
    i ∈ ps.map Prod.fst ↔ (ts.map (·.kind))[i]? = some .opening := by
  refine ⟨fun hi => ?_, h.covered i⟩
  obtain ⟨q, hq, rfl⟩ := List.mem_map.mp hi
  obtain ⟨n, -, hn⟩ := forall₂_mem_left h.each.flip hq
  simp [List.getElem?_map, hn.1]

theorem MadeOfText.nodup (h : MadeOfText file base ts root f ps new wrap) :
    (ps.map Prod.fst).Nodup := by
  have hmatched : ∀ q ∈ ps, Matched (ts.map (·.kind)) q.1 q.2 := fun q hq => by
    obtain ⟨n, -, hn⟩ := forall₂_mem_left h.each.flip hq
    exact hn.2
  refine List.pairwise_map.mpr ((List.pairwise_map.mp h.sorted).imp_of_mem ?_)
  intro q q' hq hq' hlt heq
  have := (hmatched q hq).unique (heq ▸ hmatched q' hq')
  omega

end Reader

namespace Forest

open Reader Token

variable {file source : Text} {f : Forest} {root : Int}

/-- A text is accepted if no string in it is wrong and its parentheses nest. Then there is a node
for each opening parenthesis, and one more over all forms unless they are one list. Otherwise the
error is the one that the tokens deserve. Either way the nodes that there were before stay as they
are. -/
theorem parse_accepts (file source : Text) : (∃ ts, Splits [] source.bytes ts) ∧
    ∀ ts, Splits [] source.bytes ts →
      ((∃ f root, parse file source = .ok (f, root)) ↔
        (∀ t ∈ ts, t.kind.fault? = none) ∧ Nested (ts.map (·.kind))) ∧
      (∀ f root, parse file source = .ok (f, root) →
        IsList (ts.map (·.kind)) ∧ f.size = (ts.map (·.kind)).count .opening ∨
        ¬ IsList (ts.map (·.kind)) ∧ f.size = (ts.map (·.kind)).count .opening + 1 ∧
          ∃ n, f.get? root = some n ∧ n.tag = .block ∧ n.pos = ⟨file, 1, 1⟩) ∧
      (∀ e, parse file source = .error e ↔ Blamed (ts.map (Lexeme.token file)) e) ∧
      ∀ base f, ((∃ root, Reader.read file source base = .ok root f) ∨
        ∃ e, Reader.read file source base = .error e f) → Grows base f := by
  refine ⟨exists_splits [] source.bytes, fun ts hts => ?_⟩
  have hscan := scan_splits file hts
  have hkinds : (scan file source).map (·.kind) = ts.map (·.kind) := by
    rw [hscan, List.map_map]
    rfl
  have hread : ∀ {f root}, parse file source = .ok (f, root) →
      Token.Unrefused (ts.map (·.kind)) ∧ Nested (ts.map (·.kind)) := fun h => by
    obtain ⟨hclear, hnested, -⟩ := read_madeOfText (parse_ok.mp h)
    rw [hkinds] at hclear hnested
    exact ⟨hclear, hnested⟩
  have hblamed : ∀ {e}, parse file source = .error e → Blamed (ts.map (Lexeme.token file)) e :=
    fun h => by
    obtain ⟨g, hg⟩ := parse_error.mp h
    rw [← hscan]
    exact forms_blamed (read_error hg)
  have hmap : (ts.map (Lexeme.token file)).map (·.kind) = ts.map (·.kind) := by
    rw [← hscan, hkinds]
  refine ⟨⟨?_, ?_⟩, ?_, fun e => ⟨hblamed, fun he => ?_⟩, ?_⟩
  · rintro ⟨f, root, h⟩
    obtain ⟨hclear, hnested⟩ := hread h
    exact ⟨fun t ht => hnested.unrefused_iff.mp hclear _ (List.mem_map_of_mem ht), hnested⟩
  · rintro ⟨hfine, hnested⟩
    have hclear : Token.Unrefused (ts.map (·.kind)) :=
      hnested.unrefused_iff.mpr (List.forall_mem_map.mpr hfine)
    cases h : parse file source with
    | ok r => exact ⟨r.1, r.2, rfl⟩
    | error e => exact absurd (hmap ▸ hnested) ((hblamed h).not_nested (hmap ▸ hclear))
  · intro f root h
    obtain ⟨-, -, ps, new, wrap, hmade⟩ := read_madeOfText (parse_ok.mp h)
    have hnodes := hmade.nodes
    have hsize : f.size = new.length + wrap.length := by
      rw [size, ← Array.length_toList, hnodes]
      simp
    rw [← hkinds, hmade.count]
    rcases hmade.wrapped with ⟨hlist, rfl⟩ | ⟨hlist, n, rfl, hn⟩
    · exact .inl ⟨hlist, by simpa using hsize⟩
    · exact .inr ⟨hlist, by simpa using hsize, n, hn⟩
  · cases h : parse file source with
    | ok r =>
      obtain ⟨hclear, hnested⟩ := hread h
      exact absurd (hmap ▸ hnested) (he.not_nested (hmap ▸ hclear))
    | error e' => rw [(hblamed h).unique he]
  · rintro base f (⟨root, h⟩ | ⟨e, h⟩)
    · exact (read_grown h).grows
    · exact (read_sprung h).grows

theorem plain_a : ∀ b ∈ [(0x61 : UInt8)], endsAtom b = false := List.forall_mem_singleton.mpr rfl

theorem parse_accepts_unmatched : Splits [] ("(a) )" : Text).bytes
      [⟨[], .opening⟩, ⟨[0x28], .atom ⟨[0x61]⟩⟩, ⟨[0x28, 0x61], .closing⟩,
        ⟨[0x28, 0x61, 0x29, 0x20], .closing⟩] ∧
    parse "f" "(a) )" = .error ⟨⟨"f", 1, 5⟩, .unexpectedClosing⟩ := by
  have hsplits : Splits [] ("(a) )" : Text).bytes [⟨[], .opening⟩, ⟨[0x28], .atom ⟨[0x61]⟩⟩,
      ⟨[0x28, 0x61], .closing⟩, ⟨[0x28, 0x61, 0x29, 0x20], .closing⟩] :=
    .opening (@Splits.atom _ [0x61] _ _ (by simp) plain_a rfl
      (.closing (.blank rfl (.closing .nothing))))
  refine ⟨hsplits, (((parse_accepts "f" "(a) )").2 _ hsplits).2.2.1 _).mpr ?_⟩
  have hnested : Nested [.opening, .atom ⟨[0x61]⟩, .closing] :=
    .list .nil (.value .nil (by decide) (by decide))
  exact .refused (a := [_, _, _]) (hnested.unrefused_iff.mpr (by simp [Kind.fault?])) rfl

/-- The nodes of a text belong to the opening parentheses one to one and stand at their places. They
are made in the order in which the parentheses are closed, so a node is made after its operands. -/
theorem parse_corresponds {ts : List Lexeme} (hts : Splits [] source.bytes ts)
    (h : parse file source = .ok (f, root)) : ∃ ps nodes wrap, f.nodes.toList = nodes ++ wrap ∧
      List.Forall₂ (fun n q => ∃ t, ts[q.1]? = some t ∧ n.pos = Position.after file t.before ∧
        Matched (ts.map (·.kind)) q.1 q.2) nodes ps ∧
      (ps.map Prod.fst).Nodup ∧ (∀ i, i ∈ ps.map Prod.fst ↔ (ts.map (·.kind))[i]? = some .opening) ∧
      (ps.map Prod.snd).Pairwise (· < ·) ∧
      (IsList (ts.map (·.kind)) ∧ wrap = [] ∨
        ¬ IsList (ts.map (·.kind)) ∧ ∃ n, wrap = [n] ∧ n.tag = .block ∧ n.pos = ⟨file, 1, 1⟩) ∧
      f.Ordered := by
  obtain ⟨-, -, ps, new, wrap, hmade⟩ := read_madeOfText (parse_ok.mp h)
  have hscan := scan_splits file hts
  have hkinds : (scan file source).map (·.kind) = ts.map (·.kind) := by
    rw [hscan, List.map_map]
    rfl
  refine ⟨ps, new, wrap, by simpa using hmade.nodes, hmade.each.imp fun n q hn => ?_, hmade.nodup,
    ?_, hmade.sorted, ?_, (parse_grown h).ordered⟩
  · obtain ⟨hfirst, hmatched⟩ := hn
    rw [hscan, List.getElem?_map, Option.map_eq_some_iff] at hfirst
    obtain ⟨t, ht, hpos⟩ := hfirst
    exact ⟨t, ht, (congrArg Token.pos hpos).symm, hkinds ▸ hmatched⟩
  · rw [← hkinds]
    exact hmade.first_mem
  · rw [← hkinds]
    exact hmade.wrapped.imp_right fun ⟨hlist, n, hwrap, _, hn⟩ => ⟨hlist, n, hwrap, hn⟩

theorem parse_corresponds_two : ∃ ts f root, Splits [] ("(a) ()" : Text).bytes ts ∧
    parse "f" "(a) ()" = .ok (f, root) ∧ f.nodes.toList.map (·.pos.column) = [1, 5, 1] ∧
    f.Ordered := by
  have hsplits : Splits [] ("(a) ()" : Text).bytes _ :=
    .opening (@Splits.atom _ [0x61] _ _ (by simp) plain_a rfl
      (.closing (.blank rfl (.opening (.closing .nothing)))))
  have hparse : parse "f" "(a) ()" = .ok (_, 3) := rfl
  obtain ⟨ps, nodes, wrap, -, -, -, -, -, -, hordered⟩ := parse_corresponds hsplits hparse
  exact ⟨_, _, 3, hsplits, hparse, by decide, hordered⟩

end Forest

end Lowering
