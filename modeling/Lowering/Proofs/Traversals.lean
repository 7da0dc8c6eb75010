import Lowering.Proofs.Budgets

namespace Lowering.Walk

open Forest

/-- The order in which waiting nodes, and those below them, are visited, given those seen before. -/
inductive DepthFirst (f : Forest) (act : Int → Action) :
    List Int → List Int → List Int → Prop where
  | done {seen} : DepthFirst f act seen [] []
  | again {seen id ids order} : id ∈ seen → DepthFirst f act seen ids order →
    DepthFirst f act seen (id :: ids) order
  | past {seen id ids order} : id ∉ seen → act id ≠ .descend →
    DepthFirst f act (id :: seen) ids order → DepthFirst f act seen (id :: ids) (id :: order)
  | into {seen id ids order n} : id ∉ seen → act id = .descend → f.get? id = some n →
    DepthFirst f act (id :: seen) (n.children ++ ids) order →
    DepthFirst f act seen (id :: ids) (id :: order)

/-- The nodes to which a path leads on which every node before the last one lets the walk
descend. -/
def Reaches (f : Forest) (act : Int → Action) : Int → Int → Prop :=
  Relation.ReflTransGen fun x y => act x = .descend ∧ f.Child x y

/-- What a walk from a root visits, one node after the other, and whether it gets to its end. -/
structure Course (f : Forest) (act : Int → Action) (root : Int) (visited : List Int)
    (finished : Bool) : Prop where
  order : ∃ rest, DepthFirst f act [] [root] (visited ++ rest) ∧ (finished = true → rest = [])
  once : visited.Nodup
  ends : finished = true →
    (∀ x ∈ visited, act x ≠ .stop) ∧ ∀ x, x ∈ visited ↔ Reaches f act root x
  stops : finished = false → ∃ before x, visited = before ++ [x] ∧
    (∀ y ∈ before, act y ≠ .stop) ∧ act x = .stop

section Order

variable {f : Forest} {act : Int → Action} {seen ids order : List Int} {root x : Int}

theorem DepthFirst.exists (hf : f.Valid) (hids : ∀ x ∈ ids, ∃ n, f.get? x = some n) :
    ∃ order, DepthFirst f act seen ids order := by
  -- the nodes still to be seen become fewer, or else the waiting ones
  induction hk : f.unseen seen using Nat.strong_induction_on generalizing seen ids with
  | _ k ih =>
    subst hk
    induction ids with
    | nil => exact ⟨[], .done⟩
    | cons id ids ihs =>
      obtain ⟨n, hn⟩ := hids id (by simp)
      have hrest : ∀ x ∈ ids, ∃ n, f.get? x = some n := fun x hx => hids x (by simp [hx])
      by_cases hseen : id ∈ seen
      · obtain ⟨order, h⟩ := ihs hrest
        exact ⟨order, .again hseen h⟩
      have hless := unseen_cons hn hseen
      by_cases hact : act id = .descend
      · have hbelow : ∀ x ∈ n.children ++ ids, ∃ m, f.get? x = some m :=
          fun x hx => (List.mem_append.mp hx).elim (hf id n hn x) (hrest x)
        obtain ⟨order, h⟩ := ih _ hless hbelow rfl
        exact ⟨id :: order, .into hseen hact hn h⟩
      · obtain ⟨order, h⟩ := ih _ hless hrest rfl
        exact ⟨id :: order, .past hseen hact h⟩

theorem DepthFirst.once (h : DepthFirst f act seen ids order) :
    order.Nodup ∧ ∀ x ∈ order, x ∉ seen := by
  induction h with
  | done => simp
  | again _ _ ih => exact ih
  | past hid _ _ ih | into hid _ _ _ ih =>
    refine ⟨List.nodup_cons.mpr ⟨fun hx => ih.2 _ hx (by simp), ih.1⟩, ?_⟩
    exact List.forall_mem_cons.mpr ⟨hid, fun x hx hs => ih.2 x hx (List.mem_cons_of_mem _ hs)⟩

theorem DepthFirst.reaches (h : DepthFirst f act seen ids order) :
    ∀ x ∈ order, ∃ y ∈ ids, Reaches f act y x := by
  induction h with
  | done => simp
  | again _ _ ih =>
    intro x hx
    obtain ⟨y, hy, hyx⟩ := ih x hx
    exact ⟨y, List.mem_cons_of_mem _ hy, hyx⟩
  | past _ _ _ ih =>
    refine List.forall_mem_cons.mpr ⟨⟨_, by simp, .refl⟩, fun x hx => ?_⟩
    obtain ⟨y, hy, hyx⟩ := ih x hx
    exact ⟨y, List.mem_cons_of_mem _ hy, hyx⟩
  | into _ hact hn _ ih =>
    refine List.forall_mem_cons.mpr ⟨⟨_, by simp, .refl⟩, fun x hx => ?_⟩
    obtain ⟨y, hy, hyx⟩ := ih x hx
    rcases List.mem_append.mp hy with hy | hy
    · exact ⟨_, by simp, .head ⟨hact, _, hn, hy⟩ hyx⟩
    · exact ⟨y, List.mem_cons_of_mem _ hy, hyx⟩

/-- Every waiting node is visited, and so is what is below a visited one. -/
theorem DepthFirst.covers (h : DepthFirst f act seen ids order) :
    (∀ x ∈ ids, x ∈ seen ∨ x ∈ order) ∧
      ∀ x ∈ order, act x = .descend → ∀ y, f.Child x y → y ∈ seen ∨ y ∈ order := by
  induction h with
  | done => simp
  | again hid _ ih => exact ⟨List.forall_mem_cons.mpr ⟨.inl hid, ih.1⟩, ih.2⟩
  | past _ hact _ ih =>
    simp only [List.mem_cons, forall_eq_or_imp]
    refine ⟨⟨by simp, fun x hx => ?_⟩, fun h => absurd h hact, fun x hx h y hy => ?_⟩
    · have := ih.1 x hx
      grind
    · have := ih.2 x hx h y hy
      grind
  | into _ _ hn _ ih =>
    simp only [List.mem_cons, forall_eq_or_imp]
    refine ⟨⟨by simp, fun x hx => ?_⟩, fun _ y ⟨m, hm, hy⟩ => ?_, fun x hx h y hy => ?_⟩
    · have := ih.1 x (by simp [hx])
      grind
    · obtain rfl := Option.mem_unique hn hm
      have := ih.1 y (by simp [hy])
      grind
    · have := ih.2 x hx h y hy
      grind

theorem DepthFirst.exist (h : DepthFirst f act [] [root] order) (hf : f.Valid)
    (hroot : ∃ n, f.get? root = some n) : ∀ x ∈ order, ∃ n, f.get? x = some n := by
  intro x hx
  obtain ⟨y, hy, hyx⟩ := h.reaches x hx
  obtain rfl := List.mem_singleton.mp hy
  induction hyx with
  | refl => exact hroot
  | tail _ hstep _ =>
    obtain ⟨-, m, hm, hchild⟩ := hstep
    exact hf _ m hm _ hchild

theorem DepthFirst.mem_iff (h : DepthFirst f act [] [root] order) :
    x ∈ order ↔ Reaches f act root x := by
  constructor
  · intro hx
    obtain ⟨y, hy, hyx⟩ := h.reaches x hx
    exact List.mem_singleton.mp hy ▸ hyx
  · intro hx
    obtain ⟨hstart, hbelow⟩ := h.covers
    induction hx with
    | refl => simpa using hstart root (by simp)
    | tail _ hstep ih => simpa using hbelow _ ih hstep.1 _ hstep.2

end Order

section Visits

variable {ε σ : Type} {tooDeep : ε} {forest : σ → Forest} {f : Forest}
  {children : Int → EStateM ε σ (List Int)} {visit : Int → EStateM ε σ Action}
  {act : Int → Action} {k : Nat} {seen ids order : List Int} {id : Int} {s : σ}

/-- A visitor that leaves the forest alone and answers by the number of the node, on a walk that
looks up in the forest what is below a node. -/
structure Watches (forest : σ → Forest) (f : Forest) (children : Int → EStateM ε σ (List Int))
    (visit : Int → EStateM ε σ Action) (act : Int → Action) : Prop where
  below : ∀ s id n, forest s = f → f.get? id = some n → children id s = .ok n.children s
  visits : ∀ s id n, forest s = f → f.get? id = some n →
    ∃ s', visit id s = .ok (act id) s' ∧ forest s' = f

/-- Visits some nodes in turn. -/
def each (visit : Int → EStateM ε σ Action) (ids : List Int) : EStateM ε σ Unit :=
  ids.forM fun id => discard (visit id)

/-- A walk has visited the first nodes of an order, and then either what was to be visited before
some waiting nodes, or a node that stops it. -/
def Follows (forest : σ → Forest) (f : Forest) (visit : Int → EStateM ε σ Action)
    (act : Int → Action) (s : σ) (seen ids order : List Int)
    (result : EStateM.Result ε σ (Bool × List Int)) : Prop :=
  ∃ finished part rest s', result = .ok (finished, part.reverse ++ seen) s' ∧ forest s' = f ∧
    each visit part s = .ok () s' ∧ order = part ++ rest ∧
    (finished = true ∧ (∀ x ∈ part, act x ≠ .stop) ∧
        DepthFirst f act (part.reverse ++ seen) ids rest ∨
      finished = false ∧ ∃ before x, part = before ++ [x] ∧ (∀ y ∈ before, act y ≠ .stop) ∧
        act x = .stop)

theorem each_cons (h : visit id s = .ok a t) (ht : each visit ids t = .ok () s') :
    each visit (id :: ids) s = .ok () s' :=
  forM_cons_ok.mpr ⟨t, discard_ok.mpr ⟨a, h⟩, ht⟩

theorem follows_all
    (one : ∀ {s seen id ids order}, forest s = f → (∃ n, f.get? id = some n) →
      f.unseen seen ≤ k → DepthFirst f act seen (id :: ids) order →
      Follows forest f visit act s seen ids order (from_ tooDeep children visit k seen id s))
    {waiting : List Int} (hs : forest s = f) (hw : ∀ x ∈ waiting, ∃ n, f.get? x = some n)
    (hk : f.unseen seen ≤ k) (h : DepthFirst f act seen (waiting ++ ids) order) :
    Follows forest f visit act s seen ids order
      (all (from_ tooDeep children visit k) seen waiting s) := by
  induction waiting generalizing s seen order with
  | nil => exact ⟨true, [], order, s, rfl, hs, rfl, rfl, .inl ⟨rfl, by simp, h⟩⟩
  | cons x waiting ih =>
    obtain ⟨finished, part, rest, s', hr, hs', hpart, rfl, hgo⟩ :=
      one hs (hw x (by simp)) hk h
    rcases hgo with ⟨rfl, hpass, hrest⟩ | ⟨rfl, hstop⟩
    · have hk' : f.unseen (part.reverse ++ seen) ≤ k :=
        (unseen_antitone f (List.subset_append_right _ _)).trans hk
      obtain ⟨finished, part', rest', t, hr', ht, hpart', rfl, hgo'⟩ :=
        ih hs' (fun y hy => hw y (List.mem_cons_of_mem x hy)) hk' hrest
      refine ⟨finished, part ++ part', rest', t, ?_, ht,
        forM_append_ok.mpr ⟨s', hpart, hpart'⟩, (List.append_assoc _ _ _).symm, ?_⟩
      · exact bind_ok.mpr ⟨_, s', hr, by simpa using hr'⟩
      · rcases hgo' with ⟨rfl, hpass', hrest'⟩ | ⟨rfl, before, y, rfl, hpass', hy⟩
        · refine .inl ⟨rfl, fun y hy => (List.mem_append.mp hy).elim (hpass y) (hpass' y), ?_⟩
          simpa using hrest'
        · refine .inr ⟨rfl, part ++ before, y, (List.append_assoc _ _ _).symm, fun z hz => ?_, hy⟩
          exact (List.mem_append.mp hz).elim (hpass z) (hpass' z)
    · exact ⟨false, part, rest, s', bind_ok.mpr ⟨_, s', hr, rfl⟩, hs', hpart, rfl,
        .inr ⟨rfl, hstop⟩⟩

theorem Watches.follows (hw : Watches forest f children visit act) (hf : f.Valid)
    (hs : forest s = f) (hid : ∃ n, f.get? id = some n) (hk : f.unseen seen ≤ k)
    (h : DepthFirst f act seen (id :: ids) order) :
    Follows forest f visit act s seen ids order (from_ tooDeep children visit k seen id s) := by
  induction k generalizing s seen id ids order with
  | zero =>
    obtain ⟨n, hn⟩ := hid
    cases h with
    | again hseen h =>
      unfold from_
      rw [if_pos (by simpa using hseen)]
      exact ⟨true, [], order, s, rfl, hs, rfl, rfl, .inl ⟨rfl, by simp, h⟩⟩
    | past hseen | into hseen =>
      have := unseen_cons hn hseen
      omega
  | succ k ih =>
    obtain ⟨n, hn⟩ := hid
    obtain ⟨t, hvisit, ht⟩ := hw.visits s id n hs hn
    have hlater : id ∉ seen → f.unseen (id :: seen) ≤ k := by
      intro hseen
      have := unseen_cons hn hseen
      omega
    unfold from_
    cases h with
    | again hseen h =>
      rw [if_pos (by simpa using hseen)]
      exact ⟨true, [], order, s, rfl, hs, rfl, rfl, .inl ⟨rfl, by simp, h⟩⟩
    | past hseen hact h =>
      rw [if_neg (by simpa using hseen)]
      have hvisited : each visit [id] s = .ok () t := each_cons hvisit rfl
      cases ha : act id with
      | descend => exact absurd ha hact
      | skip =>
        refine ⟨true, [id], _, t, bind_ok.mpr ⟨_, t, ha ▸ hvisit, rfl⟩, ht, hvisited, rfl, ?_⟩
        exact .inl ⟨rfl, by simp [ha], h⟩
      | stop =>
        refine ⟨false, [id], _, t, bind_ok.mpr ⟨_, t, ha ▸ hvisit, rfl⟩, ht, hvisited, rfl, ?_⟩
        exact .inr ⟨rfl, [], id, rfl, by simp, ha⟩
    | into hseen hact hm h =>
      rw [if_neg (by simpa using hseen)]
      obtain rfl := Option.mem_unique hn hm
      obtain ⟨finished, part, rest, s', hr, hs', hpart, rfl, hgo⟩ :=
        follows_all (fun hs hid hk h => ih hs hid hk h) ht (hf id n hn) (hlater hseen) h
      refine ⟨finished, id :: part, rest, s', ?_, hs', each_cons hvisit hpart, rfl, ?_⟩
      · refine bind_ok.mpr ⟨_, t, hact ▸ hvisit, bind_ok.mpr ⟨_, t, hw.below t id n ht hn, ?_⟩⟩
        simpa using hr
      · rcases hgo with ⟨rfl, hpass, hrest⟩ | ⟨rfl, before, y, rfl, hpass, hy⟩
        · refine .inl ⟨rfl, List.forall_mem_cons.mpr ⟨by simp [hact], hpass⟩, ?_⟩
          simpa using hrest
        · exact .inr ⟨rfl, id :: before, y, rfl,
            List.forall_mem_cons.mpr ⟨by simp [hact], hpass⟩, hy⟩

theorem Watches.course (hw : Watches forest f children visit act) (hf : f.Valid)
    (hroot : ∃ n, f.get? root = some n) (hs : forest s = f) : ∃ visited finished s',
      Course f act root visited finished ∧
      run tooDeep children visit f.extent root s = .ok finished s' ∧
      each visit visited s = .ok () s' := by
  obtain ⟨order, horder⟩ : ∃ order, DepthFirst f act [] [root] order :=
    DepthFirst.exists hf (List.forall_mem_singleton.mpr hroot)
  obtain ⟨finished, visited, rest, s', hr, -, hvisited, rfl, hgo⟩ :=
    hw.follows hf hs hroot (unseen_le_extent f) horder
  refine ⟨visited, finished, s', ⟨⟨rest, horder, ?_⟩, ?_, ?_, ?_⟩,
    bind_ok.mpr ⟨_, s', hr, rfl⟩, hvisited⟩
  · rintro rfl
    obtain ⟨-, -, hrest⟩ := hgo.resolve_right (by simp)
    cases hrest
    rfl
  · exact (List.nodup_append.mp horder.once.1).1
  · rintro rfl
    obtain ⟨-, hpass, hrest⟩ := hgo.resolve_right (by simp)
    cases hrest
    rw [List.append_nil] at horder
    exact ⟨hpass, fun x => horder.mem_iff⟩
  · rintro rfl
    exact (hgo.resolve_left (by simp)).2

/-- How a walk goes on that passes through the nodes with another tag. -/
def tagAction (f : Forest) (tag : Tag) (act : Int → Action) (id : Int) : Action :=
  if (f.get? id).map (·.tag) = some tag then act id else .descend

variable {tagOf : Int → EStateM ε σ Tag} {tag : Tag}

theorem Watches.onTag (hw : Watches forest f children visit act)
    (htag : ∀ s id n, forest s = f → f.get? id = some n → tagOf id s = .ok n.tag s) :
    Watches forest f children (onTag tagOf tag visit) (tagAction f tag act) where
  below := hw.below
  visits s id n hs hn := by
    by_cases ht : n.tag = tag
    · obtain ⟨s', hvisit, hs'⟩ := hw.visits s id n hs hn
      refine ⟨s', bind_ok.mpr ⟨n.tag, s, htag s id n hs hn, ?_⟩, hs'⟩
      simpa [tagAction, hn, ht] using hvisit
    · refine ⟨s, bind_ok.mpr ⟨n.tag, s, htag s id n hs hn, ?_⟩, hs⟩
      simp [tagAction, hn, ht, pure_ok]

/-- Where the walk comes to nodes with other tags, the visitor is not called. -/
theorem each_onTag (hw : Watches forest f children visit act)
    (htag : ∀ s id n, forest s = f → f.get? id = some n → tagOf id s = .ok n.tag s)
    (hids : ∀ x ∈ ids, ∃ n, f.get? x = some n) (hs : forest s = f)
    (h : each (onTag tagOf tag visit) ids s = .ok () s') :
    each visit (ids.filter fun x => (f.get? x).map (·.tag) = some tag) s = .ok () s' := by
  induction ids generalizing s with
  | nil => exact h
  | cons id ids ih =>
    obtain ⟨t, hfirst, h⟩ := forM_cons_ok.mp h
    obtain ⟨a, hfirst⟩ := discard_ok.mp hfirst
    obtain ⟨n, hn⟩ := hids id (by simp)
    obtain ⟨m, t', htag', hfirst⟩ := bind_ok.mp hfirst
    rw [htag s id n hs hn] at htag'
    cases htag'
    have hrest : ∀ x ∈ ids, ∃ n, f.get? x = some n := fun x hx => hids x (by simp [hx])
    by_cases ht : n.tag = tag
    · rw [if_pos ht] at hfirst
      obtain ⟨t', hvisit, ht'⟩ := hw.visits s id n hs hn
      rw [hvisit] at hfirst
      cases hfirst
      rw [List.filter_cons_of_pos (by simp [hn, ht])]
      exact each_cons hvisit (ih hrest ht' h)
    · rw [if_neg ht] at hfirst
      obtain ⟨-, rfl⟩ := pure_ok.mp hfirst
      rw [List.filter_cons_of_neg (by simp [hn, ht])]
      exact ih hrest hs h

/-- A walk ends, whatever the forest, and visits the nodes in depth-first order: all those that it
can reach, each once, or those up to the first one that stops it. A visitor of the nodes with one
tag is called at those among the visited ones that have it. -/
theorem run_visits (hw : Watches forest f children visit act) (hf : f.Valid)
    (hroot : f.isValid root = true) (hs : forest s = f)
    (htag : ∀ s id n, forest s = f → f.get? id = some n → tagOf id s = .ok n.tag s) :
    (∃ visited finished s', Course f act root visited finished ∧
      run tooDeep children visit f.extent root s = .ok finished s' ∧
      each visit visited s = .ok () s') ∧
    ∃ visited finished s', Course f (tagAction f tag act) root visited finished ∧
      run tooDeep children (onTag tagOf tag visit) f.extent root s = .ok finished s' ∧
      each visit (visited.filter fun x => (f.get? x).map (·.tag) = some tag) s = .ok () s' := by
  have hroot := (isValid_iff_get? f root).mp hroot
  refine ⟨hw.course hf hroot hs, ?_⟩
  have htagged : Watches forest f children (Walk.onTag tagOf tag visit) (tagAction f tag act) :=
    hw.onTag htag
  obtain ⟨visited, finished, s', hcourse, hrun, heach⟩ := htagged.course hf hroot hs
  refine ⟨visited, finished, s', hcourse, hrun, each_onTag hw htag (fun x hx => ?_) hs heach⟩
  obtain ⟨rest, horder, -⟩ := hcourse.order
  exact horder.exist hf hroot x (List.mem_append_left rest hx)

end Visits

/-- Two nodes below each other, and a third one that both have for an operand. -/
def knot : Forest := ⟨#[
  { tag := .block, args := [.ref 3, .ref 2, .ref 3], pos := .unknown },
  { tag := .call, args := [.sym "f", .ref 1, .ref 3], pos := .unknown },
  { tag := .call, args := [.sym "g"], pos := .unknown }]⟩

theorem knot_valid : knot.Valid := by
  intro id n hn child hchild
  have hbounds := get?_eq_some_bounds hn
  have hsize : knot.size = 3 := rfl
  refine (isValid_iff_get? knot child).mp ?_
  revert child
  obtain rfl | rfl | rfl : id = 1 ∨ id = 2 ∨ id = 3 := by omega
  all_goals
    cases hn
    decide

/-- Reads a node. -/
def look (id : Int) : EStateM Fault (Forest × List Int) Node := do
  match (← get).1.get id with
  | .ok n => return n
  | .error e => throw e

/-- Keeps the visited nodes in mind, the last one first. -/
def noting (act : Int → Action) (id : Int) : EStateM Fault (Forest × List Int) Action := do
  modify fun (f, log) => (f, id :: log)
  return act id

/-- The walk stops at the second node, before it comes to the third one again. -/
theorem run_visits_knot :
    let act : Int → Action := fun id => if id = 2 then .stop else .descend
    let children := fun id => do return (← look id).children
    run .endless children (noting act) knot.extent 1 (knot, []) = .ok false (knot, [2, 3, 1]) ∧
    (∃ visited finished s', Course knot act 1 visited finished ∧
      run .endless children (noting act) knot.extent 1 (knot, []) = .ok finished s' ∧
      each (noting act) visited (knot, []) = .ok () s') ∧
    ∃ visited finished s', Course knot (tagAction knot .call act) 1 visited finished ∧
      run .endless children (onTag (fun id => do return (← look id).tag) .call (noting act))
      knot.extent 1
        (knot, []) = .ok finished s' ∧
      each (noting act) (visited.filter fun x => (knot.get? x).map (·.tag) = some .call)
        (knot, []) = .ok () s' := by
  have found : ∀ (s : Forest × List Int) id n, s.1 = knot → knot.get? id = some n →
      look id s = .ok n s := by
    intro s id n hs hn
    refine bind_ok.mpr ⟨s, s, rfl, ?_⟩
    rw [hs, get_eq_ok.mpr hn]
    rfl
  intro act children
  have hwatches : Watches Prod.fst knot children (noting act) act :=
    ⟨fun s id n hs hn => bind_ok.mpr ⟨n, s, found s id n hs hn, rfl⟩,
      fun s id n hs hn => ⟨(s.1, id :: s.2), rfl, hs⟩⟩
  refine ⟨by rfl, run_visits hwatches knot_valid rfl rfl fun s id n hs hn => ?_⟩
  exact bind_ok.mpr ⟨n, s, found s id n hs hn, rfl⟩

end Lowering.Walk
