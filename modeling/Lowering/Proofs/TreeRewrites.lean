import Lowering.Proofs.Coverage
import Lowering.Proofs.Reworking

namespace Lowering

open Forest PassM
open Coverage (steps)

/-- A relation holds between trees one after the other, the state passing from each to the next. -/
inductive Threads (P : Context → Tree Mark → Context → Tree Mark → Prop) :
    Context → List (Tree Mark) → Context → List (Tree Mark) → Prop where
  | nil (c : Context) : Threads P c [] c []
  | cons {c c1 c' : Context} {t t' : Tree Mark} {ts ts' : List (Tree Mark)} (head : P c t c1 t')
      (tail : Threads P c1 ts c' ts') : Threads P c (t :: ts) c' (t' :: ts')

/-- What the visits of a walk do to trees. `P` relates a tree and the state to the tree that the
walk puts in its place and the state then; `B` holds of the trees that the walk refuses. -/
structure Rewrites (visit : Int → Node → PassM Walk.Action)
    (P : Context → Tree Mark → Context → Tree Mark → Prop) (B : Tree Mark → Prop) : Prop where
  leaf : ∀ c a, P c (.leaf a) c (.leaf a)
  ok : ∀ {U c v mark tag args n act c1}, Bears U c [v] [.node mark tag args] →
    c.forest.get? mark.id = some n → visit mark.id n c = .ok act c1 →
    ∃ tag1 args1, Reworks U c [.node mark tag args] c1 [v] [.node mark tag1 args1] ∧
      ((act = .skip ∧ P c (.node mark tag args) c1 (.node mark tag1 args1)) ∨
        (act = .descend ∧ (∀ t ∈ args1, B t → B (.node mark tag args)) ∧
          ∀ c' args', Threads P c1 args1 c' args' →
            P c (.node mark tag args) c' (.node mark tag1 args')))
  refused : ∀ {U c v mark tag args n e c1}, Bears U c [v] [.node mark tag args] →
    c.forest.get? mark.id = some n → visit mark.id n c = .error e c1 → ¬ e.IsFault →
    c1 = c ∧ B (.node mark tag args)

variable {visit : Int → Node → PassM Walk.Action} {U : Int → Prop} {c c1 c' : Context}
variable {P : Context → Tree Mark → Context → Tree Mark → Prop} {B : Tree Mark → Prop}
variable {vs : List Operand} {ts : List (Tree Mark)} {v : Operand} {t : Tree Mark}

/-- What has come of trees in a walk, unless it met a fault: they have been rewritten, or one of
them has been refused. -/
def Rewritten (P : Context → Tree Mark → Context → Tree Mark → Prop) (B : Tree Mark → Prop)
    (U : Int → Prop) (c : Context) (vs : List Operand) (ts : List (Tree Mark)) (seen : List Int) :
    EStateM.Result PassError Context (Bool × List Int) → Prop
  | .ok r c' => r.1 = true ∧ (∀ x ∈ r.2, c'.forest.Has x) ∧
      (∀ x ∈ r.2, x ∈ seen ∨ x ∈ Tree.idsOf ts ∨ (c.forest.size : Int) < x) ∧
      ∃ ts', Reworks U c ts c' vs ts' ∧ Threads P c ts c' ts'
  | .error e c' => ¬ e.IsFault → (∃ ts', Reworks U c ts c' vs ts') ∧ ∃ t ∈ ts, B t

theorem Rewritten.cons (hh : Bears U c (v :: vs) (t :: ts))
    (hseen : ∀ x ∈ Tree.idsOf (t :: ts), x ∉ seen)
    (hhead : Rewritten P B U c [v] [t] seen (.ok (b, seen1) c1))
    (htail : ∀ U1, Bears U1 c1 vs ts → (∀ x ∈ Tree.idsOf ts, x ∉ seen1) →
      (∀ x ∈ seen1, c1.forest.Has x) → Rewritten P B U1 c1 vs ts seen1 r) :
    Rewritten P B U c (v :: vs) (t :: ts) seen r := by
  obtain ⟨-, hhas, hbound, ts', hrework, hthreads⟩ := hhead
  obtain - | ⟨hp, hnil⟩ := hthreads
  cases hnil
  have hnodup : (Tree.idsOf ([t] ++ ts)).Nodup := hh.nodup
  rw [Tree.idsOf_append] at hnodup
  have hfresh : ∀ x ∈ Tree.idsOf ts, x ∉ seen1 := by
    intro x hx hx1
    have hold : c.forest.Has x := hh.has (by simp [hx])
    have hbounds := has_iff.mp hold
    rcases hbound x hx1 with hx1 | hx1 | hx1
    · exact hseen x (by simp [hx]) hx1
    · exact hnodup.disjoint hx1 hx
    · omega
  specialize htail _ (Reworks.tail hh hrework) hfresh hhas
  match r with
  | .error e c' =>
    intro he
    obtain ⟨⟨ts'', hrework'⟩, u, hu, hB⟩ := htail he
    exact ⟨⟨_, Reworks.cons hh hrework hrework'⟩, u, List.mem_cons_of_mem t hu, hB⟩
  | .ok (b', seen2) c' =>
    obtain ⟨htrue, hhas', hbound', ts'', hrework', hthreads'⟩ := htail
    refine ⟨htrue, hhas', fun x hx => ?_, _, Reworks.cons hh hrework hrework',
      .cons hp hthreads'⟩
    have hsize := hrework.size
    rw [Tree.idsOf_cons, List.mem_append]
    rcases hbound' x hx with hx | hx | hx
    · rcases hbound x hx with hx | hx | hx
      · exact .inl hx
      · exact .inr (.inl (.inl (by simpa using hx)))
      · exact .inr (.inr hx)
    · exact .inr (.inl (.inr hx))
    · exact .inr (.inr (by omega))

/-- If the first tree has been refused, the others are as they were. -/
theorem Rewritten.refused (hh : Bears U c (v :: vs) (t :: ts))
    (hhead : Rewritten P B U c [v] [t] seen (.error e c1)) :
    Rewritten P B U c (v :: vs) (t :: ts) seen (.error e c1) := by
  intro he
  obtain ⟨⟨ts', hrework⟩, u, hu, hB⟩ := hhead he
  obtain rfl := List.mem_singleton.mp hu
  obtain ⟨w, ws, -, hws, hw⟩ := List.forall₂_cons_left_iff.mp hrework.bears.denotes
  exact ⟨⟨_, Reworks.cons hh hrework (.refl (Reworks.tail hh hrework))⟩, u, List.mem_cons_self, hB⟩

section

variable {walk : List Int → Int → PassM (Bool × List Int)} {seen : List Int}

/-- A walk from each operand in turn rewrites their trees if it does so from each. -/
theorem rewritten_all (hleaf : ∀ c a, P c (.leaf a) c (.leaf a))
    (each : ∀ {U c v mark tag args seen}, .node mark tag args ∈ ts →
      Bears U c [v] [.node mark tag args] → (∀ x ∈ Tree.idsOf [.node mark tag args], x ∉ seen) →
      (∀ x ∈ seen, c.forest.Has x) →
      Rewritten P B U c [v] [.node mark tag args] seen (walk seen mark.id c))
    (hh : Bears U c vs ts) (hseen : ∀ x ∈ Tree.idsOf ts, x ∉ seen)
    (hhas : ∀ x ∈ seen, c.forest.Has x) :
    Rewritten P B U c vs ts seen (Walk.all walk seen (vs.filterMap Operand.child?) c) := by
  induction ts generalizing U c vs seen with
  | nil =>
    cases hh.denotes
    exact ⟨rfl, hhas, fun x hx => .inl hx, [], .refl hh, .nil c⟩
  | cons t ts ih =>
    obtain ⟨v, vs, ht, -, rfl⟩ := List.forall₂_cons_right_iff.mp hh.denotes
    cases t with
    | leaf a =>
      rw [List.filterMap_cons_none (Operand.child?_of_atom ht)]
      have hhead : Rewritten P B U c [v] [.leaf a] seen (.ok (true, seen) c) :=
        ⟨rfl, hhas, fun x hx => .inl hx, [.leaf a], .refl hh.head, .cons (hleaf c a) (.nil c)⟩
      refine hhead.cons hh hseen fun U1 hh1 hseen1 hhas1 => ?_
      exact ih (fun hmem => each (List.mem_cons_of_mem _ hmem)) hh1 hseen1 hhas1
    | node mark tag args =>
      rw [List.filterMap_cons_some (Operand.view_eq_child.mp (denotes_node.mp ht).1)]
      have hfirst : ∀ x ∈ Tree.idsOf [.node mark tag args], x ∉ seen := fun x hx =>
        hseen x (by simpa using .inl (by simpa using hx))
      have hhead := each List.mem_cons_self hh.head hfirst hhas
      have hrun : Walk.all walk seen (mark.id :: vs.filterMap Operand.child?) c =
          match walk seen mark.id c with
          | .ok (finished, seen1) c1 => if finished then
              Walk.all walk seen1 (vs.filterMap Operand.child?) c1 else .ok (false, seen1) c1
          | .error e c1 => .error e c1 := by
        rw [Walk.all]
        change EStateM.bind _ _ c = _
        unfold EStateM.bind
        cases walk seen mark.id c with
        | ok r c1 =>
          dsimp only
          split <;> rfl
        | error e c1 => rfl
      rw [hrun]
      cases hw : walk seen mark.id c with
      | error e c1 =>
        rw [hw] at hhead
        exact hhead.refused hh
      | ok r c1 =>
        rw [hw] at hhead
        obtain ⟨b, seen1⟩ := r
        obtain rfl : b = true := hhead.1
        refine hhead.cons hh hseen fun U1 hh1 hseen1 hhas1 => ?_
        change Rewritten P B U1 c1 vs ts seen1 (Walk.all walk seen1 _ c1)
        exact ih (fun hmem => each (List.mem_cons_of_mem _ hmem)) hh1 hseen1 hhas1

/-- How a walk can end that starts at a node it has not seen. -/
theorem steps_ok {id : Int} (hseen : id ∉ seen) (h : steps visit (k + 1) seen id c = .ok r c') :
    ∃ n act c1, c.forest.get? id = some n ∧ visit id n c = .ok act c1 ∧
      match act with
      | .stop => r = (false, id :: seen) ∧ c' = c1
      | .skip => r = (true, id :: seen) ∧ c' = c1
      | .descend => ∃ n1, c1.forest.get? id = some n1 ∧
          Walk.all (steps visit k) (id :: seen) n1.children c1 = .ok r c' := by
  unfold steps Walk.from_ at h
  rw [if_neg (by simpa using hseen)] at h
  obtain ⟨act, c1, hact, h⟩ := bind_ok.mp h
  obtain ⟨n, hn, hact⟩ := fetch_bind_ok.mp hact
  refine ⟨n, act, c1, hn, hact, ?_⟩
  cases act with
  | stop =>
    obtain ⟨rfl, rfl⟩ := pure_ok.mp h
    exact ⟨rfl, rfl⟩
  | skip =>
    obtain ⟨rfl, rfl⟩ := pure_ok.mp h
    exact ⟨rfl, rfl⟩
  | descend =>
    obtain ⟨ids, c2, hids, h⟩ := bind_ok.mp h
    obtain ⟨n1, hn1, hids⟩ := fetch_bind_ok.mp hids
    obtain ⟨rfl, rfl⟩ := pure_ok.mp hids
    exact ⟨n1, hn1, h⟩

/-- Where a walk is refused, a visit refuses its node, or the walk is refused below it. -/
theorem steps_refused {id : Int} (hseen : id ∉ seen)
    (h : steps visit (k + 1) seen id c = .error e c') (he : ¬ e.IsFault) :
    ∃ n, c.forest.get? id = some n ∧ (visit id n c = .error e c' ∨
      ∃ c1 n1, visit id n c = .ok .descend c1 ∧ c1.forest.get? id = some n1 ∧
        Walk.all (steps visit k) (id :: seen) n1.children c1 = .error e c') := by
  unfold steps Walk.from_ at h
  rw [if_neg (by simpa using hseen)] at h
  rcases bind_error.mp h with h | ⟨act, c1, hact, h⟩
  · rcases bind_error.mp h with h | ⟨n, _, hfetch, h⟩
    · exact absurd (quiet_fetch _ _ _ _ h) he
    · obtain ⟨hn, rfl⟩ := fetch_ok.mp hfetch
      exact ⟨n, hn, .inl h⟩
  · obtain ⟨n, hn, hact⟩ := fetch_bind_ok.mp hact
    cases act with
    | stop => exact absurd h pure_error
    | skip => exact absurd h pure_error
    | descend =>
      rcases bind_error.mp h with h | ⟨ids, c2, hids, h⟩
      · rcases bind_error.mp h with h | ⟨n1, _, -, h⟩
        · exact absurd (quiet_fetch _ _ _ _ h) he
        · exact absurd h pure_error
      · obtain ⟨n1, hn1, hids⟩ := fetch_bind_ok.mp hids
        obtain ⟨rfl, rfl⟩ := pure_ok.mp hids
        exact ⟨n, hn, .inr ⟨c1, n1, hact, hn1, h⟩⟩

/-- What a walk does below a node it has been at. -/
theorem Rewritten.descend (hleaf : ∀ c a, P c (.leaf a) c (.leaf a))
    (ih : ∀ {U c v mark tag args seen}, Bears U c [v] [.node mark tag args] →
      (∀ x ∈ Tree.idsOf [.node mark tag args], x ∉ seen) → (∀ x ∈ seen, c.forest.Has x) →
      Rewritten P B U c [v] [.node mark tag args] seen (steps visit k seen mark.id c))
    (hh : Bears U c [v] [.node mark tag args]) (hn : c.forest.get? mark.id = some n)
    (hseen : ∀ x ∈ Tree.idsOf args, x ∉ seen)
    (hhas : ∀ x ∈ seen, c.forest.Has x) : Rewritten P B U c n.args args (mark.id :: seen)
      (Walk.all (steps visit k) (mark.id :: seen) n.children c) := by
  obtain ⟨-, hU, hid, n', hn', -, -, hargs⟩ := hh.node
  obtain rfl : n = n' := Option.mem_unique hn hn'
  refine rewritten_all hleaf (fun _ hh1 => ih hh1) hargs ?_ ?_
  · intro x hx
    refine List.not_mem_cons_of_ne_of_not_mem ?_ (hseen x hx)
    rintro rfl
    exact hid hx
  · exact List.forall_mem_cons.mpr ⟨⟨n, hn⟩, hhas⟩

theorem Rewrites.steps (h : Rewrites visit P B) (hh : Bears U c [v] [.node mark tag args])
    (hseen : ∀ x ∈ Tree.idsOf [.node mark tag args], x ∉ seen) (hhas : ∀ x ∈ seen, c.forest.Has x) :
    Rewritten P B U c [v] [.node mark tag args] seen (steps visit k seen mark.id c) := by
  induction k generalizing U c v mark tag args seen with
  | zero =>
    have hself : mark.id ∉ seen := hseen mark.id (by simp [Tree.ids_node'])
    unfold Coverage.steps Walk.from_
    rw [if_neg (by simpa using hself)]
    exact fun he => absurd trivial he
  | succ k ih =>
    have hself : mark.id ∉ seen := hseen mark.id (by simp [Tree.ids_node'])
    -- What holds of the nodes below once the visit has put its trees there.
    have hbelow : ∀ {c1 tag1 args1 n1},
        Reworks U c [.node mark tag args] c1 [v] [.node mark tag1 args1] →
        c1.forest.get? mark.id = some n1 →
        Rewritten P B (InUse U [.node mark tag args] [.node mark tag1 args1]) c1 n1.args args1
          (mark.id :: seen) (Walk.all (Coverage.steps visit k)
            (mark.id :: seen) n1.children c1) := by
      intro c1 tag1 args1 n1 hrework hn1
      refine Rewritten.descend h.leaf ih hrework.bears hn1 (fun x hx hxs => ?_) fun x hx => ?_
      · have hbounds := has_iff.mp (hhas x hxs)
        rcases hrework.own x (by simp [Tree.ids_node', hx]) with hx | hx
        · exact hseen x hx hxs
        · omega
      · exact hrework.has (hhas x hx)
    cases hr : Coverage.steps visit (k + 1) seen mark.id c with
    | ok r c' =>
      obtain ⟨n, act, c1, hn, hact, hrest⟩ := steps_ok hself hr
      obtain ⟨tag1, args1, hrework, ⟨rfl, hp⟩ | ⟨rfl, -, hclose⟩⟩ := h.ok hh hn hact
      · obtain ⟨rfl, rfl⟩ := hrest
        refine ⟨rfl, ?_, ?_, _, hrework, .cons hp (.nil c')⟩
        · exact List.forall_mem_cons.mpr ⟨hrework.has ⟨n, hn⟩, fun x hx => hrework.has (hhas x hx)⟩
        · exact List.forall_mem_cons.mpr ⟨.inr (.inl (by simp [Tree.ids_node'])), fun _ => .inl⟩
      · obtain ⟨n1, hn1, hall⟩ := hrest
        have hargs := hbelow hrework hn1
        rw [hall] at hargs
        obtain ⟨htrue, hhas', hbound, args', hrework', hthreads⟩ := hargs
        refine ⟨htrue, hhas', fun x hx => ?_, _,
          hrework.trans hh.uses (Reworks.below hrework.bears hn1 hrework'),
          .cons (hclose c' args' hthreads) (.nil c')⟩
        have hsize := hrework.size
        rcases hbound x hx with hx | hx | hx
        · rcases List.mem_cons.mp hx with rfl | hx
          · exact .inr (.inl (by simp [Tree.ids_node']))
          · exact .inl hx
        · exact .inr (hrework.own x (by simp [Tree.ids_node', hx]))
        · exact .inr (.inr (by omega))
    | error e c' =>
      intro he
      obtain ⟨n, hn, hvisit | ⟨c1, n1, hact, hn1, hall⟩⟩ := steps_refused hself hr he
      · obtain ⟨rfl, hB⟩ := h.refused hh hn hvisit he
        exact ⟨⟨_, .refl hh⟩, _, List.mem_singleton_self _, hB⟩
      · obtain ⟨tag1, args1, hrework, ⟨hact', -⟩ | ⟨-, hbad, -⟩⟩ := h.ok hh hn hact
        · cases hact'
        · have hargs := hbelow hrework hn1
          rw [hall] at hargs
          obtain ⟨⟨args', hrework'⟩, t, ht, hB⟩ := hargs he
          exact ⟨⟨_, hrework.trans hh.uses (Reworks.below hrework.bears hn1 hrework')⟩, _,
            List.mem_singleton_self _, hbad t ht hB⟩

end

/-- What a walk has done to the tree of its root, or where it has been refused. -/
theorem Rewrites.walk (h : Rewrites visit P B) (hh : Bears U c [v] [t])
    (hv : v.child? = some root) :
    (∀ b c', walk root visit c = .ok b c' → ∃ t', Reworks U c [t] c' [v] [t'] ∧ P c t c' t') ∧
    ∀ e c', walk root visit c = .error e c' → ¬ e.IsFault →
      (∃ t', Reworks U c [t] c' [v] [t']) ∧ B t := by
  obtain ⟨ht, -⟩ := List.forall₂_cons.mp hh.denotes
  cases t with
  | leaf a =>
    rw [Operand.child?_of_atom ht] at hv
    cases hv
  | node mark tag args =>
    obtain ⟨hview, -⟩ := hh.node
    obtain rfl : mark.id = root := Option.some.inj ((Operand.view_eq_child.mp hview).symm.trans hv)
    have hsteps := h.steps (k := c.forest.extent) hh (fun x _ => List.not_mem_nil)
      (fun x hx => nomatch hx)
    constructor
    · intro b c' hr
      unfold PassM.walk Walk.run at hr
      have hr := get_bind_ok.mp hr
      obtain ⟨⟨_, seen⟩, hs, -⟩ := bind_pure_ok.mp hr
      change Coverage.steps visit c.forest.extent [] mark.id c = _ at hs
      rw [hs] at hsteps
      obtain ⟨-, -, -, ts', hrework, hthreads⟩ := hsteps
      obtain - | ⟨hp, hnil⟩ := hthreads
      cases hnil
      exact ⟨_, hrework, hp⟩
    · intro e c' hr he
      unfold PassM.walk Walk.run at hr
      obtain hg | ⟨_, _, hg, hr⟩ := bind_error.mp hr
      · cases hg
      obtain ⟨rfl, rfl⟩ := get_ok.mp hg
      obtain hr | ⟨_, _, -, hr⟩ := bind_error.mp hr
      · change Coverage.steps visit c.forest.extent [] mark.id c = _ at hr
        rw [hr] at hsteps
        obtain ⟨⟨ts', hrework⟩, u, hu, hB⟩ := hsteps he
        obtain rfl := List.mem_singleton.mp hu
        obtain ⟨t', _, -, hnil, rfl⟩ := List.forall₂_cons_left_iff.mp hrework.bears.denotes
        cases hnil
        exact ⟨⟨t', hrework⟩, hB⟩
      · exact absurd hr pure_error

end Lowering
