import Lowering.Proofs.ClosurePlaces
import Lowering.Proofs.EnvironmentCases
import Lowering.Proofs.Grading

namespace Lowering

/-- A call has a receiver and a method, and a `let` has variables. -/
structure Node.Fitting (n : Node) : Prop where
  callm : n.tag = .callm → 2 ≤ n.args.length
  letIn : n.tag = .letIn → 1 ≤ n.args.length

theorem Node.Fitting.least {n : Node} (h : n.Fitting) : n.tag.least ≤ n.args.length := by
  cases ht : n.tag
  case callm => exact h.callm ht
  case letIn => exact h.letIn ht
  all_goals exact Nat.zero_le _

theorem Node.exists_of_child {n : Node} (h : (n.arg i).child? = some y) :
    ∃ a, n.args[i]? = some a ∧ a.child? = some y := by
  unfold Node.arg at h
  cases ha : n.args[i]? with
  | none => simp [ha, Operand.child?, Operand.isNode, Operand.nil] at h
  | some a => exact ⟨a, rfl, by simpa [ha] using h⟩

namespace Scope

variable {mark : Mark} {tag : Tag} {args : List (Tree Mark)}

theorem Readable.operand (h : Readable (.node mark tag args)) (hr : tag.reads i = true)
    (hs : args[i]? = some s) : Readable s := by
  intro d hd
  have hsealed : tag.isSealed = false := by cases tag <;> first | rfl | cases hr
  have hm := malformed?_of_read h hsealed
  have hopen : ¬ (tag = .sexp ∨ tag = .defm ∨ tag = .defun) := by
    rw [← Tag.isSealed_iff, hsealed]
    simp
  apply h d
  rw [events_node, if_neg hopen, hm]
  have hpart : (args.map events)[i]? = some (events s) := by simp [hs]
  -- the events of a place are among those of the node, whatever is passed over
  have among : ∀ {l : List (List Event)}, events s ∈ l → .reject d ∈ l.flatten :=
    fun hl => List.mem_flatten.mpr ⟨_, hl, hd⟩
  have dropped : i ≠ 0 → events s ∈ (args.map events).drop 1 := by
    intro hi
    refine List.mem_of_getElem? (i := i - 1) ?_
    rw [List.getElem?_drop, show 1 + (i - 1) = i by omega, hpart]
  cases tag
  case callm =>
    have hi : i ≠ 1 := by simpa [Tag.reads] using hr
    refine among ?_
    rcases Nat.lt_or_gt_of_ne hi with hi | hi
    · exact List.mem_of_getElem? (i := i) (by rw [List.getElem?_eraseIdx_of_lt hi, hpart])
    · refine List.mem_of_getElem? (i := i - 1) ?_
      rw [List.getElem?_eraseIdx_of_ge (by omega), show i - 1 + 1 = i by omega, hpart]
  case letIn => exact among (dropped (by simpa [Tag.reads] using hr))
  case lambda | proc =>
    have hi : i = 1 := by simpa [Tag.reads] using hr
    have hmem := among (dropped (by omega))
    exact List.mem_append_left _ (List.mem_cons_of_mem _ hmem)
  case assign => exact List.mem_append_left _ (among (List.mem_of_getElem? hpart))
  case sexp | defm | defun => cases hr
  all_goals exact among (List.mem_of_getElem? hpart)

end Scope

namespace Forest

variable {f f' : Forest} {id x : Int} {n : Node} {v : Operand} {t : Tree Mark}

/-- A set of nodes that can be gone through. -/
def Shaped (f : Forest) (X : Int → Prop) : Prop :=
  ∀ x, X x → ∃ n, f.get? x = some n ∧ n.Fitting ∧
    ∀ i y, n.tag.reads i = true → (n.arg i).child? = some y → X y

/-- Whether one can go through a node and everything that is read from it. -/
def Passable (f : Forest) (id : Int) : Prop := ∃ X, X id ∧ Shaped f X

theorem shaped_passable (f : Forest) : Shaped f f.Passable := by
  intro x ⟨X, hx, hX⟩
  obtain ⟨n, hn, hfit, hreads⟩ := hX x hx
  exact ⟨n, hn, hfit, fun i y hi hy => ⟨X, hreads i y hi hy, hX⟩⟩

theorem Passable.node (h : f.Passable id) (hn : f.get? id = some n) :
    n.Fitting ∧ ∀ i y, n.tag.reads i = true → (n.arg i).child? = some y → f.Passable y := by
  obtain ⟨m, hm, hfit, hreads⟩ := shaped_passable f id h
  obtain rfl : m = n := Option.mem_unique hm hn
  exact ⟨hfit, hreads⟩

theorem fitting_of_readable (h : Scope.Readable (.node mark tag args)) (ht : n.tag = tag)
    (hlen : n.args.length = args.length) : n.Fitting := by
  constructor
  all_goals
    intro hc
    rw [ht] at hc
    have := Scope.malformed?_of_read h (by rw [hc]; rfl)
    subst hc
    rw [hlen]
    exact (Arity.admits_iff.mp (Complaint.admits_of_none rfl this)).1

/-- What can be read without coming to a malformed node is passable. -/
theorem passable_of_readable (hd : Denotes f v t) (ht : Scope.Readable t)
    (hv : v.child? = some id) : f.Passable id := by
  refine ⟨fun x => ∃ v t, Denotes f v t ∧ Scope.Readable t ∧ v.child? = some x,
    ⟨v, t, hd, ht, hv⟩, ?_⟩
  rintro x ⟨v, t, hd, ht, hv⟩
  have hview := Operand.view_eq_child.mpr hv
  cases t with
  | leaf a =>
    have hd : v.view = .atom a := hd
    rw [hview] at hd
    cases hd
  | node mark tag args =>
    obtain ⟨hm, n, hn, htag, -, hargs⟩ := denotes_node.mp hd
    obtain rfl : x = mark.id := by
      rw [hview] at hm
      cases hm
      rfl
    cases hsealed : tag.isSealed with
    | true =>
      refine ⟨n, hn, ⟨?_, ?_⟩, fun i y hi _ => ?_⟩
      · rintro hc
        rw [← htag, hc] at hsealed
        cases hsealed
      · rintro hc
        rw [← htag, hc] at hsealed
        cases hsealed
      · rcases Tag.isSealed_iff.mp hsealed with rfl | rfl | rfl <;> simp [htag, Tag.reads] at hi
    | false =>
      refine ⟨n, hn, fitting_of_readable ht htag hargs.length_eq, fun i y hi hy => ?_⟩
      unfold Node.arg at hy
      cases hw : n.args[i]? with
      | none => simp [hw, Operand.child?, Operand.isNode, Operand.nil] at hy
      | some w =>
        have hy : w.child? = some y := by simpa [hw] using hy
        obtain ⟨s, hs, hws⟩ : ∃ s, args[i]? = some s ∧ Denotes f w s := by
          obtain ⟨hi, rfl⟩ := List.getElem?_eq_some_iff.mp hw
          have hi' : i < args.length := hargs.length_eq ▸ hi
          exact ⟨args[i], by simp [hi'], hargs.get hi hi'⟩
        exact ⟨w, s, hws, ht.operand (htag ▸ hi) hs, hy⟩

/-- A change that gives passable nodes other operands, but only passable ones where it matters. -/
theorem Passable.change (h : f.Passable id)
    (hx : ∀ x, f.Passable x → ∃ n, f'.get? x = some n ∧ n.Fitting ∧
      ∀ i y, n.tag.reads i = true → (n.arg i).child? = some y → f.Passable y) :
    f'.Passable id := ⟨f.Passable, h, hx⟩

theorem Passable.grow (h : f.Passable id) (hg : Grows f f') : f'.Passable id := by
  refine h.change fun x hx => ?_
  obtain ⟨n, hn, hrest⟩ := shaped_passable f x hx
  exact ⟨n, hg x n hn, hrest⟩

/-- A node is passable if it fits and everything that is read from it is passable. -/
theorem passable_of_node (hn : f.get? id = some n) (hfit : n.Fitting)
    (hreads : ∀ i y, n.tag.reads i = true → (n.arg i).child? = some y → f.Passable y) :
    f.Passable id := by
  refine ⟨fun x => x = id ∨ f.Passable x, .inl rfl, ?_⟩
  rintro x (rfl | hx)
  · exact ⟨n, hn, hfit, fun i y hi hy => .inr (hreads i y hi hy)⟩
  · obtain ⟨m, hm, hfit, hreads⟩ := shaped_passable f x hx
    exact ⟨m, hm, hfit, fun i y hi hy => .inr (hreads i y hi hy)⟩

/-- A closure whose statements are not nil. -/
def Filled (f : Forest) (id : Int) : Prop :=
  ∃ n, f.get? id = some n ∧ n.tag.isClosure = true ∧ (n.arg 1).isNil = false

/-- A closure whose statements stand in a `let`. -/
def Bodied (f : Forest) (id : Int) : Prop :=
  ∃ n b m, f.get? id = some n ∧ n.tag.isClosure = true ∧ (n.arg 1).child? = some b ∧
    f.get? b = some m ∧ m.tag = .letIn ∧ 0 < m.args.length

/-- What a change leaves for the pass to go on: nodes stay what they are and get no fewer operands,
what was passable stays so, and closures keep their statements. -/
structure Steady (f f' : Forest) : Prop where
  tags : ∀ x n, f.get? x = some n →
    ∃ n', f'.get? x = some n' ∧ n'.tag = n.tag ∧ n.args.length ≤ n'.args.length
  passable : ∀ x, f.Passable x → f'.Passable x
  filled : ∀ x, f.Filled x → f'.Filled x
  bodied : ∀ x, f.Bodied x → f'.Bodied x

theorem Steady.refl (f : Forest) : Steady f f :=
  ⟨fun _ n hn => ⟨n, hn, rfl, Nat.le_refl _⟩, fun _ h => h, fun _ h => h, fun _ h => h⟩

theorem Steady.trans (h : Steady f1 f2) (h' : Steady f2 f3) : Steady f1 f3 where
  tags x n hn := by
    obtain ⟨n2, hn2, ht2, hl2⟩ := h.tags x n hn
    obtain ⟨n3, hn3, ht3, hl3⟩ := h'.tags x n2 hn2
    exact ⟨n3, hn3, ht3.trans ht2, hl2.trans hl3⟩
  passable x hx := h'.passable x (h.passable x hx)
  filled x hx := h'.filled x (h.filled x hx)
  bodied x hx := h'.bodied x (h.bodied x hx)

theorem Grows.steady (h : Grows f f') : Steady f f' where
  tags x n hn := ⟨n, h x n hn, rfl, Nat.le_refl _⟩
  passable x hx := hx.grow h
  filled x hx := by
    obtain ⟨n, hn, hrest⟩ := hx
    exact ⟨n, h x n hn, hrest⟩
  bodied x hx := by
    obtain ⟨n, b, m, hn, hc, hb, hm, hrest⟩ := hx
    exact ⟨n, b, m, h x n hn, hc, hb, h b m hm, hrest⟩

/-- Other operands for a node: as many, none that is read is new unless it is passable, and nothing
is taken from the statements of a closure. -/
structure Exchanged (f : Forest) (old new : Node) : Prop where
  tag : new.tag = old.tag
  length : new.args.length = old.args.length
  reads : ∀ i y, (new.arg i).child? = some y → (old.arg i).child? = some y ∨ f.Passable y
  filled : (old.arg 1).isNil = false → (new.arg 1).isNil = false
  bodied : ∀ b, (old.arg 1).child? = some b → (new.arg 1).child? = some b ∨
    ∃ b' m, (new.arg 1).child? = some b' ∧ f.get? b' = some m ∧ m.tag = .letIn ∧ 0 < m.args.length

theorem exchanged_of_args (ht : new.tag = n.tag) (ha : new.args = n.args) : Exchanged f n new := by
  have harg : ∀ i, new.arg i = n.arg i := fun i => by rw [Node.arg, Node.arg, ha]
  exact ⟨ht, by rw [ha], fun i y hy => .inl (harg i ▸ hy), fun h => by rwa [harg],
    fun b hb => .inl (by rwa [harg])⟩

theorem steady_of_exchanged (h : ∀ x n, f.get? x = some n → ∃ n', f'.get? x = some n' ∧
    Exchanged f n n') : Steady f f' where
  tags x n hn := by
    obtain ⟨n', hn', hr⟩ := h x n hn
    exact ⟨n', hn', hr.tag, hr.length.ge⟩
  passable x hx := by
    refine hx.change fun x hx => ?_
    obtain ⟨n, hn, hfit, hreads⟩ := shaped_passable f x hx
    obtain ⟨n', hn', hr⟩ := h x n hn
    refine ⟨n', hn', ⟨?_, ?_⟩, fun i y hi hy => ?_⟩
    · rw [hr.tag, hr.length]
      exact hfit.callm
    · rw [hr.tag, hr.length]
      exact hfit.letIn
    · rcases hr.reads i y hy with hold | hnew
      · exact hreads i y (hr.tag ▸ hi) hold
      · exact hnew
  filled x hx := by
    obtain ⟨n, hn, hc, hb⟩ := hx
    obtain ⟨n', hn', hr⟩ := h x n hn
    exact ⟨n', hn', hr.tag ▸ hc, hr.filled hb⟩
  bodied x hx := by
    obtain ⟨n, b, m, hn, hc, hb, hm, ht, hlen⟩ := hx
    obtain ⟨n', hn', hr⟩ := h x n hn
    have kept : ∀ {b m}, f.get? b = some m → m.tag = .letIn → 0 < m.args.length →
        ∃ m', f'.get? b = some m' ∧ m'.tag = .letIn ∧ 0 < m'.args.length := by
      intro b m hm ht hlen
      obtain ⟨m', hm', hr⟩ := h b m hm
      exact ⟨m', hm', hr.tag.trans ht, hr.length ▸ hlen⟩
    rcases hr.bodied b hb with hb | ⟨b', m1, hb', hm1, ht1, hlen1⟩
    · obtain ⟨m', hm', hrest⟩ := kept hm ht hlen
      exact ⟨n', b, m', hn', hr.tag ▸ hc, hb, hm', hrest⟩
    · obtain ⟨m', hm', hrest⟩ := kept hm1 ht1 hlen1
      exact ⟨n', b', m', hn', hr.tag ▸ hc, hb', hm', hrest⟩

/-- A `let` in the place of the statements of a closure. -/
theorem exchanged_body (hargs : n.args = params :: body :: rest) (hm : f.get? x = some m)
    (ht : m.tag = .letIn) (hlen : 0 < m.args.length) (hp : f.Passable x) :
    Exchanged f n { n with args := params :: .ref x :: rest } := by
  refine ⟨rfl, by simp [hargs], fun i y hy => ?_, fun _ => rfl, fun b _ =>
    .inr ⟨x, m, Operand.child?_ref x, hm, ht, hlen⟩⟩
  rcases i with _ | _ | i
  · exact .inl (by simpa [Node.arg, hargs] using hy)
  · have hx : y = x := by simpa [Node.arg, Operand.child?_ref, eq_comm] using hy
    exact .inr (hx ▸ hp)
  · exact .inl (by simpa [Node.arg, hargs] using hy)

/-- A `let` gets more statements. -/
theorem steady_of_more {args : List Operand} (hn : f.get? id = some n) (ht : n.tag = .letIn)
    (hlen : n.args.length ≤ args.length) (hpos : 0 < n.args.length)
    (hmore : ∀ a ∈ args.drop 1, a ∈ n.args.drop 1 ∨ ∀ y, a.child? = some y → f.Passable y) :
    Steady f (f.set id { n with args }) := by
  have found : ∀ x m, f.get? x = some m → (f.set id { n with args }).get? x =
      some (if x = id then { n with args } else m) := by
    intro x m hm
    rw [get?_set]
    split
    · rename_i hx
      rw [← hx, hm]
      rfl
    · exact hm
  have closure : ∀ x m, f.get? x = some m → m.tag.isClosure = true → x ≠ id := by
    rintro x m hm hc rfl
    obtain rfl := Option.mem_unique hn hm
    simp [ht, Tag.isClosure] at hc
  refine ⟨fun x m hm => ?_, fun x hx => ?_, fun x hx => ?_, fun x hx => ?_⟩
  · refine ⟨_, found x m hm, ?_⟩
    split
    · rename_i hx
      subst hx
      obtain rfl := Option.mem_unique hn hm
      exact ⟨rfl, hlen⟩
    · exact ⟨rfl, Nat.le_refl _⟩
  · refine hx.change fun x hx => ?_
    obtain ⟨m, hm, hfit, hrest⟩ := shaped_passable f x hx
    refine ⟨_, found x m hm, ?_⟩
    split
    · rename_i hxid
      subst hxid
      obtain rfl := Option.mem_unique hn hm
      refine ⟨⟨fun hc => by simp [ht] at hc, fun _ => hpos.trans_le hlen⟩, fun i y hi hy => ?_⟩
      have hi : i ≠ 0 := by simpa [ht, Tag.reads] using hi
      obtain ⟨i, rfl⟩ := Nat.exists_eq_succ_of_ne_zero hi
      obtain ⟨a, ha, hy⟩ := Node.exists_of_child hy
      rcases hmore a (List.mem_of_getElem? (i := i) (by simpa using ha)) with ha | hp
      · obtain ⟨j, hj⟩ := List.mem_iff_getElem?.mp ha
        have hj : n.args[j + 1]? = some a := by simpa using hj
        exact hrest (j + 1) y (by simp [ht, Tag.reads]) (by simp [Node.arg, hj, hy])
      · exact hp y hy
    · exact ⟨hfit, hrest⟩
  · obtain ⟨m, hm, hc, hb⟩ := hx
    exact ⟨m, by rw [found x m hm, if_neg (closure x m hm hc)], hc, hb⟩
  · obtain ⟨m, b, k, hm, hc, hb, hk, htk, hlk⟩ := hx
    refine ⟨m, b, _, by rw [found x m hm, if_neg (closure x m hm hc)], hc, hb, found b k hk, ?_⟩
    split
    · exact ⟨ht, hpos.trans_le hlen⟩
    · exact ⟨htk, hlk⟩

end Forest

namespace PassM

open Forest

variable {c d : Context} {grade : Int → ℚ} {id : Int} {n : Node} {args : List Operand} {u : Unit}

theorem node_grows (h : node tag pos args c = .ok v d) : Grows c.forest d.forest := by
  obtain ⟨-, rfl⟩ := node_ok.mp h
  exact grows_push _ _

theorem steady_setArgs (hc : c.Graded grade) (hn : c.forest.get? id = some n)
    (hr : Exchanged c.forest n { n with args }) (h : setArgs id args c = .ok u d) :
    Steady c.forest d.forest := by
  obtain ⟨-, -, hget⟩ := setArgs_frame h
  refine steady_of_exchanged fun x m hm => ?_
  rw [hget, hm]
  split
  · rename_i hx
    obtain ⟨m', hm', hargs, -⟩ := hc.sharers_alike hn x hx
    obtain rfl := Option.mem_unique hm hm'
    have harg : ∀ i, m.arg i = n.arg i := fun i => by rw [Node.arg, Node.arg, hargs]
    refine ⟨_, rfl, rfl, ?_, fun i y hy => ?_, fun hf => ?_, fun b hb => ?_⟩
    · rw [hargs]
      exact hr.length
    · rw [harg]
      exact hr.reads i y hy
    · rw [harg] at hf
      exact hr.filled hf
    · rw [harg] at hb
      exact hr.bodied b hb
  · exact ⟨m, rfl, exchanged_of_args rfl rfl⟩

theorem steady_annotate (h : update id (·.annotate key value) c = .ok u d) :
    Steady c.forest d.forest := by
  obtain ⟨n, hn, rfl⟩ := update_ok.mp h
  refine steady_of_exchanged fun x m hm => ?_
  rw [Context.put_forest, get?_set]
  split
  · rename_i hx
    subst hx
    obtain rfl := Option.mem_unique hn hm
    rw [hm]
    exact ⟨_, rfl, exchanged_of_args rfl rfl⟩
  · exact ⟨m, hm, exchanged_of_args rfl rfl⟩

end PassM

end Lowering
