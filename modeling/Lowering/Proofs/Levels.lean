import Lowering.Proofs.Grading
import Lowering.Proofs.Walks

namespace Lowering

namespace Forest

/-- Levels of the nodes, for a walk that needs some of them at each node: a node has those it needs,
and those of any of its operands besides. -/
structure Levelled (drop : Node → Nat) (f : Forest) (level : Int → Nat) : Prop where
  pays : ∀ {x n}, f.get? x = some n → drop n ≤ level x
  falls : ∀ {x n}, f.get? x = some n → ∀ y ∈ n.children, f.Has y ∧ level y + drop n ≤ level x

/-- Levels of a later forest, in which the nodes that were there have the levels they had. -/
structure Relevelled (drop : Node → Nat) (f : Forest) (level : Int → Nat) (f' : Forest)
    (level' : Int → Nat) : Prop where
  levelled : Levelled drop f' level'
  kept : ∀ x, f.Has x → f'.Has x ∧ level' x = level x

variable {drop : Node → Nat} {f f' : Forest} {level level1 level2 : Int → Nat} {id : Int} {n : Node}

theorem Relevelled.refl (h : Levelled drop f level) : Relevelled drop f level f level :=
  ⟨h, fun _ hx => ⟨hx, rfl⟩⟩

theorem Relevelled.trans (h : Relevelled drop f level f' level1)
    (h' : Relevelled drop f' level1 f'' level2) : Relevelled drop f level f'' level2 := by
  refine ⟨h'.levelled, fun x hx => ?_⟩
  obtain ⟨hx', heq⟩ := h.kept x hx
  obtain ⟨hx'', heq'⟩ := h'.kept x hx'
  exact ⟨hx'', heq'.trans heq⟩

/-- Budgets are levels. -/
theorem levelled_budget (ha : f.Acyclic) (hv : f.Valid) (hd : ∀ n, drop n ≤ growth n) :
    Levelled drop f f.budget where
  pays hn := (hd _).trans (growth_le_budget hn)
  falls hn y hy :=
    ⟨hv _ _ hn y hy, (Nat.add_le_add_left (hd _) _).trans (budget_child ha hn hy)⟩

theorem Levelled.push (h : Levelled drop f level)
    (hc : ∀ y ∈ n.children, f.Has y ∧ level y ≤ j) : Relevelled drop f level (f.push n)
      (Function.update level ((f.size : Int) + 1) (j + drop n)) where
  levelled := by
    have old : ∀ {y}, f.Has y →
        Function.update level ((f.size : Int) + 1) (j + drop n) y = level y :=
      fun hy => Function.update_of_ne hy.ne_new _ _
    constructor
    · intro x m hm
      rw [get?_push] at hm
      split at hm
      · rename_i hx
        cases hm
        rw [hx, Function.update_self]
        exact Nat.le_add_left _ _
      · rw [old ⟨m, hm⟩]
        exact h.pays hm
    · intro x m hm y hy
      rw [get?_push] at hm
      split at hm
      · rename_i hx
        cases hm
        obtain ⟨hhas, hle⟩ := hc y hy
        rw [hx, Function.update_self, old hhas]
        exact ⟨hhas.push n, Nat.add_le_add_right hle _⟩
      · obtain ⟨hhas, hle⟩ := h.falls hm y hy
        rw [old ⟨m, hm⟩, old hhas]
        exact ⟨hhas.push n, hle⟩
  kept _ hx := ⟨hx.push n, Function.update_of_ne hx.ne_new _ _⟩

/-- Some nodes get other records, for which their levels are enough. -/
theorem Levelled.exchange (h : Levelled drop f level) (hhas : ∀ x, f.Has x → f'.Has x)
    (hnew : ∀ {x n}, f'.get? x = some n → f.get? x = some n ∨ drop n ≤ level x ∧
      ∀ y ∈ n.children, f.Has y ∧ level y + drop n ≤ level x) :
    Relevelled drop f level f' level where
  levelled := by
    constructor
    · intro x n hn
      exact (hnew hn).elim h.pays (·.1)
    · intro x n hn y hy
      obtain ⟨hhas', hle⟩ := (hnew hn).elim (h.falls · y hy) (·.2 y hy)
      exact ⟨hhas y hhas', hle⟩
  kept x hx := ⟨hhas x hx, rfl⟩

theorem Levelled.set (h : Levelled drop f level) (hd : drop n ≤ level id)
    (hc : ∀ y ∈ n.children, f.Has y ∧ level y + drop n ≤ level id) :
    Relevelled drop f level (f.set id n) level := by
  refine h.exchange (fun x hx => hx.set n) fun {x m} hm => ?_
  rw [get?_set] at hm
  split at hm
  · rename_i hx
    obtain ⟨_, -, rfl⟩ := Option.map_eq_some_iff.mp hm
    subst hx
    exact .inr ⟨hd, hc⟩
  · exact .inl hm

end Forest

namespace PassM

open Forest

variable {α β : Type} {drop : Node → Nat} {c d : Context} {level level1 : Int → Nat} {id : Int}
  {n : Node} {v : Operand} {args : List Operand} {j k : Nat} {x : PassM α} {g : α → PassM β}
  {P : α → Context → (Int → Nat) → Prop} {Q : β → Context → (Int → Nat) → Prop}

/-- An operand that refers to no node with more than some number of levels. -/
def Rests (c : Context) (level : Int → Nat) (j : Nat) (v : Operand) : Prop :=
  ∀ y, v.child? = some y → c.forest.Has y ∧ level y ≤ j

theorem Rests.later (h : Rests c level j v)
    (hr : Relevelled drop c.forest level d.forest level1) : Rests d level1 j v := by
  intro y hy
  obtain ⟨hhas, hle⟩ := h y hy
  obtain ⟨hhas', heq⟩ := hr.kept y hhas
  exact ⟨hhas', heq ▸ hle⟩

theorem Rests.le (h : Rests c level j v) (hk : j ≤ k) : Rests c level k v :=
  fun y hy => ⟨(h y hy).1, (h y hy).2.trans hk⟩

theorem rests_atom (hv : v.child? = none) : Rests c level j v := by simp [Rests, hv]

@[simp] theorem rests_sym (name : Text) : Rests c level j (.sym name) := rests_atom rfl

@[simp] theorem rests_int (value : Int64) : Rests c level j (.int value) := rests_atom rfl

theorem rests_operand (hl : Levelled drop c.forest level) (hn : c.forest.get? id = some n)
    (hv : v ∈ n.args) : Rests c level (level id - drop n) v := by
  intro y hy
  obtain ⟨hhas, hle⟩ := hl.falls hn y (List.mem_filterMap.mpr ⟨v, hv, hy⟩)
  exact ⟨hhas, by omega⟩

theorem arg_cases (n : Node) (i : Nat) : (n.arg i).child? = none ∨ n.arg i ∈ n.args := by
  unfold Node.arg
  cases hi : n.args[i]? with
  | none => exact .inl rfl
  | some w => exact .inr (List.mem_of_getElem? hi)

theorem rests_arg (hl : Levelled drop c.forest level) (hn : c.forest.get? id = some n) (i : Nat) :
    Rests c level (level id - drop n) (n.arg i) :=
  (arg_cases n i).elim rests_atom (rests_operand hl hn)

theorem rests_children (h : ∀ a ∈ args, Rests c level j a) :
    ∀ y ∈ args.filterMap Operand.child?, c.forest.Has y ∧ level y ≤ j := by
  intro y hy
  obtain ⟨a, ha, hay⟩ := List.mem_filterMap.mp hy
  exact h a ha y hay

/-- Where a run succeeds, there are levels for the nodes it has added, with something known of its
result. -/
def Sinks (drop : Node → Nat) (x : PassM α) (c : Context) (level : Int → Nat)
    (P : α → Context → (Int → Nat) → Prop) : Prop :=
  ∀ a d, x c = .ok a d → ∃ level1, Relevelled drop c.forest level d.forest level1 ∧ P a d level1

theorem sinks_pure (hl : Levelled drop c.forest level) (hp : P a c level) :
    Sinks drop (pure a) c level P := by
  intro a' d h
  obtain ⟨rfl, rfl⟩ := pure_ok.mp h
  exact ⟨level, .refl hl, hp⟩

theorem Sinks.bind (hx : Sinks drop x c level P)
    (hg : ∀ a d level1, x c = .ok a d → Relevelled drop c.forest level d.forest level1 →
      P a d level1 → Sinks drop (g a) d level1 Q) : Sinks drop (x >>= g) c level Q := by
  intro b e h
  obtain ⟨a, d, ha, h⟩ := bind_ok.mp h
  obtain ⟨level1, hr, hp⟩ := hx a d ha
  obtain ⟨level2, hr', hq⟩ := hg a d level1 ha hr hp b e h
  exact ⟨level2, hr.trans hr', hq⟩

theorem Sinks.after_check {g : Unit → PassM β}
    (hg : n.malformed? = none → Sinks drop (g ⟨⟩) c level Q) :
    Sinks drop (check n >>= g) c level Q := by
  intro b d h
  obtain ⟨hm, h⟩ := check_bind_ok.mp h
  exact hg hm b d h

theorem Sinks.after_operandAt {g : Operand → PassM β} (hg : Sinks drop (g (n.arg i)) c level Q) :
    Sinks drop (operandAt n i >>= g) c level Q := by
  intro b d h
  obtain ⟨-, h⟩ := operandAt_bind_ok.mp h
  exact hg b d h

theorem Sinks.after_fetch {g : Node → PassM β} (hn : c.forest.get? id = some n)
    (hg : Sinks drop (g n) c level Q) : Sinks drop (fetch id >>= g) c level Q := by
  intro b d h
  obtain ⟨m, hm, h⟩ := fetch_bind_ok.mp h
  obtain rfl := Option.mem_unique hn hm
  exact hg b d h

/-- A run that leaves the forest alone. -/
theorem sinks_same (hl : Levelled drop c.forest level)
    (h : ∀ {a d}, x c = .ok a d → d.forest = c.forest) :
    Sinks drop x c level fun _ _ _ => True := by
  intro a d hx
  refine ⟨level, ?_, trivial⟩
  rw [h hx]
  exact .refl hl

theorem sinks_mapM {g : α → PassM β} {as : List α} {R : β → Context → (Int → Nat) → Prop}
    (hR : ∀ {b c level d level1}, Relevelled drop c.forest level d.forest level1 →
      R b c level → R b d level1) (hl : Levelled drop c.forest level)
    (hg : ∀ a ∈ as, ∀ d level1, Relevelled drop c.forest level d.forest level1 →
      Sinks drop (g a) d level1 R) :
    Sinks drop (as.mapM g) c level fun bs e level2 => ∀ b ∈ bs, R b e level2 := by
  induction as generalizing c level with
  | nil => exact sinks_pure hl (by simp)
  | cons a as ih =>
    rw [List.mapM_cons]
    obtain ⟨ha, has⟩ := List.forall_mem_cons.mp hg
    refine (ha c level (.refl hl)).bind fun b d level1 _ hr hb => ?_
    refine (ih hr.levelled fun a ha e level2 hr' => has a ha e level2 (hr.trans hr')).bind
      fun bs e level2 _ hr' hbs => sinks_pure hr'.levelled ?_
    exact List.forall_mem_cons.mpr ⟨hR hr' hb, hbs⟩

theorem sinks_alloc (hl : Levelled drop c.forest level) (hargs : ∀ a ∈ args, Rests c level j a)
    (hk : j + drop { tag, args, pos } ≤ k) :
    Sinks drop (alloc tag pos args) c level fun x d level1 => Rests d level1 k (.ref x) := by
  intro x d h
  obtain ⟨rfl, rfl⟩ := alloc_ok.mp h
  refine ⟨_, hl.push (n := { tag, args, pos }) (rests_children hargs), fun y hy => ?_⟩
  rw [Operand.child?_ref] at hy
  cases hy
  exact ⟨has_push_self _ _, by rwa [Function.update_self]⟩

theorem sinks_node (hl : Levelled drop c.forest level) (hargs : ∀ a ∈ args, Rests c level j a)
    (hk : j + drop { tag, args, pos } ≤ k) :
    Sinks drop (node tag pos args) c level fun v d level1 => Rests d level1 k v :=
  (sinks_alloc hl hargs hk).bind fun _ _ _ _ hr hx => sinks_pure hr.levelled hx

theorem sinks_sexpCall (hl : Levelled drop c.forest level)
    (hargs : ∀ a ∈ args, Rests c level j a)
    (hcall : j + drop { tag := .call, args := .sym function :: args, pos } ≤ k)
    (hsexp : ∀ x, k + drop { tag := .sexp, args := [.ref x], pos } ≤ m) :
    Sinks drop (sexpCall pos function args) c level fun v d level1 => Rests d level1 m v := by
  have hall : ∀ a ∈ .sym function :: args, Rests c level j a :=
    List.forall_mem_cons.mpr ⟨rests_atom rfl, hargs⟩
  refine (sinks_node hl hall hcall).bind fun call d level1 hrun hr hv => ?_
  obtain ⟨rfl, -⟩ := node_ok.mp hrun
  exact sinks_node hr.levelled (List.forall_mem_singleton.mpr hv) (hsexp _)

theorem sinks_moveArgs (hl : Levelled drop c.forest level)
    (hargs : ∀ a ∈ n.args, Rests c level j a)
    (hk : j + drop { tag := .list, args := n.args, pos := n.pos } ≤ k) :
    Sinks drop (moveArgs id n) c level fun v d level1 => Rests d level1 k v := by
  refine (sinks_alloc hl hargs hk).bind fun x d level1 _ hr hx _ e h => ?_
  obtain ⟨_, hmodify, rfl⟩ := bind_pure_ok.mp h
  obtain rfl := modify_ok.mp hmodify
  exact ⟨level1, .refl hr.levelled, hx⟩

theorem sinks_reshape (hl : Levelled drop c.forest level) (hargs : ∀ a ∈ args, Rests c level j a)
    (hk : ∀ m : Node, j + drop (m.reshape tag args) ≤ level id) :
    Sinks drop (reshape id tag args) c level fun _ _ _ => True := by
  intro _ d h
  obtain ⟨m, hm, rfl⟩ := reshape_ok.mp h
  have hd := hk m
  refine ⟨level, hl.set (n := m.reshape tag args) (by omega) fun y hy => ?_, trivial⟩
  obtain ⟨hhas, hle⟩ := rests_children hargs y hy
  exact ⟨hhas, by omega⟩

/-- A visit that ends with a new tag and new operands for the node. -/
theorem sinks_reshaped (hl : Levelled drop c.forest level) (hargs : ∀ a ∈ args, Rests c level j a)
    (hk : ∀ m : Node, j + drop (m.reshape tag args) ≤ level id) :
    Sinks drop (do reshape id tag args; return Walk.Action.descend) c level fun _ _ _ => True :=
  (sinks_reshape hl hargs hk).bind fun _ _ _ _ hr _ => sinks_pure hr.levelled trivial

/-- At each node, the visits of a walk need no more levels than its budget has for it. -/
def VisitsSink (visit : Int → Node → PassM Walk.Action) : Prop :=
  ∃ drop : Node → Nat, (∀ n, 1 ≤ drop n ∧ drop n ≤ growth n) ∧
    ∀ {c grade id n level}, c.Graded grade → c.forest.get? id = some n →
      Levelled drop c.forest level → Sinks drop (visit id n) c level fun _ _ _ => True

/-- Visits that leave the forest alone need one level at each node. -/
theorem visits_sink_of_same {visit : Int → Node → PassM Walk.Action}
    (h : ∀ {id n c act d}, visit id n c = .ok act d → d.forest = c.forest) : VisitsSink visit := by
  refine ⟨fun _ => 1, fun n => ⟨le_rfl, Nat.le_add_left 1 _⟩, ?_⟩
  exact fun _ _ hl => sinks_same hl h

end PassM

end Lowering
