import Lowering.Proofs.Steps

namespace Lowering

namespace Forest

/-- The nodes that can be reached from a root without entering lowered code. -/
inductive Outside (f : Forest) (root : Int) : Int → Prop where
  | root : Outside f root root
  | operand {id child : Int} {n : Node} (above : Outside f root id) (found : f.get? id = some n)
      (open_ : n.tag ≠ .sexp) (mem : child ∈ n.children) : Outside f root child

/-- A condition on nodes, which may look at the nodes below. -/
abbrev Condition := Forest → Node → Prop

/-- Nodes that exist, meet a condition and have no operand among other nodes; what stands below a
`sexp` node may be anything. -/
def SelfContained (P : Condition) (f : Forest) (X : Int → Prop) : Prop :=
  ∀ id, X id → ∃ n, f.get? id = some n ∧ P f n ∧ (n.tag ≠ .sexp → ∀ child ∈ n.children, X child)

/-- A node meets a condition, and so does everything below it outside lowered code. -/
def Clear (P : Condition) (f : Forest) (id : Int) : Prop := ∃ X, SelfContained P f X ∧ X id

theorem selfContained_clear (P : Condition) (f : Forest) : SelfContained P f (Clear P f) := by
  rintro id ⟨X, hX, hid⟩
  obtain ⟨n, hn, hp, hc⟩ := hX id hid
  exact ⟨n, hn, hp, fun ht child hm => ⟨X, hX, hc ht child hm⟩⟩

theorem Clear.outside {root id : Int} (h : Clear P f root) (ho : Outside f root id) :
    Clear P f id := by
  induction ho with
  | root => exact h
  | operand _ found open_ mem ih =>
    obtain ⟨n, hn, -, hc⟩ := selfContained_clear P f _ ih
    rw [found] at hn
    cases hn
    exact hc open_ _ mem

theorem clear_iff : Clear P f root ↔ ∀ id, Outside f root id → ∃ n, f.get? id = some n ∧ P f n := by
  constructor
  · intro h id ho
    obtain ⟨n, hn, hp, -⟩ := selfContained_clear P f id (h.outside ho)
    exact ⟨n, hn, hp⟩
  · intro h
    refine ⟨Outside f root, ?_, .root⟩
    intro id ho
    obtain ⟨n, hn, hp⟩ := h id ho
    exact ⟨n, hn, hp, fun ht child hm => .operand ho hn ht hm⟩

theorem Clear.mono {id : Int} (h : Clear P f id) (hpq : ∀ n, P f n → Q f n) : Clear Q f id := by
  obtain ⟨X, hX, hid⟩ := h
  refine ⟨X, ?_, hid⟩
  intro x hx
  obtain ⟨n, hn, hp, hc⟩ := hX x hx
  exact ⟨n, hn, hpq n hp, hc⟩

/-- A later forest has no `destruct` node where an earlier one had none. -/
def NoNewDestruct (f f' : Forest) : Prop :=
  ∀ id n', f'.get? id = some n' → n'.tag = .destruct → ∃ n, f.get? id = some n ∧ n.tag = .destruct

/-- Conditions that go on to hold of a node as long as no `destruct` node comes up. -/
def Lasting (P : Condition) : Prop := ∀ f f' n, NoNewDestruct f f' → P f n → P f' n

theorem NoNewDestruct.trans (hg : NoNewDestruct f g) (hh : NoNewDestruct g h) :
    NoNewDestruct f h := by
  intro id n hn ht
  obtain ⟨m, hm, hmt⟩ := hh id n hn ht
  exact hg id m hm hmt

theorem noNewDestruct_push (ht : n.tag ≠ .destruct) : NoNewDestruct f (f.push n) := by
  intro id m hm hmt
  rw [get?_push] at hm
  split at hm
  · cases hm
    exact absurd hmt ht
  · exact ⟨m, hm, hmt⟩

theorem noNewDestruct_set {id : Int} (ho : f.get? id = some old)
    (ht : n.tag = .destruct → old.tag = .destruct) : NoNewDestruct f (f.set id n) := by
  intro x m hm hmt
  rw [get?_set] at hm
  split at hm
  · rename_i hx
    subst hx
    rw [ho] at hm
    cases hm
    exact ⟨old, ho, ht hmt⟩
  · exact ⟨m, hm, hmt⟩

/-- Every node of the earlier forest is in the later one, unchanged. -/
def Grows (f f' : Forest) : Prop := ∀ id n, f.get? id = some n → f'.get? id = some n

theorem Grows.refl (f : Forest) : Grows f f := fun _ _ h => h

theorem Grows.trans (hg : Grows f g) (hh : Grows g h) : Grows f h :=
  fun id n hn => hh id n (hg id n hn)

theorem Grows.size (h : Grows f f') : f.size ≤ f'.size :=
  size_le_of_get? fun x n hn => ⟨n, h x n hn⟩

theorem grows_push (f : Forest) (n : Node) : Grows f (f.push n) := by
  intro id m hm
  have := (get?_eq_some_bounds hm).2
  rw [get?_push, if_neg (by omega), hm]

/-- Nodes that are added leave the others as clear as they were. -/
theorem Clear.grow {id : Int} (hP : Lasting P) (hg : Grows f f') (hd : NoNewDestruct f f')
    (h : Clear P f id) : Clear P f' id := by
  refine ⟨Clear P f, ?_, h⟩
  intro x hx
  obtain ⟨m, hm, hp, hc⟩ := selfContained_clear P f x hx
  exact ⟨m, hg x m hm, hP _ _ _ hd hp, hc⟩

theorem clear_new (hP : Lasting P) (ht : n.tag ≠ .destruct) (hp : P (f.push n) n)
    (hc : n.tag ≠ .sexp → ∀ child ∈ n.children, Clear P f child) :
    Clear P (f.push n) ((f.size : Int) + 1) := by
  refine ⟨fun x => x = (f.size : Int) + 1 ∨ Clear P (f.push n) x, ?_, .inl rfl⟩
  rintro x (rfl | hx)
  · refine ⟨n, by rw [get?_push, if_pos rfl], hp, ?_⟩
    intro hs child hm
    exact .inr ((hc hs child hm).grow hP (grows_push f n) (noNewDestruct_push ht))
  · obtain ⟨m, hm, hpm, hcm⟩ := selfContained_clear P _ x hx
    exact ⟨m, hm, hpm, fun hs child hch => .inr (hcm hs child hch)⟩

/-- A node that meets the condition and has clear operands may take the place of another one. -/
theorem Clear.set {id x : Int} (hP : Lasting P) (ho : f.get? id = some old)
    (ht : n.tag = .destruct → old.tag = .destruct) (hp : P (f.set id n) n)
    (hc : n.tag ≠ .sexp → ∀ child ∈ n.children, Clear P f child) (h : Clear P f x) :
    Clear P (f.set id n) x := by
  refine ⟨Clear P f, ?_, h⟩
  intro y hy
  by_cases hyi : y = id
  · subst hyi
    exact ⟨n, by rw [get?_set, if_pos rfl, ho]; rfl, hp, hc⟩
  · obtain ⟨m, hm, hpm, hcm⟩ := selfContained_clear P f y hy
    exact ⟨m, by rw [get?_set, if_neg hyi, hm], hP _ _ _ (noNewDestruct_set ho ht) hpm, hcm⟩

end Forest

end Lowering
