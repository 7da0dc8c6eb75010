import Lowering.Proofs.Budgets
import Mathlib.Algebra.Order.Field.Basic
import Mathlib.Algebra.Order.Field.Rat
import Mathlib.Data.List.Pairwise
import Mathlib.Tactic.Linarith

namespace Lowering

namespace Forest

/-- A number that belongs to a node. -/
def Has (f : Forest) (id : Int) : Prop := ∃ n, f.get? id = some n

/-- The numbers of all nodes. -/
def numbers (f : Forest) : List Int := (List.range f.size).map fun i : Nat => (i : Int) + 1

variable {f : Forest} {id : Int}

theorem has_iff : f.Has id ↔ 0 < id ∧ id ≤ f.size :=
  ⟨fun ⟨_, h⟩ => get?_eq_some_bounds h, fun h => get?_of_bounds h.1 h.2⟩

theorem mem_numbers : id ∈ f.numbers ↔ f.Has id := by
  rw [has_iff, numbers, List.mem_map]
  constructor
  · rintro ⟨i, hi, rfl⟩
    have := List.mem_range.mp hi
    omega
  · intro h
    exact ⟨id.toNat - 1, List.mem_range.mpr (by omega), by omega⟩

theorem Has.push (h : f.Has id) (n : Node) : (f.push n).Has id := by
  obtain ⟨m, hm⟩ := h
  exact ⟨m, grows_push f n id m hm⟩

theorem Has.set (h : f.Has id) (n : Node) : (f.set x n).Has id := by
  rw [has_iff] at h ⊢
  rwa [size_set]

theorem has_push_self (f : Forest) (n : Node) : (f.push n).Has ((f.size : Int) + 1) :=
  ⟨n, get?_push_self f n⟩

theorem Has.ne_new (h : f.Has id) : id ≠ (f.size : Int) + 1 := by
  have := has_iff.mp h
  omega

end Forest

/-- There is room for a grade right below another one. -/
theorem exists_room_below (grade : Int → ℚ) (l : List Int) (r : ℚ) :
    ∃ m < r, ∀ x ∈ l, grade x < r → grade x < m := by
  induction l with
  | nil => exact ⟨r - 1, by linarith, by simp⟩
  | cons y l ih =>
    obtain ⟨m, hm, hl⟩ := ih
    by_cases hy : grade y < r
    · obtain ⟨m', hlow, hhigh⟩ := exists_between (max_lt hm hy)
      refine ⟨m', hhigh, List.forall_mem_cons.mpr ⟨fun _ => (le_max_right _ _).trans_lt hlow, ?_⟩⟩
      intro x hx hr
      exact (hl x hx hr).trans ((le_max_left _ _).trans_lt hlow)
    · exact ⟨m, hm, List.forall_mem_cons.mpr ⟨fun h => absurd h hy, hl⟩⟩

theorem exists_room_above (grade : Int → ℚ) (l : List Int) (r : ℚ) :
    ∃ m > r, ∀ x ∈ l, r < grade x → m < grade x := by
  obtain ⟨m, hm, hl⟩ := exists_room_below (fun x => - grade x) l (-r)
  refine ⟨-m, by linarith, fun x hx hr => ?_⟩
  have := hl x hx (by linarith)
  linarith

theorem exists_room_beneath (grade : Int → ℚ) (l : List Int) : ∃ m, ∀ x ∈ l, m < grade x := by
  induction l with
  | nil => exact ⟨0, by simp⟩
  | cons y l ih =>
    obtain ⟨m, hm⟩ := ih
    refine ⟨min m (grade y - 1), List.forall_mem_cons.mpr ⟨?_, fun x hx => ?_⟩⟩
    · exact (min_le_right _ _).trans_lt (by linarith)
    · exact (min_le_left _ _).trans_lt (hm x hx)

namespace Context

/-- Grades of a state: they go down from a node to its operands, all of which exist. Nodes with one
operand list have it in common, and no node is in two groups of such nodes. -/
structure Graded (c : Context) (grade : Int → ℚ) : Prop where
  below : ∀ {x n}, c.forest.get? x = some n → ∀ y ∈ n.children, c.forest.Has y ∧ grade y < grade x
  alike : ∀ g ∈ c.shared, ∀ x ∈ g, ∀ y ∈ g, ∃ n m, c.forest.get? x = some n ∧
    c.forest.get? y = some m ∧ n.args = m.args ∧ grade x = grade y
  apart : c.shared.Pairwise List.Disjoint

/-- A state that can be graded. -/
def Orderly (c : Context) : Prop := ∃ grade, c.Graded grade

variable {c c' : Context} {grade grade' : Int → ℚ} {id : Int} {n : Node}

theorem Graded.valid (h : c.Graded grade) : c.forest.Valid :=
  fun _ _ hn child hc => (h.below hn child hc).1

theorem Graded.acyclic (h : c.Graded grade) : c.forest.Acyclic := by
  have descends : ∀ {x y}, Relation.TransGen c.forest.Child x y → grade y < grade x := by
    intro x y hxy
    induction hxy with
    | single hstep =>
      obtain ⟨n, hn, hy⟩ := hstep
      exact (h.below hn _ hy).2
    | tail _ hstep ih =>
      obtain ⟨n, hn, hy⟩ := hstep
      exact (h.below hn _ hy).2.trans ih
  intro x hx
  exact lt_irrefl _ (descends hx)

/-- A state over a forest in which every node has its operands to itself, all operands exist and no
node lies below itself. -/
structure Tidy (c : Context) : Prop where
  unshared : c.shared = []
  acyclic : c.forest.Acyclic
  valid : c.forest.Valid

/-- Without sharing, the budgets of the nodes are grades. -/
theorem Tidy.orderly (h : c.Tidy) : c.Orderly := by
  refine ⟨fun x => c.forest.budget x, ⟨?_, by simp [h.unshared], by simp [h.unshared]⟩⟩
  intro x n hn y hy
  refine ⟨h.valid x n hn y hy, ?_⟩
  have := Forest.budget_child h.acyclic hn hy
  have hpos : 0 < Forest.growth n := by unfold Forest.growth; omega
  exact_mod_cast (by omega : c.forest.budget y < c.forest.budget x)

theorem Graded.has_of_mem (h : c.Graded grade) (hg : g ∈ c.shared) (hx : x ∈ g) :
    c.forest.Has x := by
  obtain ⟨n, -, hn, -⟩ := h.alike g hg x hx x hx
  exact ⟨n, hn⟩

/-- What preserves the order of grades makes grades of them. -/
theorem Graded.regrade (h : c.Graded grade)
    (hlt : ∀ x y, c.forest.Has x → c.forest.Has y → grade x < grade y → grade' x < grade' y)
    (heq : ∀ g ∈ c.shared, ∀ x ∈ g, ∀ y ∈ g, grade x = grade y → grade' x = grade' y) :
    c.Graded grade' where
  below hn y hy := by
    obtain ⟨hhas, hgrade⟩ := h.below hn y hy
    exact ⟨hhas, hlt _ _ hhas ⟨_, hn⟩ hgrade⟩
  alike g hg x hx y hy := by
    obtain ⟨n, m, hn, hm, hargs, hgrade⟩ := h.alike g hg x hx y hy
    exact ⟨n, m, hn, hm, hargs, heq g hg x hx y hy hgrade⟩
  apart := h.apart

theorem Graded.congr (h : c.Graded grade) (hf : c'.forest = c.forest)
    (hs : c'.shared = c.shared) : c'.Graded grade := by
  obtain ⟨below, alike, apart⟩ := h
  refine ⟨?_, ?_, ?_⟩
  · rw [hf]
    exact below
  · rw [hf, hs]
    exact alike
  · rw [hs]
    exact apart

/-- A new node is graded above its operands. -/
theorem Graded.add (h : c.Graded grade) (hc : ∀ y ∈ n.children, c.forest.Has y ∧ grade y < m) :
    (c.add n).Graded (Function.update grade ((c.forest.size : Int) + 1) m) where
  below {x k} hk y hy := by
    rw [add_forest, Forest.get?_push] at hk
    split at hk
    · rename_i hx
      cases hk
      subst hx
      obtain ⟨hhas, hlt⟩ := hc y hy
      rw [Function.update_self, Function.update_of_ne hhas.ne_new]
      exact ⟨hhas.push n, hlt⟩
    · rename_i hx
      obtain ⟨hhas, hlt⟩ := h.below hk y hy
      rw [Function.update_of_ne hx, Function.update_of_ne hhas.ne_new]
      exact ⟨hhas.push n, hlt⟩
  alike g hg x hx y hy := by
    obtain ⟨a, b, ha, hb, hargs, hgrade⟩ := h.alike g hg x hx y hy
    refine ⟨a, b, Forest.grows_push _ _ _ _ ha, Forest.grows_push _ _ _ _ hb, hargs, ?_⟩
    rw [Function.update_of_ne (Forest.Has.ne_new ⟨a, ha⟩),
      Function.update_of_ne (Forest.Has.ne_new ⟨b, hb⟩)]
    exact hgrade
  apart := h.apart

theorem mem_detach (hg : g ∈ (c.detach id).shared) : ∃ g0 ∈ c.shared, g = g0.filter (· ≠ id) := by
  obtain ⟨hg, -⟩ := List.mem_filter.mp hg
  obtain ⟨g0, hg0, rfl⟩ := List.mem_map.mp hg
  exact ⟨g0, hg0, rfl⟩

theorem not_mem_detach (hg : g ∈ (c.detach id).shared) : id ∉ g := by
  obtain ⟨g0, -, rfl⟩ := mem_detach hg
  simp

theorem Graded.detach (h : c.Graded grade) (id : Int) : (c.detach id).Graded grade where
  below := h.below
  alike g hg x hx y hy := by
    obtain ⟨g0, hg0, rfl⟩ := mem_detach hg
    exact h.alike g0 hg0 x (List.mem_filter.mp hx).1 y (List.mem_filter.mp hy).1
  apart := by
    have hmap : (c.shared.map (·.filter (· ≠ id))).Pairwise List.Disjoint :=
      List.pairwise_map.mpr (h.apart.imp fun hd _ hx hy =>
        hd (List.mem_filter.mp hx).1 (List.mem_filter.mp hy).1)
    exact hmap.filter _

theorem Graded.put (h : c.Graded grade) (hid : ∀ g ∈ c.shared, id ∉ g)
    (hc : ∀ y ∈ n.children, c.forest.Has y ∧ grade y < grade id) : (c.put id n).Graded grade where
  below {x k} hk y hy := by
    rw [put_forest, Forest.get?_set] at hk
    split at hk
    · rename_i hx
      subst hx
      obtain ⟨-, -, rfl⟩ := Option.map_eq_some_iff.mp hk
      exact ⟨(hc y hy).1.set n, (hc y hy).2⟩
    · exact ⟨(h.below hk y hy).1.set n, (h.below hk y hy).2⟩
  alike g hg x hx y hy := by
    obtain ⟨a, b, ha, hb, hargs, hgrade⟩ := h.alike g hg x hx y hy
    refine ⟨a, b, ?_, ?_, hargs, hgrade⟩
    · rw [put_forest, Forest.get?_set, if_neg (fun he : x = id => hid g hg (he ▸ hx))]
      exact ha
    · rw [put_forest, Forest.get?_set, if_neg (fun he : y = id => hid g hg (he ▸ hy))]
      exact hb
  apart := h.apart

/-- A node may get other operands that are graded lower. -/
theorem Graded.renew (h : c.Graded grade)
    (hc : ∀ y ∈ n.children, c.forest.Has y ∧ grade y < grade id) :
    ((c.put id n).detach id).Graded grade :=
  (h.detach id).put (fun _ => not_mem_detach) hc

theorem Graded.put_same (h : c.Graded grade) (hm : c.forest.get? id = some m)
    (hargs : n.args = m.args) : (c.put id n).Graded grade := by
  have found : ∀ {x k}, c.forest.get? x = some k →
      ∃ k', (c.put id n).forest.get? x = some k' ∧ k'.args = k.args := by
    intro x k hk
    rw [put_forest, Forest.get?_set]
    split
    · rename_i hx
      subst hx
      rw [hm] at hk ⊢
      cases hk
      exact ⟨n, rfl, hargs⟩
    · exact ⟨k, hk, rfl⟩
  refine ⟨fun {x k} hk y hy => ?_, fun g hg x hx y hy => ?_, h.apart⟩
  · obtain ⟨k0, hk0⟩ : c.forest.Has x := by
      have := Forest.has_iff.mp ⟨k, hk⟩
      rw [put_forest, Forest.size_set] at this
      exact Forest.has_iff.mpr this
    obtain ⟨k', hk', hsame⟩ := found hk0
    obtain rfl : k = k' := Option.mem_unique hk hk'
    rw [Node.children, hsame] at hy
    exact ⟨(h.below hk0 y hy).1.set n, (h.below hk0 y hy).2⟩
  · obtain ⟨a, b, ha, hb, hab, hgrade⟩ := h.alike g hg x hx y hy
    obtain ⟨a', ha', haa⟩ := found ha
    obtain ⟨b', hb', hbb⟩ := found hb
    exact ⟨a', b', ha', hb', by rw [haa, hbb, hab], hgrade⟩

/-- A node that takes the place of another one is no operand of itself, and what is below it is not
graded higher than that one. -/
theorem Graded.replace (h : c.Graded grade) (hid : c.forest.Has id)
    (hc : ∀ y ∈ n.children, c.forest.Has y ∧ grade y ≤ grade id ∧ y ≠ id) :
    ∃ grade', ((c.put id n).detach id).Graded grade' ∧
      ∀ x y, c.forest.Has x → c.forest.Has y → grade x < grade y → grade' x < grade' y := by
  obtain ⟨m, hm, hroom⟩ := exists_room_above grade c.forest.numbers (grade id)
  have order : ∀ x y, c.forest.Has x → c.forest.Has y → grade x < grade y →
      Function.update grade id m x < Function.update grade id m y := by
    intro x y hx hy hlt
    by_cases hxid : x = id
    · subst hxid
      rw [Function.update_self, Function.update_of_ne (by rintro rfl; exact lt_irrefl _ hlt)]
      exact hroom y (Forest.mem_numbers.mpr hy) hlt
    · rw [Function.update_of_ne hxid]
      by_cases hyid : y = id
      · subst hyid
        rw [Function.update_self]
        exact hlt.trans hm
      · rw [Function.update_of_ne hyid]
        exact hlt
  refine ⟨_, Graded.put (c := c.detach id) ((h.detach id).regrade order ?_)
    (fun _ => not_mem_detach)
    ?_, order⟩
  · intro g hg x hx y hy hgrade
    have hne : ∀ {z}, z ∈ g → z ≠ id := fun hz he => not_mem_detach hg (he ▸ hz)
    rw [Function.update_of_ne (hne hx), Function.update_of_ne (hne hy)]
    exact hgrade
  · intro y hy
    obtain ⟨hhas, hle, hne⟩ := hc y hy
    rw [Function.update_self, Function.update_of_ne hne]
    exact ⟨hhas, hle.trans_lt hm⟩

/-- A group is the one of a node or has nothing to do with it. -/
theorem Graded.sharers_cases (h : c.Graded grade) (id : Int) (hg : g ∈ c.shared) :
    g = c.sharers id ∨ ∀ x ∈ g, x ∉ c.sharers id := by
  unfold sharers
  cases hf : c.shared.find? (·.contains id) with
  | none =>
    refine .inr fun x hx hmem => ?_
    have hno := List.find?_eq_none.mp hf g hg
    obtain rfl : x = id := by simpa using hmem
    exact hno (by simpa using hx)
  | some g0 =>
    have hg0 := List.mem_of_find?_eq_some hf
    by_cases he : g = g0
    · exact .inl he
    · have : Std.Symm (@List.Disjoint Int) := ⟨fun _ _ hd _ hx hy => hd hy hx⟩
      exact .inr fun x hx hmem => h.apart.forall hg hg0 he hx hmem

/-- Nodes that share operands are of one grade. -/
theorem Graded.sharers_alike (h : c.Graded grade) (hn : c.forest.get? id = some n) :
    ∀ x ∈ c.sharers id, ∃ m, c.forest.get? x = some m ∧ m.args = n.args ∧ grade x = grade id := by
  intro x hx
  unfold sharers at hx
  cases hf : c.shared.find? (·.contains id) with
  | none =>
    rw [hf] at hx
    obtain rfl := List.mem_singleton.mp hx
    exact ⟨n, hn, rfl, rfl⟩
  | some g =>
    rw [hf] at hx
    have hid : id ∈ g := by simpa using List.find?_some hf
    obtain ⟨a, b, ha, hb, hab, hgrade⟩ := h.alike g (List.mem_of_find?_eq_some hf) x hx id hid
    obtain rfl : n = b := Option.mem_unique hn hb
    exact ⟨a, ha, hab, hgrade⟩

/-- All that share the operand list of a node get other operands. -/
theorem Graded.setAll (h : c.Graded grade) (hs : c'.shared = c.shared)
    (hn : c.forest.get? id = some n) (hget : ∀ x, c'.forest.get? x = if x ∈ c.sharers id
      then (c.forest.get? x).map ({ · with args := args }) else c.forest.get? x)
    (hc : ∀ y ∈ args.filterMap Operand.child?, c.forest.Has y ∧ grade y < grade id) :
    c'.Graded grade := by
  have has : ∀ {x}, c.forest.Has x → c'.forest.Has x := by
    rintro x ⟨k, hk⟩
    unfold Forest.Has
    rw [hget, hk]
    split <;> exact ⟨_, rfl⟩
  refine ⟨fun {x k} hk y hy => ?_, fun g hg x hx y hy => ?_, hs ▸ h.apart⟩
  · rw [hget] at hk
    split at hk
    · rename_i hx
      obtain ⟨m, hm, -, hgrade⟩ := h.sharers_alike hn x hx
      rw [hm] at hk
      cases hk
      rw [hgrade]
      exact ⟨has (hc y hy).1, (hc y hy).2⟩
    · exact ⟨has (h.below hk y hy).1, (h.below hk y hy).2⟩
  · rw [hs] at hg
    obtain ⟨a, b, ha, hb, hab, hgrade⟩ := h.alike g hg x hx y hy
    rcases h.sharers_cases id hg with rfl | hno
    · exact ⟨{ a with args := args }, { b with args := args }, by rw [hget, if_pos hx, ha]; rfl,
        by rw [hget, if_pos hy, hb]; rfl, rfl, hgrade⟩
    · exact ⟨a, b, by rw [hget, if_neg (hno x hx), ha], by rw [hget, if_neg (hno y hy), hb], hab,
        hgrade⟩

theorem Graded.twin (h : c.Graded grade) (hn : c.forest.get? id = some n) :
    ((c.add n).share id ((c.forest.size : Int) + 1)).Graded
      (Function.update grade ((c.forest.size : Int) + 1) (grade id)) := by
  have hadd : (c.add n).Graded _ := h.add (m := grade id) fun y hy => h.below hn y hy
  have hself : (c.add n).forest.get? id = some n := Forest.grows_push _ _ _ _ hn
  have hnew : (c.add n).forest.get? ((c.forest.size : Int) + 1) = some n :=
    Forest.get?_push_self _ _
  have hold : ∀ {x}, x ∈ c.sharers id → x ≠ (c.forest.size : Int) + 1 := by
    intro x hx
    obtain ⟨m, hm, -⟩ := h.sharers_alike hn x hx
    exact Forest.Has.ne_new ⟨m, hm⟩
  have member : ∀ x ∈ ((c.forest.size : Int) + 1) :: c.sharers id, ∃ m,
      (c.add n).forest.get? x = some m ∧ m.args = n.args ∧
        Function.update grade ((c.forest.size : Int) + 1) (grade id) x = grade id := by
    intro x hx
    rcases List.mem_cons.mp hx with rfl | hx
    · exact ⟨n, hnew, rfl, Function.update_self _ _ _⟩
    · obtain ⟨m, hm, hargs, hgrade⟩ := h.sharers_alike hn x hx
      refine ⟨m, Forest.grows_push _ _ _ _ hm, hargs, ?_⟩
      rw [Function.update_of_ne (hold hx)]
      exact hgrade
  refine ⟨hadd.below, fun g hg x hx y hy => ?_, ?_⟩
  · rcases List.mem_cons.mp hg with rfl | hg
    · obtain ⟨a, ha, haa, hga⟩ := member x hx
      obtain ⟨b, hb, hbb, hgb⟩ := member y hy
      exact ⟨a, b, ha, hb, haa.trans hbb.symm, hga.trans hgb.symm⟩
    · exact hadd.alike g (List.mem_filter.mp hg).1 x hx y hy
  · refine List.pairwise_cons.mpr ⟨fun g hg x hx hmem => ?_, h.apart.filter _⟩
    obtain ⟨hg, hno⟩ := List.mem_filter.mp hg
    rcases List.mem_cons.mp hx with rfl | hx
    · exact (h.has_of_mem hg hmem).ne_new rfl
    · rcases h.sharers_cases id hg with rfl | hapart
      · simp [PassM.mem_sharers] at hno
      · exact hapart x hmem hx

/-- The operand list of a node moves to a new list, which may then become an operand of the node:
all that are graded like the node make room. -/
theorem Graded.handOver (h : c.Graded grade) (hn : c.forest.get? id = some n) (pos : Position) :
    ∃ grade', ((c.add { tag := .list, args := n.args, pos }).handOver id
        ((c.forest.size : Int) + 1)).Graded grade' ∧
      (∀ x y, c.forest.Has x → c.forest.Has y → grade x < grade y → grade' x < grade' y) ∧
      grade' ((c.forest.size : Int) + 1) < grade' id := by
  obtain ⟨m, hm, hroom⟩ := exists_room_below grade c.forest.numbers (grade id)
  let lowered : Int → ℚ := fun x => if grade x = grade id ∧ x ≠ id then m else grade x
  have hself : lowered id = grade id := by simp [lowered]
  have small : ∀ {x}, c.forest.Has x → grade x < grade id → lowered x < m := by
    intro x hx hlt
    have hne : ¬ (grade x = grade id ∧ x ≠ id) := fun he => (he.1 ▸ hlt).false
    simp only [lowered, if_neg hne]
    exact hroom x (Forest.mem_numbers.mpr hx) hlt
  have order : ∀ x y, c.forest.Has x → c.forest.Has y → grade x < grade y →
      lowered x < lowered y := by
    intro x y hx hy hlt
    by_cases hyid : grade y = grade id
    · have hsmall := small hx (hyid ▸ hlt)
      by_cases he : y = id
      · subst he
        rw [hself]
        exact hsmall.trans hm
      · simpa only [lowered, hyid, he, ne_eq, not_false_eq_true, and_self, if_true] using hsmall
    · have hy' : lowered y = grade y := if_neg fun he => hyid he.1
      rw [hy']
      by_cases hxid : grade x = grade id ∧ x ≠ id
      · simp only [lowered, if_pos hxid]
        exact hm.trans (hxid.1 ▸ hlt)
      · simp only [lowered, if_neg hxid]
        exact hlt
  let graded : Int → ℚ := Function.update lowered ((c.forest.size : Int) + 1) m
  have old : ∀ {x}, c.forest.Has x → graded x = lowered x :=
    fun hx => Function.update_of_ne hx.ne_new _ _
  have new : graded ((c.forest.size : Int) + 1) = m := Function.update_self _ _ _
  -- only the groups of the node itself are graded anew, and there the new list stands for it
  have member : ∀ g ∈ c.shared, ∀ x ∈ g, ∀ z,
    z = (if x = id then (c.forest.size : Int) + 1 else x) →
      ∃ a k, c.forest.get? x = some a ∧
        (c.add { tag := .list, args := n.args, pos }).forest.get? z = some k ∧ k.args = a.args ∧
        graded z = if grade x = grade id then m else grade x := by
    intro g hg x hx z hz
    obtain ⟨a, ha⟩ := h.has_of_mem hg hx
    by_cases he : x = id
    · subst he
      rw [if_pos rfl] at hz
      subst hz
      obtain rfl : n = a := Option.mem_unique hn ha
      exact ⟨n, _, ha, Forest.get?_push_self _ _, rfl, by rw [new, if_pos rfl]⟩
    · rw [if_neg he] at hz
      subst hz
      refine ⟨a, a, ha, Forest.grows_push _ _ _ _ ha, rfl, ?_⟩
      rw [old ⟨a, ha⟩]
      simp [lowered, he]
  refine ⟨graded, ⟨?_, ?_, ?_⟩, ?_, ?_⟩
  · intro x k hk y hy
    rw [handOver_forest, add_forest, Forest.get?_push] at hk
    split at hk
    · rename_i hx
      cases hk
      subst hx
      obtain ⟨hhas, hlt⟩ := h.below hn y hy
      rw [new, old hhas]
      exact ⟨hhas.push _, small hhas hlt⟩
    · obtain ⟨hhas, hlt⟩ := h.below hk y hy
      rw [old hhas, old ⟨k, hk⟩]
      exact ⟨hhas.push _, order y x hhas ⟨k, hk⟩ hlt⟩
  · intro g hg z hz w hw
    obtain ⟨g0, hg0, rfl⟩ := List.mem_map.mp hg
    obtain ⟨x, hx, hzx⟩ := List.mem_map.mp hz
    obtain ⟨y, hy, hwy⟩ := List.mem_map.mp hw
    obtain ⟨a, k, ha, hk, hka, hgk⟩ := member g0 hg0 x hx z hzx.symm
    obtain ⟨b, l, hb, hl, hlb, hgl⟩ := member g0 hg0 y hy w hwy.symm
    obtain ⟨a', b', ha', hb', hab, hgrade⟩ := h.alike g0 hg0 x hx y hy
    obtain rfl : a = a' := Option.mem_unique ha ha'
    obtain rfl : b = b' := Option.mem_unique hb hb'
    exact ⟨k, l, hk, hl, by rw [hka, hlb, hab], by rw [hgk, hgl, hgrade]⟩
  · refine List.Pairwise.map _ (fun g g' hd => ?_) (List.Pairwise.and_mem.mp h.apart)
    obtain ⟨hg, hg', hd⟩ := hd
    intro z hz hz'
    obtain ⟨x, hx, rfl⟩ := List.mem_map.mp hz
    obtain ⟨y, hy, hxy⟩ := List.mem_map.mp hz'
    have hne : ∀ {g x}, g ∈ c.shared → x ∈ g → x ≠ (c.forest.size : Int) + 1 :=
      fun hg hx => (h.has_of_mem hg hx).ne_new
    have hxy : y = x := by
      have hx' := hne hg hx
      have hy' := hne hg' hy
      split at hxy <;> split at hxy <;> simp_all
    exact hd hx (hxy ▸ hy)
  · intro x y hx hy hlt
    rw [old hx, old hy]
    exact order x y hx hy hlt
  · rw [new, old ⟨n, hn⟩, hself]
    exact hm

end Context

end Lowering
