import Lowering.Context
import Lowering.Notation.Reader
import Lowering.Proofs.Operands

namespace Lowering

/-- An error that is none of the source: something is missing. -/
def PassError.IsFault : PassError → Prop
  | fault _ => True
  | _ => False

namespace Forest

/-- What is found in a forest with one more node. -/
theorem get?_push (f : Forest) (n : Node) (id : Int) :
    (f.push n).get? id = if id = (f.size : Int) + 1 then some n else f.get? id := by
  unfold get? push size
  by_cases h : 0 < id
  · simp only [if_pos h, Array.getElem?_push]
    by_cases he : id = (f.nodes.size : Int) + 1
    · rw [if_pos he, if_pos (by omega)]
    · rw [if_neg he, if_neg (by omega)]
  · rw [if_neg h, if_neg h, if_neg (by omega)]

theorem get?_push_self (f : Forest) (n : Node) :
    (f.push n).get? ((f.size : Int) + 1) = some n := by rw [get?_push, if_pos rfl]

theorem get?_set (f : Forest) (id : Int) (n : Node) (x : Int) :
    (f.set id n).get? x = if x = id then (f.get? id).map fun _ => n else f.get? x := by
  unfold set
  by_cases h : 0 < id
  · rw [if_pos h]
    unfold get?
    by_cases hx : x = id
    · subst hx
      simp only [if_pos h, if_true, Array.getElem?_setIfInBounds]
      by_cases hs : x.toNat - 1 < f.nodes.size
      · simp [hs]
      · simp [hs]
    · simp only [if_neg hx, Array.getElem?_setIfInBounds]
      by_cases hp : 0 < x
      · rw [if_pos hp, if_pos hp, if_neg (by omega)]
      · rw [if_neg hp, if_neg hp]
  · rw [if_neg h]
    by_cases hx : x = id
    · subst hx
      simp [get?, h]
    · rw [if_neg hx]

theorem get?_eq_some_bounds {f : Forest} {id : Int} {n : Node} (h : f.get? id = some n) :
    0 < id ∧ id ≤ f.size := by
  have hv : f.isValid id = true := (isValid_iff_get? f id).mpr ⟨n, h⟩
  simpa [isValid] using hv

theorem get?_of_bounds {f : Forest} {id : Int} (hl : 0 < id) (hu : id ≤ f.size) :
    ∃ n, f.get? id = some n :=
  (isValid_iff_get? f id).mp (by simp [isValid, hl, hu])

theorem size_le_of_get? {f f' : Forest}
    (h : ∀ x n, f.get? x = some n → ∃ n', f'.get? x = some n') : f.size ≤ f'.size := by
  by_cases hz : f.size = 0
  · omega
  · have hlast : ∃ n, f.get? f.size = some n := get?_of_bounds (by omega) (Int.le_refl _)
    obtain ⟨n, hn⟩ := hlast
    obtain ⟨n', hn'⟩ := h _ n hn
    have := (get?_eq_some_bounds hn').2
    omega

theorem set_self {f : Forest} {id : Int} {n : Node} (h : f.get? id = some n) : f.set id n = f := by
  obtain ⟨hl, hu⟩ := get?_eq_some_bounds h
  unfold get? at h
  rw [if_pos hl] at h
  obtain ⟨hlt, he⟩ := Array.getElem?_eq_some_iff.mp h
  unfold set
  rw [if_pos hl, ← he]
  change (⟨_⟩ : Forest) = ⟨f.nodes⟩
  congr 1
  apply Array.ext
  · exact Array.size_setIfInBounds
  · intro i hi hi'
    rw [Array.getElem_setIfInBounds hi']
    split
    · rename_i heq
      subst heq
      rfl
    · rfl

theorem set_push_self (f : Forest) (n m : Node) :
    (f.push n).set ((f.size : Int) + 1) m = f.push m := by
  have hindex : ((f.size : Int) + 1).toNat - 1 = f.nodes.size := by
    simp only [size]
    omega
  unfold set push
  rw [if_pos (by omega), hindex]
  congr 1
  refine Array.ext (by simp) fun i hi hi' => ?_
  rw [Array.getElem_setIfInBounds (by simpa using hi)]
  split
  · rename_i h
    subst h
    simp
  · rename_i h
    simp only [Array.size_push] at hi'
    rw [Array.getElem_push_lt (by omega), Array.getElem_push_lt (by omega)]

theorem get_eq_ok {f : Forest} {id : Int} {n : Node} : f.get id = .ok n ↔ f.get? id = some n := by
  unfold get
  cases h : f.get? id <;> simp

theorem replace_eq_ok {f f' : Forest} {id src : Int} : f.replace id src = .ok f' ↔
    ∃ old new, f.get? id = some old ∧ f.get? src = some new ∧ f' = f.set id { new with
      pos := if new.pos = Position.unknown then old.pos else new.pos
      notes := if id = src then {} else new.notes } := by
  unfold replace get
  cases f.get? id <;> cases f.get? src <;> simp [bind, Except.bind, pure, Except.pure, eq_comm]

end Forest

variable {ε σ α β : Type}

/-- A sequence succeeds if both steps do. -/
theorem bind_ok {x : EStateM ε σ α} :
    (x >>= g) s = .ok b s' ↔ ∃ a t, x s = .ok a t ∧ g a t = .ok b s' := by
  change EStateM.bind x g s = .ok b s' ↔ _
  unfold EStateM.bind
  cases x s with
  | ok a t =>
    constructor
    · intro h
      exact ⟨a, t, rfl, h⟩
    · rintro ⟨a', t', h, h'⟩
      cases h
      exact h'
  | error e t => simp

/-- A failing computation fails in its first step or after it. -/
theorem bind_error {x : EStateM ε σ α} : (x >>= g) s = .error e s' ↔ x s = .error e s' ∨
      ∃ a t, x s = .ok a t ∧ g a t = .error e s' := by
  change EStateM.bind x g s = .error e s' ↔ _
  unfold EStateM.bind
  cases x s with
  | ok a t =>
    constructor
    · intro h
      exact .inr ⟨a, t, rfl, h⟩
    · rintro (h | ⟨a', t', h, h'⟩)
      · cases h
      · cases h
        exact h'
  | error e t => simp

theorem pure_error : ¬ (pure a : EStateM ε σ α) s = .error e s' := nofun

theorem pure_ok : (pure a : EStateM ε σ α) s = .ok b s' ↔ a = b ∧ s = s' := by
  change EStateM.Result.ok a s = .ok b s' ↔ _
  simp

theorem map_ok {x : EStateM ε σ α} : (g <$> x) s = .ok b s' ↔ ∃ a, x s = .ok a s' ∧ g a = b := by
  change EStateM.map g x s = .ok b s' ↔ _
  unfold EStateM.map
  cases x s with
  | ok a t =>
    simp only [EStateM.Result.ok.injEq]
    constructor
    · rintro ⟨h, rfl⟩
      exact ⟨a, ⟨rfl, rfl⟩, h⟩
    · rintro ⟨a', ⟨rfl, rfl⟩, h⟩
      exact ⟨h, rfl⟩
  | error e t => simp

theorem bind_pure_ok {x : EStateM ε σ α} {k : α → β} :
    (x >>= fun a => pure (k a)) s = .ok b s' ↔ ∃ a, x s = .ok a s' ∧ k a = b := by
  rw [bind_pure_comp, map_ok]

theorem get_ok : (get : EStateM ε σ σ) s = .ok a s' ↔ s = a ∧ s = s' := by
  change EStateM.Result.ok s s = .ok a s' ↔ _
  simp

theorem get_bind_ok {g : σ → EStateM ε σ β} : (get >>= g) s = .ok b s' ↔ g s s = .ok b s' := Iff.rfl

theorem set_ok : (set t : EStateM ε σ PUnit) s = .ok u s' ↔ s' = t := by
  change EStateM.Result.ok ⟨⟩ t = .ok u s' ↔ _
  simp [eq_comm]

theorem modify_ok : (modify g : EStateM ε σ PUnit) s = .ok u s' ↔ s' = g s := by
  change EStateM.Result.ok ⟨⟩ (g s) = .ok u s' ↔ _
  simp [eq_comm]

theorem throw_ok : ¬ (throw e : EStateM ε σ α) s = .ok a s' := by
  change ¬ EStateM.Result.error e s = .ok a s'
  simp

theorem discard_ok {x : EStateM ε σ α} : (discard x) s = .ok u s' ↔ ∃ a, x s = .ok a s' := by
  change ((fun _ => PUnit.unit) <$> x) s = .ok u s' ↔ _
  rw [map_ok]
  exact ⟨fun ⟨a, h, _⟩ => ⟨a, h⟩, fun ⟨a, h⟩ => ⟨a, h, rfl⟩⟩

theorem discard_error {x : EStateM ε σ α} : (discard x) s = .error e s' ↔ x s = .error e s' := by
  change EStateM.map (Function.const α PUnit.unit) x s = _ ↔ _
  unfold EStateM.map
  cases x s <;> simp

theorem mapM_cons_ok {g : α → EStateM ε σ β} : ((a :: as).mapM g) s = .ok bs s' ↔
      ∃ b t bs', g a s = .ok b t ∧ as.mapM g t = .ok bs' s' ∧ bs = b :: bs' := by
  simp only [List.mapM_cons, bind_ok, pure_ok]
  constructor
  · rintro ⟨b, t, hb, bs', t', hbs, he, rfl⟩
    exact ⟨b, t, bs', hb, hbs, he.symm⟩
  · rintro ⟨b, t, bs', hb, hbs, he⟩
    exact ⟨b, t, hb, bs', s', hbs, he.symm, rfl⟩

theorem forM_cons_ok {g : α → EStateM ε σ PUnit} :
    ((a :: as).forM g) s = .ok u s' ↔ ∃ t, g a s = .ok ⟨⟩ t ∧ as.forM g t = .ok ⟨⟩ s' := by
  simp only [List.forM_eq_forM, List.forM_cons, bind_ok]
  constructor
  · rintro ⟨_, t, h, h'⟩
    exact ⟨t, h, h'⟩
  · rintro ⟨t, h, h'⟩
    exact ⟨⟨⟩, t, h, h'⟩

theorem forM_append_ok {g : α → EStateM ε σ PUnit} {as bs : List α} {s s' : σ} {u : PUnit} :
    ((as ++ bs).forM g) s = .ok u s' ↔ ∃ t, as.forM g s = .ok ⟨⟩ t ∧ bs.forM g t = .ok ⟨⟩ s' := by
  induction as generalizing s with
  | nil =>
    refine ⟨fun h => ⟨s, rfl, h⟩, ?_⟩
    rintro ⟨t, hnil, h⟩
    obtain ⟨-, rfl⟩ := pure_ok.mp hnil
    exact h
  | cons a as ih =>
    simp only [List.cons_append, forM_cons_ok, ih]
    constructor
    · rintro ⟨t, ha, t', has, hbs⟩
      exact ⟨t', ⟨t, ha, has⟩, hbs⟩
    · rintro ⟨t', ⟨t, ha, has⟩, hbs⟩
      exact ⟨t, ha, t', has, hbs⟩

/-- Whether a run has a result. -/
def succeeds : EStateM.Result ε σ α → Bool
  | .ok _ _ => true
  | .error _ _ => false

theorem exists_ok (h : succeeds r = true) : ∃ a s, r = .ok a s := by
  cases r with
  | ok a s => exact ⟨a, s, rfl⟩
  | error e s => cases h

/-- Whether a source is read, a run on it comes to its end, and the state it leaves passes a
test. -/
def testRun (file source : Text) (act : Forest → Int → EStateM.Result ε σ α)
    (test : Forest → Int → σ → Bool) : Bool :=
  match Forest.parse file source with
  | .ok (f, root) =>
    match act f root with
    | .ok _ s => test f root s
    | .error _ _ => false
  | .error _ => false

/-- What a test of a run shows. -/
theorem of_testRun {test : Forest → Int → σ → Bool} (h : testRun file source act test = true) :
    ∃ f root a s, Forest.parse file source = .ok (f, root) ∧ act f root = .ok a s ∧
      test f root s = true := by
  unfold testRun at h
  split at h
  · rename_i f root hparse
    split at h
    · exact ⟨f, root, _, _, hparse, ‹_›, h⟩
    · cases h
  · cases h

namespace Context

/-- A state with one more node. -/
def add (c : Context) (n : Node) : Context := { c with forest := c.forest.push n }

/-- A state with another node in place of one. -/
def put (c : Context) (id : Int) (n : Node) : Context := { c with forest := c.forest.set id n }

@[simp] theorem add_forest (c : Context) (n : Node) : (c.add n).forest = c.forest.push n := rfl
@[simp] theorem add_shared (c : Context) (n : Node) : (c.add n).shared = c.shared := rfl
@[simp] theorem put_forest (c : Context) (id : Int) (n : Node) :
    (c.put id n).forest = c.forest.set id n := rfl
@[simp] theorem put_shared (c : Context) (id : Int) (n : Node) :
    (c.put id n).shared = c.shared := rfl
@[simp] theorem detach_forest (c : Context) (id : Int) : (c.detach id).forest = c.forest := rfl
@[simp] theorem handOver_forest (c : Context) (id new : Int) :
    (c.handOver id new).forest = c.forest := rfl
@[simp] theorem share_forest (c : Context) (id new : Int) :
    (c.share id new).forest = c.forest := rfl

theorem detach_of_unshared {c : Context} (h : c.shared = []) (id : Int) : c.detach id = c := by
  cases c
  simp_all [detach]

theorem handOver_of_unshared {c : Context} (h : c.shared = []) (id new : Int) :
    c.handOver id new = c := by
  cases c
  simp_all [handOver]

theorem sharers_of_unshared {c : Context} (h : c.shared = []) (id : Int) :
    c.sharers id = [id] := by
  simp [sharers, h]

end Context

namespace PassM

variable {c c' : Context} {id : Int} {n : Node} {v : Operand} {tag : Tag} {pos : Position}
variable {args : List Operand} {u : Unit}

theorem fetch_eq : fetch id c = match c.forest.get? id with
    | some n => .ok n c
    | none => .error (.fault (.invalidNode id)) c := by
  change (match c.forest.get? id with
    | some n => pure n
    | none => throw (.fault (.invalidNode id)) : PassM Node) c = _
  cases c.forest.get? id <;> rfl

/-- Fetching a node succeeds if it is there, and changes nothing. -/
theorem fetch_ok : fetch id c = .ok n c' ↔ c.forest.get? id = some n ∧ c = c' := by
  rw [fetch_eq]
  cases c.forest.get? id <;> simp

theorem fetch_bind_ok {g : Node → PassM β} : (fetch id >>= g) c = .ok b c' ↔
    ∃ n, c.forest.get? id = some n ∧ g n c = .ok b c' := by
  simp [bind_ok, fetch_ok, and_assoc]

theorem fetch_error (h : fetch id c = .error e c') : e = .fault (.invalidNode id) := by
  rw [fetch_eq] at h
  cases hn : c.forest.get? id <;> rw [hn] at h <;> cases h
  rfl

theorem operandAt_ok : operandAt n i c = .ok v c' ↔ i < n.args.length ∧ n.arg i = v ∧ c = c' := by
  unfold operandAt Node.arg
  by_cases hi : i < n.args.length
  · rw [List.getElem?_eq_getElem hi]
    simp [pure_ok, hi]
  · rw [List.getElem?_eq_none (by omega)]
    simp [throw_ok, hi]

theorem operandAt_bind_ok {g : Operand → PassM β} : (operandAt n i >>= g) c = .ok b c' ↔
    i < n.args.length ∧ g (n.arg i) c = .ok b c' := by
  simp [bind_ok, operandAt_ok, and_assoc]

theorem query_ok : query ask c = .ok a c' ↔ ask c.forest = .ok a ∧ c = c' := by
  unfold query
  rw [bind_ok]
  constructor
  · rintro ⟨d, t, hg, h⟩
    obtain ⟨rfl, rfl⟩ := get_ok.mp hg
    cases hn : ask c.forest with
    | error e =>
      rw [hn] at h
      exact absurd h throw_ok
    | ok b =>
      rw [hn] at h
      obtain ⟨rfl, rfl⟩ := pure_ok.mp h
      exact ⟨rfl, rfl⟩
  · rintro ⟨hn, rfl⟩
    refine ⟨c, c, get_ok.mpr ⟨rfl, rfl⟩, ?_⟩
    rw [hn]
    exact pure_ok.mpr ⟨rfl, rfl⟩

theorem query_bind_ok {g : α → PassM β} : (query ask >>= g) c = .ok b c' ↔
    ∃ a, ask c.forest = .ok a ∧ g a c = .ok b c' := by
  simp [bind_ok, query_ok, and_assoc]

/-- A new node has the next number. -/
theorem alloc_ok : alloc tag pos args c = .ok id c' ↔
    id = (c.forest.size : Int) + 1 ∧ c' = c.add { tag, args, pos } := by
  unfold alloc
  simp only [bind_ok, modify_ok, get_ok, pure_ok]
  constructor
  · rintro ⟨_, d, rfl, _, _, ⟨rfl, rfl⟩, h, rfl⟩
    exact ⟨by simpa using h.symm, rfl⟩
  · rintro ⟨rfl, rfl⟩
    exact ⟨⟨⟩, _, rfl, _, _, ⟨rfl, rfl⟩, by simp, rfl⟩

theorem node_ok : node tag pos args c = .ok v c' ↔
    v = .ref ((c.forest.size : Int) + 1) ∧ c' = c.add { tag, args, pos } := by
  unfold node
  simp only [bind_ok, alloc_ok, pure_ok]
  constructor
  · rintro ⟨i, d, ⟨rfl, rfl⟩, rfl, rfl⟩
    exact ⟨rfl, rfl⟩
  · rintro ⟨rfl, rfl⟩
    exact ⟨_, _, ⟨rfl, rfl⟩, rfl, rfl⟩

theorem list_ok : list pos args c = .ok v c' ↔
    v = .ref ((c.forest.size : Int) + 1) ∧ c' = c.add { tag := .list, args, pos } := node_ok

theorem sexpCall_ok : sexpCall pos function args c = .ok v c' ↔
    v = .ref ((c.forest.size : Int) + 2) ∧
      c' = (c.add { tag := .call, args := .sym function :: args, pos }).add
        { tag := .sexp, args := [.ref ((c.forest.size : Int) + 1)], pos } := by
  have hsize (n : Node) : ((c.add n).forest.size : Int) + 1 = (c.forest.size : Int) + 2 := by
    simp only [Context.add_forest, Forest.size_push]
    omega
  unfold sexpCall
  simp only [bind_ok, node_ok]
  constructor
  · rintro ⟨_, d, ⟨rfl, rfl⟩, rfl, rfl⟩
    exact ⟨by rw [hsize], rfl⟩
  · rintro ⟨rfl, rfl⟩
    exact ⟨_, _, ⟨rfl, rfl⟩, by rw [hsize], rfl⟩

/-- A change of a node succeeds if it is there. -/
theorem update_ok : update id change c = .ok u c' ↔
    ∃ n, c.forest.get? id = some n ∧ c' = c.put id (change n) := by
  unfold update
  simp only [bind_ok, fetch_ok, modify_ok]
  constructor
  · rintro ⟨n, d, ⟨h, rfl⟩, rfl⟩
    exact ⟨n, h, rfl⟩
  · rintro ⟨n, h, rfl⟩
    exact ⟨n, c, ⟨h, rfl⟩, rfl⟩

/-- A node that is given another form shares its operands no more. -/
theorem reshape_ok : reshape id tag args c = .ok u c' ↔
    ∃ n, c.forest.get? id = some n ∧ c' = (c.put id (n.reshape tag args)).detach id := by
  unfold reshape
  simp only [bind_ok, update_ok, modify_ok]
  constructor
  · rintro ⟨_, d, ⟨n, h, rfl⟩, rfl⟩
    exact ⟨n, h, rfl⟩
  · rintro ⟨n, h, rfl⟩
    exact ⟨⟨⟩, _, ⟨n, h, rfl⟩, rfl⟩

theorem reshape_unshared (hs : c.shared = []) (hn : c.forest.get? id = some n)
    (h : reshape id tag args c = .ok u c') : c' = c.put id (n.reshape tag args) := by
  obtain ⟨m, hm, rfl⟩ := reshape_ok.mp h
  obtain rfl := Option.mem_unique hn hm
  exact Context.detach_of_unshared (by simpa using hs) id

theorem renewArgs_ok : renewArgs id args c = .ok u c' ↔
    ∃ n, c.forest.get? id = some n ∧ c' = (c.put id { n with args }).detach id := by
  unfold renewArgs
  simp only [bind_ok, update_ok, modify_ok]
  constructor
  · rintro ⟨_, d, ⟨n, h, rfl⟩, rfl⟩
    exact ⟨n, h, rfl⟩
  · rintro ⟨n, h, rfl⟩
    exact ⟨⟨⟩, _, ⟨n, h, rfl⟩, rfl⟩

/-- In a state without shared operand lists, only the node itself gets the operands. -/
theorem setArgs_ok (hs : c.shared = []) : setArgs id args c = .ok u c' ↔
    ∃ n, c.forest.get? id = some n ∧ c' = c.put id { n with args } := by
  unfold setArgs
  simp only [bind_ok, get_ok]
  constructor
  · rintro ⟨_, _, ⟨rfl, rfl⟩, h⟩
    rw [Context.sharers_of_unshared hs, forM_cons_ok] at h
    obtain ⟨t, h, h'⟩ := h
    obtain ⟨n, hn, rfl⟩ := update_ok.mp h
    obtain ⟨-, rfl⟩ := pure_ok.mp h'
    exact ⟨n, hn, rfl⟩
  · rintro ⟨n, h, rfl⟩
    refine ⟨c, c, ⟨rfl, rfl⟩, ?_⟩
    rw [Context.sharers_of_unshared hs, forM_cons_ok]
    exact ⟨_, update_ok.mpr ⟨n, h, rfl⟩, rfl⟩

theorem mem_sharers (c : Context) (id : Int) : id ∈ c.sharers id := by
  unfold Context.sharers
  cases h : c.shared.find? (·.contains id) with
  | none => simp
  | some g => simpa using List.find?_some h

/-- With shared operand lists, all that share the list of the node get the operands. -/
theorem setArgs_frame (h : setArgs id args c = .ok u c') :
    c'.shared = c.shared ∧ (∀ x ∈ c.sharers id, ∃ n, c.forest.get? x = some n) ∧
      ∀ x, c'.forest.get? x = if x ∈ c.sharers id
        then (c.forest.get? x).map ({ · with args := args }) else c.forest.get? x := by
  have each : ∀ (l : List Int) {c c' : Context} {u : Unit},
      l.forM (fun other => update other ({ · with args := args })) c = .ok u c' →
      c'.shared = c.shared ∧ (∀ x ∈ l, ∃ n, c.forest.get? x = some n) ∧
        ∀ x, c'.forest.get? x = if x ∈ l
          then (c.forest.get? x).map ({ · with args := args }) else c.forest.get? x := by
    intro l
    induction l with
    | nil =>
      intro c c' u h
      obtain ⟨-, rfl⟩ := pure_ok.mp h
      simp
    | cons y l ih =>
      intro c c' u h
      obtain ⟨d, hy, h⟩ := forM_cons_ok.mp h
      obtain ⟨n, hn, rfl⟩ := update_ok.mp hy
      obtain ⟨hs, hex, hget⟩ := ih h
      refine ⟨hs, List.forall_mem_cons.mpr ⟨⟨n, hn⟩, fun x hx => ?_⟩, fun x => ?_⟩
      · obtain ⟨m, hm⟩ := hex x hx
        rw [Context.put_forest, Forest.get?_set] at hm
        split at hm
        · exact ⟨n, by simp_all⟩
        · exact ⟨m, hm⟩
      · rw [hget, Context.put_forest, Forest.get?_set]
        by_cases hx : x = y
        · subst hx
          by_cases hl : x ∈ l <;> simp [hn, hl]
        · by_cases hl : x ∈ l <;> simp [hx, hl]
  unfold setArgs at h
  obtain ⟨_, _, hget, h⟩ := bind_ok.mp h
  obtain ⟨rfl, rfl⟩ := get_ok.mp hget
  exact each _ h

theorem setArgs_aside (h : setArgs id args c = .ok u c') : ∃ f, c' = { c with forest := f } := by
  unfold setArgs at h
  obtain ⟨_, _, hget, h⟩ := bind_ok.mp h
  obtain ⟨rfl, rfl⟩ := get_ok.mp hget
  suffices ∀ (ids : List Int) (d : Context), (∃ f, d = { c with forest := f }) →
      ids.forM (fun other => update other ({ · with args })) d = .ok u c' →
      ∃ f, c' = { c with forest := f } from this _ c ⟨c.forest, rfl⟩ h
  intro ids
  induction ids with
  | nil =>
    intro d hd h
    obtain ⟨-, rfl⟩ := pure_ok.mp h
    exact hd
  | cons other ids ih =>
    intro d hd h
    obtain ⟨d', hupdate, h⟩ := forM_cons_ok.mp h
    obtain ⟨n, -, rfl⟩ := update_ok.mp hupdate
    obtain ⟨f, rfl⟩ := hd
    exact ih _ ⟨_, rfl⟩ h

theorem replace_ok : replace id src c = .ok u c' ↔
    ∃ old new, c.forest.get? id = some old ∧ c.forest.get? src = some new ∧
      c' = (c.put id { new with
        pos := if new.pos = Position.unknown then old.pos else new.pos
        notes := if id = src then {} else new.notes }).detach id := by
  unfold replace setForest
  simp only [bind_ok, query_ok, modify_ok, Forest.replace_eq_ok]
  constructor
  · rintro ⟨f, _, ⟨⟨old, new, ho, hn, rfl⟩, rfl⟩, _, _, rfl, rfl⟩
    exact ⟨old, new, ho, hn, rfl⟩
  · rintro ⟨old, new, ho, hn, rfl⟩
    exact ⟨_, c, ⟨⟨old, new, ho, hn, rfl⟩, rfl⟩, ⟨⟩, _, rfl, rfl⟩

theorem twin_ok : twin id n c = .ok new c' ↔
    new = (c.forest.size : Int) + 1 ∧ c' = (c.add n).share id ((c.forest.size : Int) + 1) := by
  have added : ((c.add { tag := n.tag, args := n.args, pos := n.pos }).put
      ((c.forest.size : Int) + 1) n) = c.add n := by
    simp only [Context.put, Context.add, Forest.set_push_self]
  unfold twin
  simp only [bind_ok, alloc_ok, update_ok, modify_ok, pure_ok]
  constructor
  · rintro ⟨_, _, ⟨rfl, rfl⟩, _, _, ⟨m, hm, rfl⟩, _, _, rfl, rfl, rfl⟩
    rw [Context.add_forest, Forest.get?_push_self] at hm
    cases hm
    exact ⟨rfl, by rw [added]⟩
  · rintro ⟨rfl, rfl⟩
    refine ⟨_, _, ⟨rfl, rfl⟩, ⟨⟩, c.add n, ⟨_, Forest.get?_push_self _ _, ?_⟩, ⟨⟩, _, rfl, rfl, rfl⟩
    exact added.symm

theorem moveArgs_ok : moveArgs id n c = .ok v c' ↔
    v = .ref ((c.forest.size : Int) + 1) ∧
      c' = (c.add { tag := .list, args := n.args, pos := n.pos }).handOver id
        ((c.forest.size : Int) + 1) := by
  unfold moveArgs
  simp only [bind_ok, alloc_ok, modify_ok, pure_ok]
  constructor
  · rintro ⟨_, d, ⟨rfl, rfl⟩, _, _, rfl, rfl, rfl⟩
    exact ⟨rfl, rfl⟩
  · rintro ⟨rfl, rfl⟩
    exact ⟨_, _, ⟨rfl, rfl⟩, ⟨⟩, _, rfl, rfl, rfl⟩

theorem moveArgs_unshared (hs : c.shared = []) : moveArgs id n c = .ok v c' ↔
    v = .ref ((c.forest.size : Int) + 1) ∧
      c' = c.add { tag := .list, args := n.args, pos := n.pos } := by
  rw [moveArgs_ok, Context.handOver_of_unshared (by simpa using hs)]

/-- A check succeeds on nodes that are well-formed. -/
theorem check_ok : check n c = .ok u c' ↔ n.malformed? = none ∧ c = c' := by
  unfold check
  cases h : n.malformed? with
  | none =>
    constructor
    · intro h'
      obtain ⟨-, rfl⟩ := pure_ok.mp h'
      exact ⟨rfl, rfl⟩
    · rintro ⟨-, rfl⟩
      rfl
  | some d => simp [throw_ok]

theorem check_bind_ok {g : Unit → PassM β} : (check n >>= g) c = .ok b c' ↔
    n.malformed? = none ∧ g () c = .ok b c' := by
  simp only [bind_ok, check_ok]
  exact ⟨fun ⟨_, _, ⟨hm, rfl⟩, h⟩ => ⟨hm, h⟩, fun ⟨hm, h⟩ => ⟨(), c, ⟨hm, rfl⟩, h⟩⟩

theorem reject_ok : ¬ reject n complaint c = .ok a c' := throw_ok

theorem newLabel_ok (h : newLabel c = .ok label c') :
    c'.forest = c.forest ∧ c'.shared = c.shared := by
  simp only [newLabel, bind_ok, get_ok, set_ok, pure_ok] at h
  obtain ⟨_, _, ⟨rfl, rfl⟩, _, _, rfl, rfl, rfl⟩ := h
  exact ⟨rfl, rfl⟩

theorem intern_ok (h : intern value c = .ok label c') :
    c'.forest = c.forest ∧ c'.shared = c.shared := by
  unfold intern at h
  obtain ⟨d, t, hg, h⟩ := bind_ok.mp h
  obtain ⟨rfl, rfl⟩ := get_ok.mp hg
  cases hl : c.literals.labelOf? value with
  | some l =>
    rw [hl] at h
    obtain ⟨rfl, rfl⟩ := pure_ok.mp h
    exact ⟨rfl, rfl⟩
  | none =>
    rw [hl] at h
    simp only [bind_ok, modify_ok, pure_ok] at h
    obtain ⟨l, d, hnew, _, _, rfl, rfl, rfl⟩ := h
    exact ⟨(newLabel_ok hnew).1, (newLabel_ok hnew).2⟩

end PassM

end Lowering
