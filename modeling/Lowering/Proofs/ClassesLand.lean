import Lowering.Proofs.ClassTrees
import Lowering.Proofs.PassesLand

namespace Lowering.Pass.ClassScopes

open Forest PassM

variable {c d : Context} {grade grade1 : Survey} {id : Int} {n : Node} {v : Operand} {k : Nat}
  {args : List Operand}

/-- No descent from a node takes more than `k` levels, operands that are no nodes included. A call
may still become definitions, which go four levels down. -/
def Shallow (f : Forest) : Nat → Int → Prop
  | 0, _ => False
  | k + 1, id => 1 ≤ k ∧ ∀ n, f.get? id = some n →
    (n.tag = .call → 4 ≤ k) ∧ ∀ y ∈ n.children, Shallow f k y

theorem Shallow.le (h : Shallow f k id) (hk : k ≤ j) : Shallow f j id := by
  induction k generalizing j id with
  | zero => exact h.elim
  | succ k ih =>
    obtain ⟨j, rfl⟩ : ∃ i, j = i + 1 := ⟨j - 1, by omega⟩
    refine ⟨by have := h.1; omega, fun n hn => ⟨fun ht => ?_, fun y hy => ?_⟩⟩
    · have := (h.2 n hn).1 ht
      omega
    · exact ih ((h.2 n hn).2 y hy) (by omega)

/-- A budget bounds the levels below a node. -/
theorem shallow_of_budget (hf : f.Acyclic) (hid : f.Has id) (hv : f.Valid) (hk : f.budget id ≤ k) :
    Shallow f k id := by
  induction k generalizing id with
  | zero =>
    obtain ⟨n, hn⟩ := hid
    have := growth_le_budget hn
    unfold growth at this
    omega
  | succ k ih =>
    obtain ⟨m, hm⟩ := hid
    have hgrowth := growth_le_budget hm
    unfold growth at hgrowth
    refine ⟨by omega, fun n hn => ⟨fun _ => ?_, fun y hy => ?_⟩⟩
    · omega
    · have := budget_child hf hn hy
      unfold growth at this
      exact ih (hv id n hn y hy) (by omega)

/-- Nothing gets deeper, and no operands come to be shared. -/
structure KeepsShallow (c d : Context) : Prop where
  levels : ∀ x, c.forest.Has x → d.forest.Has x ∧ ∀ k, Shallow c.forest k x → Shallow d.forest k x
  unshared : c.shared = [] → d.shared = []

theorem KeepsShallow.refl (c : Context) : KeepsShallow c c :=
  ⟨fun _ hx => ⟨hx, fun _ h => h⟩, fun h => h⟩

theorem KeepsShallow.trans (h : KeepsShallow c d) (h' : KeepsShallow d e) : KeepsShallow c e where
  levels x hx := ⟨(h'.levels x (h.levels x hx).1).1, fun k hk =>
    (h'.levels x (h.levels x hx).1).2 k ((h.levels x hx).2 k hk)⟩
  unshared hs := h'.unshared (h.unshared hs)

theorem keepsShallow_of_eq (h : d.forest = c.forest ∧ d.shared = c.shared) : KeepsShallow c d :=
  ⟨fun x hx => by rw [h.1]; exact ⟨hx, fun _ h => h⟩, fun hs => h.2.trans hs⟩

theorem keepsShallow_add (hc : c.Surveyed grade) (n : Node) : KeepsShallow c (c.add n) := by
  refine ⟨fun x hx => ⟨hx.push n, fun k hk => ?_⟩, fun hs => hs⟩
  induction k generalizing x with
  | zero => exact hk
  | succ k ih =>
    refine ⟨hk.1, fun m hm => ?_⟩
    rw [Context.add_forest, get?_push, if_neg hx.ne_new] at hm
    obtain ⟨hcall, hch⟩ := hk.2 m hm
    exact ⟨hcall, fun y hy => ih y (hc.below hm y hy).1 (hch y hy)⟩

theorem keepsShallow_reshape (hc : c.Surveyed grade) (hn : c.forest.get? id = some n)
    (ht : n.tag = .call)
    (hm : m.tag ≠ .call) (hch : ∀ y ∈ m.children, c.forest.Has y ∧ Shallow c.forest 4 y) :
    KeepsShallow c ((c.put id m).detach id) := by
  refine ⟨fun x hx => ⟨hx.set m, fun k hk => ?_⟩,
    fun hs => by simp [Context.detach_of_unshared, hs]⟩
  induction k generalizing x with
  | zero => exact hk
  | succ k ih =>
    refine ⟨hk.1, fun a ha => ?_⟩
    rw [Context.detach_forest, Context.put_forest, get?_set] at ha
    split at ha
    · rename_i he
      subst he
      obtain ⟨-, -, rfl⟩ := Option.map_eq_some_iff.mp ha
      have hdeep := (hk.2 n hn).1 ht
      refine ⟨fun h => absurd h hm, fun y hy => ih y (hch y hy).1 ((hch y hy).2.le hdeep)⟩
    · obtain ⟨hcall, hch⟩ := hk.2 a ha
      exact ⟨hcall, fun y hy => ih y (hc.below ha y hy).1 (hch y hy)⟩

/-- An operand that may be put below a node, with a bound on the levels below it. -/
structure Flat (c : Context) (grade : Survey) (id : Int) (k : Nat) (v : Operand) : Prop where
  under : Under c grade id v
  shallow : ∀ y, v.child? = some y → Shallow c.forest k y

theorem flat_sym (hid : c.forest.Has id) (name : Text) : Flat c grade id k (.sym name) :=
  ⟨under_sym hid name, nofun⟩

theorem Flat.later (h : Flat c grade id k v) (ho : Onward .notes c grade d grade1)
    (hk : KeepsShallow c d) : Flat d grade1 id k v :=
  ⟨h.under.onward ho, fun y hy => (hk.levels y (h.under.below y hy).1).2 k (h.shallow y hy)⟩

/-- A new node over flat operands is flat. -/
theorem lands_flat (hc : c.Surveyed grade) (hid : c.forest.Has id) (ht : tag ≠ .call) (hk : 1 ≤ k)
    (hargs : ∀ a ∈ args, Flat c grade id k a) :
    Lands .notes (node tag pos args) c grade fun v d grade1 =>
      KeepsShallow c d ∧ Flat d grade1 id (k + 1) v := by
  refine (lands_node hc hid fun a ha => (hargs a ha).under).mono fun v d grade1 hrun ho hu => ?_
  obtain ⟨rfl, rfl⟩ := node_ok.mp hrun
  have keeps := keepsShallow_add hc { tag, args, pos }
  refine ⟨keeps, hu, fun y hy => ?_⟩
  rw [Operand.child?_ref] at hy
  cases hy
  refine ⟨hk, fun m hm => ?_⟩
  rw [Context.add_forest, get?_push_self] at hm
  cases hm
  refine ⟨fun h => absurd h ht, fun y hy => ?_⟩
  obtain ⟨a, ha, hay⟩ := List.mem_filterMap.mp hy
  exact (keeps.levels y ((hargs a ha).under.below y hay).1).2 k ((hargs a ha).shallow y hay)

theorem lands_changeTable (hc : c.Surveyed grade) :
    Lands .notes (changeTable change) c grade fun _ d _ => KeepsShallow c d :=
  (lands_aside (a := ⟨⟩) (d := { c with classes := change c.classes }) hc rfl ⟨rfl, rfl⟩
    hc.toRecorded (.same ⟨rfl, rfl, rfl, rfl⟩)).mono fun _ _ _ h _ _ =>
    keepsShallow_of_eq (changeTable_ok h)

theorem lands_openClass {name super : Text} (hc : c.Surveyed grade) :
    Lands .notes (openClass kind name scope super) c grade fun _ d _ => KeepsShallow c d := by
  refine .after_get ?_
  split
  · exact lands_changeTable hc
  · rename_i hends
    exact lands_throw hc (.inr ⟨rfl, fun hrooted => hends (hrooted.findsSuper _ _)⟩)

theorem lands_defineReader {name : Text} (hc : c.Surveyed grade) (hid : c.forest.Has id) :
    Lands .notes (defineReader scope pos name) c grade fun v d grade1 =>
      KeepsShallow c d ∧ Flat d grade1 id 4 v := by
  refine (lands_changeTable hc).bind fun _ d1 grade1 _ ho1 k1 => ?_
  refine (lands_flat (k := 2) ho1.graded (ho1.kept id hid) (by simp) (by omega) (by simp)).bind
    fun params d2 grade2 _ ho2 ⟨k2, hparams⟩ => ?_
  have hid2 := hparams.under.place
  refine (lands_flat (k := 2) ho2.graded hid2 (by simp) (by omega)
    (by simpa using flat_sym hid2 _)).bind fun body d3 grade3 _ ho3 ⟨k3, hbody⟩ => ?_
  have hid3 := hbody.under.place
  refine (lands_flat (k := 3) ho3.graded hid3 (by simp) (by omega)
    (by simpa using ⟨flat_sym hid3 _, hparams.later ho3 k3, hbody⟩)).mono
    fun v d4 grade4 _ ho4 ⟨k4, hv⟩ => ⟨((k1.trans k2).trans k3).trans k4, hv⟩

theorem lands_defineWriter {name : Text} (hc : c.Surveyed grade) (hid : c.forest.Has id) :
    Lands .notes (defineWriter scope pos name) c grade fun v d grade1 =>
      KeepsShallow c d ∧ Flat d grade1 id 4 v := by
  refine (lands_changeTable hc).bind fun _ d1 grade1 _ ho1 k1 => ?_
  have hid1 := ho1.kept id hid
  refine (lands_flat (k := 1) ho1.graded hid1 (by simp) (by omega)
    (by simpa using ⟨flat_sym hid1 _, flat_sym hid1 _⟩)).bind
    fun assign d2 grade2 _ ho2 ⟨k2, hassign⟩ => ?_
  have hid2 := hassign.under.place
  refine (lands_flat (k := 2) ho2.graded hid2 (by simp) (by omega)
    (by simpa using flat_sym hid2 _)).bind fun params d3 grade3 _ ho3 ⟨k3, hparams⟩ => ?_
  refine (lands_flat (k := 2) ho3.graded hparams.under.place (by simp) (by omega)
    (by simpa using hassign.later ho3 k3)).bind fun body d4 grade4 _ ho4 ⟨k4, hbody⟩ => ?_
  have hid4 := hbody.under.place
  exact (lands_flat (k := 3) ho4.graded hid4 (by simp) (by omega)
    (by simpa using ⟨flat_sym hid4 _, hparams.later ho4 k4, hbody⟩)).mono
    fun v d5 grade5 _ ho5 ⟨k5, hv⟩ => ⟨(((k1.trans k2).trans k3).trans k4).trans k5, hv⟩

theorem lands_define {pos : Position} (hc : c.Surveyed grade) (hid : c.forest.Has id) :
    Lands .notes (define wanted scope pos symbol) c grade fun vs d grade1 =>
      KeepsShallow c d ∧ ∀ v ∈ vs, Flat d grade1 id 4 v := by
  unfold define
  refine (lands_changeTable hc).bind fun _ d1 grade1 _ ho1 k1 => ?_
  have hid1 := ho1.kept id hid
  cases wanted.reader <;> cases wanted.writer <;>
    simp only [Bool.false_eq_true, if_true, if_false, pure_bind]
  · exact lands_pure ho1.graded ⟨k1, by simp⟩
  · refine (lands_defineWriter ho1.graded hid1).bind fun writer d2 grade2 _ ho2 ⟨k2, hv⟩ => ?_
    exact lands_pure ho2.graded ⟨k1.trans k2, by simpa using hv⟩
  · refine (lands_defineReader ho1.graded hid1).bind fun reader d2 grade2 _ ho2 ⟨k2, hv⟩ => ?_
    exact lands_pure ho2.graded ⟨k1.trans k2, by simpa using hv⟩
  · refine (lands_defineReader ho1.graded hid1).bind fun reader d2 grade2 _ ho2 ⟨k2, hv⟩ => ?_
    refine (lands_defineWriter ho2.graded hv.under.place).bind
      fun writer d3 grade3 _ ho3 ⟨k3, hw⟩ => ?_
    exact lands_pure ho3.graded
      ⟨(k1.trans k2).trans k3, by simpa using ⟨hv.later ho3 k3, hw⟩⟩

theorem lands_defineAll {symbols : List Text} (hc : c.Surveyed grade) (hid : c.forest.Has id) :
    Lands .notes (symbols.mapM (define wanted scope pos)) c grade fun vss d grade1 =>
      KeepsShallow c d ∧ ∀ v ∈ vss.flatten, Flat d grade1 id 4 v := by
  refine (lands_mapM (T := KeepsShallow)
    (R := fun _ vs d grade1 => ∀ v ∈ vs, Flat d grade1 id 4 v) .refl
    .trans (fun _ _ d grade1 ho _ => lands_define ho.graded (ho.kept id hid))
    (fun ho hk h v hv => (h v hv).later ho hk) hc).mono fun vss d grade1 _ _ h => ⟨h.1, ?_⟩
  intro v hv
  obtain ⟨vs, hvs, hv⟩ := List.mem_flatten.mp hv
  obtain ⟨_, _, hflat⟩ := forall₂_mem_left h.2.flip hvs
  exact hflat v hv

theorem lands_expandAttributes {wanted : Accessors} {scope : Classes.Scope} (hc : c.Surveyed grade)
    (hn : c.forest.get? id = some n) (ht : n.tag = .call) :
    Lands .notes (expandAttributes id n wanted scope) c grade fun _ d _ => KeepsShallow c d := by
  obtain ⟨names, hnames⟩ := exists_symbols hc (under_arg hc hn (by simp [ht]) 1)
  refine .after_query hnames ?_
  refine (lands_defineAll hc ⟨n, hn⟩).bind fun vss d grade1 hrun ho ⟨hk, hflat⟩ => ?_
  obtain ⟨ts, hmakes⟩ := defineAll_makes hrun
  have hn' := hmakes.grows id n hn
  refine (lands_reshape ho.graded ⟨n, hn'⟩ ((ho.graded.nodes id n hn').not_function (by simp [ht]))
    fun a ha => (hflat a ha).under).mono fun _ e _ he _ _ => hk.trans ?_
  obtain ⟨m, hm, rfl⟩ := reshape_ok.mp he
  refine keepsShallow_reshape (m := m.reshape .block vss.flatten) ho.graded hn' ht
    (by simp [Node.reshape])
    fun y hy => ?_
  obtain ⟨a, ha, hay⟩ := List.mem_filterMap.mp hy
  exact ⟨((hflat a ha).under.below y hay).1, (hflat a ha).shallow y hay⟩

theorem lands_noteIvar (hc : c.Surveyed grade) :
    Lands .notes (noteIvar scope v) c grade fun _ d _ => KeepsShallow c d := by
  unfold noteIvar
  split
  · exact lands_changeTable hc
  · exact lands_pure hc (.refl c)

theorem lands_scanIvars (hc : c.Surveyed grade) (hv : ∀ x, v.child? = some x → c.forest.Has x) :
    Lands .notes (scanIvars scope v) c grade fun _ d _ => KeepsShallow c d := by
  refine Lands.mono (P := Anything) ?_ fun _ _ _ h _ _ =>
    keepsShallow_of_eq ((aside_scanIvars scope v).2 h)
  unfold scanIvars
  cases hx : v.child? with
  | none => exact (lands_noteIvar hc).anything
  | some x =>
    refine (lands_walk ?_ (visits_sink_of_same fun {_ n _ _ _} h => ?_) hc (hv x hx)).discard
    · intro c grade id n hc hn
      exact (lands_forM (T := KeepsShallow) .refl .trans
        (fun a _ _ _ ho _ => lands_noteIvar ho.graded) hc).bind
        fun _ _ _ _ ho _ => lands_pure ho.graded trivial
    · exact (((PassM.Aside.forM (aside_noteIvar scope) n.args).bind fun _ => aside_pure _).2 h).1

/-- Going through a tree for its classes meets no fault, if there is fuel for its levels. -/
theorem lands_build (hc : c.Surveyed grade) (hfuel : 1 ≤ fuel)
    (hv : ∀ x, v.child? = some x → c.forest.Has x ∧ Shallow c.forest fuel x) :
    Lands .notes (build fuel scope v) c grade fun _ d _ => KeepsShallow c d := by
  induction fuel generalizing c grade scope v with
  | zero => omega
  | succ fuel ih =>
    unfold build
    cases hx : v.child? with
    | none => exact lands_pure hc (.refl c)
    | some x =>
      obtain ⟨⟨n, hn⟩, hdeep⟩ := hv x hx
      obtain ⟨hfuel, hbelow⟩ := hdeep
      refine .after_fetch hn ?_
      have operand : ∀ {d grade1 scope a}, Onward .notes c grade d grade1 → KeepsShallow c d →
          (∀ y, a.child? = some y → y ∈ n.children) →
          Lands .notes (build fuel scope a) d grade1 fun _ e _ => KeepsShallow d e := by
        intro d grade1 scope a ho hk ha
        refine ih ho.graded hfuel fun y hy => ?_
        have hhas := (hc.below hn y (ha y hy)).1
        exact ⟨(hk.levels y hhas).1, (hk.levels y hhas).2 fuel ((hbelow n hn).2 y (ha y hy))⟩
      have operands : ∀ {d grade1 scope}, Onward .notes c grade d grade1 → KeepsShallow c d →
          Lands .notes (n.args.forM (build fuel scope)) d grade1 fun _ e _ => KeepsShallow c e := by
        intro d grade1 scope ho hk
        refine (lands_forM (T := KeepsShallow) .refl .trans (fun a ha e grade2 ho' hk' => ?_)
          ho.graded).mono fun _ _ _ _ _ h => hk.trans h
        exact operand (ho.trans ho') (hk.trans hk') fun y hy =>
          List.mem_filterMap.mpr ⟨a, ha, hy⟩
      cases ht : n.tag <;> simp only []
      case sexp => exact lands_pure hc (.refl c)
      case defm =>
        refine .after_check hc fun hm => ?_
        refine .after_operandAt (Node.lt_length hm ht rfl (by simp [Arity.exactly])) ?_
        refine (lands_changeTable hc).bind fun _ d grade1 _ ho hk => .after_get ?_
        split
        · exact operands ho hk
        · refine .after_operandAt (Node.lt_length hm ht rfl (by simp [Arity.exactly])) ?_
          refine (lands_scanIvars ho.graded fun y hy => ?_).mono fun _ _ _ _ _ h => hk.trans h
          exact ho.kept y (hc.below hn y (child_mem_children hy)).1
      case call =>
        refine .after_check hc fun hm => ?_
        refine .after_operandAt (Node.lt_length hm ht rfl (by simp [Arity.between])) ?_
        cases accessors? (n.arg 0) with
        | some wanted => exact lands_expandAttributes hc hn ht
        | none => exact operands (.refl hc) (.refl c)
      case classDef =>
        refine .after_check hc fun hm => ?_
        refine .after_operandAt (Node.lt_length hm ht rfl (by simp [Arity.between])) ?_
        refine (lands_openClass hc).bind fun _ d grade1 _ ho hk => ?_
        exact (operand ho hk fun _ => child_mem_children).mono fun _ _ _ _ _ h => hk.trans h
      case moduleDef =>
        refine .after_check hc fun hm => ?_
        refine .after_operandAt (Node.lt_length hm ht rfl (by simp [Arity.between])) (.after_get ?_)
        refine (lands_openClass hc).bind fun _ d grade1 _ ho hk => ?_
        exact (operand ho hk fun _ => child_mem_children).mono fun _ _ _ _ _ h => hk.trans h
      all_goals exact operands (.refl hc) (.refl c)

theorem lands_run (hc : c.Surveyed grade) (hroot : c.forest.Has root) :
    Lands .notes (run root) c grade fun _ d _ => KeepsShallow c d := by
  refine .after_get (lands_build hc ?_ fun x hx => ?_)
  · have := size_lt_extent c.forest
    omega
  · rw [Operand.child?_ref] at hx
    cases hx
    exact ⟨hroot, shallow_of_budget hc.acyclic hroot hc.valid (budget_le_extent _ _)⟩

/-- The class pass keeps a state tidy. -/
theorem run_tidy (hc : c.Tidy) (h : run root c = .ok u d) : d.Tidy := by
  obtain ⟨grade, hgrade, -⟩ := hc.orderly.surveyed
  have hroot : c.forest.Has root := by
    have hbuild := get_bind_ok.mp h
    obtain ⟨k, hk⟩ := Nat.exists_eq_add_one_of_ne_zero (size_lt_extent c.forest).ne_bot
    rw [hk, build, Operand.child?_ref] at hbuild
    obtain ⟨n, _, hn, -⟩ := bind_ok.mp hbuild
    exact ⟨n, (fetch_ok.mp hn).1⟩
  obtain ⟨grade1, ho, hk⟩ := (lands_run hgrade hroot).ok h
  exact ⟨hk.unshared hc.unshared, ho.graded.acyclic, ho.graded.valid⟩

end Lowering.Pass.ClassScopes
