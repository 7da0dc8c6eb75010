import Lowering.Proofs.EnvironmentKeys
import Lowering.Proofs.Passable
import Lowering.Proofs.PassesLand

namespace Lowering.Pass.Environment

open Forest PassM Scope

variable {base : Forest} {c d : Context} {grade grade1 : Survey} {id : Int} {n : Node}
  {v w : Operand} {env : List Text} {keys : Keys} {k : Nat} {pos : Position}

/-- No key of the environment stands for the name of the environment. -/
def Shielded (env : List Text) (keys : Keys) : Prop :=
  ∀ p ∈ keys, p.1 = envName → ∀ key, p.2 = some key → key ∉ env

theorem Shielded.keyOf (h : Shielded env keys) (henv : envName ∉ env) :
    (keyOf keys envName).bind (env.idxOf? ·) = none := by
  cases hk : Environment.keyOf keys envName with
  | none => rfl
  | some key =>
    have hkey : key ∉ env := by
      unfold Environment.keyOf at hk
      cases hl : keys.lookup envName with
      | none =>
        rw [hl] at hk
        cases hk
        exact henv
      | some found =>
        rw [hl] at hk
        cases hk
        obtain ⟨l1, l2, rfl, -⟩ := List.lookup_eq_some_iff.mp hl
        exact h (envName, some key) (by simp) rfl key rfl
    simpa [List.idxOf?_eq_none_iff] using hkey

theorem reads_closure {tag : Tag} (h : tag.isClosure = true) : tag.reads 1 = true := by
  cases tag <;> first | rfl | cases h

theorem lands_innerKeys (hc : c.Surveyed grade) (hn : c.forest.get? id = some n)
    (hp : c.forest.Passable id) (ht : n.tag.isClosure = true)
    (henv : ∀ id, exportKey envName id ∉ env) (hk : Shielded env keys) :
    Lands .grades (innerKeys id n keys) c grade fun inner d _ => d = c ∧ Shielded env inner := by
  have hassign : n.tag ≠ .assign := by
    intro heq
    simp [heq, Tag.isClosure] at ht
  have found : Lands .grades (innerKeys id n keys) c grade Anything := by
    obtain ⟨params, hparams⟩ := exists_paramNames hc (under_arg hc hn hassign 0)
    unfold innerKeys
    refine .after_query hparams ?_
    cases hb : (n.arg 1).child? with
    | none => exact lands_pure hc trivial
    | some b =>
      have hpass := (hp.node hn).2 1 b (reads_closure ht) hb
      obtain ⟨⟨body, hbody⟩, -⟩ := (liesBelow_arg hc hn 1).below b hb
      refine .after_fetch hbody ?_
      split
      · rename_i hl
        obtain ⟨vars, hvars⟩ := exists_symbols hc (under_arg hc hbody (by simp [hl]) 0)
        refine .after_operandAt ((hpass.node hbody).1.letIn hl) ?_
        exact .after_query hvars (lands_pure hc trivial)
      · exact lands_pure hc trivial
  refine found.mono fun inner d _ hrun _ _ => ?_
  obtain ⟨rfl, -, -, -, -, rfl⟩ := innerKeys_ok hrun
  refine ⟨rfl, ?_⟩
  intro p hmem hname key hkey
  rcases List.mem_append.mp hmem with hmem | hmem
  · rcases List.mem_append.mp hmem with hmem | hmem
    · obtain ⟨x, -, rfl⟩ := List.mem_map.mp hmem
      cases hkey
    · obtain ⟨x, -, rfl⟩ := List.mem_map.mp hmem
      obtain rfl : x = envName := hname
      split at hkey
      · cases hkey
        exact henv id
      · cases hkey
  · exact hk p hmem hname key hkey

theorem lands_keysWithin (hc : c.Surveyed grade) (hn : c.forest.get? id = some n)
    (hp : c.forest.Passable id) (henv : ∀ id, exportKey envName id ∉ env) (hk : Shielded env keys) :
    Lands .grades (keysWithin id n keys) c grade fun inner d _ => d = c ∧ Shielded env inner := by
  unfold keysWithin
  split
  · next ht => exact lands_innerKeys hc hn hp ht henv hk
  · exact lands_pure hc ⟨rfl, hk⟩

/-- How many levels a descent from a node takes, if some of the nodes were there before slots were
put in. -/
noncomputable def need (base : Forest) (x : Int) : Nat := if x ≤ base.size then base.budget x else 2

/-- The operands of a slot. -/
def IsSlotCall (n : Node) : Prop := ∃ i, n.args = [.sym envName, .int i]

theorem IsSlotCall.children (h : IsSlotCall n) : n.children = [] := by
  obtain ⟨i, hi⟩ := h
  rw [Node.children, hi]
  rfl

/-- Levels are enough for every node, with room for slots below those that are none themselves. -/
structure LevelsSuffice (base f : Forest) : Prop where
  size : base.size ≤ f.size
  nodes : ∀ x n, f.get? x = some n → 2 ≤ need base x ∧
    (IsSlotCall n ∨ 3 ≤ need base x ∧ ∀ y ∈ n.children, need base y < need base x)

theorem levelsSuffice_self (ha : f.Acyclic) (hv : f.Valid) : LevelsSuffice f f := by
  refine ⟨Nat.le_refl _, fun x n hn => ?_⟩
  have hx := (get?_eq_some_bounds hn).2
  have hgrowth := growth_le_budget hn
  have hneed : need f x = f.budget x := if_pos hx
  unfold growth at hgrowth
  refine ⟨by omega, .inr ⟨by omega, fun y hy => ?_⟩⟩
  have hchild := budget_child ha hn hy
  obtain ⟨m, hm⟩ := hv x n hn y hy
  have hneed' : need f y = f.budget y := if_pos (get?_eq_some_bounds hm).2
  unfold growth at hchild
  omega

/-- What an operand becomes: a name other than that of the environment may become a slot. -/
def Swap (base f : Forest) (v w : Operand) : Prop :=
  w = v ∨ ∃ name x, v.view = .atom (.sym name) ∧ name ≠ envName ∧ w = .ref x ∧
    need base x = 2 ∧ f.Passable x

theorem Swap.steady (h : Swap base f v w) (hs : Steady f f') : Swap base f' v w := by
  rcases h with h | ⟨name, x, hv, hname, hw, hneed, hp⟩
  · exact .inl h
  · exact .inr ⟨name, x, hv, hname, hw, hneed, hs.passable x hp⟩

theorem Swap.of_child (h : Swap base f v w) (hv : v.child? = some y) : w = v := by
  rcases h with h | ⟨name, x, hview, -⟩
  · exact h
  · rw [Operand.view_eq_child.mpr hv] at hview
    cases hview

theorem Swap.of_envName (h : Swap base f (.sym envName) w) : w = .sym envName := by
  rcases h with h | ⟨name, x, hview, hname, -⟩
  · exact h
  · cases hview
    exact absurd rfl hname

/-- The operands of a node with slots in them refit it. -/
theorem exchanged_of_swap (h : List.Forall₂ (Swap base f) n.args args) :
    Exchanged f n { n with args } := by
  have arg : ∀ i, Swap base f (n.arg i) (({ n with args } : Node).arg i) := by
    intro i
    unfold Node.arg
    cases hi : n.args[i]? with
    | none =>
      have : args[i]? = none := by
        rw [List.getElem?_eq_none_iff] at hi ⊢
        exact h.length_eq ▸ hi
      simp only [this]
      exact .inl rfl
    | some a =>
      obtain ⟨hlt, rfl⟩ := List.getElem?_eq_some_iff.mp hi
      have hlt' : i < args.length := h.length_eq ▸ hlt
      simpa [hlt, hlt'] using h.get hlt hlt'
  refine ⟨rfl, h.length_eq.symm, fun i y hy => ?_, fun hf => ?_, fun b hb => .inl ?_⟩
  · rcases arg i with he | ⟨name, x, -, -, he, -, hp⟩
    · exact .inl (he ▸ hy)
    · rw [he, Operand.child?_ref] at hy
      cases hy
      exact .inr hp
  · rcases arg 1 with he | ⟨name, x, -, -, he, -⟩
    · rwa [he]
    · rw [he]
      rfl
  · rwa [(arg 1).of_child hb]

theorem LevelsSuffice.setArgs (h : LevelsSuffice base c.forest) (hc : c.Surveyed grade)
    (hn : c.forest.get? id = some n) (ha : List.Forall₂ (Swap base c.forest) n.args args)
    (hrun : setArgs id args c = .ok u d) : LevelsSuffice base d.forest := by
  obtain ⟨-, -, hget⟩ := setArgs_frame hrun
  have hsize : c.forest.size ≤ d.forest.size := by
    by_contra hlt
    obtain ⟨m, hm⟩ := get?_of_bounds (f := c.forest) (show 0 < (c.forest.size : Int) by omega)
      (by omega)
    obtain ⟨m', hm'⟩ : d.forest.Has c.forest.size := by
      unfold Forest.Has
      rw [hget, hm]
      split <;> exact ⟨_, rfl⟩
    have := (get?_eq_some_bounds hm').2
    omega
  refine ⟨h.size.trans hsize, fun x m hm => ?_⟩
  rw [hget] at hm
  split at hm
  · rename_i hx
    obtain ⟨m0, hm0, hargs, -⟩ := hc.sharers_alike hn x hx
    rw [hm0] at hm
    cases hm
    obtain ⟨htwo, hbare | ⟨hthree, hch⟩⟩ := h.nodes x m0 hm0
    · -- the name of the environment and a number stay what they are
      refine ⟨htwo, .inl ?_⟩
      obtain ⟨i, hi⟩ := hbare
      rw [← hargs, hi] at ha
      cases ha with
      | cons hfirst hrest =>
        cases hrest with
        | cons hsecond hnil =>
          cases hnil
          obtain rfl := hfirst.of_envName
          obtain rfl | ⟨name, -, hview, -⟩ := hsecond
          · exact ⟨i, rfl⟩
          · cases hview
    · refine ⟨htwo, .inr ⟨hthree, fun y hy => ?_⟩⟩
      obtain ⟨a, ha', hay⟩ := List.mem_filterMap.mp hy
      obtain ⟨v, hv, hswap⟩ := forall₂_mem_left ha.flip ha'
      rcases hswap with rfl | ⟨-, x', -, -, rfl, hneed, -⟩
      · exact hch y (List.mem_filterMap.mpr ⟨a, hargs ▸ hv, hay⟩)
      · rw [Operand.child?_ref] at hay
        cases hay
        omega
  · exact h.nodes x m hm

/-- What a descent does to the state, if it leaves the nodes of a set alone. -/
structure Descends (base : Forest) (B : Int → Prop) (c d : Context) : Prop where
  steady : Steady c.forest d.forest
  fits : LevelsSuffice base c.forest → LevelsSuffice base d.forest
  still : ∀ x, B x → d.forest.get? x = c.forest.get? x

theorem Descends.refl (c : Context) : Descends base B c c :=
  ⟨.refl _, fun h => h, fun _ _ => rfl⟩

theorem Descends.trans (h : Descends base B c1 c2) (h' : Descends base B c2 c3) :
    Descends base B c1 c3 where
  steady := h.steady.trans h'.steady
  fits hf := h'.fits (h.fits hf)
  still x hx := (h'.still x hx).trans (h.still x hx)

theorem Descends.mono (h : Descends base B c d) (hB : ∀ x, B' x → B x) :
    Descends base B' c d := ⟨h.steady, h.fits, fun x hx => h.still x (hB x hx)⟩

/-- What may stand below a node in the place of an operand: the operand itself, or what is no
function. -/
def Instead (c : Context) (grade : Survey) (id : Int) (v w : Operand) : Prop :=
  LiesBelow c grade id w ∧ (w = v ∨ grade.Free w)

theorem Instead.onward (h : Instead c grade id v w) (ho : Onward s c grade d grade1) :
    Instead d grade1 id v w :=
  ⟨h.1.onward ho, h.2.imp_right fun hf => (Under.onward ⟨h.1, hf⟩ ho).free⟩

/-- What has become of an operand: nothing above it has changed, and what it has become may stand
wherever it stood. -/
structure Became (base : Forest) (c : Context) (grade : Survey) (v w : Operand) (d : Context)
    (grade1 : Survey) : Prop where
  descends : Descends base (fun x => LiesBelow c grade x v) c d
  swap : Swap base d.forest v w
  instead : ∀ x, LiesBelow c grade x v → Instead d grade1 x v w

theorem lands_slotAt (hc : c.Surveyed grade) :
    Lands .grades (slotAt pos i) c grade fun w d grade1 =>
      w = .ref ((c.forest.size : Int) + 1) ∧ d = c.add (slotNode pos i) ∧
        ∀ x, c.forest.Has x → Under d grade1 x w := by
  obtain ⟨m, hm⟩ := exists_room_beneath grade c.forest.numbers
  have hargs : ∀ a ∈ (slotNode pos i).args, grade.Free a := by
    simpa [slotNode] using ⟨Register.free_of_atom rfl, Register.free_of_atom rfl⟩
  have ho := onward_add (s := .grades) (d := c.add (slotNode pos i)) (m := m) hc ⟨rfl, rfl⟩ rfl
    (fun y hy => by cases hy) (hc.toRecorded.add hargs) (.same ⟨rfl, rfl, rfl, rfl⟩)
  refine lands_of_ok (slotAt_ok.mpr ⟨rfl, rfl⟩) ho
    ⟨rfl, rfl, fun x hx => ⟨⟨hx.push _, fun y hy => ?_⟩, Register.free_ref hc.new_ordinary.2⟩⟩
  rw [Operand.child?_ref] at hy
  cases hy
  refine ⟨has_push_self _ _, ?_⟩
  simpa only [Function.update_self, Function.update_of_ne hx.ne_new] using hm x (mem_numbers.mpr hx)

/-- An operand that a descent may be made into. -/
structure Enterable (base : Forest) (k : Nat) (c : Context) (v : Operand) : Prop where
  has : ∀ y, v.child? = some y → c.forest.Has y
  passable : ∀ y, v.child? = some y → c.forest.Passable y
  deep : ∀ y, v.child? = some y → need base y ≤ k

theorem Enterable.later (h : Enterable base k c v) (ho : Onward .grades c grade d grade1)
    (hd : Descends base B c d) : Enterable base k d v :=
  ⟨fun y hy => ho.kept y (h.has y hy), fun y hy => hd.steady.passable y (h.passable y hy), h.deep⟩

/-- All that share the operands of a node get those with slots in them. -/
theorem lands_refit (hn : c.forest.get? id = some n) (hv : v.child? = some id)
    (ho : Onward .grades c grade d grade1) (hd : Descends base B c d) (hid : B id)
    (habove : ∀ x, LiesBelow c grade x v → B x) (hf : LevelsSuffice base c.forest)
    (ht : n.tag ≠ .defun)
    (ha : List.Forall₂ (fun a b => Swap base d.forest a b ∧ Instead d grade1 id a b) n.args args) :
    Lands .grades (do setArgs id args; return v) d grade1 (Became base c grade v) := by
  have hn' : d.forest.get? id = some n := (hd.still id hid).trans hn
  have hswap : List.Forall₂ (Swap base d.forest) n.args args := ha.imp fun _ _ h => h.1
  refine (lands_exchange ho.graded hn' ((ho.graded.nodes id n hn').not_function ht) (fun b hb => ?_)
    fun b hb => ?_).bind fun _ e grade2 hrun ho' _ => ?_
  · obtain ⟨_, _, -, hu, -⟩ := forall₂_mem_left ha.flip hb
    exact hu
  · obtain ⟨a, ha, -, -, rfl | hfree⟩ := forall₂_mem_left ha.flip hb
    · exact .inl ha
    · exact .inr hfree
  · refine lands_pure ho'.graded ⟨⟨?_, fun _ => ?_, fun x hx => ?_⟩, .inl rfl, fun x hx => ?_⟩
    · exact hd.steady.trans (steady_setArgs ho.graded.toGraded hn' (exchanged_of_swap hswap) hrun)
    · exact (hd.fits hf).setArgs ho.graded hn' hswap hrun
    · -- what lies above the node shares nothing with it
      rw [← hd.still x (habove x hx), (setArgs_frame hrun).2.2, if_neg]
      intro hmem
      obtain ⟨-, -, -, hgrade⟩ := ho.graded.sharers_alike hn' x hmem
      have hlt := ((hx.onward ho).below id hv).2
      exact lt_irrefl _ (hgrade ▸ hlt)
    · exact ⟨(hx.onward ho).onward ho', .inl rfl⟩

/-- What has become of operands that have been gone through, or left alone, one after the other. -/
structure BecameEach (base : Forest) (c : Context) (grade : Survey) (vs ws : List Operand)
    (d : Context) (grade1 : Survey) : Prop where
  descends : Descends base (fun x => ∀ v ∈ vs, LiesBelow c grade x v) c d
  each : List.Forall₂ (fun v w => Swap base d.forest v w ∧
    ∀ x, LiesBelow c grade x v → Instead d grade1 x v w) vs ws

theorem BecameEach.under (h : BecameEach base c grade vs ws d grade1)
    (hvs : ∀ v ∈ vs, LiesBelow c grade id v) :
    List.Forall₂ (fun v w => Swap base d.forest v w ∧ Instead d grade1 id v w) vs ws :=
  ((List.forall₂_and_left vs ws).mpr ⟨hvs, h.each⟩).imp fun _ _ h => ⟨h.2.1, h.2.2 id h.1⟩

theorem became_refl (c : Context) (grade : Survey) (v : Operand) :
    Became base c grade v v c grade := ⟨.refl c, .inl rfl, fun _ hx => ⟨hx, .inl rfl⟩⟩

theorem lands_operands (reads : Nat → Bool)
    (step : ∀ {c grade v}, c.Surveyed grade → Enterable base k c v → LevelsSuffice base c.forest →
      Lands .grades (toSlots env k keys pos v) c grade (Became base c grade v))
    (hc : c.Surveyed grade) (hvs : ∀ a ∈ vs.zipIdx, reads a.2 = true → Enterable base k c a.1)
    (hf : LevelsSuffice base c.forest) :
    Lands .grades (vs.zipIdx.mapM fun a =>
      if reads a.2 then toSlots env k keys pos a.1 else pure a.1)
      c grade (BecameEach base c grade vs) := by
  refine (lands_mapM (T := Descends base fun x => ∀ v ∈ vs, LiesBelow c grade x v)
    (R := fun a w d grade1 => Swap base d.forest a.1 w ∧
      ∀ x, LiesBelow c grade x a.1 → Instead d grade1 x a.1 w) .refl .trans
    (fun a ha d grade1 ho hd => ?_) (fun ho hd h => ?_) hc).mono fun ws d grade1 _ _ ⟨hd, h⟩ =>
      ⟨hd, ?_⟩
  · have became : Lands .grades (if reads a.2 then toSlots env k keys pos a.1
      else pure a.1) d grade1
        (Became base d grade1 a.1) := by
      split
      · next hr => exact step ho.graded ((hvs a ha hr).later ho hd) (hd.fits hf)
      · exact lands_pure ho.graded (became_refl d grade1 a.1)
    refine became.mono fun w e grade2 _ _ h => ?_
    exact ⟨h.descends.mono fun x hx => (hx a.1 (List.fst_mem_of_mem_zipIdx ha)).onward ho, h.swap,
      fun x hx => h.instead x (hx.onward ho)⟩
  · exact ⟨h.1.steady hd.steady, fun x hx => (h.2 x hx).onward ho⟩
  · rw [← List.zipIdx_map_fst 0 vs, List.forall₂_map_left_iff]
    exact h

theorem lands_statements
    (step : ∀ {c grade v}, c.Surveyed grade → Enterable base k c v → LevelsSuffice base c.forest →
      Lands .grades (toSlots env k keys pos v) c grade (Became base c grade v))
    (hc : c.Surveyed grade) (hvs : ∀ v ∈ vs, Enterable base k c v)
    (hf : LevelsSuffice base c.forest) :
    Lands .grades (vs.mapM (toSlots env k keys pos)) c grade (BecameEach base c grade vs) := by
  rw [← mapM_zipIdx_read (i := 0) _ vs fun _ _ => rfl]
  exact lands_operands (fun _ => true) step hc
    (fun a ha _ => hvs a.1 (List.fst_mem_of_mem_zipIdx ha)) hf

theorem passable_slot {f : Forest} (h : f.get? x = some (slotNode pos i)) : f.Passable x :=
  passable_of_node h ⟨nofun, nofun⟩ fun _ _ _ hy =>
    absurd (child_mem_children hy) List.not_mem_nil

theorem became_slot {name : Text} (hview : v.view = .atom (.sym name)) (hname : name ≠ envName)
    (hf : LevelsSuffice base c.forest) (hu : ∀ x, c.forest.Has x →
      Under (c.add (slotNode pos i)) grade1 x (.ref ((c.forest.size : Int) + 1))) :
    Became base c grade v (.ref ((c.forest.size : Int) + 1)) (c.add (slotNode pos i)) grade1 := by
  have hneed : need base ((c.forest.size : Int) + 1) = 2 := by
    have := hf.size
    exact if_neg (by omega)
  refine ⟨⟨(grows_push _ _).steady, fun _ => ⟨?_, fun x n hn => ?_⟩, fun x hx => ?_⟩,
    .inr ⟨name, _, hview, hname, rfl, hneed, ?_⟩, fun x hx =>
      ⟨(hu x hx.place).toLiesBelow, .inr (hu x hx.place).free⟩⟩
  · have := hf.size
    rw [Context.add_forest, size_push]
    omega
  · rw [Context.add_forest, get?_push] at hn
    split at hn
    · rename_i hx
      cases hn
      rw [hx, hneed]
      exact ⟨Nat.le_refl _, .inl ⟨_, rfl⟩⟩
    · exact hf.nodes x n hn
  · rw [Context.add_forest, get?_push, if_neg hx.place.ne_new]
  · exact passable_slot (get?_push_self _ _)

theorem lands_toSlots (henv : envName ∉ env) (hexport : ∀ id, exportKey envName id ∉ env)
    (hkeys : Shielded env keys) (hk : 1 ≤ k) (hc : c.Surveyed grade) (hv : Enterable base k c v)
    (hf : LevelsSuffice base c.forest) :
    Lands .grades (toSlots env k keys pos v) c grade (Became base c grade v) := by
  induction k generalizing c grade v keys pos with
  | zero => omega
  | succ k ih =>
    cases hview : v.view with
    | atom a =>
      unfold toSlots
      rw [hview]
      cases a with
      | sym name =>
        cases hslot : (keyOf keys name).bind (env.idxOf? ·) with
        | none =>
          simp only [hslot]
          exact lands_pure hc (became_refl c grade v)
        | some i =>
          simp only [hslot]
          have hname : name ≠ envName := by
            rintro rfl
            rw [hkeys.keyOf henv] at hslot
            cases hslot
          refine (lands_slotAt hc).mono fun w d grade1 _ _ h => ?_
          obtain ⟨rfl, rfl, hu⟩ := h
          exact became_slot hview hname hf hu
      | nil | str | int | unknown => exact lands_pure hc (became_refl c grade v)
    | child id =>
      have hchild := Operand.view_eq_child.mp hview
      obtain ⟨n, hn⟩ := hv.has id hchild
      have hpass := hv.passable id hchild
      obtain ⟨hfit, hreads⟩ := hpass.node hn
      obtain ⟨htwo, hroom⟩ := hf.nodes id n hn
      have hdeep := hv.deep id hchild
      have enterable : ∀ a ∈ n.args.zipIdx, n.tag.reads a.2 = true → Enterable base k c a.1 := by
        rintro ⟨a, i⟩ ha hr
        have ha := List.mem_zipIdx_iff_getElem?.mp ha
        have hmem : ∀ y, a.child? = some y → y ∈ n.children := fun y hy =>
          List.mem_filterMap.mpr ⟨a, List.mem_of_getElem? ha, hy⟩
        have harg : n.arg i = a := by simp [Node.arg, ha]
        refine ⟨fun y hy => (hc.below hn y (hmem y hy)).1,
          fun y hy => hreads i y hr (harg ▸ hy), fun y hy => ?_⟩
        rcases hroom with hbare | ⟨-, hlt⟩
        · have := hmem y hy
          rw [hbare.children] at this
          cases this
        · have := hlt y (hmem y hy)
          omega
      rw [toSlots_child_eq hview]
      refine .after_fetch hn ?_
      unfold goThrough
      split
      · exact lands_pure hc (became_refl c grade v)
      · next hopen =>
        have hdefun : n.tag ≠ .defun := fun ht => hopen (.inl (by rw [ht]; rfl))
        rw [if_neg (Nat.not_lt.mpr hfit.least), bind_assoc]
        refine (lands_keysWithin hc hn hpass hexport hkeys).bind
          fun inner d grade1 _ ho h => ?_
        obtain ⟨rfl, hinner⟩ := h
        rw [bind_assoc]
        refine (lands_operands n.tag.reads
          (fun hc hv hf => ih hinner (by omega) hc hv hf) ho.graded enterable
          hf).bind fun args e grade2 _ ho' h => ?_
        have under : ∀ {x}, LiesBelow d grade x v → ∀ a ∈ n.args, LiesBelow d grade1 x a :=
          fun hx a ha =>
          ((liesBelow_operand hc hn ha).trans hx.place (hx.below id hchild).2).onward ho
        have hunder : ∀ a ∈ n.args, LiesBelow d grade1 id a := fun a ha =>
          (liesBelow_operand hc hn ha).onward ho
        exact lands_refit hn hchild (ho.trans ho') h.descends hunder
          (fun x hx => under hx) hf hdefun
          (h.under hunder)

end Lowering.Pass.Environment
