import Lowering.Proofs.OutputPlaces

namespace Lowering

namespace Tree

variable (t : Tree Mark) (id : Int)

@[simp] theorem parts_renumbered : (t.renumbered id).parts = t.parts := by
  cases t <;> rfl

theorem names_renumbered : (t.renumbered id).names = t.names := by
  cases t with
  | leaf a => rfl
  | node mark tag args => rw [renumbered, names_node, names_node]

@[simp] theorem assigned_renumbered : (t.renumbered id).assigned = t.assigned := by
  cases t with
  | leaf a => rfl
  | node mark tag args => simp only [renumbered, assigned]

@[simp] theorem block?_renumbered : (t.renumbered id).block? = t.block? := by
  cases t with
  | leaf a => rfl
  | node mark tag args => cases h : tag.isClosure <;> simp [block?, closure?, renumbered, h, parts]

@[simp] theorem levelsAt_renumbered (levels : List Level) (p : List Nat) :
    (t.renumbered id).levelsAt levels p = t.levelsAt levels p := by
  cases p with
  | nil => rfl
  | cons i p =>
    have hin : (t.renumbered id).levelsIn levels i = t.levelsIn levels i := by
      cases t with
      | leaf a => rfl
      | node mark tag args =>
        cases h : tag.isClosure <;> simp [levelsIn, closure?, renumbered, h, parts]
    unfold levelsAt
    rw [parts_renumbered, hin]

end Tree

namespace Block

/-- The name at a place in a block means the variable of the block: no closure in between has it as
a parameter, and the block has it by then, or no closure in between assigns it. -/
def Means (g : Block) (name : Text) (p : List Nat) : Prop :=
  g.at? p = some (.leaf (.sym name)) ∧ ∃ inner l, g.levelsAt p = inner ++ [l] ∧
    (∀ m ∈ inner, name ∉ m.params) ∧
    (name ∈ l.params ∨ name ∈ l.before ∨ ∀ m ∈ inner, name ∉ m.targets)

theorem at?_of_symbol {b : Block} (h : (b.at? p).bind Tree.symbol? = some name) :
    b.at? p = some (.leaf (.sym name)) := by
  obtain ⟨s, hs, hsym⟩ := Option.bind_eq_some_iff.mp h
  have hview := Tree.symbol?_eq_some.mp hsym
  cases s with
  | leaf a =>
    cases hview
    exact hs
  | node mark tag args => cases hview

end Block

namespace Pass.Environment

open Forest PassM Scope

variable {f : Forest} {b b' g : Block} {ws : List Operand} {w : Operand} {i k : Nat}

theorem mem_slots (h : key ∈ captures) : key ∈ slots captures := by
  have hadd : ∀ (names acc : List Text), key ∈ names ∨ key ∈ acc →
      key ∈ names.foldl Names.add acc := by
    intro names
    induction names with
    | nil => exact fun acc hk => hk.resolve_left List.not_mem_nil
    | cons x names ih =>
      intro acc hk
      apply ih
      rw [List.mem_cons] at hk
      rw [Names.mem_add]
      tauto
  exact hadd _ _ (.inl (by simp [h]))

theorem EnvOf.slot {env : List Text} (h : EnvOf b env)
    (hk : key ∈ ((Resolver.start b.params).readAll b.stmts).captures) :
    ∃ i, env.idxOf? key = some i := by
  cases h with
  | slots => exact Option.isSome_iff_exists.mp (List.isSome_idxOf?.mpr (mem_slots hk))
  | absent without =>
    have hnone : b.captures = [] := (not_not.mp without).1
    rw [show ((Resolver.start b.params).readAll b.stmts).captures = [] from hnone] at hk
    cases hk

/-- Some operands are the output of a block, with its captured variables in slots: a name that is no
parameter of the innermost closure around it, but a parameter of one further out, or assigned in one
before, is a slot; and names that mean the variable of one block are one slot, if any is one. -/
structure Converted (f : Forest) (b : Block) (ws : List Operand) : Prop where
  complete : ∀ p name l outer, b.at? p = some (.leaf (.sym name)) → isSpecial name = false →
    b.levelsAt p = l :: outer → name ∉ l.params →
    (∃ g ∈ outer, name ∈ g.params ∨ name ∈ g.before) →
    ∃ w k, blockOutAt f b ws p = some w ∧ IsSlot f w k
  consistent : ∀ q g name p p' w k, b.block? q = some g → isSpecial name = false →
    g.Means name p → g.Means name p' → blockOutAt f b ws (q ++ p) = some w → IsSlot f w k →
    ∃ w', blockOutAt f b ws (q ++ p') = some w' ∧ IsSlot f w' k

/-- Names that mean the variable of a block have its key. -/
theorem Named.key_of_means {env : List Text} {info : Int → Closed} {q p : List Nat} {name : Text}
    (h : Named f b ws env info) (hg : b.block? q = some g) (hs : isSpecial name = false)
    (hp : g.Means name p) :
    b.at? (q ++ p) = some (.leaf (.sym name)) ∧
      keyOf (blockKeysAt info b (q ++ p)) name = keyOf (keysAround info b q) name := by
  obtain ⟨hat, inner, l, hlevels, hparams, hknown⟩ := hp
  cases p with
  | nil => cases hat
  | cons i p =>
    obtain ⟨t, hi, -⟩ := Option.bind_eq_some_iff.mp hat
    exact ⟨(Block.at?_block hg i p).trans hat,
      key_in_block h.readable h.known hg hi hlevels hs hparams hknown⟩

theorem Named.converted {env : List Text} (henv : EnvOf b env) (hnamed : Named f b ws env info)
    (hplain : ∀ s ∈ b.stmts, ∀ x ∈ s.names, SourceName x) : Converted f b ws := by
  constructor
  · intro p name l outer hat hs hlevels hl hout
    obtain ⟨key, hkey, heq⟩ :=
      captured_key hnamed.readable hplain hnamed.known hat hs hlevels hl hout
    obtain ⟨i, hi⟩ := henv.slot hkey
    obtain ⟨w, hw, hslot⟩ := hnamed.slot p name hat
    refine ⟨w, i, hw, (hslot i).mpr ⟨i, ?_, rfl⟩⟩
    rw [slot?, heq]
    exact hi
  · intro q g name p p' w k hg hs hp hp' hw hk
    obtain ⟨hat, hkey⟩ := hnamed.key_of_means hg hs hp
    obtain ⟨hat', hkey'⟩ := hnamed.key_of_means hg hs hp'
    obtain ⟨w0, hw0, hslot⟩ := hnamed.slot _ name hat
    obtain ⟨w', hw', hslot'⟩ := hnamed.slot _ name hat'
    obtain rfl : w0 = w := Option.mem_unique hw0 hw
    refine ⟨w', hw', (hslot' k).mpr ?_⟩
    have := (hslot k).mp hk
    unfold slot? at this ⊢
    rwa [hkey', ← hkey]

/-- Two blocks that look the same but for the numbers of their statements. -/
structure LooksLike (b b' : Block) : Prop where
  params : b'.params = b.params
  leaf : ∀ p a, b'.at? p = some (.leaf a) ↔ b.at? p = some (.leaf a)
  levels : ∀ p, b'.levelsAt p = b.levelsAt p
  inner : ∀ i q, b'.block? (i :: q) = b.block? (i :: q)
  out : ∀ f ws p, blockOutAt f b' ws p = blockOutAt f b ws p

theorem LooksLike.refl (b : Block) : LooksLike b b :=
  ⟨rfl, fun _ _ => .rfl, fun _ => rfl, fun _ _ => rfl, fun _ _ _ => rfl⟩

@[simp] theorem outAt_renumbered (f : Forest) (t : Tree Mark) (id : Int) (v : Operand)
    (p : List Nat) : outAt f (t.renumbered id) v p = outAt f t v p := by
  cases p with
  | nil => rfl
  | cons i p =>
    have hout : outParts f (t.renumbered id) v = outParts f t v := by cases t <;> rfl
    unfold outAt
    rw [Tree.parts_renumbered, hout]

theorem looksLike_renumbered (params : List Text) (t : Tree Mark) (id : Int) :
    LooksLike ⟨params, [t]⟩ ⟨params, [t.renumbered id]⟩ where
  params := rfl
  leaf p a := by
    rcases p with _ | ⟨_ | i, p⟩
    · rfl
    · cases p with
      | nil => cases t <;> simp [Block.at?, Tree.at?, Tree.renumbered]
      | cons j p => simp [Block.at?, Tree.at?]
    · simp [Block.at?]
  levels p := by
    rcases p with _ | ⟨_ | i, p⟩
    · rfl
    · simp [Block.levelsAt, Block.level]
    · simp [Block.levelsAt]
  inner i q := by
    cases i with
    | zero =>
      cases q with
      | nil => simp [Block.block?, Block.at?, Tree.at?]
      | cons j q => simp [Block.block?, Block.at?, Tree.at?]
    | succ i => simp [Block.block?, Block.at?]
  out f ws p := by
    rcases p with _ | ⟨_ | i, p⟩
    · rfl
    · simp [blockOutAt]
    · simp [blockOutAt]

theorem LooksLike.block (h : LooksLike b b') (hg : b.block? q = some g) :
    ∃ g', b'.block? q = some g' ∧ LooksLike g g' := by
  cases q with
  | nil =>
    obtain rfl := Option.some.inj hg
    exact ⟨b', rfl, h⟩
  | cons i q => exact ⟨g, (h.inner i q).trans hg, .refl g⟩

theorem LooksLike.means {name : Text} (h : LooksLike b b') (hp : b.Means name p) :
    b'.Means name p := by
  obtain ⟨hat, hlevels⟩ := hp
  exact ⟨(h.leaf p _).mpr hat, (h.levels p).symm ▸ hlevels⟩

theorem Converted.of_looksLike (h : Converted f b' ws) (ha : LooksLike b b') :
    Converted f b ws where
  complete p name l outer hat hs hlevels hl hout := by
    rw [← ha.out]
    exact h.complete p name l outer ((ha.leaf p _).mpr hat) hs ((ha.levels p).trans hlevels) hl hout
  consistent q g name p p' w k hg hs hp hp' hw hk := by
    obtain ⟨g', hg', hag⟩ := ha.block hg
    rw [← ha.out] at hw ⊢
    exact h.consistent q g' name p p' w k hg' hs (hag.means hp) (hag.means hp') hw hk

/-- The bodies of a source, and what stands where they stood: the functions, and the statements
outside them if there is a closure among these. -/
inductive BodyOf (f : Forest) (root : Int) (t : Tree Mark) : Block → List Operand → Prop where
  | function {d : Tree Mark} (mem : d ∈ t.definitions) :
      BodyOf f root t d.function (definitionOutput f d)
  | outside (closure : t.HasClosure) : BodyOf f root t ⟨[], [t]⟩ (rootOutput f root)

/-- What is known of a block of a source by its nodes and its names. -/
structure InSource (t : Tree Mark) (b : Block) : Prop where
  nodup : (b.stmts.flatMap Tree.ids).Nodup
  names : (b.stmts.flatMap Tree.names).Sublist t.names

theorem inSource_function (hd : t.ids.Nodup) (h : d ∈ t.definitions) : InSource t d.function := by
  obtain ⟨hin, -⟩ := Tree.mem_definitions h
  constructor
  · exact hd.sublist (((Tree.gathers_ids.elems _).trans (d.ids_operand 2)).trans
      (Tree.ids_within hin))
  · exact ((Tree.gathers_names.elems _).trans (Tree.gathers_names.operand rfl d 2)).trans
      (Tree.gathers_names.within hin)

variable {root : Int} {t : Tree Mark} {options : Options} {c : Context} {u : Unit}

/-- The names of a body stand in what it has become, but for the number of its root. -/
theorem BodyOf.named (hb : BodyOf c.forest root t b ws) (h : Source f root t)
    (hrun : run root (.ofForest f options) = .ok u c) :
    ∃ b' env info, LooksLike b b' ∧ InSource t b' ∧ EnvOf b' env ∧
      Named c.forest b' ws env info := by
  cases hb with
  | function hd =>
    obtain ⟨env, info, henv, hnamed⟩ := Source.named_function h hrun hd
    exact ⟨_, env, info, .refl _, inSource_function h.nodup hd, henv, hnamed⟩
  | outside hc =>
    obtain ⟨id, hid, env, info, henv, hnamed⟩ := Source.named_root h hrun hc
    refine ⟨_, env, info, looksLike_renumbered [] t id, ⟨?_, ?_⟩, henv, hnamed⟩
    · rw [List.flatMap_singleton]
      exact Tree.nodup_renumbered h.nodup hid
    · rw [List.flatMap_singleton, Tree.names_renumbered]

/-- Closure conversion: in every body the captured variables are in slots. -/
theorem run_converts {file source : Text} (hparse : parse file source = .ok (f, root))
    (htree : f.tree root = .ok t) (hplain : ∀ name ∈ t.names, SourceName name)
    (hrun : run root (.ofForest f options) = .ok u c) (hb : BodyOf c.forest root t b ws) :
    Converted c.forest b ws := by
  obtain ⟨b', env, info, halike, hwithin, henv, hnamed⟩ :=
    hb.named (parse_source hparse htree) hrun
  refine (hnamed.converted henv fun s hs x hx =>
    hplain x (hwithin.names.subset ?_)).of_looksLike halike
  exact List.mem_flatMap.mpr ⟨s, hs, hx⟩

/-- Whether a source can be worked on, has one function, and passes a test with that. -/
def testFunction (source : Text) (test : Tree Mark → Context → Tree Mark → Bool) : Bool :=
  match parse "" source with
  | .error _ => false
  | .ok (f, root) =>
    match f.tree root, run root (.ofForest f {}) with
    | .ok t, .ok _ c =>
      match t.definitions with
      | [d] => test t c d
      | _ => false
    | _, _ => false

theorem of_testFunction (h : testFunction source test = true) :
    ∃ f root t c d, parse "" source = .ok (f, root) ∧
      f.tree root = .ok t ∧ run root (.ofForest f {}) = .ok () c ∧ d ∈ t.definitions ∧
      test t c d = true := by
  unfold testFunction at h
  split at h
  · cases h
  · rename_i f root hparse
    split at h
    · rename_i t u c htree hrun
      split at h
      · rename_i d hd
        exact ⟨f, root, t, c, d, hparse, htree, hrun, hd ▸ List.mem_singleton_self d, h⟩
      · cases h
    · cases h

/-- The inner closure takes a parameter of the outer one and one of the function. -/
def nested : Text := "(defm f (x) (lambda (z) (lambda () (assign z x))))"

theorem run_converts_nested : ∃ f root t c d w k, parse "" nested = .ok (f, root) ∧
    f.tree root = .ok t ∧ (∀ name ∈ t.names, SourceName name) ∧
    run root (.ofForest f {}) = .ok () c ∧ d ∈ t.definitions ∧
    Converted c.forest d.function (definitionOutput c.forest d) ∧
    d.function.at? [0, 0, 0, 1] = some (.leaf (.sym "x")) ∧
    blockOutAt c.forest d.function (definitionOutput c.forest d) [0, 0, 0, 1] = some w ∧
    IsSlot c.forest w k := by
  have htest : testFunction nested (fun t _ d =>
      (d.function.at? [0, 0, 0, 1]).bind Tree.symbol? = some "x" ∧
      d.function.levelsAt [0, 0, 0, 1] = [⟨[], ["z"], []⟩, ⟨["z"], [], []⟩, ⟨["x"], [], []⟩] ∧
      ∀ name ∈ t.names, 0x23 ∉ name.bytes) = true := by decide +kernel
  obtain ⟨f, root, t, c, d, hparse, htree, hrun, hd, htest⟩ := of_testFunction htest
  obtain ⟨hat, hlevels, hplain⟩ := of_decide_eq_true htest
  have hat := Block.at?_of_symbol hat
  have hconv := run_converts hparse htree hplain hrun (.function hd)
  obtain ⟨w, k, hw, hk⟩ := hconv.complete _ "x" _ _ hat (by decide) hlevels (by decide)
    ⟨_, List.mem_cons_of_mem _ List.mem_cons_self, .inl (by decide)⟩
  exact ⟨f, root, t, c, d, w, k, hparse, htree, hplain, hrun, hd, hconv, hat, hw, hk⟩

end Pass.Environment

end Lowering
