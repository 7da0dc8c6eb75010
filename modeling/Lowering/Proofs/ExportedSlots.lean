import Lowering.Proofs.SharedSlots

namespace Lowering

theorem Tree.names_at {t u : Tree Mark} (h : t.at? p = some u) : ∀ x ∈ u.names, x ∈ t.names := by
  induction p generalizing t with
  | nil =>
    obtain rfl := Option.some.inj h
    exact fun _ hx => hx
  | cons i p ih =>
    obtain ⟨s, hs, hu⟩ := Option.bind_eq_some_iff.mp h
    exact fun x hx => names_parts (List.mem_of_getElem? hs) x (ih hu x hx)

theorem Block.mem_names {b : Block} (h : b.at? p = some (.leaf (.sym name))) :
    name ∈ b.stmts.flatMap Tree.names := by
  cases p with
  | nil => cases h
  | cons i p =>
    obtain ⟨t, hi, hat⟩ := Option.bind_eq_some_iff.mp h
    exact List.mem_flatMap.mpr
      ⟨t, List.mem_of_getElem? hi, Tree.names_at hat name (by simp [Tree.names])⟩

namespace Pass.Environment

open Forest PassM Scope

variable {f : Forest} {b g : Block} {ws : List Operand} {env : List Text} {info : Int → Closed}
variable {name y key : Text} {p q : List Nat} {id : Int} {u : Tree Mark}

/-- A name with the key of a parameter is that parameter. -/
theorem Named.owned (h : Named f b ws env info) (hy : SourceName y)
    (hat : b.at? p = some (.leaf (.sym y)))
    (hkey : keyOf (blockKeysAt info b p) y = some (exportKey name id)) :
    y = name ∧ ∃ q p' u g, p = q ++ p' ∧ b.at? q = some u ∧ u.closure? = some (id, g.params) ∧
      u.block? = some g ∧ g.Owns name p' := by
  cases p with
  | nil => cases hat
  | cons i p =>
    obtain ⟨t, hi, -⟩ := Option.bind_eq_some_iff.mp hat
    have hfrom := (lookup_keysAt y p fun q u id params (hu : t.at? q = some u) =>
      h.own (i :: q) u id params (by rw [Block.at?, hi]; exact hu)).2
    rw [blockKeysAt, hi, keyOf] at hkey
    dsimp only at hkey
    cases hlookup : (keysAt info [] t p).lookup y with
    | none =>
      rw [hlookup] at hkey
      exact absurd (Option.some.inj hkey ▸ hy) (not_sourceName_exportKey name id)
    | some o =>
      rw [hlookup] at hkey
      obtain rfl : o = some (exportKey name id) := hkey
      obtain ⟨-, q, p', u, id', g, rfl, hu, hc, hg, howns, heq⟩ := hfrom _ hlookup
      obtain ⟨rfl, rfl⟩ := exportKey_injective heq
      exact ⟨rfl, i :: q, p', u, g, rfl, by rw [Block.at?, hi]; exact hu, hc, hg, howns⟩

/-- A parameter of a closure has no key but its own. -/
theorem Named.key_param (h : Named f b ws env info) (hu : b.at? q = some u)
    (hc : u.closure? = some (id, params)) (hmem : name ∈ params)
    (hkey : keyOf (keysAround info b q) name = some key) : key = exportKey name id := by
  obtain ⟨hnone, hsome⟩ := lookup_closureKeys_iff (info id) params name
  simp only [keysAround, hu, keyOf, keysIn, hc, List.lookup_append] at hkey
  cases hlookup : (closureKeys (info id) params).lookup name with
  | none => exact absurd hmem (hnone hlookup)
  | some o =>
    simp only [hlookup, Option.some_or] at hkey
    rw [(hsome key (hkey ▸ hlookup)).2, h.own q u id params hu hc]

theorem Named.key_owns (h : Named f b ws env info) (hu : b.at? q = some u)
    (hc : u.closure? = some (id, g.params)) (hg : u.block? = some g) (hs : isSpecial name = false)
    (hat : b.at? (q ++ p) = some (.leaf (.sym name))) (howns : g.Owns name p)
    (hkey : keyOf (blockKeysAt info b (q ++ p)) name = some key) : key = exportKey name id := by
  obtain ⟨hmem, inner, l, hlevels, hfree⟩ := howns
  have hblock := Block.block?_of_at? hu hg
  cases p with
  | nil => simp [Block.levelsAt] at hlevels
  | cons i p =>
    rw [Block.at?_block hblock] at hat
    obtain ⟨t, hi, -⟩ := Option.bind_eq_some_iff.mp hat
    have hl : name ∈ l.params := (levelsAt_split hi hlevels).2.1 ▸ hmem
    rw [(h.key_of_means hblock hs ⟨hat, inner, l, hlevels, hfree, .inl hl⟩).2] at hkey
    exact h.key_param hu hc hmem hkey

theorem Named.key_of_slot {w : Operand} {i : Nat} (h : Named f b ws env info)
    (hat : b.at? p = some (.leaf (.sym name))) (hw : blockOutAt f b ws p = some w)
    (hi : IsSlot f w i) :
    ∃ key k, keyOf (blockKeysAt info b p) name = some key ∧ env.idxOf? key = some k ∧
      Int64.ofNat k = Int64.ofNat i := by
  obtain ⟨v, hv, hslot⟩ := h.slot p name hat
  obtain rfl : v = w := Option.mem_unique hv hw
  obtain ⟨k, hk, heq⟩ := (hslot i).mp hi
  obtain ⟨key, hkey, hidx⟩ := Option.bind_eq_some_iff.mp hk
  exact ⟨key, k, hkey, hidx, heq⟩

variable {root : Int} {t : Tree Mark} {options : Options} {c : Context} {v : Unit}

/-- Keys of parameters are different for different parameters and closures, and different from all
names, if these hold no `#`. So a name that is a parameter of a closure and has a slot has it alone:
where a name is the same slot, it is the same parameter. -/
theorem exported_apart {file source : Text} (hparse : parse file source = .ok (f, root))
    (htree : f.tree root = .ok t) (hplain : ∀ name ∈ t.names, SourceName name)
    (hfew : t.names.length + 2 ≤ 2 ^ 64) (hrun : run root (.ofForest f options) = .ok v c)
    (hb : BodyOf c.forest root t b ws) :
    (∀ name name' id id', exportKey name id = exportKey name' id' → name = name' ∧ id = id') ∧
    (∀ name id, ∀ x ∈ t.names, exportKey name id ≠ x) ∧
    ∀ q g name p y p' w w' i j, b.block? q = some g → q ≠ [] → isSpecial name = false →
      b.at? (q ++ p) = some (.leaf (.sym name)) → g.Owns name p →
      b.at? p' = some (.leaf (.sym y)) → blockOutAt c.forest b ws (q ++ p) = some w →
      blockOutAt c.forest b ws p' = some w' → IsSlot c.forest w i → IsSlot c.forest w' j →
      Int64.ofNat i = Int64.ofNat j → y = name ∧ ∃ p1, p' = q ++ p1 ∧ g.Owns name p1 := by
  refine ⟨fun _ _ _ _ => exportKey_injective, fun name id x hx heq => ?_, ?_⟩
  · exact not_sourceName_exportKey name id (heq ▸ hplain x hx)
  intro q g name p y p' w w' i j hg hq hs hat howns hat' hw hw' hi hj heq
  obtain ⟨b', env, info, halike, hwithin, henv, hnamed⟩ :=
    hb.named (parse_source hparse htree) hrun
  have hlen : env.length ≤ 2 ^ 64 := by
    have := henv.length
    have := hwithin.names.length_le
    omega
  rw [← halike.leaf] at hat hat'
  rw [← halike.out] at hw hw'
  obtain ⟨u, id, hu, hc, hblock⟩ : ∃ u id, b'.at? q = some u ∧ u.closure? = some (id, g.params) ∧
      u.block? = some g := by
    obtain ⟨k, q, rfl⟩ := List.exists_cons_of_ne_nil hq
    rw [← halike.inner] at hg
    obtain ⟨u, hu, hblock⟩ := Option.bind_eq_some_iff.mp hg
    obtain ⟨id, params, hc, rfl⟩ := Tree.block?_eq_some.mp hblock
    exact ⟨u, id, hu, hc, hblock⟩
  obtain ⟨key, k, hkey, hidx, hk⟩ := hnamed.key_of_slot hat hw hi
  obtain ⟨key', k', hkey', hidx', hk'⟩ := hnamed.key_of_slot hat' hw' hj
  obtain rfl := hnamed.key_owns hu hc hblock hs hat howns hkey
  rw [← hk, ← hk', slot_eq_iff hlen hidx hidx'] at heq
  have hy : SourceName y := hplain y (hwithin.names.subset (Block.mem_names hat'))
  obtain ⟨rfl, q', p1, u', g', rfl, hu', hc', hblock', howns'⟩ := hnamed.owned hy hat' (heq ▸ hkey')
  obtain rfl := Block.place_unique hwithin.nodup hu hu' hc hc'
  obtain rfl := Option.mem_unique hu hu'
  obtain rfl := Option.mem_unique hblock hblock'
  exact ⟨rfl, p1, rfl, howns'⟩

/-- A closure shares a parameter, and the function a variable of another name. -/
def twoNames : Text :=
  "(defm f () ((assign y 1) (lambda (x) (lambda () (x))) (lambda () (y))))"

theorem exported_apart_twoNames : ∃ f root t c d w i, parse "" twoNames = .ok (f, root) ∧
    f.tree root = .ok t ∧ (∀ name ∈ t.names, SourceName name) ∧
    run root (.ofForest f {}) = .ok () c ∧
    d ∈ t.definitions ∧
    blockOutAt c.forest d.function (definitionOutput c.forest d) [1, 0, 0] = some w ∧
    IsSlot c.forest w i ∧
    ∀ p y w' j, d.function.at? p = some (.leaf (.sym y)) →
      blockOutAt c.forest d.function (definitionOutput c.forest d) p = some w' →
      IsSlot c.forest w' j → Int64.ofNat i = Int64.ofNat j → y = "x" := by
  have htest : testFunction twoNames (fun t c d => t.names.length ≤ 100 ∧
      (∀ name ∈ t.names, 0x23 ∉ name.bytes) ∧
      (d.function.at? [1, 0, 0]).bind Tree.symbol? = some "x" ∧
      (d.function.block? [1]).any (fun g => ("x" : Text) ∈ g.params ∧ g.levelsAt [0, 0] =
        [⟨[], [], []⟩, ⟨["x"], [], []⟩]) ∧
      (blockOutAt c.forest d.function (definitionOutput c.forest d) [1, 0, 0]).any
        (IsSlot c.forest · 1)) = true := by decide +kernel
  obtain ⟨f, root, t, c, d, hparse, htree, hrun, hd, htest⟩ := of_testFunction htest
  obtain ⟨hfew, hplain, hat, hblock, hslot⟩ := of_decide_eq_true htest
  obtain ⟨g, hg, hown⟩ := (Option.any_eq_true _ _).mp hblock
  obtain ⟨w, hw, hi⟩ := (Option.any_eq_true _ _).mp hslot
  obtain ⟨hmem, hlevels⟩ := of_decide_eq_true hown
  have hi := of_decide_eq_true hi
  have howns : g.Owns "x" [0, 0] := ⟨hmem, [⟨[], [], []⟩], _, hlevels, by simp⟩
  refine ⟨f, root, t, c, d, w, 1, hparse, htree, hplain, hrun, hd, hw, hi,
    fun p y w' j hat' hw' hj heq => ?_⟩
  obtain ⟨-, -, halone⟩ := exported_apart hparse htree hplain (by omega) hrun (.function hd)
  exact (halone [1] g "x" [0, 0] y p w w' 1 j hg (by decide) (by decide)
    (Block.at?_of_symbol hat) howns hat' hw hw' hi hj heq).1

/-- A variable with the key of the parameter of the closure, which is node 7, as its name. -/
def keyAsName : Text :=
  "(defm f () ((assign x#7 1) (lambda (x) (lambda () (x))) (lambda () (x#7))))"

/-- The parameter and the variable have one slot. -/
theorem one_slot_keyAsName : ∃ f root t c d g w w', parse "" keyAsName = .ok (f, root) ∧
    f.tree root = .ok t ∧ run root (.ofForest f {}) = .ok () c ∧ d ∈ t.definitions ∧
    exportKey "x" 7 ∈ t.names ∧ d.function.block? [1] = some g ∧ ("x" : Text) ∈ g.params ∧
    d.function.at? [1, 0, 0] = some (.leaf (.sym "x")) ∧
    d.function.at? [2, 0] = some (.leaf (.sym (exportKey "x" 7))) ∧
    blockOutAt c.forest d.function (definitionOutput c.forest d) [1, 0, 0] = some w ∧
    blockOutAt c.forest d.function (definitionOutput c.forest d) [2, 0] = some w' ∧
    IsSlot c.forest w 1 ∧ IsSlot c.forest w' 1 := by
  have htest : testFunction keyAsName (fun t c d => exportKey "x" 7 ∈ t.names ∧
      (d.function.block? [1]).any (fun g => ("x" : Text) ∈ g.params) ∧
      (d.function.at? [1, 0, 0]).bind Tree.symbol? = some "x" ∧
      (d.function.at? [2, 0]).bind Tree.symbol? = some (exportKey "x" 7) ∧
      (blockOutAt c.forest d.function (definitionOutput c.forest d) [1, 0, 0]).any
        (IsSlot c.forest · 1) ∧
      (blockOutAt c.forest d.function (definitionOutput c.forest d) [2, 0]).any
        (IsSlot c.forest · 1)) = true := by decide +kernel
  obtain ⟨f, root, t, c, d, hparse, htree, hrun, hd, htest⟩ := of_testFunction htest
  obtain ⟨hname, hg, hat, hat', hslot, hslot'⟩ := of_decide_eq_true htest
  obtain ⟨g, hg, hmem⟩ := (Option.any_eq_true _ _).mp hg
  obtain ⟨w, hw, hi⟩ := (Option.any_eq_true _ _).mp hslot
  obtain ⟨w', hw', hj⟩ := (Option.any_eq_true _ _).mp hslot'
  exact ⟨f, root, t, c, d, g, w, w', hparse, htree, hrun, hd, hname, hg, of_decide_eq_true hmem,
    Block.at?_of_symbol hat, Block.at?_of_symbol hat', hw, hw', of_decide_eq_true hi,
    of_decide_eq_true hj⟩

end Pass.Environment

end Lowering
