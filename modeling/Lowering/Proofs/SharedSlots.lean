import Lowering.Proofs.ClosureConversion

namespace Lowering

namespace Tree

variable {t u u' : Tree Mark} {x : Int}

theorem root_ne_below {i : Nat} (hd : t.ids.Nodup) (hs : t.parts[i]? = some s)
    (hu : s.at? q = some u) (hroot : u.root ∈ u.ids) : t.root ≠ u.root := by
  have hmem : u.root ∈ t.operands.flatMap ids := t.parts_sublist.subset
    (List.mem_flatMap.mpr ⟨s, List.mem_of_getElem? hs, ids_subset_at hu _ hroot⟩)
  cases t with
  | leaf a => cases hmem
  | node mark tag args =>
    rw [ids_node] at hd
    intro he
    rw [← he] at hmem
    exact (List.nodup_cons.mp hd).1 hmem

theorem place_unique {q q' : List Nat} (hd : t.ids.Nodup) (hu : t.at? q = some u)
    (hu' : t.at? q' = some u') (hroot : u.root ∈ u.ids) (hroot' : u'.root ∈ u'.ids)
    (heq : u.root = u'.root) : q = q' := by
  induction q generalizing t q' with
  | nil =>
    obtain rfl := Option.some.inj hu
    cases q' with
    | nil => rfl
    | cons j q' =>
      obtain ⟨s', hs', hu'⟩ := Option.bind_eq_some_iff.mp hu'
      exact absurd heq (root_ne_below hd hs' hu' hroot')
  | cons i q ih =>
    obtain ⟨s, hs, hu⟩ := Option.bind_eq_some_iff.mp hu
    cases q' with
    | nil =>
      obtain rfl := Option.some.inj hu'
      exact absurd heq.symm (root_ne_below hd hs hu hroot)
    | cons j q' =>
      obtain ⟨s', hs', hu'⟩ := Option.bind_eq_some_iff.mp hu'
      have hparts := nodup_parts hd
      obtain rfl := index_unique hparts hs hs' (ids_subset_at hu _ hroot)
        (heq ▸ ids_subset_at hu' _ hroot')
      obtain rfl : s = s' := Option.mem_unique hs hs'
      rw [ih ((List.nodup_flatMap.mp hparts).1 s (List.mem_of_getElem? hs)) hu hu']

theorem closure?_root {id : Int} (h : t.closure? = some (id, params)) :
    t.root = id ∧ t.root ∈ t.ids := by
  cases t with
  | leaf a => cases h
  | node mark tag args =>
    obtain ⟨-, rfl, -⟩ := closure?_eq_some.mp h
    exact ⟨rfl, by rw [ids_node]; exact List.mem_cons_self⟩

end Tree

theorem Block.place_unique {b : Block} {q q' : List Nat} {u u' : Tree Mark} {id : Int}
    {params params' : List Text} (hd : (b.stmts.flatMap Tree.ids).Nodup) (hu : b.at? q = some u)
    (hu' : b.at? q' = some u') (hc : u.closure? = some (id, params))
    (hc' : u'.closure? = some (id, params')) : q = q' := by
  obtain ⟨hid, hroot⟩ := Tree.closure?_root hc
  obtain ⟨hid', hroot'⟩ := Tree.closure?_root hc'
  cases q with
  | nil => cases hu
  | cons i q =>
    cases q' with
    | nil => cases hu'
    | cons j q' =>
      obtain ⟨t, ht, hu⟩ := Option.bind_eq_some_iff.mp hu
      obtain ⟨t', ht', hu'⟩ := Option.bind_eq_some_iff.mp hu'
      have hsame := hid.trans hid'.symm
      obtain rfl := Tree.index_unique hd ht ht' (Tree.ids_subset_at hu _ hroot)
        (hsame ▸ Tree.ids_subset_at hu' _ hroot')
      obtain rfl : t = t' := Option.mem_unique ht ht'
      rw [Tree.place_unique ((List.nodup_flatMap.mp hd).1 t (List.mem_of_getElem? ht)) hu hu' hroot
        hroot' hsame]

theorem Block.block?_of_at? {b g : Block} {q : List Nat} {u : Tree Mark} (hu : b.at? q = some u)
    (hg : u.block? = some g) : b.block? q = some g := by
  cases q with
  | nil => cases hu
  | cons i q =>
    rw [Block.block?, hu, Option.bind_some, hg]
    exact List.cons_ne_nil i q

/-- A name at a place in a block is a parameter of the block and of no closure in between. -/
def Block.Owns (g : Block) (name : Text) (p : List Nat) : Prop :=
  name ∈ g.params ∧ ∃ inner l, g.levelsAt p = inner ++ [l] ∧ ∀ m ∈ inner, name ∉ m.params

theorem Names.length_add (names : List Text) (name : Text) :
    (add names name).length ≤ names.length + 1 := by
  unfold add
  split <;> simp

namespace Scope

open Pass.Environment

variable {info : Int → Closed} {name : Text}

theorem exportKey_ne (name : Text) (id : Int) : exportKey name id ≠ name := by
  intro h
  have hlen := congrArg (fun text : Text => text.bytes.length) h
  have hash : (Text.ofString "#").bytes.length = 1 := by decide
  simp only [exportKey, Text.bytes_append, List.length_append, hash] at hlen
  omega

/-- The last `#` of a key ends the name. -/
theorem exportKey_injective {id id' : Int} (h : exportKey name id = exportKey name' id') :
    name = name' ∧ id = id' := by
  have hdigits : ∀ i : Int, (0x23 : UInt8) ∉ (Decimal.ofInt i).bytes := by
    intro i hi
    rcases (Decimal.bytes_ofInt i).2 _ hi with h | h
    · cases h
    · cases h
  have cut : ∀ {a a' d d' : List UInt8}, 0x23 ∉ d →
      (∃ rest, a' = a ++ rest ∧ 0x23 :: d = rest ++ 0x23 :: d') → a = a' ∧ d = d' := by
    rintro a _ d d' hd ⟨rest, rfl, heq⟩
    cases rest with
    | nil => simpa using heq
    | cons x rest =>
      obtain ⟨-, rfl⟩ := List.cons.inj heq
      simp at hd
  have hbytes := congrArg Text.bytes h
  simp only [exportKey, Text.bytes_append, show (Text.ofString "#").bytes = [0x23] by decide,
    List.append_assoc, List.singleton_append] at hbytes
  obtain ⟨hname, htext⟩ : name.bytes = name'.bytes ∧
      (Decimal.ofInt id).bytes = (Decimal.ofInt id').bytes := by
    rcases List.append_eq_append_iff.mp hbytes with hrest | hrest
    · exact cut (hdigits id) hrest
    · exact (cut (hdigits id') hrest).imp Eq.symm Eq.symm
  have text : ∀ {a b : Text}, a.bytes = b.bytes → a = b := by
    rintro ⟨_⟩ ⟨_⟩ rfl
    rfl
  have hread := congrArg Decimal.toInt? (text htext)
  rw [Decimal.toInt?_ofInt, Decimal.toInt?_ofInt] at hread
  exact ⟨text hname, Option.some.inj hread⟩

/-- A closure gives a key to its parameters only, and has an entry for each of them. -/
theorem lookup_closureKeys_iff (cl : Closed) (params : List Text) (name : Text) :
    ((closureKeys cl params).lookup name = none → name ∉ params) ∧
    ∀ key, (closureKeys cl params).lookup name = some (some key) →
      name ∈ params ∧ key = exportKey name cl.id := by
  rw [lookup_closureKeys]
  by_cases hvar : name ∈ cl.vars
  · simp [hvar]
  by_cases hparam : name ∈ params
  · by_cases hexport : name ∈ cl.exports
    · simp [hvar, hparam, hexport, eq_comm]
    · simp [hvar, hparam, hexport]
  · simp [hvar, hparam]

/-- Where the key of a name comes from: the innermost closure around the place that has it as a
parameter. -/
theorem lookup_keysAt (name : Text) (p : List Nat)
    (hown : ∀ q u id params, t.at? q = some u → u.closure? = some (id, params) →
      (info id).id = id) :
    ((keysAt info [] t p).lookup name = none → ∀ l ∈ t.levelsAt [] p, name ∉ l.params) ∧
    ∀ key, (keysAt info [] t p).lookup name = some (some key) →
      (∃ l ∈ t.levelsAt [] p, name ∈ l.params) ∧ ∃ q p' u id g, p = q ++ p' ∧ t.at? q = some u ∧
        u.closure? = some (id, g.params) ∧ u.block? = some g ∧ g.Owns name p' ∧
        key = exportKey name id := by
  induction p generalizing t with
  | nil => simp [keysAt, Tree.levelsAt]
  | cons i p ih =>
    cases hi : t.parts[i]? with
    | none => simp [keysAt, Tree.levelsAt, hi]
    | some s =>
      obtain ⟨hnone, hsome⟩ := ih fun q u id params (hu : s.at? q = some u) =>
        hown (i :: q) u id params (by rw [Tree.at?, hi]; exact hu)
      simp only [keysAt, Tree.levelsAt, hi]
      rw [keysAt_eq, List.lookup_append, Tree.levelsAt_eq]
      cases hkey : (keysAt info [] s p).lookup name with
      | some o =>
        refine ⟨(fun h => by cases h), fun key h => ?_⟩
        rw [Option.some_or] at h
        obtain ⟨⟨l, hl, hname⟩, q, p', u, id, g, rfl, hu, hfound⟩ := hsome key (hkey.trans h)
        refine ⟨⟨l, List.mem_append_left _ hl, hname⟩, i :: q, p', u, id, g, rfl, ?_, hfound⟩
        rw [Tree.at?, hi]
        exact hu
      | none =>
        -- no closure further in has the name, so it is up to this node
        rw [Option.none_or]
        unfold keysIn Tree.levelsIn
        cases hc : t.closure? with
        | none => simpa using hnone hkey
        | some e =>
          obtain ⟨id, params⟩ := e
          obtain ⟨hout, hin⟩ := lookup_closureKeys_iff (info id) params name
          simp only [List.append_nil, List.modify_zero_cons]
          constructor
          · intro h l hl
            obtain hl | hl := List.mem_append.mp hl
            · exact hnone hkey l hl
            · rw [List.mem_singleton.mp hl]
              exact hout h
          · intro key h
            obtain ⟨hmem, rfl⟩ := hin key h
            rw [hown [] t id params rfl hc]
            refine ⟨⟨_, List.mem_append_right _ List.mem_cons_self, hmem⟩, [], i :: p, t, id,
              ⟨params, t.parts⟩, rfl, rfl, hc, by rw [Tree.block?, hc]; rfl, ?_, rfl⟩
            exact ⟨hmem, _, _, Block.levelsAt_cons hi p, hnone hkey⟩

/-- A tree uses no more names than there are in it. -/
theorem uses_sublist (t : Tree Mark) : ((events t).filterMap use?).Sublist t.names := by
  induction t with
  | leaf a => cases a <;> exact .refl _
  | node mark tag args ih =>
    rw [events_node, Tree.names_node]
    split
    · exact List.nil_sublist _
    · split
      · exact List.nil_sublist _
      · obtain ⟨params, hsub⟩ := filterMap_nodeEvents (g := use?) rfl (fun _ => rfl) mark tag args
          (args.map events)
        refine hsub.trans ?_
        rw [← List.flatMap_def, show (use? (.enter mark.id params)).toList = [] from rfl,
          List.nil_append, List.filterMap_flatMap]
        exact Tree.flatMap_sublist ih

namespace Resolver

/-- Every use captures one key at most. -/
theorem length_captures (es : List Event) (r : Resolver) :
    (es.foldl step r).captures.length ≤ r.captures.length + (es.filterMap use?).length := by
  induction es generalizing r with
  | nil => exact Nat.le_refl _
  | cons e es ih =>
    refine Nat.le_trans (ih (r.step e)) ?_
    have hstep := r.step_spec e
    generalize r.step e = r' at hstep
    cases hstep with
    | @captured name _ _ _ _ _ key =>
      have hadd := Names.length_add r.captures key
      rw [List.filterMap_cons_some (show use? (.use name) = some name from rfl), List.length_cons]
      simp only
      omega
    | kept | defined | entered | left =>
      exact Nat.add_le_add_left ((List.sublist_cons_self _ es).filterMap use?).length_le _

end Resolver

end Scope

namespace Pass.Environment

open Forest PassM Scope

variable {f : Forest} {b : Block} {ws : List Operand} {env : List Text} {info : Int → Closed}

theorem length_slots (captures : List Text) : (slots captures).length ≤ captures.length + 2 := by
  have hadd : ∀ (names acc : List Text),
      (names.foldl Names.add acc).length ≤ acc.length + names.length := by
    intro names
    induction names with
    | nil => exact fun acc => Nat.le_refl _
    | cons x names ih =>
      intro acc
      have := ih (Names.add acc x)
      have := Names.length_add acc x
      rw [List.foldl_cons, List.length_cons]
      omega
  exact (hadd (stackframeName :: captures ++ [closureName]) []).trans (by simp)

/-- There are no more slots than names, but for two. -/
theorem EnvOf.length (h : EnvOf b env) : env.length ≤ (b.stmts.flatMap Tree.names).length + 2 := by
  have hcaptures := Resolver.length_captures (b.stmts.flatMap events) (.start b.params)
  have huses : ((b.stmts.flatMap events).filterMap use?).length ≤
      (b.stmts.flatMap Tree.names).length := by
    rw [List.filterMap_flatMap]
    exact (Tree.flatMap_sublist fun t _ => uses_sublist t).length_le
  rw [Resolver.foldl_events] at hcaptures
  have hstart : (Resolver.start b.params).captures.length = 0 := rfl
  cases h with
  | slots =>
    have := length_slots ((Resolver.start b.params).readAll b.stmts).captures
    unfold Block.captures Block.reading
    omega
  | absent => exact Nat.zero_le _

/-- The key of a name that is a slot: the name itself, if no closure around has it as a parameter,
or else the key of such a closure. -/
theorem Named.key_cases {p : List Nat} {name key : Text} (h : Named f b ws env info)
    (hat : b.at? p = some (.leaf (.sym name))) (hfree : name ∉ b.params)
    (hkey : keyOf (blockKeysAt info b p) name = some key) :
    key = name ∧ (∀ l ∈ b.levelsAt p, name ∉ l.params) ∨
    (∃ l ∈ b.levelsAt p, name ∈ l.params) ∧ ∃ q p' u id g, p = q ++ p' ∧ b.at? q = some u ∧
      u.closure? = some (id, g.params) ∧ u.block? = some g ∧ g.Owns name p' ∧
      key = exportKey name id := by
  cases p with
  | nil => cases hat
  | cons i p =>
    obtain ⟨t, hi, -⟩ := Option.bind_eq_some_iff.mp hat
    obtain ⟨hnone, hsome⟩ := lookup_keysAt name p fun q u id params (hu : t.at? q = some u) =>
      h.own (i :: q) u id params (by rw [Block.at?, hi]; exact hu)
    rw [blockKeysAt, hi, keyOf] at hkey
    rw [Block.levelsAt_cons hi]
    dsimp only at hkey
    cases hlookup : (keysAt info [] t p).lookup name with
    | none =>
      rw [hlookup] at hkey
      refine .inl ⟨(Option.some.inj hkey).symm, fun l hl => ?_⟩
      obtain hl | hl := List.mem_append.mp hl
      · exact hnone hlookup l hl
      · rw [List.mem_singleton] at hl
        rw [hl]
        exact hfree
    | some o =>
      rw [hlookup] at hkey
      obtain ⟨⟨l, hl, hname⟩, q, p', u, id, g, rfl, hu, hfound⟩ := hsome key (hkey ▸ hlookup)
      refine .inr ⟨⟨l, List.mem_append_left _ hl, hname⟩, i :: q, p', u, id, g, rfl, ?_, hfound⟩
      rw [Block.at?, hi]
      exact hu

/-- A name at two places, which lie in parts of a block of which neither is in the other, such as
two closures; and no function or closure around both has the name as a parameter. -/
structure PlacesApart (b : Block) (name : Text) (a p a' p' : List Nat) : Prop where
  here : b.at? (a ++ p) = some (.leaf (.sym name))
  there : b.at? (a' ++ p') = some (.leaf (.sym name))
  notInside : ¬ a <+: a'
  notAround : ¬ a' <+: a
  free : ∀ q g, b.block? q = some g → q <+: a → q <+: a' → name ∉ g.params

theorem PlacesApart.symm {a a' p p' : List Nat} {name : Text} (h : PlacesApart b name a p a' p') :
    PlacesApart b name a' p' a p :=
  ⟨h.there, h.here, h.notAround, h.notInside, fun q g hg hq hq' => h.free q g hg hq' hq⟩

/-- What lies around both places lies around both parts. -/
theorem PlacesApart.around {a a' p p' q : List Nat} {name : Text} (h : PlacesApart b name a p a' p')
    (hq : q <+: a ++ p) (hq' : q <+: a' ++ p') : q <+: a := by
  obtain hqa | haq := List.prefix_or_prefix_of_prefix hq (List.prefix_append a p)
  · exact hqa
  · obtain haa | haa := List.prefix_or_prefix_of_prefix (haq.trans hq') (List.prefix_append a' p')
    · exact absurd haa h.notInside
    · exact absurd haa h.notAround

/-- The keys at the two places are one key if no closure has the name as a parameter. -/
theorem Named.key_eq_iff {a a' p p' : List Nat} {name key key' : Text} (h : Named f b ws env info)
    (hd : (b.stmts.flatMap Tree.ids).Nodup) (hap : PlacesApart b name a p a' p')
    (hkey : keyOf (blockKeysAt info b (a ++ p)) name = some key)
    (hkey' : keyOf (blockKeysAt info b (a' ++ p')) name = some key') :
    key = key' ↔ (∀ l ∈ b.levelsAt (a ++ p), name ∉ l.params) ∧
      ∀ l ∈ b.levelsAt (a' ++ p'), name ∉ l.params := by
  have hfree : name ∉ b.params := hap.free [] b rfl List.nil_prefix List.nil_prefix
  obtain ⟨rfl, hnone⟩ | ⟨⟨l, hl, hname⟩, q, p0, u, id, g, hq, hu, hc, hg, hmem, rfl⟩ :=
    h.key_cases hap.here hfree hkey
  · obtain ⟨rfl, hnone'⟩ | ⟨⟨l, hl, hname⟩, -, -, -, id, -, -, -, -, -, -, rfl⟩ :=
      h.key_cases hap.there hfree hkey'
    · exact ⟨fun _ => ⟨hnone, hnone'⟩, fun _ => rfl⟩
    · exact ⟨fun he => absurd he.symm (exportKey_ne _ id), fun hall => absurd hname (hall.2 l hl)⟩
  · refine ⟨fun he => ?_, fun hall => absurd hname (hall.1 l hl)⟩
    obtain ⟨rfl, -⟩ | ⟨-, q', p1, u', id', g', hq', hu', hc', -, -, rfl⟩ :=
      h.key_cases hap.there hfree hkey'
    · exact absurd he (exportKey_ne _ id)
    · obtain rfl := (exportKey_injective he).2
      -- one closure lies around both places, so the name is none of its parameters
      obtain rfl := Block.place_unique hd hu hu' hc hc'
      refine absurd hmem.1 (hap.free q g (Block.block?_of_at? hu hg) ?_ ?_)
      · exact hap.around ⟨p0, hq.symm⟩ ⟨p1, hq'.symm⟩
      · exact hap.symm.around ⟨p1, hq'.symm⟩ ⟨p0, hq.symm⟩

/-- Two slots are the same if their keys are, as long as there are no more than can be counted. -/
theorem slot_eq_iff (henv : env.length ≤ 2 ^ 64) (hi : env.idxOf? key = some i)
    (hj : env.idxOf? key' = some j) : Int64.ofNat i = Int64.ofNat j ↔ key = key' := by
  obtain ⟨hlt, rfl, -⟩ := List.idxOf?_eq_some_iff.mp hi
  obtain ⟨hlt', rfl, -⟩ := List.idxOf?_eq_some_iff.mp hj
  constructor
  · intro h
    have hbits := congrArg (fun x : Int64 => x.toBitVec.toNat) h
    simp only [Int64.toBitVec_ofNat', BitVec.toNat_ofNat] at hbits
    rw [Nat.mod_eq_of_lt (by omega), Nat.mod_eq_of_lt (by omega)] at hbits
    simp only [hbits]
  · intro h
    rw [h] at hi
    rw [Option.mem_unique hi hj]

variable {root : Int} {t : Tree Mark} {options : Options} {c : Context} {u : Unit}

theorem LooksLike.apart {name : Text} (ha : LooksLike b b') (h : PlacesApart b name a p a' p') :
    PlacesApart b' name a p a' p' where
  here := (ha.leaf _ _).mpr h.here
  there := (ha.leaf _ _).mpr h.there
  notInside := h.notInside
  notAround := h.notAround
  free q g hg hq hq' := by
    cases q with
    | nil =>
      obtain rfl := Option.some.inj hg
      rw [ha.params]
      exact h.free [] b rfl hq hq'
    | cons i q => exact h.free _ g ((ha.inner i q).symm.trans hg) hq hq'

/-- Occurrences of a name in parts of a body that lie apart, if they are slots, are the same slot
exactly if no closure around either has the name as a parameter. -/
theorem same_slot_iff {file source : Text} (hparse : parse file source = .ok (f, root))
    (htree : f.tree root = .ok t) (hfew : t.names.length + 2 ≤ 2 ^ 64)
    (hrun : run root (.ofForest f options) = .ok u c) (hb : BodyOf c.forest root t b ws)
    {name : Text} {a p a' p' : List Nat}
    (hap : PlacesApart b name a p a' p') {w w' : Operand} {i j : Nat}
    (hw : blockOutAt c.forest b ws (a ++ p) = some w)
    (hw' : blockOutAt c.forest b ws (a' ++ p') = some w')
    (hi : IsSlot c.forest w i) (hj : IsSlot c.forest w' j) :
    Int64.ofNat i = Int64.ofNat j ↔ (∀ l ∈ b.levelsAt (a ++ p), name ∉ l.params) ∧
      ∀ l ∈ b.levelsAt (a' ++ p'), name ∉ l.params := by
  obtain ⟨b', env, info, halike, hwithin, henv, hnamed⟩ :=
    hb.named (parse_source hparse htree) hrun
  have hlen : env.length ≤ 2 ^ 64 := by
    have := henv.length
    have := hwithin.names.length_le
    omega
  have hap := halike.apart hap
  obtain ⟨v, hv, hslot⟩ := hnamed.slot _ name hap.here
  obtain ⟨v', hv', hslot'⟩ := hnamed.slot _ name hap.there
  rw [halike.out] at hv hv'
  obtain rfl : v = w := Option.mem_unique hv hw
  obtain rfl : v' = w' := Option.mem_unique hv' hw'
  obtain ⟨i', hi', heq⟩ := (hslot i).mp hi
  obtain ⟨j', hj', heq'⟩ := (hslot' j).mp hj
  obtain ⟨key, hkey, hidx⟩ := Option.bind_eq_some_iff.mp hi'
  obtain ⟨key', hkey', hidx'⟩ := Option.bind_eq_some_iff.mp hj'
  rw [← heq, ← heq', slot_eq_iff hlen hidx hidx', ← halike.levels, ← halike.levels]
  exact hnamed.key_eq_iff hwithin.nodup hap hkey hkey'

/-- What lies around the first two statements of a block is the block. -/
theorem placesApart_first {name : Text} (hat : (b.at? ([0] ++ p)).bind Tree.symbol? = some name)
    (hat' : (b.at? ([1] ++ p')).bind Tree.symbol? = some name) (hfree : name ∉ b.params) :
    PlacesApart b name [0] p [1] p' where
  here := Block.at?_of_symbol hat
  there := Block.at?_of_symbol hat'
  notInside := by decide
  notAround := by decide
  free q g hg hq hq' := by
    cases q with
    | nil =>
      obtain rfl := Option.some.inj hg
      exact hfree
    | cons i q =>
      have h0 := (List.cons_prefix_cons.mp hq).1
      have h1 := (List.cons_prefix_cons.mp hq').1
      omega

/-- One of two closures has a parameter and the other one a variable of a name that closures in them
take. -/
def paramAndVariable : Text :=
  "(defm f () ((lambda (y) (lambda () (y))) (lambda () ((assign y 2) (lambda () (y))))))"

theorem same_slot_iff_paramAndVariable : ∃ f root t c d w w' i j,
    parse "" paramAndVariable = .ok (f, root) ∧ f.tree root = .ok t ∧
    t.names.length + 2 ≤ 2 ^ 64 ∧ run root (.ofForest f {}) = .ok () c ∧ d ∈ t.definitions ∧
    PlacesApart d.function "y" [0] [0, 0] [1] [1, 0] ∧
    blockOutAt c.forest d.function (definitionOutput c.forest d) [0, 0, 0] = some w ∧
    blockOutAt c.forest d.function (definitionOutput c.forest d) [1, 1, 0] = some w' ∧
    IsSlot c.forest w i ∧ IsSlot c.forest w' j ∧ Int64.ofNat i ≠ Int64.ofNat j := by
  have htest : testFunction paramAndVariable (fun t c d =>
      t.names.length ≤ 100 ∧ ("y" : Text) ∉ d.function.params ∧
      (d.function.at? [0, 0, 0]).bind Tree.symbol? = some "y" ∧
      (d.function.at? [1, 1, 0]).bind Tree.symbol? = some "y" ∧
      (∃ l ∈ d.function.levelsAt [0, 0, 0], ("y" : Text) ∈ l.params) ∧
      (blockOutAt c.forest d.function (definitionOutput c.forest d) [0, 0, 0]).any
        (IsSlot c.forest · 1) ∧
      (blockOutAt c.forest d.function (definitionOutput c.forest d) [1, 1, 0]).any
        (IsSlot c.forest · 2)) = true := by decide +kernel
  obtain ⟨f, root, t, c, d, hparse, htree, hrun, hd, htest⟩ := of_testFunction htest
  obtain ⟨hfew, hfree, hat, hat', ⟨l, hl, hparam⟩, hslot, hslot'⟩ := of_decide_eq_true htest
  obtain ⟨w, hw, hi⟩ := (Option.any_eq_true _ _).mp hslot
  obtain ⟨w', hw', hj⟩ := (Option.any_eq_true _ _).mp hslot'
  have hap : PlacesApart d.function "y" [0] [0, 0] [1] [1, 0] := placesApart_first hat hat' hfree
  have hi := of_decide_eq_true hi
  have hj := of_decide_eq_true hj
  have hiff := same_slot_iff hparse htree (by omega) hrun (.function hd) hap hw hw' hi hj
  refine ⟨f, root, t, c, d, w, w', 1, 2, hparse, htree, by omega, hrun, hd, hap, hw, hw', hi, hj,
    ?_⟩
  exact fun he => (hiff.mp he).1 l hl hparam

/-- Two closures, each with a variable of its own that a closure in it takes. -/
def twoVariables : Text :=
  "(defm f () ((lambda () ((assign y 1) (lambda () (y))))
    (lambda () ((assign y 2) (lambda () (y))))))"

/-- The two variables have one slot. -/
theorem one_slot_twoVariables : ∃ f root t c d g g' w w', parse "" twoVariables = .ok (f, root) ∧
    f.tree root = .ok t ∧ run root (.ofForest f {}) = .ok () c ∧ d ∈ t.definitions ∧
    d.function.block? [0] = some g ∧ d.function.block? [1] = some g' ∧
    ("y" : Text) ∈ g.stmts.flatMap Tree.assigned ∧ ("y" : Text) ∈ g'.stmts.flatMap Tree.assigned ∧
    ("y" : Text) ∉ d.function.params ∧ ("y" : Text) ∉ d.function.stmts.flatMap Tree.assigned ∧
    PlacesApart d.function "y" [0] [1, 0] [1] [1, 0] ∧
    blockOutAt c.forest d.function (definitionOutput c.forest d) [0, 1, 0] = some w ∧
    blockOutAt c.forest d.function (definitionOutput c.forest d) [1, 1, 0] = some w' ∧
    IsSlot c.forest w 1 ∧ IsSlot c.forest w' 1 := by
  have htest : testFunction twoVariables (fun _ c d =>
      (d.function.block? [0]).any (fun g => ("y" : Text) ∈ g.stmts.flatMap Tree.assigned) ∧
      (d.function.block? [1]).any (fun g => ("y" : Text) ∈ g.stmts.flatMap Tree.assigned) ∧
      ("y" : Text) ∉ d.function.params ∧
      ("y" : Text) ∉ d.function.stmts.flatMap Tree.assigned ∧
      (d.function.at? [0, 1, 0]).bind Tree.symbol? = some "y" ∧
      (d.function.at? [1, 1, 0]).bind Tree.symbol? = some "y" ∧
      (blockOutAt c.forest d.function (definitionOutput c.forest d) [0, 1, 0]).any
        (IsSlot c.forest · 1) ∧
      (blockOutAt c.forest d.function (definitionOutput c.forest d) [1, 1, 0]).any
        (IsSlot c.forest · 1)) = true := by decide +kernel
  obtain ⟨f, root, t, c, d, hparse, htree, hrun, hd, htest⟩ := of_testFunction htest
  obtain ⟨hg, hg', hparam, htarget, hat, hat', hslot, hslot'⟩ := of_decide_eq_true htest
  obtain ⟨g, hg, hassigned⟩ := (Option.any_eq_true _ _).mp hg
  obtain ⟨g', hg', hassigned'⟩ := (Option.any_eq_true _ _).mp hg'
  obtain ⟨w, hw, hi⟩ := (Option.any_eq_true _ _).mp hslot
  obtain ⟨w', hw', hj⟩ := (Option.any_eq_true _ _).mp hslot'
  exact ⟨f, root, t, c, d, g, g', w, w', hparse, htree, hrun, hd, hg, hg',
    of_decide_eq_true hassigned, of_decide_eq_true hassigned', hparam, htarget,
    placesApart_first hat hat' hparam, hw, hw', of_decide_eq_true hi, of_decide_eq_true hj⟩

end Pass.Environment

end Lowering
