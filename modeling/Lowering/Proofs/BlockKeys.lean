import Lowering.Proofs.CapturedKeys

namespace Lowering

namespace Tree

theorem at?_append (t : Tree Mark) (p q : List Nat) :
    t.at? (p ++ q) = (t.at? p).bind (·.at? q) := by
  induction p generalizing t with
  | nil => rfl
  | cons i p ih =>
    simp only [List.cons_append, at?]
    cases t.parts[i]? with
    | none => rfl
    | some s => exact ih s

theorem block?_eq_some {t : Tree Mark} : t.block? = some b ↔
    ∃ id params, t.closure? = some (id, params) ∧ b = ⟨params, t.parts⟩ := by
  unfold block?
  cases t.closure? with
  | none => simp
  | some c =>
    constructor
    · intro h
      cases h
      exact ⟨c.1, c.2, rfl, rfl⟩
    · rintro ⟨id, params, ⟨⟩, rfl⟩
      rfl

end Tree

namespace Block

theorem block?_cases {b g : Block} (h : b.block? p = some g) :
    p = [] ∧ g = b ∨ ∃ i q t u id, p = i :: q ∧ b.stmts[i]? = some t ∧ t.at? q = some u ∧
      u.closure? = some (id, g.params) ∧ g.stmts = u.parts := by
  cases p with
  | nil => exact .inl ⟨rfl, (Option.some.inj h).symm⟩
  | cons i q =>
    obtain ⟨u, hu, hg⟩ := Option.bind_eq_some_iff.mp h
    obtain ⟨t, ht, hu⟩ := Option.bind_eq_some_iff.mp hu
    obtain ⟨id, params, hc, rfl⟩ := Tree.block?_eq_some.mp hg
    exact .inr ⟨i, q, t, u, id, rfl, ht, hu, hc, rfl⟩

theorem at?_block {b g : Block} (h : b.block? p = some g) (i : Nat) (q : List Nat) :
    b.at? (p ++ i :: q) = g.at? (i :: q) := by
  obtain ⟨rfl, rfl⟩ | ⟨j, p, t, u, id, rfl, ht, hu, -, hstmts⟩ := block?_cases h
  · rfl
  · simp only [List.cons_append, at?, ht, Option.bind_some, Tree.at?_append, hu, Tree.at?, hstmts]

theorem levelsAt_cons {b : Block} (hi : b.stmts[i]? = some t) (p : List Nat) :
    b.levelsAt (i :: p) = t.levelsAt [] p ++
      [{ b.level i with before := (b.level i).before ++ t.beforeAt p }] := by
  rw [levelsAt, hi]
  exact Tree.levelsAt_eq _ t p

end Block

namespace Scope

open Pass.Environment

variable {info : Int → Closed} {b g : Block} {p : List Nat} {name : Text}

/-- The keys in force at a place of a block. -/
def blockKeysAt (info : Int → Closed) (b : Block) : List Nat → Keys
  | [] => []
  | i :: p =>
    match b.stmts[i]? with
    | some t => keysAt info [] t p
    | none => []

/-- The keys around the statements of the block at a place. -/
def keysAround (info : Int → Closed) (b : Block) (p : List Nat) : Keys :=
  match b.at? p with
  | some u => keysIn info u (blockKeysAt info b p)
  | none => []

theorem keysAt_place (h : t.at? p = some u) (keys : Keys) (q : List Nat) :
    keysAt info keys t (p ++ q) = keysAt info (keysAt info keys t p) u q := by
  induction p generalizing t keys with
  | nil =>
    obtain rfl := Option.some.inj h
    rfl
  | cons i p ih =>
    cases hi : t.parts[i]? with
    | none => simp [Tree.at?, hi] at h
    | some s =>
      simp only [Tree.at?, hi, Option.bind_some] at h
      simp only [List.cons_append, keysAt, hi]
      exact ih h _

theorem blockKeysAt_block (h : b.block? p = some g) {i : Nat} (hi : g.stmts[i]? = some s) :
    blockKeysAt info b (p ++ i :: q) = keysAt info [] s q ++ keysAround info b p := by
  obtain ⟨rfl, rfl⟩ | ⟨j, p, t, u, id, rfl, ht, hu, hc, hstmts⟩ := Block.block?_cases h
  · simp [blockKeysAt, hi, keysAround, Block.at?]
  · rw [hstmts] at hi
    simp only [List.cons_append, blockKeysAt, ht, keysAt_place hu, keysAt, hi, keysAround,
      Block.at?, Option.bind_some, hu]
    rw [keysAt_eq]

/-- The resolver as it starts on a block of a function: it knows the parameters, and the closures
of the block that it leaves are among those of the function. -/
structure Begins (r : Resolver) (g : Block) (all : List Closed) : Prop where
  frames : r.frames ≠ []
  params : ∀ x ∈ g.params, r.Known x
  readable : ∀ s ∈ g.stmts, Readable s
  closed : ∀ cl ∈ (r.readAll g.stmts).closed, cl ∈ all

theorem begins_start (h : ∀ s ∈ b.stmts, Readable s) :
    Begins (.start b.params) b ((Resolver.start b.params).readAll b.stmts).closed where
  frames := by simp [Resolver.start]
  params x hx := .inr ⟨_, List.mem_singleton.mpr rfl, .inl hx⟩
  readable := h
  closed _ h := h

/-- A tree in a tree, with the state in which it is read. -/
theorem read_at {r : Resolver} (h : Readable t) (hf : r.frames ≠ []) (hu : t.at? p = some u) :
    ∃ r' : Resolver, Readable u ∧ r'.frames ≠ [] ∧
      ∀ cl ∈ (r'.read u).closed, cl ∈ (r.read t).closed := by
  induction p generalizing r t with
  | nil =>
    obtain rfl := Option.some.inj hu
    exact ⟨r, h, hf, fun _ hcl => hcl⟩
  | cons i p ih =>
    cases hi : t.parts[i]? with
    | none => simp [Tree.at?, hi] at hu
    | some s =>
      simp only [Tree.at?, hi, Option.bind_some] at hu
      have hadv := Resolver.advances_part (r := r) h hi
      have hopened : (r.opened t).frames ≠ [] := by
        unfold Resolver.opened
        split
        · simp [Resolver.enter]
        · exact hf
      have hbefore := Resolver.readAll_advances
        (fun v (hv : v ∈ t.parts.take i) => h.part (List.mem_of_mem_take hv)) (r.opened t)
      obtain ⟨r', hu, hf', hclosed⟩ := ih (h.part (List.mem_of_getElem? hi))
        (hbefore.frames_ne_nil hopened) hu
      refine ⟨r', hu, hf', fun cl hcl => ?_⟩
      rw [Resolver.read_parts h hi]
      exact Resolver.mem_closed_concluded (hadv.mem_closed (hclosed cl hcl))

theorem begins_block (h : ∀ s ∈ b.stmts, Readable s) (hg : b.block? p = some g) :
    ∃ r, Begins r g ((Resolver.start b.params).readAll b.stmts).closed := by
  obtain ⟨rfl, rfl⟩ | ⟨j, p, t, u, id, rfl, ht, hu, hc, hstmts⟩ := Block.block?_cases hg
  · exact ⟨_, begins_start h⟩
  · have hbefore := Resolver.readAll_advances
      (fun v (hv : v ∈ b.stmts.take j) => h v (List.mem_of_mem_take hv)) (.start b.params)
    have hafter := Resolver.readAll_advances
      (fun v (hv : v ∈ b.stmts.drop (j + 1)) => h v (List.mem_of_mem_drop hv))
      (((Resolver.start b.params).readAll (b.stmts.take j)).read t)
    obtain ⟨r, hread, hf, hclosed⟩ := read_at (h t (List.mem_of_getElem? ht))
      (hbefore.frames_ne_nil (by simp [Resolver.start])) hu
    refine ⟨r.enter id g.params, by simp [Resolver.enter], ?_, ?_, ?_⟩
    · exact fun x hx => .inr ⟨_, List.mem_cons_self, .inl hx⟩
    · rw [hstmts]
      exact fun s hs => hread.part hs
    · intro cl hcl
      rw [Resolver.readAll_part ht]
      refine hafter.mem_closed (hclosed cl ?_)
      rw [Resolver.read_closure hread hc, ← hstmts]
      have := Resolver.mem_closed_concluded (t := u) hcl
      simpa [Resolver.concluded, hc] using this

theorem levelsAt_split {inner : List Level} (hi : g.stmts[i]? = some s)
    (hl : g.levelsAt (i :: q) = inner ++ [l]) : inner = s.levelsAt [] q ∧ l.params = g.params ∧
      l.before = (g.stmts.take i).flatMap Tree.assigned ++ s.beforeAt q := by
  rw [Block.levelsAt_cons hi] at hl
  obtain ⟨hinner, hlevel⟩ := List.append_inj' hl rfl
  obtain rfl := List.singleton_inj.mp hlevel
  exact ⟨hinner.symm, rfl, rfl⟩

/-- A name has the key of a block from every place in it that no closure with a parameter of that
name lies around, if the block knows it before the place or no closure in between assigns it. -/
theorem key_in_block (h : ∀ s ∈ b.stmts, Readable s)
    (hinfo : ∀ cl ∈ ((Resolver.start b.params).readAll b.stmts).closed, info cl.id = cl)
    (hg : b.block? p = some g) {inner : List Level} (hi : g.stmts[i]? = some s)
    (hl : g.levelsAt (i :: q) = inner ++ [l]) (hs : isSpecial name = false)
    (hp : ∀ m ∈ inner, name ∉ m.params)
    (hk : name ∈ l.params ∨ name ∈ l.before ∨ ∀ m ∈ inner, name ∉ m.targets) :
    keyOf (blockKeysAt info b (p ++ i :: q)) name = keyOf (keysAround info b p) name := by
  obtain ⟨rfl, hparams, hbefore⟩ := levelsAt_split hi hl
  obtain ⟨r, hr⟩ := begins_block h hg
  have htake : ∀ u ∈ g.stmts.take i, Readable u :=
    fun u hu => hr.readable u (List.mem_of_mem_take hu)
  have hdrop : ∀ u ∈ g.stmts.drop (i + 1), Readable u :=
    fun u hu => hr.readable u (List.mem_of_mem_drop hu)
  have hto := Resolver.readAll_advances htake r
  have hafter := Resolver.readAll_advances hdrop ((r.readAll (g.stmts.take i)).read s)
  have hunbound : (keysAt info [] s q).lookup name = none := by
    refine unbound_at (r := r.readAll (g.stmts.take i))
      (hr.readable s (List.mem_of_getElem? hi)) (fun cl hcl => hinfo cl (hr.closed cl ?_))
      (hto.frames_ne_nil hr.frames) hs hp ?_
    · rw [Resolver.readAll_part hi]
      exact hafter.mem_closed hcl
    · rw [hparams, hbefore, List.mem_append] at hk
      rcases hk with hk | (hk | hk) | hk
      · exact .inl (hto.known (hr.params name hk))
      · exact .inl (Resolver.known_readAll htake hr.frames name hk hs)
      · exact .inr (.inl hk)
      · exact .inr (.inr hk)
  unfold keyOf
  rw [blockKeysAt_block hg hi, List.lookup_append, hunbound, Option.none_or]

theorem captured_function (hf : List.Forall₂ (Frame.Later captures) [f] frames)
    (hfn : f.closure = none) (h : Captured captures frames name) : name ∈ captures := by
  cases hf with
  | cons hl hnil =>
    cases hnil
    rw [Captured, hl.closure, hfn] at h
    split at h
    · exact h
    · exact h.2

/-- A name that is known outside the innermost closure around a place, and is no parameter of that,
has a captured key there. -/
theorem captured_key (h : ∀ s ∈ b.stmts, Readable s)
    (hplain : ∀ s ∈ b.stmts, ∀ x ∈ s.names, SourceName x)
    (hinfo : ∀ cl ∈ ((Resolver.start b.params).readAll b.stmts).closed, info cl.id = cl)
    (hat : b.at? p = some (.leaf (.sym name))) (hs : isSpecial name = false)
    (hlevels : b.levelsAt p = l :: outer) (hl : name ∉ l.params)
    (hout : ∃ g ∈ outer, name ∈ g.params ∨ name ∈ g.before) :
    ∃ key ∈ ((Resolver.start b.params).readAll b.stmts).captures,
      keyOf (blockKeysAt info b p) name = some key := by
  cases p with
  | nil => cases hat
  | cons i p =>
    cases hi : b.stmts[i]? with
    | none => simp [Block.at?, hi] at hat
    | some t =>
      simp only [Block.at?, hi, Option.bind_some] at hat
      simp only [Block.levelsAt, hi] at hlevels
      have hmem := List.mem_of_getElem? hi
      have htake : ∀ u ∈ b.stmts.take i, Readable u := fun u hu => h u (List.mem_of_mem_take hu)
      have hdrop : ∀ u ∈ b.stmts.drop (i + 1), Readable u :=
        fun u hu => h u (List.mem_of_mem_drop hu)
      have hto := Resolver.readAll_advances htake (.start b.params)
      have hafter := Resolver.readAll_advances hdrop
        (((Resolver.start b.params).readAll (b.stmts.take i)).read t)
      rw [← Resolver.readAll_part hi] at hafter
      have hstart : Tracks (Resolver.start b.params).captures (Resolver.start b.params).frames
          [⟨b.params, b.stmts.flatMap Tree.assigned, []⟩] := ⟨rfl, by simp, trivial⟩
      have htidy := Resolver.framesApart_readAll (fun u (hu : u ∈ b.stmts.take i) =>
        hplain u (List.mem_of_mem_take hu)) (Resolver.framesApart_start b.params)
      have hclosed : ∀ cl ∈ (((Resolver.start b.params).readAll (b.stmts.take i)).read t).closed,
          info cl.id = cl := fun cl hcl => hinfo cl (hafter.mem_closed hcl)
      have hcap := captured_at (h t hmem) (hplain t hmem) htidy (tracks_readAll htake hstart)
        hclosed hat hs hlevels hl hout
      simp only [blockKeysAt, hi]
      unfold keyOf
      rcases hcap with ⟨key, hkey, hmem⟩ | ⟨hnone, hcap⟩
      · exact ⟨key, hafter.captures key hmem, by rw [hkey]⟩
      · refine ⟨name, ?_, by rw [hnone]⟩
        exact captured_function (Resolver.readAll_advances h _).frames rfl (hcap.advances hafter)

end Scope

end Lowering
