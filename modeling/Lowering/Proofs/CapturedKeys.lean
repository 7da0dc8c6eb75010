import Lowering.Pass.Environment
import Lowering.Proofs.Capturing

namespace Lowering.Scope

open Pass.Environment

/-- What the names that a closure binds mean in it, once the whole body has been read. -/
def closureKeys (cl : Closed) (params : List Text) : Keys :=
  cl.vars.map (·, none) ++
    params.map fun p => (p, if cl.exports.contains p then some (exportKey p cl.id) else none)

/-- The keys in the parts of a tree, from those at the tree. -/
def keysIn (info : Int → Closed) (t : Tree Mark) (keys : Keys) : Keys :=
  match t.closure? with
  | some (id, params) => closureKeys (info id) params ++ keys
  | none => keys

/-- The keys at a place in a tree, from those at the tree. -/
def keysAt (info : Int → Closed) : Keys → Tree Mark → List Nat → Keys
  | keys, _, [] => keys
  | keys, t, i :: p =>
    match t.parts[i]? with
    | some s => keysAt info (keysIn info t keys) s p
    | none => keys

theorem keysAt_append (info : Int → Closed) (keys keys' : Keys) (t : Tree Mark) (p : List Nat) :
    keysAt info (keys ++ keys') t p = keysAt info keys t p ++ keys' := by
  induction p generalizing keys t with
  | nil => rfl
  | cons i p ih =>
    have hin : keysIn info t (keys ++ keys') = keysIn info t keys ++ keys' := by
      unfold keysIn
      cases t.closure? <;> simp
    unfold keysAt
    cases t.parts[i]? with
    | none => rfl
    | some s => rw [hin]; exact ih _ s

theorem keysAt_eq (info : Int → Closed) (keys : Keys) (t : Tree Mark) (p : List Nat) :
    keysAt info keys t p = keysAt info [] t p ++ keys := keysAt_append info [] keys t p

/-- A name that frames have as something captured: from the frames outward, the first that has it
has it as a parameter that is shared, or none has it and it is in the environment. -/
def Captured (captures : List Text) : List Frame → Text → Prop
  | [], name => name ∈ captures
  | f :: outer, name =>
    if name ∈ f.params then
      match f.closure with
      | some id => name ∈ f.exports ∧ exportKey name id ∈ captures
      | none => name ∈ captures
    else name ∉ f.vars ∧ Captured captures outer name

theorem Captured.known (h : Captured captures frames name) : KnownIn captures frames name := by
  induction frames with
  | nil => exact .inl h
  | cons f outer ih =>
    by_cases hp : name ∈ f.params
    · exact .inr ⟨f, by simp, .inl hp⟩
    · rw [Captured, if_neg hp] at h
      rcases ih h.2 with hk | ⟨g, hg, hk⟩
      · exact .inl hk
      · exact .inr ⟨g, List.mem_cons_of_mem f hg, hk⟩

theorem Captured.later (h : Captured captures frames name) (hc : ∀ x ∈ captures, x ∈ captures')
    (hf : List.Forall₂ (fun f f' => Frame.Later captures' f f' ∧ (name ∈ f'.vars → name ∈ f.vars))
      frames frames') : Captured captures' frames' name := by
  induction hf with
  | nil => exact hc name h
  | @cons f f' outer outer' hl _ ih =>
    unfold Captured at h ⊢
    rw [hl.1.params, hl.1.closure]
    by_cases hp : name ∈ f.params
    · rw [if_pos hp] at h ⊢
      cases hid : f.closure with
      | none =>
        simp only [hid] at h ⊢
        exact hc name h
      | some id =>
        simp only [hid] at h ⊢
        exact ⟨hl.1.exports name h.1, hc _ h.2⟩
    · rw [if_neg hp] at h ⊢
      exact ⟨fun hv => h.1 (hl.2 hv), ih h.2⟩

/-- Once captured, a name stays so while its frames are open. -/
theorem Captured.advances {r r' : Resolver} (h : Captured r.captures r.frames name)
    (ha : r.Advances targets r') : Captured r'.captures r'.frames name := by
  refine h.later ha.captures (List.forall₂_iff_get.mpr ⟨ha.frames.length_eq, fun i hi hi' => ?_⟩)
  refine ⟨ha.frames.get hi hi', fun hv => ?_⟩
  rcases ha.gained i _ (List.getElem?_eq_getElem hi') name hv with ⟨f, hf, hv⟩ | ⟨-, -, hk⟩
  · rw [List.getElem?_eq_getElem hi] at hf
    obtain rfl := Option.some.inj hf
    exact hv
  · exact absurd h.known hk

theorem captured_of_unbound (hf : ∀ f ∈ frames, name ∉ f.params ∧ name ∉ f.vars)
    (hc : name ∈ captures) : Captured captures frames name := by
  induction frames with
  | nil => exact hc
  | cons f outer ih =>
    obtain ⟨hp, hv⟩ := hf f (by simp)
    rw [Captured, if_neg hp]
    exact ⟨hv, ih fun g hg => hf g (List.mem_cons_of_mem f hg)⟩

theorem captured_append {inner frames : List Frame}
    (hf : ∀ f ∈ inner, name ∉ f.params ∧ name ∉ f.vars) (h : Captured captures frames name) :
    Captured captures (inner ++ frames) name := by
  induction inner with
  | nil => exact h
  | cons f inner ih =>
    obtain ⟨hp, hv⟩ := hf f (by simp)
    rw [List.cons_append, Captured, if_neg hp]
    exact ⟨hv, ih fun g hg => hf g (List.mem_cons_of_mem f hg)⟩

theorem captured_of_taken (hnodup : f.vars.Nodup)
    (hout : name ∈ f.vars → ∀ g ∈ outer, name ∉ g.params ∧ name ∉ g.vars)
    (ht : Taken name f f' key args) : Captured (Names.add captures key) (f' :: outer) name := by
  have hkey : key ∈ Names.add captures key := Names.mem_add.mpr (.inr rfl)
  cases ht with
  | var hp hv =>
    rw [Captured, if_neg hp]
    exact ⟨hnodup.not_mem_erase, captured_of_unbound (hout hv) hkey⟩
  | param hc hp =>
    rw [Captured, if_pos hp]
    simp only [hc]
    exact ⟨Names.mem_add.mpr (.inr rfl), hkey⟩
  | argument hc hp =>
    rw [Captured, if_pos hp]
    simp only [hc]
    exact hkey

theorem FramesApart.append {inner frames : List Frame}
    (h : FramesApart captures (inner ++ frames)) : FramesApart captures frames := by
  induction inner with
  | nil => exact h
  | cons f inner ih => exact ih h.2

/-- A use captures a name that is known outside the innermost frame and is no parameter of it. -/
theorem captured_use {r : Resolver} (h : FramesApart r.captures r.frames)
    (hf : r.frames = f :: outer)
    (hs : isSpecial name = false) (hp : name ∉ f.params) (hk : KnownIn r.captures outer name) :
    Captured (r.use name).captures (r.use name).frames name := by
  have hv : name ∉ f.vars := fun hv => (hf ▸ h : FramesApart _ (f :: outer)).1.unknown name hv hk
  have hused := r.use_spec name
  generalize r.use name = r' at hused
  cases hused with
  | kept reason =>
    rcases reason with hspecial | hnone | ⟨f2, outer2, hf2, hmem⟩
    · simp [hs] at hspecial
    · refine captured_of_unbound hnone (hk.resolve_right ?_)
      rintro ⟨g, hg, hmem⟩
      have := hnone g (by simp [hf, hg])
      exact hmem.elim this.1 this.2
    · rw [hf] at hf2
      cases hf2
      exact absurd hmem (not_or.mpr ⟨hp, hv⟩)
  | captured _ _ found free taken =>
    rw [found] at h
    have hg := h.append.1
    refine captured_append free (captured_of_taken hg.nodup (fun hv k hk => ?_) taken)
    exact ⟨fun hn => hg.unknown name hv (.inr ⟨k, hk, .inl hn⟩),
      fun hn => hg.unknown name hv (.inr ⟨k, hk, .inr hn⟩)⟩

/-- The frames at a place are its levels: they have the same parameters, and what is assigned at a
level before the place is known there. -/
def Tracks (captures : List Text) : List Frame → List Level → Prop
  | [], [] => True
  | f :: outer, l :: levels => f.params = l.params ∧
      (∀ x ∈ l.before, isSpecial x = false → KnownIn captures (f :: outer) x) ∧
      Tracks captures outer levels
  | _, _ => False

theorem Tracks.later (h : Tracks captures frames levels) (hc : ∀ x ∈ captures, x ∈ captures')
    (hf : List.Forall₂ (Frame.Later captures') frames frames') :
    Tracks captures' frames' levels := by
  induction hf generalizing levels with
  | nil => cases levels <;> exact h
  | @cons f f' outer outer' hl ho ih =>
    cases levels with
    | nil => exact h
    | cons l levels =>
      obtain ⟨hp, hb, hrest⟩ := h
      exact ⟨hl.params.trans hp, fun x hx hs => (hb x hx hs).later hc (.cons hl ho), ih hrest⟩

/-- What a place knows of the levels further out is known to their frames. -/
theorem Tracks.known (h : Tracks captures frames levels) (hs : isSpecial name = false)
    (hl : ∃ l ∈ levels, name ∈ l.params ∨ name ∈ l.before) : KnownIn captures frames name := by
  induction frames generalizing levels with
  | nil =>
    cases levels with
    | nil => simp at hl
    | cons l levels => exact h.elim
  | cons f outer ih =>
    cases levels with
    | nil => exact h.elim
    | cons l levels =>
      obtain ⟨hp, hb, hrest⟩ := h
      obtain ⟨m, hm, hmem⟩ := hl
      rcases List.mem_cons.mp hm with rfl | hm
      · rcases hmem with hmem | hmem
        · exact .inr ⟨f, by simp, .inl (hp ▸ hmem)⟩
        · exact hb name hmem hs
      · rcases ih hrest ⟨m, hm, hmem⟩ with hk | ⟨g, hg, hk⟩
        · exact .inl hk
        · exact .inr ⟨g, List.mem_cons_of_mem f hg, hk⟩

namespace Resolver

variable {r r' : Resolver} {t : Tree Mark} {name : Text}

theorem known_define (hf : r.frames ≠ []) (hs : isSpecial name = false) :
    (r.define name).Known name := by
  obtain ⟨hd, hcase⟩ | ⟨-, -, f, outer, -, hd⟩ := define_cases r name
  · rw [hd]
    rcases hcase with hspecial | hk | hnil
    · simp [hs] at hspecial
    · exact hk
    · exact absurd hnil hf
  · rw [hd]
    exact .inr ⟨_, List.mem_cons_self, .inr (by simp)⟩

theorem Advances.frames_ne_nil (h : Advances targets r r') (hf : r.frames ≠ []) :
    r'.frames ≠ [] := by
  intro hnil
  have := h.frames.length_eq
  simp [hnil] at this
  exact hf this

theorem known_readAll_of_read (hread : ∀ t ∈ ts, Readable t)
    (h : ∀ t ∈ ts, ∀ r : Resolver, r.frames ≠ [] → ∀ x ∈ t.assigned, isSpecial x = false →
      (r.read t).Known x) (hf : r.frames ≠ []) :
    ∀ x ∈ ts.flatMap Tree.assigned, isSpecial x = false → (r.readAll ts).Known x := by
  induction ts generalizing r with
  | nil => simp
  | cons t ts ih =>
    intro x hx hs
    have hrest := fun s hs => hread s (List.mem_cons_of_mem t hs)
    rw [List.flatMap_cons] at hx
    rcases List.mem_append.mp hx with hx | hx
    · exact (readAll_advances hrest _).known (h t (by simp) r hf x hx hs)
    · exact ih hrest (fun s hs => h s (List.mem_cons_of_mem t hs))
        ((read_advances (hread t (by simp)) r).frames_ne_nil hf) x hx hs

theorem known_read (h : Readable t) (hf : r.frames ≠ []) :
    ∀ x ∈ t.assigned, isSpecial x = false → (r.read t).Known x := by
  induction t, h using Readable.induct generalizing r with
  | sym name => simp [Tree.assigned]
  | closure t id params h hc ih => simp [Tree.assigned_closure (t := t) (by simp [hc])]
  | other t h hc hsym ih =>
    intro x hx hs
    have hparts := fun s hs => h.part (s := s) hs
    rw [read_open h hc hsym]
    rw [Tree.assigned_eq hc] at hx
    rcases List.mem_append.mp hx with hx | hx
    · have hk := known_readAll_of_read hparts (fun s hs r hr => ih s hs hr) hf x hx hs
      cases t.target? with
      | none => exact hk
      | some target => exact (define_advances _ target).known hk
    · obtain htarget : t.target? = some x := by simpa using hx
      rw [htarget]
      exact known_define ((readAll_advances hparts r).frames_ne_nil hf) hs

theorem known_readAll (h : ∀ t ∈ ts, Readable t) (hf : r.frames ≠ []) :
    ∀ x ∈ ts.flatMap Tree.assigned, isSpecial x = false → (r.readAll ts).Known x :=
  known_readAll_of_read h (fun t ht _ hr => known_read (h t ht) hr) hf

/-- The state in which the parts of a tree begin. -/
def opened (r : Resolver) (t : Tree Mark) : Resolver :=
  match t.closure? with
  | some (id, params) => r.enter id params
  | none => r

/-- The state after a tree, from the state after its parts. -/
def concluded (r : Resolver) (t : Tree Mark) : Resolver :=
  match t.closure? with
  | some _ => r.leave
  | none => t.target?.toList.foldl define r

theorem readAll_part (hi : ts[i]? = some s) :
    r.readAll ts = ((r.readAll (ts.take i)).read s).readAll (ts.drop (i + 1)) := by
  have hts : ts = ts.take i ++ s :: ts.drop (i + 1) := by
    obtain ⟨hlt, rfl⟩ := List.getElem?_eq_some_iff.mp hi
    rw [← List.drop_eq_getElem_cons, List.take_append_drop]
  conv_lhs => rw [hts, readAll_append]
  rfl

theorem read_parts {s : Tree Mark} {i : Nat} (h : Readable t) (hi : t.parts[i]? = some s) :
    r.read t = ((r.opened t).readAll t.parts).concluded t := by
  unfold opened concluded
  cases hc : t.closure? with
  | some c => rw [read_closure h hc]
  | none =>
    refine read_open h hc fun name hn => ?_
    subst hn
    simp [Tree.parts] at hi

theorem advances_part (h : Readable t) (hi : t.parts[i]? = some s) :
    Advances ((t.parts.drop (i + 1)).flatMap Tree.assigned)
      (((r.opened t).readAll (t.parts.take i)).read s) ((r.opened t).readAll t.parts) := by
  rw [readAll_part hi]
  exact readAll_advances (fun u hu => h.part (List.mem_of_mem_drop hu)) _

theorem Advances.mem_closed (h : Advances targets r r') (hcl : cl ∈ r.closed) : cl ∈ r'.closed := by
  obtain ⟨new, hnew, -⟩ := h.closed
  rw [hnew]
  exact List.mem_append_left _ hcl

theorem mem_closed_concluded (hcl : cl ∈ r.closed) : cl ∈ (r.concluded t).closed := by
  unfold concluded
  split
  · unfold leave
    split
    · exact List.mem_append_left _ hcl
    · exact hcl
  · cases t.target? with
    | none => exact hcl
    | some name => exact (define_advances r name).mem_closed hcl

theorem mem_captures_concluded (h : key ∈ r.captures) : key ∈ (r.concluded t).captures := by
  unfold concluded
  split
  · unfold leave
    split <;> exact h
  · cases t.target? with
    | none => exact h
    | some name => exact (define_advances r name).captures key h

end Resolver

theorem lookup_closureKeys (cl : Closed) (params : List Text) (name : Text) :
    (closureKeys cl params).lookup name =
      if name ∈ cl.vars then some none
      else if name ∈ params then
        some (if name ∈ cl.exports then some (exportKey name cl.id) else none)
      else none := by
  have bound (g : Text → Option Text) (names : List Text) :
      (names.map fun x => (x, g x)).lookup name = if name ∈ names then some (g name) else none := by
    induction names with
    | nil => rfl
    | cons x names ih =>
      by_cases h : name = x
      · simp [h]
      · simp [List.lookup_cons, beq_false_of_ne h, h, ih]
  rw [closureKeys, List.lookup_append, bound, bound]
  by_cases hv : name ∈ cl.vars
  · simp [hv]
  · simp [hv]

/-- Reading trees adds what they assign to the innermost level. -/
theorem tracks_readAll {r : Resolver} (h : ∀ t ∈ ts, Readable t)
    (ht : Tracks r.captures r.frames levels) : Tracks (r.readAll ts).captures (r.readAll ts).frames
      (levels.modify 0 fun l => { l with before := l.before ++ ts.flatMap Tree.assigned }) := by
  have hadv := Resolver.readAll_advances h r
  have hlater := ht.later hadv.captures hadv.frames
  cases levels with
  | nil => exact hlater
  | cons l levels =>
    have hne : r.frames ≠ [] := by
      intro hnil
      rw [hnil] at ht
      exact ht
    have hknown := Resolver.known_readAll h hne
    cases hf : (r.readAll ts).frames with
    | nil => exact absurd hf (hadv.frames_ne_nil hne)
    | cons f outer =>
      rw [hf] at hlater
      simp only [Resolver.Known, hf] at hknown
      refine ⟨hlater.1, fun x hx hs => ?_, hlater.2.2⟩
      rcases List.mem_append.mp hx with hx | hx
      · exact hlater.2.1 x hx hs
      · exact hknown x hx hs

theorem tracks_part {r : Resolver} (h : Readable t) (ht : Tracks r.captures r.frames levels)
    (i : Nat) : Tracks ((r.opened t).readAll (t.parts.take i)).captures
      ((r.opened t).readAll (t.parts.take i)).frames (t.levelsIn levels i) := by
  have hparts : ∀ s ∈ t.parts.take i, Readable s := fun s hs => h.part (List.mem_of_mem_take hs)
  unfold Resolver.opened Tree.levelsIn
  cases hc : t.closure? with
  | none => exact tracks_readAll hparts ht
  | some c =>
    have hopened : Tracks (r.enter c.1 c.2).captures (r.enter c.1 c.2).frames
        (⟨c.2, t.parts.flatMap Tree.assigned, []⟩ :: levels) := ⟨rfl, by simp, ht⟩
    exact tracks_readAll hparts hopened

theorem framesApart_part {r : Resolver} (hp : ∀ x ∈ t.names, SourceName x)
    (ht : FramesApart r.captures r.frames) (i : Nat) :
    FramesApart ((r.opened t).readAll (t.parts.take i)).captures
      ((r.opened t).readAll (t.parts.take i)).frames := by
  refine Resolver.framesApart_readAll
    (fun s hs x hx => hp x (Tree.names_parts (List.mem_of_mem_take hs) x hx)) ?_
  unfold Resolver.opened
  split
  · exact Resolver.framesApart_enter ht _ _
  · exact ht

/-- A name that is captured when a closure is left has a key in the closure, or is captured further
out and not bound in it. -/
theorem captured_leave {info : Int → Closed} {r r' : Resolver} {targets : List Text} {id : Int}
    {params : List Text} {name : Text} (ha : Resolver.Advances targets (r.enter id params) r')
    (hinfo : ∀ cl ∈ r'.leave.closed, info cl.id = cl) (h : Captured r'.captures r'.frames name) :
    (∃ key, (closureKeys (info id) params).lookup name = some (some key) ∧
        key ∈ r'.leave.captures) ∨
      (closureKeys (info id) params).lookup name = none ∧
        Captured r'.leave.captures r'.leave.frames name := by
  obtain ⟨f, outer, hf, hid, hparams, -, hl⟩ := Resolver.leave_entered ha
  have hvars := Resolver.vars_entered ha hf
  rw [hl] at hinfo ⊢
  have hentry : info id = ⟨id, f.vars, f.exports⟩ := hinfo ⟨id, f.vars, f.exports⟩ (by simp)
  rw [lookup_closureKeys, hentry]
  rw [hf, Captured, hid, hparams] at h
  by_cases hp : name ∈ params
  · rw [if_pos hp] at h
    have hv : name ∉ f.vars := fun hv =>
      (hvars name hv).2 (.inr ⟨_, List.mem_cons_self, .inl hp⟩)
    refine .inl ⟨exportKey name id, ?_, h.2⟩
    simp [hv, hp, h.1]
  · rw [if_neg hp] at h
    exact .inr ⟨by simp [h.1, hp], h.2⟩

theorem captured_concluded {r : Resolver} (h : Readable t)
    (hinfo : ∀ cl ∈ (((r.opened t).readAll t.parts).concluded t).closed, info cl.id = cl)
    (hcap : Captured ((r.opened t).readAll t.parts).captures
      ((r.opened t).readAll t.parts).frames name) :
    (∃ key, (keysIn info t []).lookup name = some (some key) ∧
        key ∈ (((r.opened t).readAll t.parts).concluded t).captures) ∨
      (keysIn info t []).lookup name = none ∧
        Captured (((r.opened t).readAll t.parts).concluded t).captures
          (((r.opened t).readAll t.parts).concluded t).frames name := by
  have hadv := Resolver.readAll_advances (fun u hu => h.part hu) (r.opened t)
  unfold keysIn Resolver.concluded Resolver.opened at *
  cases hc : t.closure? with
  | some c =>
    simp only [hc, List.append_nil] at *
    exact captured_leave hadv hinfo hcap
  | none =>
    simp only [hc] at *
    refine .inr ⟨rfl, ?_⟩
    cases t.target? with
    | none => exact hcap
    | some target => exact hcap.advances (Resolver.define_advances _ target)

/-- A name that is known outside the innermost closure around a place, and is no parameter of that,
leads to a captured key: one that a closure in the tree gives it, or one that the frames around the
tree have for it. -/
theorem captured_at {r : Resolver} (h : Readable t) (hp : ∀ x ∈ t.names, SourceName x)
    (htidy : FramesApart r.captures r.frames) (htracks : Tracks r.captures r.frames levels)
    (hinfo : ∀ cl ∈ (r.read t).closed, info cl.id = cl) (hat : t.at? p = some (.leaf (.sym name)))
    (hs : isSpecial name = false) (hlevels : t.levelsAt levels p = l :: outer)
    (hl : name ∉ l.params) (hout : ∃ g ∈ outer, name ∈ g.params ∨ name ∈ g.before) :
    (∃ key, (keysAt info [] t p).lookup name = some (some key) ∧ key ∈ (r.read t).captures) ∨
      (keysAt info [] t p).lookup name = none ∧
        Captured (r.read t).captures (r.read t).frames name := by
  induction p generalizing r t levels with
  | nil =>
    obtain rfl := Option.some.inj hat
    obtain rfl : levels = l :: outer := hlevels
    refine .inr ⟨rfl, ?_⟩
    cases hf : r.frames with
    | nil =>
      rw [hf] at htracks
      exact htracks.elim
    | cons f frames =>
      rw [hf] at htracks
      exact captured_use htidy hf hs (htracks.1 ▸ hl) (htracks.2.2.known hs hout)
  | cons i p ih =>
    cases hi : t.parts[i]? with
    | none => simp [Tree.at?, hi] at hat
    | some s =>
      have hmem := List.mem_of_getElem? hi
      simp only [Tree.at?, hi, Option.bind_some] at hat
      simp only [Tree.levelsAt, hi] at hlevels
      have hadv := Resolver.advances_part (r := r) h hi
      rw [Resolver.read_parts h hi] at hinfo ⊢
      have hpart := ih (h.part hmem) (fun x hx => hp x (Tree.names_parts hmem x hx))
        (framesApart_part hp htidy i) (tracks_part h htracks i)
        (fun cl hcl => hinfo cl (Resolver.mem_closed_concluded (hadv.mem_closed hcl))) hat hlevels
      simp only [keysAt, hi]
      rw [keysAt_eq, List.lookup_append]
      rcases hpart with ⟨key, hkey, hmem⟩ | ⟨hnone, hcap⟩
      · exact .inl ⟨key, by rw [hkey]; rfl,
          Resolver.mem_captures_concluded (hadv.captures key hmem)⟩
      · rw [hnone, Option.none_or]
        exact captured_concluded h hinfo (hcap.advances hadv)

/-- The variables of a closure that has been read were not known when it was entered, and are
assigned in it. -/
theorem vars_read {info : Int → Closed} {r : Resolver} {t : Tree Mark} {id : Int}
    {params : List Text} (h : Readable t) (hc : t.closure? = some (id, params))
    (hinfo : ∀ cl ∈ (r.read t).closed, info cl.id = cl) :
    ∀ x ∈ (info id).vars, x ∈ t.parts.flatMap Tree.assigned ∧ ¬ (r.enter id params).Known x := by
  have hadv := Resolver.readAll_advances (fun u hu => h.part hu) (r.enter id params)
  obtain ⟨f, outer, hf, -, -, -, hl⟩ := Resolver.leave_entered hadv
  rw [Resolver.read_closure h hc, hl] at hinfo
  have hentry : info id = ⟨id, f.vars, f.exports⟩ := hinfo ⟨id, f.vars, f.exports⟩ (by simp)
  rw [hentry]
  exact Resolver.vars_entered hadv hf

/-- A name leads out of the closures between a tree and a place in it if it is a parameter of none
of them and either known before the first of them or assigned in none of them. -/
theorem unbound_at {info : Int → Closed} {p : List Nat} {r : Resolver} {t : Tree Mark}
    {name : Text} (h : Readable t) (hinfo : ∀ cl ∈ (r.read t).closed, info cl.id = cl)
    (hf : r.frames ≠ []) (hs : isSpecial name = false)
    (hp : ∀ m ∈ t.levelsAt [] p, name ∉ m.params)
    (hk : r.Known name ∨ name ∈ t.beforeAt p ∨ ∀ m ∈ t.levelsAt [] p, name ∉ m.targets) :
    (keysAt info [] t p).lookup name = none := by
  induction p generalizing r t with
  | nil => rfl
  | cons i p ih =>
    cases hi : t.parts[i]? with
    | none => simp [keysAt, hi]
    | some s =>
      have hmem := List.mem_of_getElem? hi
      have hread := Resolver.read_parts (r := r) h hi
      have hadv := Resolver.advances_part (r := r) h hi
      have htake : ∀ u ∈ t.parts.take i, Readable u := fun u hu => h.part (List.mem_of_mem_take hu)
      have hbefore := Resolver.readAll_advances htake (r.opened t)
      have hinfo' : ∀ cl ∈ (((r.opened t).readAll (t.parts.take i)).read s).closed,
          info cl.id = cl := by
        intro cl hcl
        rw [hread] at hinfo
        exact hinfo cl (Resolver.mem_closed_concluded (hadv.mem_closed hcl))
      have hpart := ih (h.part hmem) hinfo'
      simp only [keysAt, hi]
      rw [keysAt_eq, List.lookup_append]
      cases hc : t.closure? with
      | some c =>
        have hvars := vars_read h hc hinfo
        simp only [Tree.levelsAt, Tree.beforeAt, Tree.levelsIn, Resolver.opened, keysIn, hi, hc,
          List.append_nil] at *
        rw [Tree.levelsAt_eq, List.forall_mem_append] at hp
        rw [Tree.levelsAt_eq, List.forall_mem_append] at hk
        simp only [List.modify_cons, if_true, List.forall_mem_singleton, List.not_mem_nil,
          false_or] at hp hk
        have hvar : name ∉ (info c.1).vars := by
          intro hv
          rcases hk with hk | hk
          · exact (hvars name hv).2 (Resolver.known_enter hk)
          · exact hk.2 (hvars name hv).1
        rw [hpart (hbefore.frames_ne_nil (by simp [Resolver.enter])) hp.1 ?_, lookup_closureKeys]
        · simp [hvar, hp.2]
        · rcases hk with hk | hk
          · exact .inl (hbefore.known (Resolver.known_enter hk))
          · exact .inr (.inr hk.1)
      | none =>
        simp only [Tree.levelsAt, Tree.beforeAt, Tree.levelsIn, Resolver.opened, keysIn, hi, hc,
          List.modify_nil] at *
        rw [hpart (hbefore.frames_ne_nil hf) hp ?_]
        · rfl
        · rcases hk with hk | hk | hk
          · exact .inl (hbefore.known hk)
          · rcases List.mem_append.mp hk with hk | hk
            · exact .inl (Resolver.known_readAll htake hf name hk hs)
            · exact .inr (.inl hk)
          · exact .inr (.inr hk)

end Lowering.Scope
