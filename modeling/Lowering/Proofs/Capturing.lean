import Lowering.Proofs.Occurrences

namespace Lowering.Scope

/-- A frame at a later time: its names and its parameters are the same, it may have exported more,
and the variables it has lost are captured. -/
structure Frame.Later (captures : List Text) (f f' : Frame) : Prop where
  closure : f'.closure = f.closure
  params : f'.params = f.params
  exports : ∀ x ∈ f.exports, x ∈ f'.exports
  vars : ∀ x ∈ f.vars, x ∈ f'.vars ∨ x ∈ captures

namespace Frame

theorem Later.refl (captures : List Text) (f : Frame) : f.Later captures f :=
  ⟨rfl, rfl, fun _ h => h, fun _ h => .inl h⟩

theorem Later.trans {captures captures' : List Text} {f g h : Frame}
    (hc : ∀ x ∈ captures, x ∈ captures') (hfg : f.Later captures g) (hgh : g.Later captures' h) :
    f.Later captures' h := by
  refine ⟨hgh.closure.trans hfg.closure, hgh.params.trans hfg.params,
    fun x hx => hgh.exports x (hfg.exports x hx), fun x hx => ?_⟩
  rcases hfg.vars x hx with hx | hx
  · exact hgh.vars x hx
  · exact .inr (hc x hx)

theorem later_trans {captures captures' : List Text} {fs gs hs : List Frame}
    (hc : ∀ x ∈ captures, x ∈ captures') (hfg : List.Forall₂ (Frame.Later captures) fs gs)
    (hgh : List.Forall₂ (Frame.Later captures') gs hs) :
    List.Forall₂ (Frame.Later captures') fs hs := by
  induction hfg generalizing hs with
  | nil =>
    cases hgh
    exact .nil
  | cons hf _ ih =>
    cases hgh with
    | cons hg hgs => exact .cons (hf.trans hc hg) (ih hgs)

end Frame

theorem Taken.later (h : Taken name f f' key args) (hk : key ∈ captures) : f.Later captures f' := by
  cases h with
  | var hp hv =>
    refine ⟨rfl, rfl, fun _ hx => hx, fun x hx => ?_⟩
    by_cases he : x = name
    · exact .inr (he ▸ hk)
    · exact .inl ((List.mem_erase_of_ne he).mpr hx)
  | param hc hp => exact ⟨rfl, rfl, fun x hx => Names.mem_add.mpr (.inl hx), fun _ hx => .inl hx⟩
  | argument hc hp => exact .refl _ f

theorem Taken.vars (h : Taken name f f' key args) : ∀ x ∈ f'.vars, x ∈ f.vars := by
  cases h with
  | var hp hv => exact fun x hx => List.mem_of_mem_erase hx
  | param hc hp => exact fun x hx => hx
  | argument hc hp => exact fun x hx => hx

theorem KnownIn.later (h : KnownIn captures frames name) (hc : ∀ x ∈ captures, x ∈ captures')
    (hf : List.Forall₂ (Frame.Later captures') frames frames') :
    KnownIn captures' frames' name := by
  rcases h with h | ⟨f, hmem, h⟩
  · exact .inl (hc name h)
  · obtain ⟨f', hmem', hl⟩ := Forest.forall₂_mem_left hf hmem
    rcases h with h | h
    · exact .inr ⟨f', hmem', .inl (hl.params ▸ h)⟩
    · rcases hl.vars name h with h | h
      · exact .inr ⟨f', hmem', .inr h⟩
      · exact .inl h

namespace Resolver

variable {r r' r'' : Resolver} {name : Text} {targets targets' : List Text}

/-- The state at a later time in the same frames, after assignments to some names: the innermost
frame may have got some of these as variables, if they were not known. -/
structure Advances (targets : List Text) (r r' : Resolver) : Prop where
  captures : ∀ x ∈ r.captures, x ∈ r'.captures
  frames : List.Forall₂ (Frame.Later r'.captures) r.frames r'.frames
  gained : ∀ i f', r'.frames[i]? = some f' → ∀ x ∈ f'.vars,
    (∃ f, r.frames[i]? = some f ∧ x ∈ f.vars) ∨ i = 0 ∧ x ∈ targets ∧ ¬ r.Known x
  closed : ∃ new, r'.closed = r.closed ++ new ∧ ∀ cl ∈ new, ∀ x ∈ cl.vars, ¬ r.Known x

theorem Advances.known (h : Advances targets r r') (hk : r.Known name) : r'.Known name :=
  KnownIn.later hk h.captures h.frames

theorem Advances.refl (targets : List Text) (r : Resolver) : Advances targets r r where
  captures _ h := h
  frames := List.forall₂_same.mpr fun f _ => .refl _ f
  gained _ f hf _ hx := .inl ⟨f, hf, hx⟩
  closed := ⟨[], by simp, by simp⟩

theorem Advances.trans (h : Advances targets r r') (h' : Advances targets' r' r'') :
    Advances (targets ++ targets') r r'' where
  captures x hx := h'.captures x (h.captures x hx)
  frames := Frame.later_trans h'.captures h.frames h'.frames
  gained i f'' hf'' x hx := by
    rcases h'.gained i f'' hf'' x hx with ⟨f', hf', hx⟩ | ⟨rfl, hx, hk⟩
    · rcases h.gained i f' hf' x hx with hx | ⟨hi, hx, hk⟩
      · exact .inl hx
      · exact .inr ⟨hi, List.mem_append_left _ hx, hk⟩
    · exact .inr ⟨rfl, List.mem_append_right _ hx, fun hr => hk (h.known hr)⟩
  closed := by
    obtain ⟨new, hnew, hvars⟩ := h.closed
    obtain ⟨new', hnew', hvars'⟩ := h'.closed
    refine ⟨new ++ new', by rw [hnew', hnew, List.append_assoc], ?_⟩
    intro cl hcl x hx hr
    rcases List.mem_append.mp hcl with hcl | hcl
    · exact hvars cl hcl x hx hr
    · exact hvars' cl hcl x hx (h.known hr)

/-- A use of a name loses nothing that is known. -/
theorem use_advances (r : Resolver) (name : Text) : Advances [] r (r.use name) := by
  have hused := r.use_spec name
  generalize r.use name = r' at hused
  cases hused with
  | kept =>
    have hrefl := Advances.refl [] r
    exact ⟨hrefl.captures, hrefl.frames, hrefl.gained, hrefl.closed⟩
  | @captured _ inner outer f f' key _ _ _ found _ taken =>
    refine ⟨fun x hx => Names.mem_add.mpr (.inl hx), ?_, ?_, ⟨[], by simp, by simp⟩⟩
    · rw [found]
      exact List.rel_append (List.forall₂_same.mpr fun g _ => .refl _ g)
        (.cons (taken.later (Names.mem_add.mpr (.inr rfl)))
          (List.forall₂_same.mpr fun g _ => .refl _ g))
    · intro i g hg x hx
      rw [List.getElem?_append] at hg
      rw [found, List.getElem?_append]
      split at hg
      · next hi => exact .inl ⟨g, by rw [if_pos hi, hg], hx⟩
      · next hi =>
        rw [if_neg hi]
        cases hj : i - inner.length with
        | zero =>
          simp only [hj, List.getElem?_cons_zero, Option.some.injEq] at hg
          subst hg
          exact .inl ⟨f, rfl, taken.vars x hx⟩
        | succ j =>
          simp only [hj, List.getElem?_cons_succ] at hg
          exact .inl ⟨g, hg, hx⟩

theorem define_advances (r : Resolver) (name : Text) : Advances [name] r (r.define name) := by
  obtain ⟨hd, -⟩ | ⟨-, hk, f, outer, hf, hd⟩ := define_cases r name
  · rw [hd]
    exact .refl _ r
  · rw [hd]
    refine ⟨fun _ hx => hx, ?_, ?_, ⟨[], by simp, by simp⟩⟩
    · rw [hf]
      refine .cons ⟨rfl, rfl, fun _ hx => hx, fun x hx => .inl ?_⟩
        (List.forall₂_same.mpr fun g _ => .refl _ g)
      exact List.mem_append_left _ hx
    · intro i g hg x hx
      rw [hf]
      cases i with
      | zero =>
        obtain rfl := Option.some.inj hg
        rcases List.mem_append.mp hx with hx | hx
        · exact .inl ⟨f, rfl, hx⟩
        · obtain rfl := List.mem_singleton.mp hx
          exact .inr ⟨rfl, hx, hk⟩
      | succ i => exact .inl ⟨g, hg, hx⟩

theorem leave_entered {id : Int} (h : Advances targets (r.enter id params) r') :
    ∃ f outer, r'.frames = f :: outer ∧ f.closure = some id ∧ f.params = params ∧
      List.Forall₂ (Frame.Later r'.captures) r.frames outer ∧
      r'.leave = { r' with frames := outer, closed := r'.closed ++ [⟨id, f.vars, f.exports⟩] } := by
  have hframes := h.frames
  cases hf : r'.frames with
  | nil =>
    rw [hf] at hframes
    cases hframes
  | cons f outer =>
    rw [hf] at hframes
    cases hframes with
    | cons hl ho =>
      obtain ⟨closure, params', vars, exports⟩ := f
      obtain rfl : closure = some id := hl.closure
      exact ⟨_, outer, rfl, rfl, hl.params, ho, by simp [leave, hf]⟩

theorem vars_entered {id : Int} (h : Advances targets (r.enter id params) r')
    (hf : r'.frames = f :: outer) : ∀ x ∈ f.vars, x ∈ targets ∧ ¬ (r.enter id params).Known x := by
  intro x hx
  rcases h.gained 0 f (by simp [hf]) x hx with ⟨g, hg, hx⟩ | ⟨-, hx⟩
  · obtain rfl := Option.some.inj hg
    cases hx
  · exact hx

theorem known_enter {id : Int} (h : r.Known name) : (r.enter id params).Known name := by
  rcases h with h | ⟨f, hf, h⟩
  · exact .inl h
  · exact .inr ⟨f, List.mem_cons_of_mem _ hf, h⟩

/-- A closure is entered and left again: nothing that was known is lost. -/
theorem closure_advances {id : Int} (h : Advances targets (r.enter id params) r') :
    Advances [] r r'.leave := by
  obtain ⟨f, outer, hf, -, -, ho, hl⟩ := leave_entered h
  rw [hl]
  refine ⟨h.captures, ho, ?_, ?_⟩
  · intro i g hg x hx
    rcases h.gained (i + 1) g (by simpa [hf] using hg) x hx with hx | ⟨hi, -⟩
    · exact .inl hx
    · cases hi
  · obtain ⟨new, hnew, hvars⟩ := h.closed
    refine ⟨new ++ [⟨id, f.vars, f.exports⟩], by simp [hnew, enter], ?_⟩
    intro cl hcl x hx hk
    rcases List.mem_append.mp hcl with hcl | hcl
    · exact hvars cl hcl x hx (known_enter hk)
    · obtain rfl := List.mem_singleton.mp hcl
      exact (vars_entered h hf x hx).2 (known_enter hk)

end Resolver

/-- Nothing in a tree that is read is malformed. -/
def Readable (t : Tree Mark) : Prop := ∀ d, .reject d ∉ events t

theorem Readable.part (h : Readable t) (hs : s ∈ t.parts) : Readable s := by
  intro d hd
  have hmem : .reject d ∈ t.parts.flatMap events := List.mem_flatMap.mpr ⟨s, hs, hd⟩
  cases t with
  | leaf a => simp [Tree.parts] at hs
  | node mark tag args =>
    apply h d
    cases ht : tag.isClosure with
    | true =>
      rw [events_closure ht h]
      simp [hmem]
    | false =>
      rw [events_open ht h]
      exact List.mem_append_left _ hmem

namespace Resolver

variable {r : Resolver} {t : Tree Mark}

/-- A resolver that has been told of a tree. -/
def read (r : Resolver) (t : Tree Mark) : Resolver := (events t).foldl step r

/-- A resolver that has been told of some trees, one after the other. -/
def readAll (r : Resolver) (ts : List (Tree Mark)) : Resolver := ts.foldl read r

theorem foldl_events (r : Resolver) (ts : List (Tree Mark)) :
    (ts.flatMap events).foldl step r = r.readAll ts := by
  rw [List.foldl_flatMap]
  rfl

theorem readAll_append (r : Resolver) (ts us : List (Tree Mark)) :
    r.readAll (ts ++ us) = (r.readAll ts).readAll us := List.foldl_append

theorem read_sym (r : Resolver) (name : Text) : r.read (.leaf (.sym name)) = r.use name := rfl

theorem read_closure {id : Int} (h : Readable t) (ht : t.closure? = some (id, params)) :
    r.read t = ((r.enter id params).readAll t.parts).leave := by
  cases t with
  | leaf a => cases ht
  | node mark tag args =>
    obtain ⟨hc, rfl, rfl⟩ := Tree.closure?_eq_some.mp ht
    rw [read, events_closure hc h, List.cons_append, List.foldl_cons, List.foldl_append,
      foldl_events]
    rfl

/-- A tree that is neither a closure nor a name: its parts are read, and then an assignment is
complete. -/
theorem read_open (h : Readable t) (ht : t.closure? = none)
    (hs : ∀ name, t ≠ .leaf (.sym name)) :
    r.read t = t.target?.toList.foldl define (r.readAll t.parts) := by
  cases t with
  | leaf a =>
    cases a with
    | sym name => exact absurd rfl (hs name)
    | nil | str | int | unknown => rfl
  | node mark tag args =>
    rw [read, events_open (Tree.closure?_eq_none.mp ht) h, List.foldl_append, foldl_events,
      List.foldl_map]
    rfl

end Resolver

/-- Induction over what is read: names, closures, and everything else. -/
theorem Readable.induct {P : ∀ t, Readable t → Prop} (sym : ∀ name h, P (.leaf (.sym name)) h)
    (closure : ∀ t id params (h : Readable t), t.closure? = some (id, params) →
      (∀ s (hs : s ∈ t.parts), P s (h.part hs)) → P t h)
    (other : ∀ t (h : Readable t), t.closure? = none → (∀ name, t ≠ .leaf (.sym name)) →
      (∀ s (hs : s ∈ t.parts), P s (h.part hs)) → P t h) (t : Tree Mark) (h : Readable t) :
      P t h := by
  induction t using Tree.induct_parts with
  | step t ih =>
    have hall : ∀ s (hs : s ∈ t.parts), P s (h.part hs) := fun s hs => ih s hs (h.part hs)
    cases hc : t.closure? with
    | some c => exact closure t c.1 c.2 h hc hall
    | none =>
      by_cases hsym : ∃ name, t = .leaf (.sym name)
      · obtain ⟨name, rfl⟩ := hsym
        exact sym name h
      · exact other t h hc (fun name heq => hsym ⟨name, heq⟩) hall

namespace Resolver

variable {r : Resolver} {t : Tree Mark}

theorem readAll_of_read (h : ∀ t ∈ ts, ∀ r : Resolver, Advances t.assigned r (r.read t)) :
    Advances (ts.flatMap Tree.assigned) r (r.readAll ts) := by
  induction ts generalizing r with
  | nil => exact .refl _ r
  | cons t ts ih =>
    exact (h t (by simp) r).trans (ih fun s hs => h s (List.mem_cons_of_mem t hs))

/-- Reading a tree defines no more than it assigns. -/
theorem read_advances (h : Readable t) (r : Resolver) : Advances t.assigned r (r.read t) := by
  induction t, h using Readable.induct generalizing r with
  | sym name => exact use_advances r name
  | closure t id params h hc ih =>
    rw [read_closure h hc, Tree.assigned_closure (by simp [hc])]
    exact closure_advances (readAll_of_read ih)
  | other t h hc hsym ih =>
    rw [read_open h hc hsym, Tree.assigned_eq hc]
    refine (readAll_of_read ih).trans ?_
    cases t.target? with
    | none => exact .refl _ _
    | some name => exact define_advances _ name

theorem readAll_advances (h : ∀ t ∈ ts, Readable t) (r : Resolver) :
    Advances (ts.flatMap Tree.assigned) r (r.readAll ts) :=
  readAll_of_read fun t ht => read_advances (h t ht)

end Resolver

/-- A name as sources have them; keys of exported parameters are none. -/
def SourceName (name : Text) : Prop := 0x23 ∉ name.bytes

/-- The key of an exported parameter is no name of a source. -/
theorem not_sourceName_exportKey (name : Text) (id : Int) : ¬ SourceName (exportKey name id) := by
  have hash : (0x23 : UInt8) ∈ (Text.ofString "#").bytes := by decide
  simp [SourceName, exportKey, hash]

/-- The variables of a frame are known nowhere else. -/
structure Frame.OwnsVars (captures : List Text) (f : Frame) (outer : List Frame) : Prop where
  nodup : f.vars.Nodup
  params : ∀ x ∈ f.vars, x ∉ f.params
  unknown : ∀ x ∈ f.vars, ¬ KnownIn captures outer x
  plain : ∀ x ∈ f.vars, SourceName x
  /-- Only the function itself, the outermost frame, is no closure. -/
  last : f.closure = none → outer = []

/-- No name is a variable of two frames, or of one that has it as a parameter too or lies in one
that has, and no variable is captured. -/
def FramesApart (captures : List Text) : List Frame → Prop
  | [] => True
  | f :: outer => f.OwnsVars captures outer ∧ FramesApart captures outer

theorem Frame.OwnsVars.taken (h : f.OwnsVars captures outer) (ht : Taken name f f' key args) :
    f'.OwnsVars (Names.add captures key) outer := by
  have hout : ∀ x ∈ f.vars, x ≠ key → ¬ KnownIn (Names.add captures key) outer x := by
    intro x hx hne hk
    refine h.unknown x hx (hk.imp_left fun hk => ?_)
    exact (Names.mem_add.mp hk).resolve_right hne
  cases ht with
  | var hp hv =>
    refine ⟨h.nodup.erase name, fun x hx => h.params x (List.mem_of_mem_erase hx), ?_,
      fun x hx => h.plain x (List.mem_of_mem_erase hx), h.last⟩
    intro x hx
    obtain ⟨hne, hx⟩ := (h.nodup.mem_erase_iff).mp hx
    exact hout x hx hne
  | param hc hp =>
    refine ⟨h.nodup, h.params, fun x hx => hout x hx ?_, h.plain, h.last⟩
    rintro rfl
    exact not_sourceName_exportKey _ _ (h.plain _ hx)
  | argument hc hp =>
    refine ⟨h.nodup, h.params, fun x hx => hout x hx ?_, h.plain, h.last⟩
    rintro rfl
    exact h.params x hx hp

theorem Taken.ne_key (h : Taken name f f' key args) (hx : x ≠ name) (hp : SourceName x) :
    x ≠ key := by
  cases h with
  | var _ _ => exact hx
  | param _ _ =>
    rintro rfl
    exact not_sourceName_exportKey _ _ hp
  | argument _ _ => exact hx

theorem KnownIn.untaken {inner outer : List Frame} (ht : Taken name f f' key args) (hx : x ≠ key)
    (h : KnownIn (Names.add captures key) (inner ++ f' :: outer) x) :
    KnownIn captures (inner ++ f :: outer) x := by
  rcases h with h | ⟨g, hg, h⟩
  · exact .inl ((Names.mem_add.mp h).resolve_right hx)
  · rcases List.mem_append.mp hg with hg | hg
    · exact .inr ⟨g, List.mem_append_left _ hg, h⟩
    · rcases List.mem_cons.mp hg with rfl | hg
      · exact .inr ⟨f, by simp, h.imp (ht.params ▸ ·) (ht.vars x)⟩
      · exact .inr ⟨g, by simp [hg], h⟩

theorem FramesApart.plain (h : FramesApart captures frames) :
    ∀ f ∈ frames, ∀ x ∈ f.vars, SourceName x := by
  induction frames with
  | nil => simp
  | cons f outer ih => exact List.forall_mem_cons.mpr ⟨h.1.plain, ih h.2⟩

theorem FramesApart.add (h : FramesApart captures frames) (hk : ∀ f ∈ frames, key ∉ f.vars) :
    FramesApart (Names.add captures key) frames := by
  induction frames with
  | nil => trivial
  | cons f outer ih =>
    refine ⟨⟨h.1.nodup, h.1.params, ?_, h.1.plain, h.1.last⟩,
      ih h.2 fun g hg => hk g (List.mem_cons_of_mem f hg)⟩
    intro x hx hknown
    refine h.1.unknown x hx (hknown.imp_left fun hc => ?_)
    refine (Names.mem_add.mp hc).resolve_right ?_
    rintro rfl
    exact hk f (by simp) hx

/-- Taking a variable out of its frame leaves frames apart. -/
theorem FramesApart.taken {inner outer : List Frame}
    (h : FramesApart captures (inner ++ f :: outer))
    (hinner : ∀ g ∈ inner, name ∉ g.params ∧ name ∉ g.vars) (ht : Taken name f f' key args) :
    FramesApart (Names.add captures key) (inner ++ f' :: outer) := by
  induction inner with
  | nil =>
    refine ⟨h.1.taken ht, h.2.add fun g hg hkey => ?_⟩
    cases ht with
    | var hp hv => exact h.1.unknown name hv (.inr ⟨g, hg, .inr hkey⟩)
    | param hc hp => exact not_sourceName_exportKey _ _ (h.2.plain g hg _ hkey)
    | argument hc hp => simp [h.1.last hc] at hg
  | cons g inner ih =>
    refine ⟨⟨h.1.nodup, h.1.params, ?_, h.1.plain, ?_⟩,
      ih h.2 fun g' hg' => hinner g' (List.mem_cons_of_mem g hg')⟩
    · intro x hx hknown
      refine h.1.unknown x hx (hknown.untaken ht (ht.ne_key ?_ (h.1.plain x hx)))
      rintro rfl
      exact (hinner g (by simp)).2 hx
    · intro hc
      have := h.1.last hc
      simp at this

theorem FramesApart.define (h : FramesApart captures (f :: outer)) (hp : SourceName name)
    (hk : ¬ KnownIn captures (f :: outer) name) :
    FramesApart captures ({ f with vars := f.vars ++ [name] } :: outer) := by
  have hnot : ∀ g ∈ f :: outer, name ∉ g.params ∧ name ∉ g.vars := fun g hg =>
    ⟨fun hn => hk (.inr ⟨g, hg, .inl hn⟩), fun hn => hk (.inr ⟨g, hg, .inr hn⟩)⟩
  obtain ⟨hparams, hvars⟩ := hnot f (by simp)
  refine ⟨⟨?_, ?_, ?_, ?_, h.1.last⟩, h.2⟩
  · simpa using h.1.nodup.concat hvars
  all_goals
    intro x hx
    rcases List.mem_append.mp hx with hx | hx
  · exact h.1.params x hx
  · obtain rfl := List.mem_singleton.mp hx
    exact hparams
  · exact h.1.unknown x hx
  · obtain rfl := List.mem_singleton.mp hx
    rintro (hc | ⟨g, hg, hn⟩)
    · exact hk (.inl hc)
    · have := hnot g (List.mem_cons_of_mem f hg)
      exact hn.elim this.1 this.2
  · exact h.1.plain x hx
  · obtain rfl := List.mem_singleton.mp hx
    exact hp

namespace Resolver

variable {r : Resolver} {t : Tree Mark} {name : Text}

theorem framesApart_start (params : List Text) :
    FramesApart (start params).captures (start params).frames :=
  ⟨⟨by simp, by simp, by simp, by simp, by simp⟩, trivial⟩

theorem framesApart_enter (h : FramesApart r.captures r.frames) (id : Int) (params : List Text) :
    FramesApart (r.enter id params).captures (r.enter id params).frames :=
  ⟨⟨by simp, by simp, by simp, by simp, by simp⟩, h⟩

/-- Frames stay apart with every event. -/
theorem framesApart_step (h : FramesApart r.captures r.frames)
    (hp : ∀ name, e = .define name → SourceName name)
    (hs : Step r e r') : FramesApart r'.captures r'.frames := by
  cases hs with
  | kept => exact h
  | captured _ found free taken => exact (found ▸ h).taken free taken
  | @defined name _ _ _ unknown found =>
    rw [Known, found] at unknown
    exact (found ▸ h).define (hp name rfl) unknown
  | entered => exact framesApart_enter h _ _
  | left _ found => exact (found ▸ h).2

theorem framesApart_readAll (hp : ∀ t ∈ ts, ∀ x ∈ t.names, SourceName x)
    (hr : FramesApart r.captures r.frames) :
    FramesApart (r.readAll ts).captures (r.readAll ts).frames := by
  rw [← foldl_events]
  refine foldl_keeps (I := fun r => FramesApart r.captures r.frames) (fun e he r r' hs h => ?_) hr
  obtain ⟨t, ht, he⟩ := List.mem_flatMap.mp he
  exact framesApart_step h (fun name heq => hp t ht name (define_mem_names (heq ▸ he))) hs

end Resolver

end Lowering.Scope
