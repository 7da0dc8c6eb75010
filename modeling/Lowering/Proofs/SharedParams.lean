import Lowering.Proofs.ClosurePlaces
import Lowering.Proofs.EnvironmentKeys

namespace Lowering

namespace Tree

variable {name : Text} {s t : Tree Mark}

/-- A name is used in a tree, but for the closures in it that have it as a parameter. -/
inductive UsesName (name : Text) : Tree Mark → Prop where
  | here : UsesName name (.leaf (.sym name))
  | part {s t : Tree Mark} (below : s ∈ t.parts)
      (free : ∀ id params, t.closure? = some (id, params) → name ∉ params) (use : UsesName name s) :
      UsesName name t

/-- A name is used in a closure in a tree that does not have it as a parameter. -/
inductive Crosses (name : Text) : Tree Mark → Prop where
  | closure {t : Tree Mark} (isClosure : t.closure?.isSome = true) (use : UsesName name t) :
      Crosses name t
  | part {s t : Tree Mark} (below : s ∈ t.parts) (noClosure : t.closure? = none)
      (use : Crosses name s) : Crosses name t

theorem usesName_closure {id : Int} (hc : t.closure? = some (id, params)) :
    t.UsesName name ↔ name ∉ params ∧ ∃ s ∈ t.parts, s.UsesName name := by
  constructor
  · intro h
    cases h with
    | here => cases hc
    | part below free use => exact ⟨free id params hc, _, below, use⟩
  · rintro ⟨hp, s, hs, hu⟩
    refine .part hs (fun id' params' hc' => ?_) hu
    rw [hc] at hc'
    cases hc'
    exact hp

theorem usesName_open (hc : t.closure? = none) (ht : ∀ name, t ≠ .leaf (.sym name)) :
    t.UsesName name ↔ ∃ s ∈ t.parts, s.UsesName name := by
  constructor
  · intro h
    cases h with
    | here => exact absurd rfl (ht name)
    | part below free use => exact ⟨_, below, use⟩
  · rintro ⟨s, hs, hu⟩
    refine .part hs (fun id params hc' => ?_) hu
    rw [hc] at hc'
    cases hc'

theorem crosses_closure (hc : t.closure?.isSome = true) : t.Crosses name ↔ t.UsesName name := by
  refine ⟨fun h => ?_, .closure hc⟩
  cases h with
  | closure _ use => exact use
  | part _ noClosure => simp [noClosure] at hc

theorem crosses_open (hc : t.closure? = none) :
    t.Crosses name ↔ ∃ s ∈ t.parts, s.Crosses name := by
  constructor
  · intro h
    cases h with
    | closure isClosure => simp [hc] at isClosure
    | part below _ use => exact ⟨_, below, use⟩
  · rintro ⟨s, hs, hu⟩
    exact .part hs hc hu

theorem usesName_sym : (Tree.leaf (.sym x)).UsesName name ↔ name = x := by
  constructor
  · intro h
    cases h with
    | here => rfl
    | part below => cases below
  · rintro rfl
    exact .here

theorem not_crosses_leaf : ¬ (Tree.leaf a).Crosses name := by
  intro h
  cases h with
  | closure isClosure => cases isClosure
  | part below => cases below

end Tree

/-- A block shares a parameter with closures in it. -/
structure Block.Shares (b : Block) (name : Text) : Prop where
  param : name ∈ b.params
  ordinary : Scope.isSpecial name = false
  captured : ∃ t ∈ b.stmts, t.Crosses name

namespace Scope

/-- The parameters of frames. -/
def paramLists (frames : List Frame) : List (List Text) := frames.map Frame.params

/-- A use of a name in a tree captures it from frame `i`. -/
structure CapturesFrom (frames : List (List Text)) (name : Text) (i : Nat) (t : Tree Mark) :
    Prop where
  param : ∃ params, frames[i]? = some params ∧ name ∈ params
  ordinary : isSpecial name = false
  free : ∀ params ∈ frames.take i, name ∉ params
  use : if i = 0 then t.Crosses name else t.UsesName name

/-- Only the outermost frame is no closure, and no frame has a variable that is a parameter further
out. -/
def FramesNest (frames : List Frame) : Prop :=
  frames.Pairwise fun g f => g.closure ≠ none ∧ ∀ x ∈ g.vars, x ∉ f.params

theorem FramesNest.function_unique {i j : Nat} (hs : FramesNest frames) (hi : frames[i]? = some f)
    (hf : f.closure = none) (hj : frames[j]? = some g) (hg : g.closure = none) : i = j := by
  obtain ⟨hlt, rfl⟩ := List.getElem?_eq_some_iff.mp hi
  obtain ⟨hlt', rfl⟩ := List.getElem?_eq_some_iff.mp hj
  rcases Nat.lt_trichotomy i j with h | h | h
  · exact absurd hf (List.pairwise_iff_getElem.mp hs i j hlt hlt' h).1
  · exact h
  · exact absurd hg (List.pairwise_iff_getElem.mp hs j i hlt' hlt h).1

theorem capturesFrom_closure {id : Int} (hc : t.closure? = some (id, params)) :
    CapturesFrom frames name i t ↔
    ∃ s ∈ t.parts, CapturesFrom (params :: frames) name (i + 1) s := by
  have huse : (if i = 0 then t.Crosses name else t.UsesName name) ↔ t.UsesName name := by
    split
    · exact Tree.crosses_closure (by simp [hc])
    · rfl
  constructor
  · intro ⟨hparam, hs, hfree, hu⟩
    obtain ⟨hp, s, hmem, hu⟩ := (Tree.usesName_closure hc).mp (huse.mp hu)
    exact ⟨s, hmem, hparam, hs, List.forall_mem_cons.mpr ⟨hp, hfree⟩, hu⟩
  · rintro ⟨s, hmem, hparam, hs, hfree, hu⟩
    obtain ⟨hp, hfree⟩ := List.forall_mem_cons.mp hfree
    exact ⟨hparam, hs, hfree, huse.mpr ((Tree.usesName_closure hc).mpr ⟨hp, s, hmem, hu⟩)⟩

theorem capturesFrom_open (hc : t.closure? = none) (ht : ∀ name, t ≠ .leaf (.sym name)) :
    CapturesFrom frames name i t ↔ ∃ s ∈ t.parts, CapturesFrom frames name i s := by
  have huse : (if i = 0 then t.Crosses name else t.UsesName name) ↔
      ∃ s ∈ t.parts, if i = 0 then s.Crosses name else s.UsesName name := by
    split
    · exact Tree.crosses_open hc
    · exact Tree.usesName_open hc ht
  constructor
  · intro ⟨hparam, hs, hfree, hu⟩
    obtain ⟨s, hmem, hu⟩ := huse.mp hu
    exact ⟨s, hmem, hparam, hs, hfree, hu⟩
  · rintro ⟨s, hmem, hparam, hs, hfree, hu⟩
    exact ⟨hparam, hs, hfree, huse.mpr ⟨s, hmem, hu⟩⟩

/-- What a name itself reaches: the first frame that has it, unless it is the innermost one or has
it as a variable. -/
theorem capturesFrom_sym {inner outer : List Frame} (hs : FramesNest (inner ++ f :: outer))
    (hinner : ∀ g ∈ inner, name ∉ g.params) (hf : name ∈ f.params ∨ name ∈ f.vars)
    (ho : isSpecial name = false) :
    CapturesFrom (paramLists (inner ++ f :: outer)) x i (.leaf (.sym name)) ↔
      x = name ∧ i = inner.length ∧ inner ≠ [] ∧ name ∈ f.params := by
  constructor
  · rintro ⟨⟨params, hi, hx⟩, -, hfree, hu⟩
    have hpos : i ≠ 0 := by
      rintro rfl
      exact Tree.not_crosses_leaf hu
    rw [if_neg hpos] at hu
    obtain rfl := Tree.usesName_sym.mp hu
    rw [paramLists, List.getElem?_map] at hi
    obtain ⟨g, hg, rfl⟩ := Option.map_eq_some_iff.mp hi
    have hle : inner.length ≤ i := by
      by_contra hlt
      rw [List.getElem?_append_left (by omega)] at hg
      exact hinner g (List.mem_of_getElem? hg) hx
    rw [List.getElem?_append_right hle] at hg
    obtain rfl | hlt := hle.eq_or_lt
    · obtain rfl : f = g := by simpa using hg
      exact ⟨rfl, rfl, fun he => hpos (by simp [he]), hx⟩
    · -- a frame further out that has the name as a parameter
      have houter : g ∈ outer := by
        obtain ⟨k, hk⟩ : ∃ k, i - inner.length = k + 1 := ⟨i - inner.length - 1, by omega⟩
        rw [hk] at hg
        exact List.mem_of_getElem? (by simpa using hg)
      rcases hf with hf | hf
      · refine absurd hf (hfree f.params ?_)
        rw [paramLists, ← List.map_take, List.mem_map]
        refine ⟨f, List.mem_take_iff_getElem.mpr ⟨inner.length, by simp; omega, by simp⟩, rfl⟩
      · have hout := (List.pairwise_append.mp hs).2.1
        exact absurd hx ((List.rel_of_pairwise_cons hout houter).2 x hf)
  · rintro ⟨rfl, rfl, hne, hx⟩
    refine ⟨⟨f.params, by simp [paramLists], hx⟩, ho, ?_, ?_⟩
    · intro params hparams
      rw [paramLists, ← List.map_take, List.take_left] at hparams
      obtain ⟨g, hg, rfl⟩ := List.mem_map.mp hparams
      exact hinner g hg
    · rw [if_neg (by simpa using hne)]
      exact .here

namespace Resolver

variable {r r' : Resolver} {name x : Text} {i : Nat} {t : Tree Mark}

/-- The parameters of frame `i` that have been captured. -/
def given (r : Resolver) (i : Nat) : List Text :=
  match r.frames[i]? with
  | some f => if f.closure = none then r.capturedParams else f.exports
  | none => []

theorem Advances.sound (h : Advances targets r r') (hs : FramesNest r.frames) :
    FramesNest r'.frames := by
  refine List.pairwise_iff_getElem.mpr fun i j hi hj hij => ?_
  have hlen := h.frames.length_eq
  have hi0 : i < r.frames.length := by omega
  have hj0 : j < r.frames.length := by omega
  obtain ⟨hclosure, hvars⟩ := List.pairwise_iff_getElem.mp hs i j hi0 hj0 hij
  have hgi : r.frames[i].Later r'.captures r'.frames[i] := h.frames.get hi0 hi
  have hgj : r.frames[j].Later r'.captures r'.frames[j] := h.frames.get hj0 hj
  rw [hgi.closure, hgj.params]
  refine ⟨hclosure, fun x hx hp => ?_⟩
  obtain ⟨f, hf, hx⟩ | ⟨-, -, hk⟩ := h.gained i _ (List.getElem?_eq_getElem hi) x hx
  · obtain ⟨hlt, rfl⟩ := List.getElem?_eq_some_iff.mp hf
    exact hvars x hx hp
  · exact hk (.inr ⟨_, List.getElem_mem _, .inl hp⟩)

theorem Advances.paramLists (h : Advances targets r r') :
    paramLists r'.frames = paramLists r.frames := by
  unfold Scope.paramLists
  refine List.ext_getElem (by simp [h.frames.length_eq]) fun i hi hi' => ?_
  rw [List.getElem_map, List.getElem_map]
  exact (h.frames.get (by simpa using hi') (by simpa using hi)).params

theorem given_define (r : Resolver) (name : Text) (i : Nat) :
    (r.define name).given i = r.given i := by
  obtain ⟨h, -⟩ | ⟨-, -, f, outer, hf, h⟩ := r.define_cases name
  · rw [h]
  · rw [h]
    unfold given
    cases i with
    | zero => simp [hf]
    | succ i => simp [hf]

theorem given_leave {id : Int} (h : Advances targets (r.enter id params) r') (i : Nat) :
    r'.leave.given i = r'.given (i + 1) := by
  obtain ⟨f, outer, hf, -, -, -, hleave⟩ := leave_entered h
  rw [hleave]
  unfold given
  simp [hf]

theorem mem_given_capture {inner outer : List Frame} {role : Role} (hs : FramesNest r.frames)
    (hframes : r.frames = inner ++ f :: outer)
    (hrole : role = .param ∧ name ∈ f.params ∨ role = .var ∧ name ∉ f.params ∧ name ∈ f.vars) :
    x ∈ (r.capture name inner.length role).given i ↔
      x ∈ r.given i ∨ x = name ∧ i = inner.length ∧ name ∈ f.params := by
  have hat : r.frames[inner.length]? = some f := by simp [hframes]
  obtain ⟨rfl, hp⟩ | ⟨rfl, hp, -⟩ := hrole
  · have hcap : (r.capture name inner.length .param).given i =
        if i = inner.length then Names.add (r.given i) name else r.given i := by
      unfold capture given
      by_cases he : i = inner.length
      · cases hc : f.closure <;> simp [he, hat, hc, addCapture]
      · cases hc : f.closure with
        | some id => simp [he, Ne.symm he, hat, hc, addCapture]
        | none =>
          cases hi : r.frames[i]? with
          | none => simp [he, hi, hat, hc, addCapture]
          | some g =>
            have hg : g.closure ≠ none := fun hg => he (hs.function_unique hi hg hat hc)
            simp [he, hi, hat, hc, hg, addCapture]
    rw [hcap]
    split
    · simp [Names.mem_add, *]
    · simp [*]
  · have hcap : (r.capture name inner.length .var).given i = r.given i := by
      unfold capture given
      simp only [addCapture, List.getElem?_modify]
      cases r.frames[i]? with
      | none => rfl
      | some g => by_cases hi : inner.length = i <;> simp [hi]
    simp [hcap, hp]

theorem mem_given_use (hs : FramesNest r.frames) : x ∈ (r.use name).given i ↔
    x ∈ r.given i ∨ CapturesFrom (paramLists r.frames) x i (.leaf (.sym name)) := by
  have hsym : CapturesFrom (paramLists r.frames) x i (.leaf (.sym name)) → x = name := by
    intro h
    have hu := h.use
    split at hu
    · exact absurd hu Tree.not_crosses_leaf
    · exact Tree.usesName_sym.mp hu
  by_cases ho : isSpecial name = true
  · rw [use, if_pos ho, or_iff_left]
    intro h
    cases h.ordinary.symm.trans (hsym h ▸ ho)
  have ho : isSpecial name = false := by simpa using ho
  cases hl : lookupIn name r.frames with
  | none =>
    simp only [use, ho, lookup, hl]
    refine (or_iff_left fun h => ?_).symm
    obtain ⟨params, hp, hx⟩ := h.param
    rw [paramLists, List.getElem?_map] at hp
    obtain ⟨g, hg, rfl⟩ := Option.map_eq_some_iff.mp hp
    exact (lookupIn_eq_none.mp hl g (List.mem_of_getElem? hg)).1 (hsym h ▸ hx)
  | some found =>
    obtain ⟨k, role⟩ := found
    obtain ⟨inner, f, outer, hframes, rfl, hinner, hrole⟩ := lookupIn_eq_some hl
    have hreach := capturesFrom_sym (x := x) (i := i) (hframes ▸ hs) (fun g hg => (hinner g hg).1)
      (hrole.imp And.right fun h => h.2.2) ho
    rw [hframes, hreach]
    cases inner with
    | nil =>
      simp [use, ho, lookup, hl, given]
    | cons g inner =>
      have huse : r.use name =
          ({ r with uses := r.uses ++ [name] } : Resolver).capture name
            (g :: inner).length role := by
        simp [use, ho, lookup, hl]
      have hcap := mem_given_capture (r := { r with uses := r.uses ++ [name] }) (x := x) (i := i)
        hs hframes hrole
      rw [huse, hcap]
      simp [given]

theorem mem_given_readAll_of_read (hread : ∀ t ∈ ts, Readable t)
    (h : ∀ t ∈ ts, ∀ r : Resolver, FramesNest r.frames → (x ∈ (r.read t).given i ↔
      x ∈ r.given i ∨ CapturesFrom (paramLists r.frames) x i t)) (hs : FramesNest r.frames) :
    x ∈ (r.readAll ts).given i ↔
      x ∈ r.given i ∨ ∃ t ∈ ts, CapturesFrom (paramLists r.frames) x i t := by
  induction ts generalizing r with
  | nil => simp [readAll]
  | cons t ts ih =>
    have ha := read_advances (hread t (by simp)) r
    have hrest := ih (fun u hu => hread u (List.mem_cons_of_mem t hu))
      (fun u hu => h u (List.mem_cons_of_mem t hu)) (ha.sound hs)
    rw [ha.paramLists, h t (by simp) r hs] at hrest
    rw [show r.readAll (t :: ts) = (r.read t).readAll ts from rfl, hrest]
    simp only [List.mem_cons, exists_eq_or_imp, or_assoc]

theorem framesNest_enter (hs : FramesNest r.frames) (id : Int) (params : List Text) :
    FramesNest (r.enter id params).frames :=
  List.pairwise_cons.mpr ⟨fun _ _ => ⟨nofun, nofun⟩, hs⟩

/-- Reading a tree captures from each frame the parameters that the tree reaches. -/
theorem mem_given_read (ht : Readable t) (hs : FramesNest r.frames) :
    x ∈ (r.read t).given i ↔ x ∈ r.given i ∨ CapturesFrom (paramLists r.frames) x i t := by
  induction t, ht using Readable.induct generalizing r i with
  | sym name => exact mem_given_use hs
  | closure t id params ht hc ih =>
    have hparts : ∀ s ∈ t.parts, Readable s := fun s hs => ht.part hs
    have ha := readAll_advances hparts (r.enter id params)
    have hin := mem_given_readAll_of_read (i := i + 1) hparts (fun s hmem r hr => ih s hmem hr)
      (framesNest_enter hs id params)
    rw [read_closure ht hc, given_leave ha, hin, capturesFrom_closure hc]
    rfl
  | other t ht hc hsym ih =>
    have hin := mem_given_readAll_of_read (i := i) (fun s hs => ht.part hs)
      (fun s hmem r hr => ih s hmem hr) hs
    rw [read_open ht hc hsym, capturesFrom_open hc hsym, ← hin]
    cases t.target? with
    | none => rfl
    | some name => exact iff_of_eq (congrArg (x ∈ ·) (given_define _ name i))

theorem mem_given_readAll (hread : ∀ t ∈ ts, Readable t) (hs : FramesNest r.frames) :
    x ∈ (r.readAll ts).given i ↔
      x ∈ r.given i ∨ ∃ t ∈ ts, CapturesFrom (paramLists r.frames) x i t :=
  mem_given_readAll_of_read hread (fun t ht _ hr => mem_given_read (hread t ht) hr) hs

/-- The innermost frame has captured the parameters that it shares. -/
theorem capturesFrom_innermost :
    (∃ t ∈ stmts, CapturesFrom (params :: outer) x 0 t) ↔ (⟨params, stmts⟩ : Block).Shares x := by
  constructor
  · rintro ⟨t, ht, ⟨ps, hps, hx⟩, ho, -, hu⟩
    cases hps
    exact ⟨hx, ho, t, ht, hu⟩
  · rintro ⟨hx, ho, t, ht, hu⟩
    exact ⟨t, ht, ⟨params, rfl, hx⟩, ho, nofun, hu⟩

/-- The captured parameters of a function are those that it shares. -/
theorem mem_capturedParams {b : Block} (hread : ∀ t ∈ b.stmts, Readable t) :
    x ∈ ((start b.params).readAll b.stmts).capturedParams ↔ b.Shares x := by
  have ha := readAll_advances hread (start b.params)
  have hgiven := mem_given_readAll (x := x) (i := 0) hread
    (show FramesNest (start b.params).frames from List.pairwise_singleton _ _)
  obtain ⟨f, hf, hclosure⟩ : ∃ f, ((start b.params).readAll b.stmts).frames = [f] ∧
      f.closure = none := by
    have hframes := ha.frames
    generalize ((start b.params).readAll b.stmts).frames = frames at hframes
    cases hframes with
    | cons hfirst hrest =>
      cases hrest
      exact ⟨_, rfl, hfirst.closure⟩
  rw [given, hf] at hgiven
  simp only [List.getElem?_cons_zero, if_pos hclosure] at hgiven
  rw [hgiven, or_iff_right (by simp [given, start])]
  exact capturesFrom_innermost

/-- What is left while one of some trees is read stays so. -/
theorem closed_readAll_of_mem {ts : List (Tree Mark)} (hread : ∀ t ∈ ts, Readable t)
    {P : Closed → Prop} (ht : ts[i]? = some t) (hs : FramesNest r.frames)
    (h : ∀ r : Resolver, FramesNest r.frames → ∃ cl ∈ (r.read t).closed, P cl) :
    ∃ cl ∈ (r.readAll ts).closed, P cl := by
  have hbefore := readAll_advances
    (fun u (hu : u ∈ ts.take i) => hread u (List.mem_of_mem_take hu)) r
  have hafter := readAll_advances (fun u (hu : u ∈ ts.drop (i + 1)) =>
    hread u (List.mem_of_mem_drop hu)) ((r.readAll (ts.take i)).read t)
  obtain ⟨cl, hcl, hP⟩ := h _ (hbefore.sound hs)
  exact ⟨cl, readAll_part ht ▸ hafter.mem_closed hcl, hP⟩

/-- What a closure exports are the parameters that it shares. -/
theorem exports_read {id : Int} (ht : Readable t) (hs : FramesNest r.frames) (hu : t.at? p = some u)
    (hc : u.closure? = some (id, params)) : ∃ cl ∈ (r.read t).closed, cl.id = id ∧
      ∀ x, x ∈ cl.exports ↔ (⟨params, u.parts⟩ : Block).Shares x := by
  have hparts : ∀ s ∈ t.parts, Readable s := fun s hs => ht.part hs
  induction p generalizing t r with
  | nil =>
    obtain rfl : t = u := Option.some.inj hu
    have ha := readAll_advances hparts (r.enter id params)
    obtain ⟨f, outer, hf, hclosure, -, -, hleave⟩ := leave_entered ha
    rw [read_closure ht hc, hleave]
    refine ⟨_, List.mem_append_right _ (List.mem_singleton.mpr rfl), rfl, fun x => ?_⟩
    have hgiven := mem_given_readAll (x := x) (i := 0) hparts (framesNest_enter hs id params)
    rw [given, hf] at hgiven
    simp only [List.getElem?_cons_zero, hclosure] at hgiven
    exact hgiven.trans ((or_iff_right (by simp [given, enter])).trans capturesFrom_innermost)
  | cons i p ih =>
    obtain ⟨s, hi, hu⟩ := Option.bind_eq_some_iff.mp hu
    have hmem := List.mem_of_getElem? hi
    have inner : ∀ r : Resolver, FramesNest r.frames → ∃ cl ∈ (r.read s).closed, cl.id = id ∧
        ∀ x, x ∈ cl.exports ↔ (⟨params, u.parts⟩ : Block).Shares x :=
      fun r hr => ih (hparts s hmem) hr hu fun s' hs' => (hparts s hmem).part hs'
    cases hcl : t.closure? with
    | some closure =>
      obtain ⟨id', params'⟩ := closure
      have ha := readAll_advances hparts (r.enter id' params')
      obtain ⟨f, outer, -, -, -, -, hleave⟩ := leave_entered ha
      obtain ⟨cl, hmem', hcl'⟩ :=
        closed_readAll_of_mem hparts hi (framesNest_enter hs id' params') inner
      rw [read_closure ht hcl, hleave]
      exact ⟨cl, List.mem_append_left _ hmem', hcl'⟩
    | none =>
      have hsym : ∀ name, t ≠ .leaf (.sym name) := by
        rintro name rfl
        cases hi
      obtain ⟨cl, hmem', hcl'⟩ := closed_readAll_of_mem hparts hi hs inner
      rw [read_open ht hcl hsym]
      refine ⟨cl, ?_, hcl'⟩
      cases t.target? with
      | none => exact hmem'
      | some name =>
        rw [Option.toList_some, List.foldl_cons, List.foldl_nil, define_closed]
        exact hmem'

theorem exports_body {b : Block} (hread : ∀ t ∈ b.stmts, Readable t) {p : List Nat} {u : Tree Mark}
    {id : Int} {params : List Text} (hu : b.at? p = some u) (hc : u.closure? = some (id, params)) :
    ∃ cl ∈ ((start b.params).readAll b.stmts).closed, cl.id = id ∧
      ∀ x, x ∈ cl.exports ↔ (⟨params, u.parts⟩ : Block).Shares x := by
  cases p with
  | nil => cases hu
  | cons i p =>
    obtain ⟨t, hi, hu⟩ := Option.bind_eq_some_iff.mp hu
    refine closed_readAll_of_mem hread hi (List.pairwise_singleton _ _) fun r hr => ?_
    exact exports_read (hread t (List.mem_of_getElem? hi)) hr hu hc

/-- What is noted of parameters has no repeats. -/
structure NotedOnce (r : Resolver) : Prop where
  frames : ∀ f ∈ r.frames, f.exports.Nodup
  closed : ∀ cl ∈ r.closed, cl.exports.Nodup
  arguments : r.capturedParams.Nodup

theorem NotedOnce.step (h : NotedOnce r) (hs : Step r e r') : NotedOnce r' where
  frames f' hf' := by
    obtain ⟨f, hf, hturns⟩ | ⟨_, _, _, rfl⟩ := hs.mem_frames hf'
    · rcases hturns.exports with heq | ⟨name, heq, -⟩
      · exact heq ▸ h.frames f hf
      · exact heq ▸ Names.nodup_add (h.frames f hf)
    · exact List.nodup_nil
  closed cl hcl := by
    obtain hcl | ⟨f, hf, -, -, heq⟩ := hs.mem_closed hcl
    · exact h.closed cl hcl
    · exact heq ▸ h.frames f hf
  arguments := by
    cases hs with
    | captured => exact Names.nodup_foldl_add _ h.arguments
    | kept | defined | entered | left => exact h.arguments

theorem notedOnce_body (b : Block) : NotedOnce ((start b.params).readAll b.stmts) := by
  rw [← foldl_events]
  exact foldl_keeps (fun _ _ _ _ hs h => h.step hs) ⟨by simp [start], nofun, List.nodup_nil⟩

/-- The key that an event captures. -/
def captured? (r : Resolver) : Event → Option Text
  | .use name =>
    if isSpecial name then none
    else
      match r.lookup name with
      | some (i + 1, .param) =>
        match (r.frames[i + 1]?).bind (·.closure) with
        | some id => some (exportKey name id)
        | none => some name
      | some (_ + 1, .var) => some name
      | _ => none
  | _ => none

/-- What events capture, one after the other. -/
def captureLog : Resolver → List Event → List Text
  | _, [] => []
  | r, e :: es => (r.captured? e).toList ++ captureLog (r.step e) es

theorem captures_step (r : Resolver) (e : Event) :
    (r.step e).captures = (r.captured? e).toList.foldl Names.add r.captures := by
  cases e with
  | use name =>
    show (r.use name).captures = _
    unfold use captured?
    by_cases hs : isSpecial name = true
    · simp [hs]
    · unfold lookup
      cases hl : lookupIn name r.frames with
      | none => simp [hs, hl]
      | some found =>
        obtain ⟨_ | i, role⟩ := found
        · simp [hs, hl]
        · cases role with
          | var => simp [hs, hl, capture, addCapture]
          | param =>
            cases hc : (r.frames[i + 1]?).bind (·.closure) with
            | none => simp [hs, hl, hc, capture, addCapture]
            | some id => simp [hs, hl, hc, capture, addCapture]
  | define name =>
    show (r.define name).captures = _
    unfold define
    split <;> rfl
  | enter id params => rfl
  | leave =>
    show r.leave.captures = _
    unfold leave
    split <;> rfl
  | reject d => rfl

theorem captures_foldl (r : Resolver) (es : List Event) :
    (es.foldl step r).captures = (r.captureLog es).foldl Names.add r.captures := by
  induction es generalizing r with
  | nil => rfl
  | cons e es ih => rw [List.foldl_cons, ih, captures_step, captureLog, List.foldl_append]

/-- The captures of a function are the keys that it captures, in the order of their first
captures. -/
theorem captures_body (b : Block) : ((start b.params).readAll b.stmts).captures =
    ((start b.params).captureLog (b.stmts.flatMap events)).eraseDups := by
  rw [← foldl_events, captures_foldl, ← Names.foldl_add_nil]
  rfl

end Resolver

end Scope

end Lowering
