import Lowering.Scope.Resolver
import Lowering.Proofs.Trees

namespace Lowering.Scope

variable {es : List Event} {r : Resolver} {id : Int}

theorem eventsEach_eq (ts : List (Tree Mark)) : eventsEach ts = ts.map events :=
  eq_map rfl (fun _ _ => rfl) ts

/-- Lowered code and functions of their own have no events. -/
theorem events_node (mark : Mark) (tag : Tag) (args : List (Tree Mark)) :
    events (.node mark tag args) =
      if tag = .sexp ∨ tag = .defm ∨ tag = .defun then [] else
        match Tree.malformed? tag args with
        | some c => [.reject ⟨mark.pos, tag, c⟩]
        | none => nodeEvents mark tag args (args.map events) := by
  rw [← eventsEach_eq]
  cases hm : Tree.malformed? tag args <;> cases tag <;> simp [events, hm]

theorem mem_flatten_eventsEach : e ∈ (eventsEach ts).flatten ↔ ∃ t ∈ ts, e ∈ events t := by
  simp [eventsEach_eq]

/-- A node adds to the events of its operands an entry and an exit, or a definition. -/
theorem mem_nodeEvents (h : e ∈ nodeEvents mark tag args parts) :
    e ∈ parts.flatten ∨ e = .leave ∨ (tag.isClosure = true ∧ ∃ params, e = .enter mark.id params) ∨
      ∃ name, args.head?.bind Tree.symbol? = some name ∧ e = .define name := by
  have sub : ∀ {ps : List (List Event)}, ps.Sublist parts → e ∈ ps.flatten → e ∈ parts.flatten :=
    fun hs h => hs.flatten.subset h
  have closure : ∀ {params}, e ∈ Event.enter mark.id params :: (parts.drop 1).flatten ++ [.leave] →
      e ∈ parts.flatten ∨ e = .leave ∨ ∃ params, e = .enter mark.id params := by
    intro params h
    simp only [List.cons_append, List.mem_cons, List.mem_append, List.not_mem_nil, or_false] at h
    rcases h with h | h | h
    · exact .inr (.inr ⟨params, h⟩)
    · exact .inl (sub (List.drop_sublist _ _) h)
    · exact .inr (.inl h)
  unfold nodeEvents at h
  split at h
  · rcases List.mem_append.mp h with h | h
    · exact .inl h
    · unfold definition at h
      split at h
      · next name hname => exact .inr (.inr (.inr ⟨name, hname, List.mem_singleton.mp h⟩))
      · cases h
  · exact .inl (sub (List.eraseIdx_sublist _ _) h)
  · exact .inl (sub (List.drop_sublist _ _) h)
  · exact (closure h).imp_right fun h => h.imp_right fun h => .inl ⟨rfl, h⟩
  · exact (closure h).imp_right fun h => h.imp_right fun h => .inl ⟨rfl, h⟩
  · exact .inl h

/-- The closures that a tree enters lie in every set of nodes that contains its root and is left by
no operand outside lowered code. -/
theorem enter_mem_events {f : Forest} (ht : f.Denotes v t)
    (hv : ∀ x, v.child? = some x → f.Clear P x) (h : .enter id params ∈ events t) :
    f.Clear P id ∧ ∃ n, f.get? id = some n ∧ n.tag.isClosure = true := by
  induction t generalizing v with
  | leaf a => cases a <;> simp [events] at h
  | node mark tag args ih =>
    obtain ⟨hview, n, hn, rfl, -, hargs⟩ := Forest.denotes_node.mp ht
    have hclear := hv mark.id (Operand.view_eq_child.mp hview)
    obtain ⟨m, hm, -, hchildren⟩ := Forest.selfContained_clear P f _ hclear
    rw [hn] at hm
    cases hm
    rw [events_node] at h
    split at h
    · simp at h
    · rename_i hskip
      split at h
      · simp at h
      · obtain h | h | ⟨hc, _, h⟩ | ⟨_, _, h⟩ := mem_nodeEvents h
        · rw [← eventsEach_eq, mem_flatten_eventsEach] at h
          obtain ⟨t, htm, h⟩ := h
          obtain ⟨w, hw, hwt⟩ := Forest.forall₂_mem_left hargs.flip htm
          refine ih t htm hwt (fun x hx => hchildren (fun hs => hskip (.inl hs)) x ?_) h
          exact List.mem_filterMap.mpr ⟨w, hw, hx⟩
        · cases h
        · cases h
          exact ⟨hclear, n, hn, hc⟩
        · cases h

/-- How a name is captured from a frame: what the frame becomes, the key, and what it adds to the
captured parameters of the function. -/
inductive Taken (name : Text) (f : Frame) : Frame → Text → List Text → Prop where
  | var (notParam : name ∉ f.params) (mem : name ∈ f.vars) :
      Taken name f { f with vars := f.vars.erase name } name []
  | param {id : Int} (closure : f.closure = some id) (mem : name ∈ f.params) :
      Taken name f { f with exports := Names.add f.exports name } (exportKey name id) []
  | argument (function : f.closure = none) (mem : name ∈ f.params) : Taken name f f name [name]

theorem Taken.closure (h : Taken name f f' key args) : f'.closure = f.closure := by cases h <;> rfl

theorem Taken.params (h : Taken name f f' key args) : f'.params = f.params := by cases h <;> rfl

/-- Some frame has a name, or it is captured. -/
def KnownIn (captures : List Text) (frames : List Frame) (name : Text) : Prop :=
  name ∈ captures ∨ ∃ f ∈ frames, name ∈ f.params ∨ name ∈ f.vars

namespace Resolver

variable {r' : Resolver} {name : Text} {frames : List Frame} {e : Event}

/-- A name that is captured, or declared in a frame. -/
def Known (r : Resolver) (name : Text) : Prop := KnownIn r.captures r.frames name

theorem lookupIn_eq_none : lookupIn name frames = none ↔
    ∀ f ∈ frames, name ∉ f.params ∧ name ∉ f.vars := by
  induction frames with
  | nil => simp [lookupIn]
  | cons f frames ih =>
    rw [lookupIn, List.forall_mem_cons]
    unfold role?
    by_cases hp : name ∈ f.params
    · simp [hp]
    · by_cases hv : name ∈ f.vars
      · simp [hp, hv]
      · simp [hp, hv, ih]

theorem lookupIn_eq_some (h : lookupIn name frames = some (i, role)) :
    ∃ inner f outer, frames = inner ++ f :: outer ∧ inner.length = i ∧
      (∀ g ∈ inner, name ∉ g.params ∧ name ∉ g.vars) ∧
      (role = .param ∧ name ∈ f.params ∨ role = .var ∧ name ∉ f.params ∧ name ∈ f.vars) := by
  induction frames generalizing i with
  | nil => cases h
  | cons f frames ih =>
    rw [lookupIn] at h
    unfold role? at h
    by_cases hp : name ∈ f.params
    · simp only [List.contains_eq_mem, hp, decide_true, if_true, Option.some.injEq,
        Prod.mk.injEq] at h
      exact ⟨[], f, frames, rfl, h.1, by simp, .inl ⟨h.2.symm, hp⟩⟩
    · by_cases hv : name ∈ f.vars
      · simp only [List.contains_eq_mem, hp, hv, decide_true, decide_false, Bool.false_eq_true,
          if_true, if_false, Option.some.injEq, Prod.mk.injEq] at h
        exact ⟨[], f, frames, rfl, h.1, by simp, .inr ⟨h.2.symm, hp, hv⟩⟩
      · simp only [List.contains_eq_mem, hp, hv, decide_false, Bool.false_eq_true, if_false,
          Option.map_eq_some_iff, Prod.mk.injEq] at h
        obtain ⟨⟨j, role'⟩, hj, rfl, rfl⟩ := h
        obtain ⟨inner, g, outer, rfl, rfl, hinner, hrole⟩ := ih hj
        refine ⟨f :: inner, g, outer, rfl, rfl, ?_, hrole⟩
        exact List.forall_mem_cons.mpr ⟨⟨hp, hv⟩, hinner⟩

theorem capture_spec (r : Resolver) {inner outer : List Frame}
    (hframes : r.frames = inner ++ f :: outer)
    (hrole : role = .param ∧ name ∈ f.params ∨ role = .var ∧ name ∉ f.params ∧ name ∈ f.vars) :
    ∃ f' key args, Taken name f f' key args ∧ r.capture name inner.length role =
      { r with frames := inner ++ f' :: outer, captures := Names.add r.captures key,
               capturedParams := args.foldl Names.add r.capturedParams } := by
  have hmodify (g : Frame → Frame) : r.frames.modify inner.length g = inner ++ g f :: outer := by
    rw [hframes, List.modify_eq_take_cons_drop (by simp)]
    simp
  have hget : r.frames[inner.length]? = some f := by simp [hframes]
  unfold capture
  rw [hget]
  rcases hrole with ⟨rfl, hp⟩ | ⟨rfl, hp, hv⟩
  · cases hc : f.closure with
    | none =>
      simp only [Option.bind_some, hc]
      exact ⟨f, name, [name], .argument hc hp, by simp [addCapture, hframes]⟩
    | some id =>
      simp only [Option.bind_some, hc]
      exact ⟨_, _, _, .param hc hp, by simp [addCapture, hmodify]⟩
  · exact ⟨_, _, _, .var hp hv, by simp [addCapture, hmodify]⟩

/-- A use leaves everything as it is, or captures the name from the innermost frame that has it. -/
inductive Used (r : Resolver) (name : Text) : Resolver → Prop where
  | kept {uses : List Text} (reason : isSpecial name = true ∨
        (∀ f ∈ r.frames, name ∉ f.params ∧ name ∉ f.vars) ∨
        ∃ f outer, r.frames = f :: outer ∧ (name ∈ f.params ∨ name ∈ f.vars)) :
      Used r name { r with uses }
  | captured {uses : List Text} {inner outer : List Frame} {f f' : Frame} {key : Text}
      {args : List Text} (ordinary : isSpecial name = false) (inside : inner ≠ [])
      (found : r.frames = inner ++ f :: outer)
      (free : ∀ g ∈ inner, name ∉ g.params ∧ name ∉ g.vars) (taken : Taken name f f' key args) :
      Used r name { r with
        uses, frames := inner ++ f' :: outer, captures := Names.add r.captures key
        capturedParams := args.foldl Names.add r.capturedParams }

theorem use_spec (r : Resolver) (name : Text) : Used r name (r.use name) := by
  by_cases hs : isSpecial name = true
  · rw [use, if_pos hs]
    exact .kept (.inl hs)
  cases hl : lookupIn name r.frames with
  | none =>
    simp only [use, if_neg hs, lookup, hl]
    exact .kept (.inr (.inl (lookupIn_eq_none.mp hl)))
  | some found =>
    obtain ⟨i, role⟩ := found
    obtain ⟨inner, f, outer, hframes, rfl, hinner, hrole⟩ := lookupIn_eq_some hl
    simp only [use, if_neg hs, lookup, hl]
    cases inner with
    | nil => exact .kept (.inr (.inr ⟨f, outer, hframes, hrole.imp And.right fun h => h.2.2⟩))
    | cons g inner =>
      obtain ⟨f', key, args, htaken, heq⟩ :=
        capture_spec { r with uses := r.uses ++ [name] } hframes hrole
      rw [List.length_cons] at heq ⊢
      simp only [heq]
      exact .captured (by simpa using hs) (List.cons_ne_nil g inner) hframes hinner htaken

theorem define_cases (r : Resolver) (name : Text) :
    r.define name = r ∧ (isSpecial name = true ∨ r.Known name ∨ r.frames = []) ∨
    isSpecial name = false ∧ ¬ r.Known name ∧ ∃ f outer, r.frames = f :: outer ∧
      r.define name = { r with frames := { f with vars := f.vars ++ [name] } :: outer } := by
  have hknown : r.captures.contains name = true ∨ (r.lookup name).isSome = true ↔
      r.Known name := by
    rw [List.contains_iff_mem, Option.isSome_iff_ne_none, lookup, Ne, lookupIn_eq_none]
    simp [Known, KnownIn, Classical.or_iff_not_imp_left]
  unfold define
  by_cases h : isSpecial name = true ∨ r.captures.contains name = true ∨
      (r.lookup name).isSome = true
  · rw [if_pos h, hknown] at *
    exact .inl ⟨rfl, h.imp_right .inl⟩
  · rw [if_neg h]
    rw [hknown, not_or] at h
    cases hf : r.frames with
    | nil => exact .inl ⟨by cases r; simp_all, .inr (.inr rfl)⟩
    | cons f outer => exact .inr ⟨by simpa using h.1, h.2, f, outer, rfl, by simp⟩

/-- What an event does. -/
inductive Step (r : Resolver) : Event → Resolver → Prop where
  | kept {e : Event} {uses : List Text} (idle : ∀ id params, e ≠ .enter id params) :
      Step r e { r with uses }
  | captured {name : Text} {uses : List Text} {inner outer : List Frame} {f f' : Frame} {key : Text}
      {args : List Text} (ordinary : isSpecial name = false)
        (found : r.frames = inner ++ f :: outer)
      (free : ∀ g ∈ inner, name ∉ g.params ∧ name ∉ g.vars) (taken : Taken name f f' key args) :
      Step r (.use name) { r with
        uses, frames := inner ++ f' :: outer, captures := Names.add r.captures key
        capturedParams := args.foldl Names.add r.capturedParams }
  | defined {name : Text} {f : Frame} {outer : List Frame} (ordinary : isSpecial name = false)
      (unknown : ¬ r.Known name) (found : r.frames = f :: outer) :
      Step r (.define name) { r with frames := { f with vars := f.vars ++ [name] } :: outer }
  | entered {id : Int} {params : List Text} : Step r (.enter id params) (r.enter id params)
  | left {id : Int} {f : Frame} {outer : List Frame} (closure : f.closure = some id)
      (found : r.frames = f :: outer) : Step r .leave { r with
        frames := outer, closed := r.closed ++ [⟨id, f.vars, f.exports⟩] }

theorem step_spec (r : Resolver) (e : Event) : Step r e (r.step e) := by
  cases e with
  | use name =>
    have hused := r.use_spec name
    rw [step]
    generalize r.use name = r' at hused
    cases hused with
    | kept => exact .kept nofun
    | captured ordinary _ found free taken => exact .captured ordinary found free taken
  | define name =>
    rw [step]
    obtain ⟨heq, -⟩ | ⟨ordinary, unknown, f, outer, found, heq⟩ := r.define_cases name
    · rw [heq]
      exact .kept nofun
    · rw [heq]
      exact .defined ordinary unknown found
  | enter id params => exact .entered
  | leave =>
    rw [step]
    unfold leave
    split
    · next found => exact .left rfl found
    · exact .kept nofun
  | reject d => exact .kept nofun

/-- A run takes the events up to some place. -/
theorem run_eq (r : Resolver) (es : List Event) :
    ∃ es', es' <+: es ∧ (r.run es).1 = es'.foldl step r := by
  induction es generalizing r with
  | nil => exact ⟨[], List.prefix_refl _, rfl⟩
  | cons e es ih =>
    cases e with
    | reject d => exact ⟨[], List.nil_prefix, rfl⟩
    | use | define | enter | leave =>
      obtain ⟨es', hes, heq⟩ := ih (r.step _)
      exact ⟨_ :: es', List.cons_prefix_cons.mpr ⟨rfl, hes⟩, heq⟩

/-- What every event keeps is kept by all of them. -/
theorem foldl_keeps {I : Resolver → Prop} (hstep : ∀ e ∈ es, ∀ r r', Step r e r' → I r → I r')
    (hr : I r) : I (es.foldl step r) :=
  List.foldlRecOn es step hr fun r h e he => hstep e he r _ (r.step_spec e) h

theorem run_keeps {I : Resolver → Prop} (hstep : ∀ e ∈ es, ∀ r r', Step r e r' → I r → I r')
    (hr : I r) : I (r.run es).1 := by
  obtain ⟨es', hes, heq⟩ := r.run_eq es
  rw [heq]
  exact foldl_keeps (fun e he => hstep e (hes.subset he)) hr

/-- A frame that an event has changed: it is still of the same closure, and what it exports has a
key. -/
structure Turns (captures : List Text) (f f' : Frame) : Prop where
  closure : f'.closure = f.closure
  params : f'.params = f.params
  exports : f'.exports = f.exports ∨ ∃ name, f'.exports = Names.add f.exports name ∧
    ∀ id, f.closure = some id → exportKey name id ∈ captures

theorem Step.captures (h : Step r e r') : ∀ x ∈ r.captures, x ∈ r'.captures := by
  intro x hx
  cases h with
  | captured => exact Names.mem_add.mpr (.inl hx)
  | kept | defined | entered | left => exact hx

/-- A frame comes from one that was there before, or is that of the closure that is entered. -/
theorem Step.mem_frames (h : Step r e r') (hf : f' ∈ r'.frames) :
    (∃ f ∈ r.frames, Turns r'.captures f f') ∨
      ∃ id params, e = .enter id params ∧ f' = { closure := some id, params } := by
  have same : f' ∈ r.frames → ∃ f ∈ r.frames, Turns r'.captures f f' :=
    fun hf => ⟨f', hf, rfl, rfl, .inl rfl⟩
  cases h with
  | kept => exact .inl (same hf)
  | @captured name _ inner outer f f'' key args _ found _ taken =>
    left
    rcases List.mem_append.mp hf with hf | hf
    · exact same (by simp [found, hf])
    rcases List.mem_cons.mp hf with rfl | hf
    · refine ⟨f, by simp [found], taken.closure, taken.params, ?_⟩
      cases taken with
      | param closure =>
        refine .inr ⟨name, rfl, fun id hid => ?_⟩
        cases closure.symm.trans hid
        exact Names.mem_add.mpr (.inr rfl)
      | var | argument => exact .inl rfl
    · exact same (by simp [found, hf])
  | @defined _ f _ _ _ found =>
    left
    rcases List.mem_cons.mp hf with rfl | hf
    · exact ⟨f, by simp [found], rfl, rfl, .inl rfl⟩
    · exact same (by simp [found, hf])
  | @entered id params =>
    rcases List.mem_cons.mp hf with rfl | hf
    · exact .inr ⟨id, params, rfl, rfl⟩
    · exact .inl (same hf)
  | left _ found => exact .inl (same (by simp [found, hf]))

theorem Step.mem_closed (h : Step r e r') (hcl : cl ∈ r'.closed) : cl ∈ r.closed ∨
    ∃ f ∈ r.frames, f.closure = some cl.id ∧ cl.vars = f.vars ∧ cl.exports = f.exports := by
  cases h with
  | left closure found =>
    rcases List.mem_append.mp hcl with hcl | hcl
    · exact .inl hcl
    · obtain rfl := List.mem_singleton.mp hcl
      exact .inr ⟨_, by rw [found]; exact List.mem_cons_self, closure, rfl, rfl⟩
  | kept | captured | defined | entered => exact .inl hcl

/-- A resolver knows of closures from one set only. -/
structure Within (S : Int → Prop) (r : Resolver) : Prop where
  frames : ∀ f ∈ r.frames, ∀ id, f.closure = some id → S id
  closures : ∀ id ∈ r.closures, S id
  closed : ∀ c ∈ r.closed, S c.id

theorem start_within (S : Int → Prop) (params : List Text) : (start params).Within S := by
  constructor <;> simp [start]

theorem Within.step (h : r.Within S) (he : ∀ id params, e = .enter id params → S id)
    (hs : Step r e r') : r'.Within S where
  frames f' hf' id hid := by
    obtain ⟨f, hf, hturns⟩ | ⟨id', params, rfl, rfl⟩ := hs.mem_frames hf'
    · exact h.frames f hf id (hturns.closure ▸ hid)
    · cases hid
      exact he id params rfl
  closures x hx := by
    cases hs with
    | @entered id params =>
      rcases List.mem_append.mp hx with hx | hx
      · exact h.closures x hx
      · exact List.mem_singleton.mp hx ▸ he id params rfl
    | kept | captured | defined | left => exact h.closures x hx
  closed cl hcl := by
    obtain hcl | ⟨f, hf, hid, -⟩ := hs.mem_closed hcl
    · exact h.closed cl hcl
    · exact h.frames f hf cl.id hid

theorem Within.run (h : r.Within S) (he : ∀ id params, .enter id params ∈ es → S id) :
    (r.run es).1.Within S :=
  run_keeps (fun _ hmem _ _ hs hr => hr.step (fun id params heq => he id params (heq ▸ hmem)) hs) h

end Resolver

end Lowering.Scope
