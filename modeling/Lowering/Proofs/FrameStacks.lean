import Lowering.Proofs.SharedParams

namespace Lowering.Scope

theorem FramesApart.apart (h : FramesApart captures frames) : frames.Pairwise fun inner outer =>
    ∀ x ∈ inner.vars, x ∉ outer.vars ∧ x ∉ outer.params := by
  induction frames with
  | nil => exact .nil
  | cons f outer ih =>
    refine List.pairwise_cons.mpr ⟨fun g hg x hx => ?_, ih h.2⟩
    exact ⟨fun hv => h.1.unknown x hx (.inr ⟨g, hg, .inr hv⟩),
      fun hp => h.1.unknown x hx (.inr ⟨g, hg, .inl hp⟩)⟩

theorem FramesApart.frame (h : FramesApart captures frames) (hf : f ∈ frames) :
    f.vars.Nodup ∧ ∀ x ∈ f.vars, x ∉ f.params ∧ x ∉ captures := by
  induction frames with
  | nil => cases hf
  | cons g outer ih =>
    rcases List.mem_cons.mp hf with rfl | hf
    · exact ⟨h.1.nodup, fun x hx => ⟨h.1.params x hx, fun hc => h.1.unknown x hx (.inl hc)⟩⟩
    · exact ih h.2 hf

namespace Resolver

variable {params : List Text} {stmts : List (Tree Mark)} {es : List Event} {e : Event}
  {r r' : Resolver}

/-- What holds at a moment at which some keys have been captured, in that order. -/
structure Balanced (log : List Text) (r : Resolver) : Prop where
  /-- No name is a variable of two frames, or of a frame in one that has it as a parameter. -/
  apart : r.frames.Pairwise fun inner outer => ∀ x ∈ inner.vars, x ∉ outer.vars ∧ x ∉ outer.params
  own : ∀ f ∈ r.frames, ∀ x ∈ f.vars, x ∉ f.params ∧ isSpecial x = false ∧ x ∉ r.captures
  /-- A frame lists the variables that are looked up in it, each once. -/
  vars : ∀ f ∈ r.frames, f.vars.Nodup ∧ ∀ x, role? f x = some .var ↔ x ∈ f.vars
  captures : r.captures.Nodup ∧ r.captures = log.eraseDups

/-- One of the frames is that of the function; those of its parameters that are captured under their
own names are noted. -/
structure Noted (params : List Text) (r : Resolver) : Prop where
  function : ∃ f ∈ r.frames, f.closure = none ∧ f.params = params
  noted : ∀ x ∈ r.captures, x ∈ params → SourceName x → x ∈ r.capturedParams

theorem Noted.step (h : Noted params r) (ht : FramesApart r.captures r.frames) (hs : Step r e r') :
    Noted params r' := by
  obtain ⟨⟨f, hf, hfn, rfl⟩, hnoted⟩ := h
  cases hs with
  | kept => exact ⟨⟨f, hf, hfn, rfl⟩, hnoted⟩
  | @captured name _ inner outer g g' key args _ found free taken =>
    rw [found, List.mem_append, List.mem_cons] at hf
    refine ⟨?_, fun x hx hp hplain => ?_⟩
    · rcases hf with hf | rfl | hf
      · exact ⟨f, List.mem_append_left _ hf, hfn, rfl⟩
      · exact ⟨g', by simp, taken.closure.trans hfn, taken.params⟩
      · exact ⟨f, by simp [hf], hfn, rfl⟩
    · have hold : x ∈ r.captures → x ∈ args.foldl Names.add r.capturedParams := fun hx =>
        (Names.prefix_foldl_add _ args).subset (hnoted x hx hp hplain)
      rcases Names.mem_add.mp hx with hx | rfl
      · exact hold hx
      cases taken with
      | argument => exact Names.mem_add.mpr (.inr rfl)
      | param => exact absurd hplain (not_sourceName_exportKey _ _)
      | var notParam mem =>
        -- a variable is a parameter of no frame that can be seen from its own
        rcases hf with hf | rfl | hf
        · exact absurd hp (free f hf).1
        · exact absurd hp notParam
        · have hapart := (List.pairwise_append.mp (found ▸ ht.apart)).2.1
          exact absurd hp ((List.pairwise_cons.mp hapart).1 f hf _ mem).2
  | @defined name g outer _ _ found =>
    rw [found] at hf
    refine ⟨?_, hnoted⟩
    rcases List.mem_cons.mp hf with rfl | hf
    · exact ⟨_, List.mem_cons_self, hfn, rfl⟩
    · exact ⟨f, List.mem_cons_of_mem _ hf, hfn, rfl⟩
  | entered => exact ⟨⟨f, List.mem_cons_of_mem _ hf, hfn, rfl⟩, hnoted⟩
  | left closure found =>
    rw [found] at hf
    rcases List.mem_cons.mp hf with rfl | hf
    · cases closure.symm.trans hfn
    · exact ⟨⟨f, hf, hfn, rfl⟩, hnoted⟩

theorem ordinary_step (h : ∀ f ∈ r.frames, ∀ x ∈ f.vars, isSpecial x = false) (hs : Step r e r') :
    ∀ f ∈ r'.frames, ∀ x ∈ f.vars, isSpecial x = false := by
  cases hs with
  | kept => exact h
  | captured _ found _ taken =>
    simp only [found, List.forall_mem_append, List.forall_mem_cons] at h ⊢
    exact ⟨h.1, fun x hx => h.2.1 x (taken.vars x hx), h.2.2⟩
  | defined ordinary _ found =>
    simp only [found, List.forall_mem_cons, List.forall_mem_append] at h ⊢
    exact ⟨⟨h.1, ordinary, nofun⟩, h.2⟩
  | entered => exact List.forall_mem_cons.mpr ⟨nofun, h⟩
  | left _ found => exact (List.forall_mem_cons.mp (found ▸ h)).2

/-- What every event of a body keeps. -/
structure Sane (params : List Text) (r : Resolver) : Prop where
  tidy : FramesApart r.captures r.frames
  noted : Noted params r
  ordinary : ∀ f ∈ r.frames, ∀ x ∈ f.vars, isSpecial x = false
  keyed : Keyed params r

theorem sane_foldl (plain : ∀ name, .define name ∈ es → SourceName name) :
    Sane params (es.foldl step (start params)) := by
  refine foldl_keeps (fun e he r r' hs h => ?_)
    ⟨framesApart_start params, ?_, ?_, keyed_start params⟩
  · exact ⟨framesApart_step h.tidy (fun name heq => plain name (heq ▸ he)) hs,
      h.noted.step h.tidy hs, ordinary_step h.ordinary hs, h.keyed.step hs⟩
  · exact ⟨⟨_, List.mem_singleton.mpr rfl, rfl, rfl⟩, nofun⟩
  · simp [start]

theorem Sane.balanced (h : Sane params (es.foldl step (start params))) :
    Balanced ((start params).captureLog es) (es.foldl step (start params)) where
  apart := h.tidy.apart
  own f hf x hx :=
    ⟨((h.tidy.frame hf).2 x hx).1, h.ordinary f hf x hx, ((h.tidy.frame hf).2 x hx).2⟩
  vars f hf := by
    refine ⟨(h.tidy.frame hf).1, fun x => ?_⟩
    unfold role?
    by_cases hv : x ∈ f.vars
    · simp [hv, ((h.tidy.frame hf).2 x hv).1]
    · by_cases hp : x ∈ f.params <;> simp [hv, hp]
  captures := by
    refine ⟨h.keyed.nodup, ?_⟩
    rw [captures_foldl, ← Names.foldl_add_nil]
    rfl

/-- At every moment of a run over a body in which no name holds a `#` the frames are balanced. So in
the end the function has its variables once each, none of them a parameter or captured; its captured
parameters are noted; and its frame is the only one. -/
theorem run_balanced (params : List Text) (stmts : List (Tree Mark))
    (plain : ∀ t ∈ stmts, ∀ x ∈ t.names, SourceName x) :
    (∀ es r, es <+: stmts.flatMap events → (start params).run es = (r, none) →
      Balanced ((start params).captureLog es) r) ∧
    ∀ r, (start params).run (stmts.flatMap events) = (r, none) →
      r.locals.Nodup ∧ (∀ x ∈ r.locals, x ∉ params ∧ x ∉ r.captures) ∧
      ((∀ p ∈ params, SourceName p) → ∀ x, x ∈ r.capturedParams ↔ x ∈ params ∧ x ∈ r.captures) ∧
      ∃ f, r.frames = [f] ∧ f.closure = none ∧ f.params = params ∧ f.vars = r.locals := by
  have hsane : ∀ es, es <+: stmts.flatMap events → Sane params (es.foldl step (start params)) := by
    intro es hes
    refine sane_foldl fun name hname => ?_
    obtain ⟨t, ht, he⟩ := List.mem_flatMap.mp (hes.subset hname)
    exact plain t ht name (define_mem_names he)
  refine ⟨fun es r hes hrun => ?_, fun r hrun => ?_⟩
  · rw [(run_none hrun).2]
    exact (hsane es hes).balanced
  · obtain ⟨hno, rfl⟩ := run_none hrun
    have hread : ∀ t ∈ stmts, Readable t :=
      fun t ht d hd => hno d (List.mem_flatMap.mpr ⟨t, ht, hd⟩)
    have h := hsane _ (List.prefix_refl _)
    obtain ⟨f, hframes, hclosure, hparams⟩ : ∃ f, ((stmts.flatMap events).foldl step
        (start params)).frames = [f] ∧ f.closure = none ∧ f.params = params := by
      have hframes := (readAll_advances hread (start params)).frames
      rw [← foldl_events] at hframes
      obtain ⟨f, rest, hlater, hrest, heq⟩ := List.forall₂_cons_left_iff.mp hframes
      cases hrest
      exact ⟨f, heq, hlater.closure, hlater.params⟩
    have hlocals : ((stmts.flatMap events).foldl step (start params)).locals = f.vars := by
      rw [locals, hframes]
      rfl
    obtain ⟨hnodup, hvars⟩ := h.tidy.frame (hframes ▸ List.mem_singleton.mpr rfl)
    rw [hlocals]
    refine ⟨hnodup, fun x hx => hparams ▸ hvars x hx,
      fun hplain x => ⟨fun hx => ?_, fun ⟨hp, hc⟩ => ?_⟩, f, hframes, hclosure, hparams, rfl⟩
    · exact (h.keyed.arguments x hx).symm
    · exact h.noted.noted x hc hp (hplain x hp)

/-- `(assign x 1) (assign y p) (lambda () x)` -/
def sharing : List (Tree Mark) :=
  [.node ⟨1, .unknown⟩ .assign [.leaf (.sym "x"), .leaf (.int 1)],
    .node ⟨2, .unknown⟩ .assign [.leaf (.sym "y"), .leaf (.sym "p")],
    .node ⟨3, .unknown⟩ .lambda [.leaf .nil, .leaf (.sym "x")]]

theorem run_balanced_sharing : ∃ r, (start ["p"]).run (sharing.flatMap events) = (r, none) ∧
    r.locals = ["y"] ∧ r.captures = ["x"] ∧ Balanced ["x"] r ∧ r.locals.Nodup := by
  have plain : ∀ t ∈ sharing, ∀ x ∈ t.names, SourceName x := by
    unfold SourceName
    decide
  obtain ⟨hmoments, hend⟩ := run_balanced ["p"] sharing plain
  exact ⟨_, rfl, by decide, by decide, hmoments _ _ (List.prefix_refl _) rfl, (hend _ rfl).1⟩

end Resolver

end Lowering.Scope
