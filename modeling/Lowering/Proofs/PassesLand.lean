import Lowering.Proofs.PassLevels

namespace Lowering

open PassM Forest

theorem Node.lt_length {n : Node} {tag : Tag} {a : Arity} {i : Nat} (h : n.malformed? = none)
    (ht : n.tag = tag) (ha : Arity.ofTag tag = some a) (hi : i < a.least) : i < n.args.length := by
  rw [malformed?, Option.map_eq_none_iff, ht] at h
  exact hi.trans_le (Arity.admits_iff.mp (Complaint.admits_of_none ha h)).1

theorem Context.Graded.unfolds {c : Context} {grade : Int → ℚ} {id : Int} (h : c.Graded grade)
    (hid : c.forest.Has id) : c.forest.Unfolds id := by
  refine ⟨fun x hx => ?_, fun x _ => h.acyclic x⟩
  induction hx with
  | refl => exact hid
  | tail _ hstep _ =>
    obtain ⟨n, hn, hy⟩ := hstep
    exact h.valid _ n hn _ hy

namespace PassM

variable {c : Context} {grade : Survey} {id : Int} {v : Operand}

theorem exists_elems (hc : c.Surveyed grade) (hv : Under c grade id v) :
    ∃ vs, c.forest.elems v = .ok vs ∧ ∀ w ∈ vs, Under c grade id w := by
  unfold Forest.elems
  cases hview : v.view with
  | atom a => cases a <;> simp [hv]
  | child x =>
    obtain ⟨⟨n, hn⟩, hlt⟩ := hv.below x (Operand.view_eq_child.mp hview)
    have hget : c.forest.get x = .ok n := Forest.get_eq_ok.mpr hn
    by_cases hl : n.tag = .list
    · refine ⟨n.args, by simp [hget, hl, bind, Except.bind, pure, Except.pure], fun w hw => ?_⟩
      exact (under_operand hc hn (by simp [hl]) hw).trans hv.place hlt
    · exact ⟨[v], by simp [hget, hl, bind, Except.bind, pure, Except.pure], by simpa using hv⟩

theorem exists_symbols (hc : c.Surveyed grade) (hv : Under c grade id v) :
    ∃ names, c.forest.symbols v = .ok names := by
  obtain ⟨vs, hvs, -⟩ := exists_elems hc hv
  exact ⟨_, by rw [Forest.symbols, hvs]; rfl⟩

/-- What stands for an operand can be read as a tree. -/
theorem exists_operandTree (hc : c.Surveyed grade) (hv : ∀ x, v.child? = some x → c.forest.Has x) :
    ∃ t, c.forest.operandTree v = .ok t ∧ Denotes c.forest v t := by
  unfold Forest.operandTree
  cases hview : v.view with
  | atom a => exact ⟨_, rfl, hview⟩
  | child x =>
    obtain ⟨t, ht, hd⟩ := (hc.unfolds (hv x (Operand.view_eq_child.mp hview))).tree
    exact ⟨t, ht, hd.congr hview.symm⟩

theorem exists_paramNames (hc : c.Surveyed grade) (hv : Under c grade id v) :
    ∃ names, c.forest.paramNames v = .ok names := by
  obtain ⟨t, -, ht⟩ := exists_operandTree hc fun x hx => (hv.below x hx).1
  exact ⟨_, ht.paramNames⟩

end PassM

namespace Pass

variable {c : Context} {grade : Survey} {id : Int} {n : Node} {v : Operand} {pos : Position}

/-- A visit that ends with a new tag and new operands for the node. -/
theorem lands_reshaped (hc : c.Surveyed grade) (hid : c.forest.Has id) (hf : ¬ grade.IsFunction id)
    (hargs : ∀ a ∈ args, Under c grade id a) :
    Lands .notes (do reshape id tag args; return Walk.Action.descend) c grade Anything :=
  (lands_reshape hc hid hf hargs).bind fun _ _ _ _ ho _ => lands_pure ho.graded trivial

namespace Destruct

theorem lands_assignElement (hc : c.Surveyed grade) (ht : Under c grade id target) :
    Lands .notes (assignElement pos target i) c grade fun v d grade1 => Under d grade1 id v := by
  have hid := ht.place
  refine (lands_list hc hid (by simpa using under_int hid _)).bind
    fun position d grade1 _ ho hp => ?_
  have helement : ∀ a ∈ [temporary, .sym "[]", position], Under d grade1 id a := by
    simpa using ⟨under_atom hp.place rfl, under_sym hp.place _, hp⟩
  refine (lands_node ho.graded hp.place helement).bind fun element e grade2 _ ho' he => ?_
  exact lands_node ho'.graded he.place (by simpa using ⟨(ht.onward ho).onward ho', he⟩)

/-- An assignment to parts is expanded without a fault. -/
theorem lands_expand (hc : c.Surveyed grade) (hf : ¬ grade.IsFunction id)
    (ht : ∀ t ∈ targets, Under c grade id t) (hv : LiesBelow c grade id value) :
    Lands .notes (expand id pos targets value) c grade Anything := by
  have hid := hv.place
  have hstart : ∀ a ∈ [temporary, value], LiesBelow c grade id a := by
    simpa using ⟨(under_atom hid rfl).toLiesBelow, hv⟩
  refine (lands_anchor hc hid hstart).bind fun first d grade1 _ ho hfirst => ?_
  refine (lands_each (R := fun _ v d grade1 => Under d grade1 id v) (fun p hp e grade2 ho' => ?_)
    (fun ho h => h.onward ho) ho.graded).bind fun rest e grade2 _ ho' hrest => ?_
  · have hmem : p.1 ∈ targets := List.mem_of_getElem? (List.mem_zipIdx_iff_getElem?.mp hp)
    exact lands_assignElement ho'.graded (((ht p.1 hmem).onward ho).onward ho')
  have hid' := ho'.kept id (ho.kept id hid)
  have hdeclared : ∀ a ∈ [temporary], Under e grade2 id a := by simpa using under_atom hid' rfl
  refine (lands_list ho'.graded hid' hdeclared).bind fun vars d3 grade3 _ ho3 hvars => ?_
  refine (lands_node ho3.graded hvars.place fun a (ha : a ∈ first :: rest) => ?_).bind
    fun body d4 grade4 _ ho4 hbody => ?_
  · rcases List.mem_cons.mp ha with rfl | ha
    · exact (hfirst.onward ho').onward ho3
    · obtain ⟨_, _, hu⟩ := forall₂_mem_left hrest.flip ha
      exact hu.onward ho3
  have hf := (((ho.trans ho').trans ho3).trans ho4).unlisted hid hf
  exact lands_reshape ho4.graded hbody.place hf (by simpa using ⟨hvars.onward ho4, hbody⟩)

theorem visits_land : VisitsLand visit := by
  intro c grade id n hc hn
  unfold visit
  split
  · exact lands_pure hc trivial
  · rename_i ht
    refine .after_check hc fun hm => ?_
    have hlen := (Node.malformed?_assign ht).mp hm
    refine .after_operandAt (by omega) ?_
    cases ha : (n.arg 0).child? with
    | none => exact lands_pure hc trivial
    | some target =>
      obtain ⟨⟨d, hd⟩, hlt⟩ := (liesBelow_arg hc hn 0).below target ha
      refine .after_fetch hd ?_
      by_cases hdt : d.tag = .destruct
      · simp only [if_pos hdt]
        refine .after_check hc fun _ => .after_operandAt (by omega) ?_
        refine (lands_expand hc ((hc.nodes id n hn).not_function (by simp [ht])) (fun t ht => ?_)
          (liesBelow_arg hc hn 1)).bind fun _ _ _ _ ho _ => lands_pure ho.graded trivial
        exact (under_operand hc hd (by simp [hdt]) ht).trans ⟨n, hn⟩ hlt
      · simp only [if_neg hdt]
        exact lands_pure hc trivial
  · exact lands_pure hc trivial

end Destruct

namespace Concat

theorem lands_textOf (hc : c.Surveyed grade) (hv : Under c grade id v) :
    Lands .notes (textOf pos v) c grade fun v d grade1 => Under d grade1 id v :=
  lands_node hc hv.place (by simpa using ⟨hv, under_sym hv.place _⟩)

theorem lands_chain (hc : c.Surveyed grade) (hv : Under c grade id v)
    (he : ∀ a ∈ earlier, Under c grade id a) :
    Lands .notes (chain pos v earlier) c grade fun v d grade1 => Under d grade1 id v := by
  induction earlier generalizing v c grade with
  | nil => exact lands_textOf hc hv
  | cons before earlier ih =>
    refine (lands_textOf hc hv).bind fun right d grade1 _ ho hright => ?_
    refine (ih ho.graded ((he before (by simp)).onward ho)
      fun a ha => (he a (List.mem_cons_of_mem before ha)).onward ho).bind
      fun left d2 grade2 _ ho2 hleft => ?_
    refine (lands_list ho2.graded hleft.place (by simpa using hright.onward ho2)).bind
      fun args d3 grade3 _ ho3 hargs => ?_
    exact lands_node ho3.graded hargs.place
      (by simpa using ⟨hleft.onward ho3, under_sym hargs.place _, hargs⟩)

theorem visits_land : VisitsLand visit := by
  intro c grade id n hc hn
  unfold visit
  split
  · exact lands_pure hc trivial
  · rename_i ht
    refine .after_check hc fun hm => ?_
    cases hr : n.args.reverse with
    | nil =>
      have hlen := (Node.malformed?_concat ht).mp hm
      simp [List.reverse_eq_nil_iff.mp hr] at hlen
    | cons last earlier =>
      have hunder : ∀ a ∈ last :: earlier, Under c grade id a := fun a ha =>
        under_operand hc hn (by simp [ht]) (List.mem_reverse.mp (hr ▸ ha))
      refine ((lands_chain hc (hunder last (by simp))
        fun a ha => hunder a (List.mem_cons_of_mem last ha)).bind
        fun top d grade1 hrun ho htop => ?_)
      obtain ⟨x, m, rfl, hm, htag, hnotes⟩ := chain_new hrun
      have hlt := (htop.below x (Operand.child?_ref x)).2
      have hf := ho.unlisted ⟨n, hn⟩ ((hc.nodes id n hn).not_function (by simp [ht]))
      refine (lands_replace ho.graded htop.place hf hm (by simp [htag]) (fun _ => hnotes)
        (fun y hy => ?_) (by simp)).bind fun _ _ _ _ ho' _ => lands_pure ho'.graded trivial
      have hy := (ho.graded.below hm y hy).2.trans hlt
      exact ⟨hy.le, fun he => lt_irrefl _ (he ▸ hy)⟩
  · exact lands_pure hc trivial

end Concat

namespace Range

theorem visits_land : VisitsLand visit := by
  intro c grade id n hc hn
  unfold visit
  split
  · exact lands_pure hc trivial
  · rename_i ht
    refine .after_check hc fun _ => ?_
    refine (lands_moveArgs hc hn (by simp [ht]) (by simp)).bind fun bounds d grade1 _ ho hb => ?_
    apply lands_reshaped ho.graded hb.place
      (ho.unlisted ⟨n, hn⟩ ((hc.nodes id n hn).not_function (by simp [ht])))
    simpa using ⟨under_sym hb.place _, under_sym hb.place _, hb⟩
  · exact lands_pure hc trivial

end Range

namespace Operators

theorem visits_land : VisitsLand visit := by
  intro c grade id n hc hn
  unfold visit
  split
  · exact lands_pure hc trivial
  · rename_i o ht
    refine .after_check hc fun hm => ?_
    have hid : c.forest.Has id := ⟨n, hn⟩
    have hf := (hc.nodes id n hn).not_function (by simp [ht])
    have hunder : ∀ a ∈ n.args, Under c grade id a := fun a ha =>
      under_operand hc hn (by simp [ht]) ha
    split
    · rename_i left right hargs
      rw [hargs] at hunder
      refine (lands_list hc hid (by simpa using hunder right (by simp))).bind
        fun args d grade1 _ ho hu => ?_
      apply lands_reshaped ho.graded hu.place (ho.unlisted hid hf)
      simpa using ⟨(hunder left (by simp)).onward ho, under_sym hu.place _, hu⟩
    · refine .after_operandAt (Node.lt_length hm ht rfl Nat.one_pos) ?_
      apply lands_reshaped hc hid hf
      simpa using ⟨under_arg hc hn (by simp [ht]) 0, under_sym hid _⟩
  · exact lands_pure hc trivial

end Operators

namespace Yield

theorem visits_land : VisitsLand visit := by
  intro c grade id n hc hn
  unfold visit
  have hid : c.forest.Has id := ⟨n, hn⟩
  split
  · exact lands_pure hc trivial
  · rename_i ht
    have hf := (hc.nodes id n hn).not_function (by simp [ht])
    by_cases he : n.args.isEmpty = true
    · simp only [if_pos he]
      refine .after rfl (lands_reshaped hc hid hf ?_)
      simpa using ⟨under_sym hid _, under_sym hid _⟩
    · simp only [if_neg he]
      refine (lands_moveArgs hc hn (by simp [ht]) (by simp)).bind fun args d grade1 _ ho hu => ?_
      refine .after rfl (lands_reshaped ho.graded hu.place (ho.unlisted hid hf) ?_)
      simpa using ⟨under_sym hu.place _, under_sym hu.place _, hu⟩
  · rename_i ht
    refine .after_check hc fun hm => ?_
    refine .after_operandAt (Node.lt_length hm ht rfl Nat.one_pos) ?_
    split
    · apply lands_reshaped hc hid ((hc.nodes id n hn).not_function (by simp [ht]))
      simp only [List.cons_append, List.nil_append, List.forall_mem_cons]
      refine ⟨under_sym hid _, under_sym hid _, fun a ha => ?_⟩
      exact under_operand hc hn (by simp [ht]) (List.mem_of_mem_drop ha)
    · exact lands_pure hc trivial
  · exact lands_pure hc trivial

end Yield

namespace Hoist

theorem lands_intern (hc : c.Surveyed grade) :
    Lands .notes (intern value) c grade fun _ d _ => d.forest = c.forest := by
  unfold intern
  refine .after_get ?_
  split
  · exact lands_pure hc rfl
  · rename_i hk
    exact lands_aside hc rfl ⟨rfl, rfl⟩ (hc.toRecorded.relabel _ _) (.intern hk)

/-- An operand that is no constant stays as it is. -/
def Fetching (family : Family) (grade : Survey) (v w : Operand) : Prop :=
  w = v ∨ family.constant? v ≠ none ∧ grade.Free w

theorem lands_operand (hc : c.Surveyed grade) (hv : LiesBelow c grade id v) :
    Lands .notes (operand family n v i) c grade fun w d grade1 => Grows c.forest d.forest ∧
      LiesBelow d grade1 id w ∧ Fetching family grade1 v w := by
  unfold operand
  split
  · exact lands_pure hc ⟨.refl _, hv, .inl rfl⟩
  · rename_i hk
    have hsome : family.constant? v ≠ none := by simp [hk]
    refine (lands_intern hc).bind fun label d grade1 _ ho hforest => ?_
    have hid := ho.kept id hv.place
    refine (lands_sexpCall ho.graded hid (by simpa using under_sym hid _)).bind
      fun fetched d2 grade2 hcall ho2 hf => ?_
    have hgrows : Grows c.forest d2.forest := by
      rw [(sexpCall_ok.mp hcall).2, ← hforest]
      exact (grows_push _ _).trans (grows_push _ _)
    split
    · refine (lands_list ho2.graded hf.place (by simpa using hf)).mono fun _ _ _ hlist _ hu => ?_
      refine ⟨hgrows.trans ?_, hu.toLiesBelow, .inr ⟨hsome, hu.free⟩⟩
      rw [(list_ok.mp hlist).2]
      exact grows_push _ _
    · exact lands_pure ho2.graded ⟨hgrows, hf.toLiesBelow, .inr ⟨hsome, hf.free⟩⟩

theorem visits_land (family : Family) : VisitsLand (visit family) := by
  intro c grade id n hc hn
  unfold visit
  split
  · exact lands_pure hc trivial
  · refine (lands_mapM (T := fun c d => Grows c.forest d.forest)
      (R := fun p w d grade1 => LiesBelow d grade1 id w ∧ Fetching family grade1 p.1 w)
      (fun _ => .refl _) .trans (fun p hp d grade1 ho _ => ?_)
        (fun ho _ ⟨hb, hf⟩ => ⟨hb.onward ho, hf.imp_right
        fun hf => ⟨hf.1, (Under.onward ⟨hb, hf.2⟩ ho).free⟩⟩) hc).bind
        fun args d grade1 _ ho ⟨hgrows, hargs⟩ => ?_
    · have hmem : p.1 ∈ n.args := List.mem_of_getElem? (List.mem_zipIdx_iff_getElem?.mp hp)
      exact lands_operand ho.graded ((liesBelow_operand hc hn hmem).onward ho)
    have hk := ho.graded.nodes id n (hgrows id n hn)
    have hargs : List.Forall₂ (fun v w => LiesBelow d grade1 id w ∧
      Fetching family grade1 v w) n.args args := by
      rw [← List.zipIdx_map_fst 0 n.args]
      exact List.forall₂_map_left_iff.mpr hargs
    refine (lands_setArgs ho.graded (ho.kept id ⟨n, hn⟩) (fun a ha => ?_) fun m hm =>
      ⟨fun name hmem => ⟨(hm.name name hmem).1, ?_⟩, hm.anchor, fun ha w hw => ?_⟩).bind
      fun _ _ _ _ ho' _ => lands_pure ho'.graded trivial
    · obtain ⟨_, _, hu, -⟩ := forall₂_mem_left hargs.flip ha
      exact hu
    · -- the name of a function is no constant
      obtain ⟨vs, hvs⟩ := List.head?_eq_some_iff.mp (hk.name name hmem).2
      rw [hvs] at hargs
      obtain ⟨w, ws, ⟨-, h⟩, -, rfl⟩ := List.forall₂_cons_left_iff.mp hargs
      rcases h with rfl | ⟨hv, -⟩
      · rfl
      · exact absurd (by cases family <;> rfl) hv
    · obtain ⟨v, hv, -, rfl | ⟨-, hfree⟩⟩ := forall₂_mem_left hargs.flip hw
      · exact hk.free ha w hv
      · exact hfree

end Hoist

namespace Validate

theorem complaint?_kind (h : complaint? n = some e) : e.kind = .unresolved := by
  unfold complaint? at h
  split at h
  · cases h
    rfl
  · split at h
    · cases h
      rfl
    · obtain ⟨p, -, hp⟩ := List.exists_of_findSome?_eq_some h
      simp only [operandComplaint] at hp
      split at hp
      · cases hp
        rfl
      · split at hp <;> cases hp
        rfl
      · cases hp

/-- The final check meets no fault. -/
theorem visits_land : VisitsLand fun _ n => visit n := by
  intro c grade id n hc hn
  simp only [visit]
  split
  · exact lands_pure hc trivial
  · refine .after_check hc fun _ => ?_
    split
    · rename_i e he
      refine lands_throw hc ?_
      simp [PassError.Excused, PassError.IsRefusal, Node.diagnostic, complaint?_kind he]
    · exact lands_pure hc trivial

theorem visits_sink : VisitsSink fun _ n => visit n := by
  refine ⟨fun _ => 1, fun n => ⟨le_rfl, Nat.le_add_left 1 _⟩, fun _ _ hl => ?_⟩
  simp only [visit]
  split
  · exact sinks_pure hl trivial
  · refine .after_check fun _ => ?_
    split
    · exact sinks_same hl fun h => by cases h
    · exact sinks_pure hl trivial

end Validate

namespace Closures

open Environment

theorem lands_leaveByFrame (hc : c.Surveyed grade) (hb : c.forest.Has body) :
    Lands .notes (leaveByFrame body) c grade Anything := by
  refine (lands_walk ?_ leaving_visits_sink hc hb).discard
  intro c grade id n hc hn
  unfold leaving
  cases ht : n.tag
  case ret =>
    simp only
    have hk := hc.nodes id n hn
    refine (lands_update hc hn rfl (.inr ⟨hk.not_anchor ?_, hk.not_function ?_⟩) fun _ => rfl).bind
      fun _ _ _ _ ho _ => lands_pure ho.graded trivial
    all_goals simp [ht]
  all_goals
    simp only
    exact lands_pure hc trivial

theorem lands_params {names : List Text} (hc : c.Surveyed grade) (hid : c.forest.Has id) :
    Lands .notes (params pos names) c grade fun vs d grade1 => ∀ v ∈ vs, Under d grade1 id v := by
  refine (lands_each (R := fun _ v d grade1 => Under d grade1 id v) (fun p _ d grade1 ho => ?_)
    (fun ho h => h.onward ho) hc).bind fun own d grade1 _ ho hown => ?_
  · have hid := ho.kept id hid
    exact lands_list ho.graded hid (by simpa using
      ⟨under_sym hid _, under_sym hid _, under_sym hid _⟩)
  · have hid := ho.kept id hid
    refine lands_pure ho.graded fun v hv => ?_
    simp only [List.cons_append, List.nil_append, List.mem_cons] at hv
    rcases hv with rfl | rfl | rfl | hv
    · exact under_sym hid _
    · exact under_sym hid _
    · exact under_sym hid _
    · obtain ⟨_, _, hu⟩ := forall₂_mem_left hown.flip hv
      exact hu

/-- A function gets the next label, and nothing but an assignment may have it for an operand. -/
theorem lands_hoist {names : List Text} (hc : c.Surveyed grade) (hb : Under c grade id (n.arg 1)) :
    Lands .notes (hoist n names) c grade fun x d grade1 => LiesBelow d grade1 id (.ref x) := by
  refine (lands_params hc hb.place).bind fun params d grade1 _ ho hparams => ?_
  obtain ⟨grade2, ho2, hlist⟩ :=
    (lands_list (s := .notes) ho.graded (ho.kept id hb.place) hparams).ok
    (list_ok.mpr ⟨rfl, rfl⟩)
  let e := d.add { tag := .list, args := params, pos := n.pos }
  let label := d.options.labelStem ++ Decimal.ofNat (d.labels + 1)
  let m : Node :=
    { tag := .defun, args := [.sym label, .ref ((d.forest.size : Int) + 1), n.arg 1], pos := n.pos }
  have hargs : ∀ a ∈ m.args, Under e grade2 id a := by
    simpa [m] using ⟨under_sym hlist.place _, hlist, (hb.onward ho).onward ho2⟩
  have hrecorded := (ho2.graded.toRecorded.relabel grade2.literals (grade2.labels + 1)).enlist
    (n := m)
    (fun g hg x hx => ho2.graded.has_of_mem hg hx) ho2.graded.valid rfl rfl
    (fun a ha => (hargs a ha).free) fun x hx =>
    (liesBelow_children (fun a ha => (hargs a ha).toLiesBelow) x hx).1
  have hbooked := Booked.enlist (c := e) (n := m) (r := grade2.toRegister)
  obtain ⟨grade3, ho3, -, hx⟩ :=
    add_liesBelow (s := .notes) ho2.graded hlist.place ⟨by rfl, by rfl⟩ rfl
    (fun a ha => (hargs a ha).toLiesBelow) hrecorded hbooked
  exact lands_of_ok (bind_ok.mpr ⟨label, { d with labels := d.labels + 1 }, rfl,
    bind_ok.mpr ⟨_, _, list_ok.mpr ⟨rfl, rfl⟩, bind_ok.mpr ⟨_, _, alloc_ok.mpr ⟨rfl, rfl⟩, rfl⟩⟩⟩)
    (ho2.trans ho3) hx

/-- A closure becomes a function without a fault. -/
theorem lands_convert (hc : c.Surveyed grade) (hn : c.forest.get? id = some n)
    (ht : n.tag = .lambda ∨ n.tag = .proc) :
    Lands .notes (convert id n) c grade Anything := by
  have hassign : n.tag ≠ .assign := by rcases ht with ht | ht <;> simp [ht]
  have hfunction : ¬ grade.IsFunction id :=
    (hc.nodes id n hn).not_function (by rcases ht with ht | ht <;> simp [ht])
  have made : ∀ {d grade1}, Onward .notes c grade d grade1 →
      Lands .notes (lift id n) d grade1 Anything := by
    intro d grade1 ho
    obtain ⟨names, hnames⟩ := exists_paramNames ho.graded ((under_arg hc hn hassign 0).onward ho)
    refine .after_query hnames ?_
    refine (lands_hoist ho.graded ((under_arg hc hn hassign 1).onward ho)).bind
      fun function d1 grade1 _ ho1 hf => ?_
    refine (lands_node ho1.graded hf.place (by simpa using
      ⟨under_sym hf.place _, under_int hf.place _⟩)).bind fun frame d2 grade2 _ ho2 hframe => ?_
    have hid := hframe.place
    refine (lands_list ho2.graded hid (by simpa using ⟨under_sym hid _, under_sym hid _,
      under_sym hid _, under_int hid _⟩)).bind fun args d3 grade3 _ ho3 hargs => ?_
    refine (lands_sexpCall ho3.graded hargs.place (by simpa using hargs)).bind
      fun make d4 grade4 _ ho4 hmake => ?_
    refine (lands_node ho4.graded hmake.place (by simp)).bind fun here d5 grade5 _ ho5 hhere => ?_
    have hframe := ((hframe.onward ho3).onward ho4).onward ho5
    refine (lands_node ho5.graded hhere.place (by simpa using ⟨hframe, hhere⟩)).bind
      fun first d6 grade6 _ ho6 hfirst => ?_
    have hf := ((((hf.onward ho2).onward ho3).onward ho4).onward ho5).onward ho6
    refine (lands_anchor ho6.graded hfirst.place
      (by simpa using ⟨(under_sym hfirst.place _).toLiesBelow, hf⟩)).bind
      fun second d7 grade7 _ ho7 hsecond => ?_
    have hmake := ((hmake.onward ho5).onward ho6).onward ho7
    have hfunction :=
      (((((((ho.trans ho1).trans ho2).trans ho3).trans ho4).trans ho5).trans ho6).trans
      ho7).unlisted ⟨n, hn⟩ hfunction
    exact lands_reshape ho7.graded hsecond.place hfunction
      (by simpa using ⟨hfirst.onward ho7, hsecond, hmake⟩)
  obtain ⟨-, heq⟩ | ⟨-, body, hb, heq⟩ := convert_eq id n <;> rw [heq]
  · exact made (.refl hc)
  · have hbody := ((under_arg hc hn hassign 1).below body hb).1
    exact (lands_leaveByFrame hc hbody).bind fun _ _ _ _ ho _ => made ho

theorem visits_land : VisitsLand visit := by
  intro c grade id n hc hn
  unfold visit
  split
  · exact lands_pure hc trivial
  · rename_i ht
    refine .after_check hc fun _ => ?_
    exact (lands_convert hc hn (by simp [ht])).bind fun _ _ _ _ ho _ => lands_pure ho.graded trivial
  · rename_i ht
    refine .after_check hc fun _ => ?_
    exact (lands_convert hc hn (by simp [ht])).bind fun _ _ _ _ ho _ => lands_pure ho.graded trivial
  · exact lands_pure hc trivial

end Closures

end Pass

end Lowering
