import Lowering.Proofs.ClosureTrees
import Lowering.Proofs.Constants

namespace Lowering.Pass

open Forest PassM

variable {c d : Context} {level : Int → Nat} {id : Int} {n : Node} {v : Operand} {pos : Position}

theorem child_mem_children {n : Node} (h : (n.arg i).child? = some x) : x ∈ n.children := by
  unfold Node.arg at h
  cases hm : n.args[i]? with
  | none => simp [hm, Operand.child?, Operand.isNode, Operand.nil] at h
  | some v => exact List.mem_filterMap.mpr ⟨v, List.mem_of_getElem? hm, by simpa [hm] using h⟩

namespace Destruct

/-- An assignment to more than a name may become a tree of assignments, of a height that its targets
pay for as well. -/
def drop (n : Node) : Nat :=
  match n.tag with
  | .assign => if (n.arg 0).child? = none then 1 else 3
  | .destruct => 4
  | _ => 1

theorem sinks_assignElement (hl : Levelled drop c.forest level) (hk : 5 ≤ k)
    (ht : Rests c level (k - 3) target) : Sinks drop (assignElement pos target i) c level
      fun v d level1 => Rests d level1 k v := by
  refine (sinks_node (j := 0) (k := 1) hl (by simp) le_rfl).bind
    fun position d level1 _ hr hposition => ?_
  have hargs : ∀ a ∈ [temporary, .sym "[]", position], Rests d level1 1 a := by
    simpa [temporary] using hposition
  refine (sinks_node (k := 2) hr.levelled hargs le_rfl).bind
    fun element e level2 _ hr' helement => ?_
  have hpair : ∀ a ∈ [target, element], Rests e level2 (k - 3) a := by
    simpa using ⟨(ht.later hr).later hr', helement.le (by omega)⟩
  refine sinks_node hr'.levelled hpair ?_
  simp only [drop]
  split <;> omega

/-- An assignment to parts takes seven levels. -/
theorem sinks_expand (hl : Levelled drop c.forest level) (hk : 7 ≤ level id)
    (ht : ∀ t ∈ targets, Rests c level (level id - 7) t) (hid : c.forest.Has id)
    (hv : Rests c level (level id - 3) value) :
    Sinks drop (expand id pos targets value) c level fun _ _ _ => True := by
  have hstart : ∀ a ∈ [temporary, value], Rests c level (level id - 3) a := by
    simpa [temporary] using hv
  refine (sinks_node (k := level id - 2) hl hstart ?_).bind fun first d level1 _ hr hfirst => ?_
  · have hdrop : drop { tag := .assign, args := [temporary, value], pos } = 1 := rfl
    omega
  refine (sinks_mapM (R := fun v d level1 => Rests d level1 (level id - 2) v)
    (fun hr h => h.later hr) hr.levelled fun p hp e level2 hr' => ?_).bind
    fun rest e level2 _ hr' hrest => ?_
  · have hmem := ht p.1 (List.fst_mem_of_mem_zipIdx hp)
    exact sinks_assignElement hr'.levelled (by omega) (((hmem.later hr).later hr').le (by omega))
  refine (sinks_node (j := 0) (k := 1) hr'.levelled (by simp [temporary]) le_rfl).bind
    fun vars d3 level3 _ hr3 hvars => ?_
  have hstmts : ∀ a ∈ first :: rest, Rests d3 level3 (level id - 2) a :=
    List.forall_mem_cons.mpr ⟨(hfirst.later hr').later hr3, fun a ha => (hrest a ha).later hr3⟩
  refine (sinks_node (k := level id - 1) hr3.levelled hstmts (by simp [drop]; omega)).bind
    fun body d4 level4 _ hr4 hbody => ?_
  have hall : ∀ a ∈ [vars, body], Rests d4 level4 (level id - 1) a := by
    simpa using ⟨(hvars.later hr4).le (by omega), hbody⟩
  refine sinks_reshape hr4.levelled hall fun m => ?_
  have hlevel := ((((hr.trans hr').trans hr3).trans hr4).kept id hid).2
  simp [drop, Node.reshape]
  omega

/-- At each node there are levels for what the visit makes. -/
theorem visits_sink : VisitsSink visit := by
  refine ⟨drop, fun n => ?_, fun {c _ id n level} _ hn hl => ?_⟩
  · unfold drop growth
    split
    · split <;> omega
    · omega
    · omega
  · unfold visit
    split
    · exact sinks_pure hl trivial
    · rename_i ht
      refine .after_check fun _ => .after_operandAt ?_
      cases ha : (n.arg 0).child? with
      | none => exact sinks_pure hl trivial
      | some target =>
        obtain ⟨⟨t, ht'⟩, hbelow⟩ := hl.falls hn target (child_mem_children ha)
        refine .after_fetch ht' ?_
        by_cases hdest : t.tag = .destruct
        · simp only [if_pos hdest]
          have hdrop : drop n = 3 := by simp [drop, ht, ha]
          have hdrop' : drop t = 4 := by simp [drop, hdest]
          have hpays := hl.pays ht'
          refine .after_check fun _ => .after_operandAt ((sinks_expand hl (by omega)
            (fun v hv => (rests_operand hl ht' hv).le (by omega)) ⟨n, hn⟩
            ((rests_arg hl hn 1).le (by omega))).bind
            fun _ _ _ _ hr _ => sinks_pure hr.levelled trivial)
        · simp only [if_neg hdest]
          exact sinks_pure hl trivial
    · exact sinks_pure hl trivial

end Destruct

namespace Concat

/-- The levels that a visit takes at a node. -/
def drop (n : Node) : Nat := if n.tag = .concat then n.args.length + 1 else 1

theorem chain_new (h : chain pos v earlier c = .ok top d) :
    ∃ x m, top = .ref x ∧ d.forest.get? x = some m ∧ m.tag = .callm ∧ m.notes = {} := by
  have new : ∀ {args c}, node .callm pos args c = .ok top d →
      ∃ x m, top = .ref x ∧ d.forest.get? x = some m ∧ m.tag = .callm ∧ m.notes = {} := by
    intro args c h
    obtain ⟨rfl, rfl⟩ := node_ok.mp h
    exact ⟨_, _, rfl, Forest.get?_push_self _ _, rfl, rfl⟩
  cases earlier with
  | nil => exact new h
  | cons before earlier =>
    obtain ⟨right, _, -, h⟩ := bind_ok.mp h
    obtain ⟨left, _, -, h⟩ := bind_ok.mp h
    obtain ⟨args, _, -, h⟩ := bind_ok.mp h
    exact new h

/-- A chain has no more than two levels, and one for each part but the last, on top of its parts. -/
theorem sinks_chain (hl : Levelled drop c.forest level) (hv : Rests c level j v)
    (he : ∀ a ∈ earlier, Rests c level j a) : Sinks drop (chain pos v earlier) c level
      fun v d level1 => Rests d level1 (j + earlier.length + 2) v := by
  have text : ∀ {c level v}, Levelled drop c.forest level → Rests c level j v →
      Sinks drop (textOf pos v) c level fun v d level1 => Rests d level1 (j + 1) v :=
    fun hl hv => sinks_node hl (by simpa using hv) le_rfl
  induction earlier generalizing v c level with
  | nil =>
    refine (text hl hv).bind (g := pure) fun _ _ _ _ hr hv => ?_
    exact sinks_pure hr.levelled (hv.le (by omega))
  | cons before earlier ih =>
    obtain ⟨hbefore, he⟩ := List.forall_mem_cons.mp he
    refine (text hl hv).bind fun right d level1 _ hr hright => ?_
    refine (ih hr.levelled (hbefore.later hr) fun a ha => (he a ha).later hr).bind
      fun left d2 level2 _ hr2 hleft => ?_
    refine (sinks_node (k := j + 2) hr2.levelled
      (List.forall_mem_singleton.mpr (hright.later hr2)) le_rfl).bind
      fun args d3 level3 _ hr3 hargs => ?_
    refine sinks_node (j := j + earlier.length + 2) hr3.levelled ?_ le_rfl
    simpa using ⟨hleft.later hr3, hargs.le (by omega)⟩

theorem visits_sink : VisitsSink visit := by
  refine ⟨drop, fun n => ?_, fun {c _ id n level} _ hn hl => ?_⟩
  · unfold drop growth
    split <;> omega
  · unfold visit
    split
    · exact sinks_pure hl trivial
    · rename_i ht
      refine .after_check fun _ => ?_
      cases hr : n.args.reverse with
      | nil => exact fun _ _ h => absurd h throw_ok
      | cons last earlier =>
        have hdrop : drop n = earlier.length + 2 := by
          rw [drop, if_pos ht, ← List.length_reverse, hr, List.length_cons]
        have hpays := hl.pays hn
        have hparts : ∀ a ∈ last :: earlier, Rests c level (level id - drop n) a := fun a ha =>
          rests_operand hl hn (List.mem_reverse.mp (hr ▸ ha))
        obtain ⟨hlast, hearlier⟩ := List.forall_mem_cons.mp hparts
        refine (sinks_chain hl hlast hearlier).bind fun top d level1 hchain hr htop _ e h => ?_
        obtain ⟨x, m, rfl, hm, htag, -⟩ := chain_new hchain
        obtain ⟨_, hreplace, rfl⟩ := bind_pure_ok.mp h
        obtain ⟨o, m', -, hm', rfl⟩ := replace_ok.mp hreplace
        obtain rfl := Option.mem_unique hm hm'
        have hx := (htop x (Operand.child?_ref x)).2
        have hid := (hr.kept id ⟨n, hn⟩).2
        have hcall : ∀ pos notes, drop { m with pos, notes } = 1 :=
          fun _ _ => if_neg (by simp [htag])
        refine ⟨level1, hr.levelled.set ?_ fun y hy => ?_, trivial⟩
        · rw [hcall]
          omega
        · obtain ⟨hhas, hle⟩ := hr.levelled.falls hm y hy
          rw [show drop m = 1 from hcall m.pos m.notes] at hle
          rw [hcall]
          exact ⟨hhas, by omega⟩
    · exact sinks_pure hl trivial

end Concat

namespace Range

def drop (n : Node) : Nat := if n.tag = .range then 2 else 1

theorem visits_sink : VisitsSink visit := by
  refine ⟨drop, fun n => ?_, fun {c _ id n level} _ hn hl => ?_⟩
  · unfold drop growth
    split <;> omega
  · unfold visit
    split
    · exact sinks_pure hl trivial
    · rename_i ht
      have hdrop : drop n = 2 := if_pos ht
      have hpays := hl.pays hn
      refine .after_check fun _ => (sinks_moveArgs (k := level id - 1) hl
        (fun a ha => rests_operand hl hn ha) ?_).bind fun bounds d level1 _ hr hb => ?_
      · have hlist : drop { tag := .list, args := n.args, pos := n.pos } = 1 := rfl
        omega
      · have hall : ∀ a ∈ [.sym "Range", .sym "new", bounds], Rests d level1 (level id - 1) a := by
          simpa using hb
        refine sinks_reshaped hr.levelled hall fun m => ?_
        have := (hr.kept id ⟨n, hn⟩).2
        simp [drop, Node.reshape]
        omega
    · exact sinks_pure hl trivial

end Range

namespace Operators

def drop (n : Node) : Nat := if n.tag.isOperator then 2 else 1

theorem visits_sink : VisitsSink visit := by
  refine ⟨drop, fun n => ?_, fun {c _ id n level} _ hn hl => ?_⟩
  · unfold drop growth
    split <;> omega
  · unfold visit
    split
    · exact sinks_pure hl trivial
    · rename_i o ht
      have hdrop : drop n = 2 := if_pos (by simp [ht, Tag.isOperator])
      have hpays := hl.pays hn
      have hargs : ∀ a ∈ n.args, Rests c level (level id - 2) a := fun a ha =>
        hdrop ▸ rests_operand hl hn ha
      refine .after_check fun _ => ?_
      split
      · rename_i left right heq
        rw [heq] at hargs
        refine (sinks_node (k := level id - 1) hl
          (List.forall_mem_singleton.mpr (hargs right (by simp)))
          ?_).bind fun args d level1 _ hr hlist => ?_
        · have hlist : drop { tag := .list, args := [right], pos := n.pos } = 1 := rfl
          omega
        · have hid := (hr.kept id ⟨n, hn⟩).2
          refine sinks_reshaped (j := level id - 1) hr.levelled ?_ fun m => ?_
          · simpa using ⟨((hargs left (by simp)).later hr).le (by omega), hlist⟩
          · have hcall : ∀ args, drop (m.reshape .callm args) = 1 := fun _ => rfl
            rw [hcall]
            omega
      · refine .after_operandAt (sinks_reshaped (j := level id - 2) hl ?_ fun m => ?_)
        · simpa using hdrop ▸ rests_arg hl hn 0
        · have hcall : ∀ args, drop (m.reshape .callm args) = 1 := fun _ => rfl
          rw [hcall]
          omega
    · exact sinks_pure hl trivial

end Operators

namespace Yield

def drop (n : Node) : Nat := if n.tag = .yield then 2 else 1

theorem visits_sink : VisitsSink visit := by
  refine ⟨drop, fun n => ?_, fun {c _ id n level} _ hn hl => ?_⟩
  · unfold drop growth
    split <;> omega
  have hpays := hl.pays hn
  have hcall : ∀ (m : Node) args, drop (m.reshape .callm args) = 1 := fun _ _ => rfl
  unfold visit
  split
  · exact sinks_pure hl trivial
  · rename_i ht
    have hdrop : drop n = 2 := if_pos ht
    by_cases he : n.args.isEmpty = true
    · simp only [if_pos he, pure_bind]
      refine sinks_reshaped (j := 0) hl (by simp) fun m => ?_
      rw [hcall]
      omega
    · simp only [if_neg he, pure_bind]
      refine (sinks_moveArgs (k := level id - 1) hl (fun a ha => rests_operand hl hn ha) ?_).bind
        fun args d level1 _ hr hargs => ?_
      · have hlist : drop { tag := .list, args := n.args, pos := n.pos } = 1 := rfl
        omega
      · have hid := (hr.kept id ⟨n, hn⟩).2
        refine sinks_reshaped (j := level id - 1) hr.levelled
          (by simpa using hargs) fun m => ?_
        rw [hcall]
        omega
  · rename_i ht
    have hdrop : drop n = 1 := if_neg (by simp [ht])
    refine .after_check fun _ => .after_operandAt ?_
    split
    · refine sinks_reshaped hl (List.forall_mem_append.mpr ⟨?_, fun a ha =>
        rests_operand hl hn (List.mem_of_mem_drop ha)⟩) fun m => ?_
      · simp
      · rw [hcall]
        omega
    · exact sinks_pure hl trivial
  · exact sinks_pure hl trivial

end Yield

namespace Hoist

variable {family : Family}

def drop (family : Family) (n : Node) : Nat :=
  if n.args.any fun v => (family.constant? v).isSome then 4 else 1

theorem drop_of_none (h : ∀ v ∈ n.args, family.constant? v = none) : drop family n = 1 :=
  if_neg (by simpa using h)

theorem constant?_ref (family : Family) (x : Int) : family.constant? (.ref x) = none := by
  cases family <;> rfl

/-- What stands for an operand of a node: no constant, but one of the operands or, if there were
constants among them, a node of no more than three levels. -/
def TakesPlace (family : Family) (n : Node) (w : Operand) (c : Context) (level : Int → Nat) :
    Prop :=
  family.constant? w = none ∧
    (w ∈ n.args ∨ (∃ v ∈ n.args, family.constant? v ≠ none) ∧ Rests c level 3 w)

theorem sinks_operand (hl : Levelled (drop family) c.forest level) (hv : v ∈ n.args) :
    Sinks (drop family) (operand family n v i) c level (TakesPlace family n) := by
  intro w d h
  obtain ⟨hc, rfl, rfl⟩ | ⟨hc, label, c1, fetched, c2, hf, -, hfetch, hlist⟩ := operand_cases h
  · exact ⟨level, .refl hl, hc, .inl hv⟩
  have hsym : ∀ name, family.constant? (.sym name) = none := fun _ => by cases family <;> rfl
  have hcall : drop family
      { tag := .call, args := [.sym family.fetcher, .sym label], pos := n.pos } = 1 :=
    drop_of_none (by simp [hsym])
  have href : ∀ tag x, drop family { tag, args := [.ref x], pos := n.pos } = 1 :=
    fun _ _ => drop_of_none (by simp [constant?_ref])
  rw [← hf] at hl ⊢
  obtain ⟨level1, hr, hfetched⟩ := sinks_sexpCall (j := 0) (k := 1) (m := 2) hl
    (by simp) (Nat.add_le_add_left hcall.le 0)
    (fun x => Nat.add_le_add_left (href .sexp x).le 1) fetched c2 hfetch
  obtain ⟨rfl, -⟩ := sexpCall_ok.mp hfetch
  obtain ⟨rfl, rfl⟩ | hlist := hlist
  · exact ⟨level1, hr, constant?_ref family _, .inr ⟨⟨v, hv, hc⟩, hfetched.le (by omega)⟩⟩
  · obtain ⟨level2, hr', hw⟩ := sinks_node (k := 3) hr.levelled
      (List.forall_mem_singleton.mpr hfetched) (Nat.add_le_add_left (href .list _).le 2) w d hlist
    obtain ⟨rfl, -⟩ := list_ok.mp hlist
    exact ⟨level2, hr.trans hr', constant?_ref family _, .inr ⟨⟨v, hv, hc⟩, hw⟩⟩

theorem TakesPlace.later (hr : Relevelled (drop family) c.forest level d.forest level1)
    (h : TakesPlace family n v c level) : TakesPlace family n v d level1 :=
  ⟨h.1, h.2.imp_right fun ⟨hconst, hv⟩ => ⟨hconst, hv.later hr⟩⟩

theorem visits_sink (family : Family) : VisitsSink (visit family) := by
  refine ⟨drop family, fun n => ?_, fun {c grade id n level} hc hn hl => ?_⟩
  · unfold drop growth
    split <;> omega
  unfold visit
  split
  · exact sinks_pure hl trivial
  refine (sinks_mapM .later hl fun p hp d level1 hr =>
    sinks_operand hr.levelled (List.fst_mem_of_mem_zipIdx hp)).bind
    fun args d level1 hrun hr hargs _ e h => ?_
  have adds := operands_adds hrun
  obtain ⟨_, hset, rfl⟩ := bind_pure_ok.mp h
  obtain ⟨-, hex, hget⟩ := setArgs_frame hset
  have hsharers : d.sharers id = c.sharers id := by
    rw [Context.sharers, Context.sharers, adds.shared]
  rw [hsharers] at hget
  refine ⟨level1, hr.levelled.exchange (fun x hx => ?_) fun {x m'} hm' => ?_, trivial⟩
  · obtain ⟨m, hm⟩ := hx
    rw [Has, hget, hm]
    split <;> exact ⟨_, rfl⟩
  · rw [hget] at hm'
    split at hm'
    · rename_i hx
      -- the sharers of an operand list get the same operands, and have levels for them
      obtain ⟨m, hm, hsame, -⟩ := hc.sharers_alike hn x hx
      have hm := adds.grows x m hm
      rw [hm, Option.map_some] at hm'
      obtain rfl := Option.some.inj hm'
      have hfree : drop family { m with args } = 1 := drop_of_none fun w hw => (hargs w hw).1
      have hpays := hr.levelled.pays hm
      have hdrop : 1 ≤ drop family m := by
        unfold drop
        split <;> omega
      refine .inr ⟨by omega, fun y hy => ?_⟩
      obtain ⟨w, hw, hwy⟩ := List.mem_filterMap.mp hy
      obtain ⟨-, hmem | ⟨⟨v, hv, hconst⟩, hrests⟩⟩ := hargs w hw
      · obtain ⟨hhas, hle⟩ := hr.levelled.falls hm y (List.mem_filterMap.mpr ⟨w, hsame ▸ hmem, hwy⟩)
        exact ⟨hhas, by omega⟩
      · have hfour : drop family m = 4 := if_pos (List.any_eq_true.mpr
          ⟨v, hsame ▸ hv, Option.isSome_iff_ne_none.mpr hconst⟩)
        obtain ⟨hhas, hle⟩ := hrests y hwy
        exact ⟨hhas, by omega⟩
    · exact .inl hm'

end Hoist

namespace Closures

open Environment

/-- A closure becomes a block of assignments, one of them of a function that has its body. -/
def drop (n : Node) : Nat := if n.tag.isClosure then 5 else 1

theorem drop_bounds (n : Node) : 1 ≤ drop n ∧ drop n ≤ growth n := by
  unfold drop growth
  split <;> omega

theorem leaving_relevelled (hl : Levelled drop c.forest level) (hn : c.forest.get? id = some n)
    (h : leaving id n c = .ok act d) : Relevelled drop c.forest level d.forest level := by
  obtain ⟨rfl, -⟩ | ⟨-, -, ⟨rfl, -⟩ | ⟨ht, hupdate⟩⟩ := leaving_cases h
  · exact .refl hl
  · exact .refl hl
  · obtain ⟨m, hm, rfl⟩ := update_ok.mp hupdate
    obtain rfl := Option.mem_unique hn hm
    have hdrop : drop n = 1 := if_neg (by simp [ht, Tag.isClosure])
    have hnew : drop { n with tag := .preturn } = 1 := rfl
    have hpays := hl.pays hn
    refine hl.set (by omega) fun y hy => ?_
    obtain ⟨hhas, hle⟩ := hl.falls hn y hy
    exact ⟨hhas, by omega⟩

theorem leaving_visits_sink : VisitsSink leaving :=
  ⟨drop, drop_bounds, fun {_ _ _ _ level} _ hn hl _ _ h =>
    ⟨level, leaving_relevelled hl hn h, trivial⟩⟩

theorem sinks_leaveByFrame (hl : Levelled drop c.forest level) :
    Sinks drop (leaveByFrame body) c level fun _ _ _ => True := by
  intro _ d h
  obtain ⟨b, h⟩ := discard_ok.mp h
  refine ⟨level, walk_keeps (I := fun d => Relevelled drop c.forest level d.forest level) ?_
    (.refl hl) h, trivial⟩
  exact fun hr hn h => hr.trans (leaving_relevelled hr.levelled hn h)

/-- A function takes one level over the body of its closure. -/
theorem sinks_hoist {names : List Text} (hl : Levelled drop c.forest level) (hk : 2 ≤ k)
    (hb : Rests c level k (n.arg 1)) :
    Sinks drop (hoist n names) c level fun x d level1 => Rests d level1 (k + 1) (.ref x) := by
  have hparams : Sinks drop (params n.pos names) c level fun vs d level1 =>
      ∀ v ∈ vs, Rests d level1 1 v := by
    refine (sinks_mapM (R := fun v d level1 => Rests d level1 1 v) (fun hr h => h.later hr) hl
      fun p _ d level1 hr => ?_).bind fun own d level1 _ hr hown => ?_
    · exact sinks_node (j := 0) hr.levelled (by simp) le_rfl
    · exact sinks_pure hr.levelled (by simpa using hown)
  refine hparams.bind fun params d level1 _ hr hp => ?_
  refine (sinks_same hr.levelled fun h => ?_).bind fun label d2 level2 _ hr2 _ => ?_
  · cases h
    rfl
  refine (sinks_node (k := 2) hr2.levelled (fun a ha => (hp a ha).later hr2) le_rfl).bind
    fun params d3 level3 _ hr3 hlist => ?_
  have hargs : ∀ a ∈ [.sym label, params, n.arg 1], Rests d3 level3 k a := by
    simpa using ⟨hlist.le hk, ((hb.later hr).later hr2).later hr3⟩
  refine (sinks_alloc (k := k + 1) hr3.levelled hargs le_rfl).bind
    fun function d4 level4 _ hr4 hfunction => ?_
  refine (sinks_same hr4.levelled fun h => ?_).bind fun _ d5 level5 _ hr5 _ => ?_
  · obtain rfl := modify_ok.mp h
    rfl
  · exact sinks_pure hr5.levelled (hfunction.later hr5)

/-- A closure needs five levels to become a function. -/
theorem sinks_lift (hl : Levelled drop c.forest level) (hid : c.forest.Has id) (hk : 5 ≤ level id)
    (hb : Rests c level (level id - 5) (n.arg 1)) :
    Sinks drop (lift id n) c level fun _ _ _ => True := by
  refine (sinks_same hl fun h => ?_).bind fun names d level0 _ hr hnames => ?_
  · obtain ⟨-, rfl⟩ := query_ok.mp h
    rfl
  have hsmall : 2 ≤ level id - 3 := by omega
  refine (sinks_hoist hr.levelled hsmall ((hb.later hr).le (by omega))).bind
    fun function d1 level1 _ hr1 hf => ?_
  refine (sinks_node (j := 0) (k := 1) hr1.levelled (by simp) le_rfl).bind
    fun frame d2 level2 _ hr2 hframe => ?_
  refine (sinks_node (j := 0) (k := 1) hr2.levelled (by simp) le_rfl).bind
    fun args d3 level3 _ hr3 hargs => ?_
  refine (sinks_sexpCall (k := 2) (m := 3) hr3.levelled (List.forall_mem_singleton.mpr hargs) le_rfl
    fun _ => le_rfl).bind fun make d4 level4 _ hr4 hmake => ?_
  refine (sinks_node (j := 0) (k := 1) hr4.levelled (by simp) le_rfl).bind
    fun here d5 level5 _ hr5 hhere => ?_
  have hstore : ∀ a ∈ [frame, here], Rests d5 level5 1 a := by
    simpa using ⟨((hframe.later hr3).later hr4).later hr5, hhere⟩
  refine (sinks_node (k := 2) hr5.levelled hstore le_rfl).bind
    fun first d6 level6 _ hr6 hfirst => ?_
  have hassign : ∀ a ∈ [.sym tmpProcName, .ref function], Rests d6 level6 (level id - 3 + 1) a := by
    simpa using ((((hf.later hr2).later hr3).later hr4).later hr5).later hr6
  refine (sinks_node (k := level id - 1) hr6.levelled hassign ?_).bind
    fun second d7 level7 _ hr7 hsecond => ?_
  · have hdrop :
        drop { tag := .assign, args := [.sym tmpProcName, .ref function], pos := n.pos } = 1 :=
      rfl
    omega
  have hstmts : ∀ a ∈ [first, second, make], Rests d7 level7 (level id - 1) a := by
    simpa using ⟨(hfirst.later hr7).le (by omega), hsecond,
      ((((hmake.later hr5).later hr6).later hr7).le (by omega))⟩
  have hlevel := ((((((((hr.trans hr1).trans hr2).trans hr3).trans hr4).trans hr5).trans hr6).trans
    hr7).kept id hid).2
  refine sinks_reshape hr7.levelled hstmts fun m => ?_
  have hblock : drop (m.reshape .block [first, second, make]) = 1 := rfl
  omega

theorem visits_sink : VisitsSink visit := by
  refine ⟨drop, drop_bounds, fun {c _ id n level} _ hn hl act d h => ?_⟩
  obtain ⟨rfl, -⟩ | ⟨rfl, -⟩ | ⟨-, hclosure, -, h⟩ := visit_ok h
  · exact ⟨level, .refl hl, trivial⟩
  · exact ⟨level, .refl hl, trivial⟩
  have hdrop : drop n = 5 := if_pos hclosure
  have hpays := hl.pays hn
  have hbody : Rests c level (level id - 5) (n.arg 1) := hdrop ▸ rests_arg hl hn 1
  have hconvert : Sinks drop (convert id n) c level fun _ _ _ => True := by
    obtain ⟨-, heq⟩ | ⟨-, body, -, heq⟩ := convert_eq id n <;> rw [heq]
    · exact sinks_lift hl ⟨n, hn⟩ (by omega) hbody
    · refine (sinks_leaveByFrame hl).bind fun _ e level1 _ hr _ => ?_
      obtain ⟨hid, hlevel⟩ := hr.kept id ⟨n, hn⟩
      exact sinks_lift hr.levelled hid (by omega) (hlevel ▸ hbody.later hr)
  exact hconvert _ d h

end Closures

end Lowering.Pass
