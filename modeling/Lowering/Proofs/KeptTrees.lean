import Lowering.Proofs.Landing
import Lowering.Proofs.TreeRewrites

namespace Lowering

open Forest PassM

section

variable {α β : Type} {x : PassM α} {g : α → PassM β} {c : Context}
variable {P Q : α → Context → Prop} {S : β → Context → Prop} {E F : Context → Prop}

/-- What holds at the end of a run: of its result if it succeeds, of the state it leaves behind if
it refuses what it finds or goes round in a circle. -/
def Concludes (Q : α → Context → Prop) (E : Context → Prop) :
    EStateM.Result PassError Context α → Prop
  | .ok a c => Q a c
  | .error e c => e.IsRefusal ∨ e = .circular → E c

theorem concludes_pure (h : Q a c) : Concludes Q E ((pure a : PassM α) c) := h

/-- A sequence concludes as its parts do. -/
theorem Concludes.bind (hx : Concludes P E (x c))
    (hg : ∀ a d, x c = .ok a d → P a d → Concludes S E (g a d)) : Concludes S E ((x >>= g) c) := by
  change Concludes S E (EStateM.bind x g c)
  unfold EStateM.bind
  cases h : x c with
  | ok a d =>
    rw [h] at hx
    exact hg a d h hx
  | error e d =>
    rw [h] at hx
    exact hx

theorem Concludes.mono (h : Concludes P E (x c)) (hq : ∀ a d, P a d → Q a d) (he : ∀ d, E d → F d) :
    Concludes Q F (x c) := by
  cases hx : x c with
  | ok a d =>
    rw [hx] at h
    exact hq a d h
  | error e d =>
    rw [hx] at h
    exact fun hr => he d (h hr)

/-- A run that finds no fault with the tree. -/
def PassM.Accepts (x : PassM α) : Prop :=
  ∀ c e c', x c = .error e c' → ¬ (e.IsRefusal ∨ e = .circular)

theorem PassM.Quiet.accepts (hx : Quiet x) : PassM.Accepts x := by
  intro c e c' h he
  have hfault := hx c e c' h
  cases e with
  | fault f => simp [PassError.IsRefusal] at he
  | _ => exact hfault

theorem PassM.Accepts.bind (hx : PassM.Accepts x) (hg : ∀ a, PassM.Accepts (g a)) :
    PassM.Accepts (x >>= g) := by
  intro c e c' h
  rcases bind_error.mp h with h | ⟨a, d, -, h⟩
  · exact hx c e c' h
  · exact hg a d e c' h

theorem PassM.Accepts.mapM (hg : ∀ a, PassM.Accepts (g a)) (as : List α) :
    PassM.Accepts (as.mapM g) := by
  induction as with
  | nil => exact (quiet_pure _).accepts
  | cons a as ih =>
    rw [List.mapM_cons]
    exact (hg a).bind fun _ => ih.bind fun _ => (quiet_pure _).accepts

theorem PassM.Accepts.forM {g : α → PassM Unit} (hg : ∀ a, PassM.Accepts (g a)) (as : List α) :
    PassM.Accepts (as.forM g) := by
  induction as with
  | nil => exact (quiet_pure _).accepts
  | cons a as ih => exact (hg a).bind fun _ => ih

theorem PassM.Accepts.outcome (hx : PassM.Accepts x) (h : ∀ a d, x c = .ok a d → Q a d) :
    Concludes Q E (x c) := by
  cases hr : x c with
  | ok a d => exact h a d hr
  | error e d => exact fun he => absurd he (hx c e d hr)

theorem PassM.Quiet.outcome (hx : Quiet x) (h : ∀ a d, x c = .ok a d → Q a d) :
    Concludes Q E (x c) := hx.accepts.outcome h

/-- A loop that keeps an invariant concludes with it. -/
theorem concludes_forM {g : α → PassM Unit} {I : List α → Context → Prop}
    (round : ∀ a as c, I (a :: as) c → Concludes (fun _ d => I as d) E (g a c)) (as : List α)
    (h : I as c) : Concludes (fun _ d => I [] d) E (as.forM g c) := by
  induction as generalizing c with
  | nil => exact concludes_pure h
  | cons a as ih => exact (round a as c h).bind fun _ d _ hd => ih hd

theorem concludes_check (he : E c) :
    Concludes (fun _ d => d = c ∧ n.malformed? = none) E (check n c) := by
  unfold check
  cases h : n.malformed? with
  | none => exact ⟨rfl, rfl⟩
  | some d => exact fun _ => he

end

variable {U : Int → Prop} {c c1 c' : Context} {v w : Operand} {vs ws : List Operand}
variable {t t' : Tree Mark} {ts ts' us : List (Tree Mark)} {mark : Mark} {tag : Tag} {n : Node}
variable {x : Int}

theorem inUse_self (h : ∀ x ∈ Tree.idsOf ts, U x) : InUse U ts ts = U := by
  funext y
  apply propext
  constructor
  · intro hy
    rcases hy with ⟨hy, -⟩ | hy
    · exact hy
    · exact h y hy
  · intro hy
    by_cases hmem : y ∈ Tree.idsOf ts
    · exact .inr hmem
    · exact .inl ⟨hy, hmem⟩

namespace Reworks

theorem congr (h : Reworks U c ts c1 vs ts') (hf : c'.forest = c1.forest)
    (hs : c'.shared = c1.shared) : Reworks U c ts c' vs ts' where
  bears := ⟨⟨fun y hy => hf ▸ h.bears.uses.has y hy, by
      rw [hs, hf]
      exact h.bears.uses.groups, by
      rw [hs]
      exact h.bears.uses.apart⟩, hf ▸ h.bears.denotes, h.bears.nodup, h.bears.used⟩
  own := h.own
  same y m hm hy hnot := by
    rw [hf]
    exact h.same y m hm hy hnot
  size := hf ▸ h.size

/-- What comes in the place of some trees also comes in the place of more. -/
theorem widen (h : Reworks U c ts c' vs ts') (hsub : ∀ y ∈ Tree.idsOf ts, y ∈ Tree.idsOf us) :
    Reworks U c us c' vs ts' where
  bears := by
    refine ⟨h.bears.uses.mono ?_, h.bears.denotes, h.bears.nodup, fun _ hy => .inr hy⟩
    intro y hy
    rcases hy with ⟨hy, hnot⟩ | hy
    · exact .inl ⟨hy, fun hmem => hnot (hsub y hmem)⟩
    · exact .inr hy
  own y hy := (h.own y hy).imp (hsub y) id
  same y m hm hy hnot := h.same y m hm hy fun hmem => hnot (hsub y hmem)
  size := h.size

theorem keepTail (hh : Bears U c (v :: vs) (t :: ts)) (h : Reworks U c [t] c' ws us) :
    Reworks U c (t :: ts) c' (ws ++ vs) (us ++ ts) :=
  h.cons hh (.refl (h.tail hh))

theorem keepHead (hh : Bears U c (v :: vs) (t :: ts)) (h : Reworks U c ts c' ws us) :
    Reworks U c (t :: ts) c' (v :: ws) (t :: us) := by
  have hrest : Reworks (InUse U [t] [t]) c ts c' ws us := by
    rwa [inUse_self hh.head.used]
  exact Reworks.cons hh (.refl hh.head) hrest

end Reworks

theorem Forest.Denotes.leaf_of_view (h : Denotes f v t) (hv : v.view = .atom a) : t = .leaf a := by
  cases t with
  | leaf b => cases hv.symm.trans h; rfl
  | node mark tag args => cases hv.symm.trans (denotes_node.mp h).1

theorem Reworks.of_view (h : Reworks U c ts c' [v] ts') (hv : v.view = w.view) :
    Reworks U c ts c' [w] ts' := by
  obtain ⟨t, hd, rfl⟩ : ∃ t, Denotes c'.forest v t ∧ ts' = [t] := by
    obtain ⟨t, _, hd, hnil, rfl⟩ := List.forall₂_cons_left_iff.mp h.bears.denotes
    cases hnil
    exact ⟨t, hd, rfl⟩
  exact h.select (.cons (hd.congr hv) .nil) (.refl _)

/-- Trees have been put in the place of trees below the same operands. -/
def Kept (U : Int → Prop) (c : Context) (vs : List Operand) (ts : List (Tree Mark))
    (c' : Context) : Prop := ∃ ts', Reworks U c ts c' vs ts'

/-- A part of some trees. It is borne as they are, and what comes in its place comes with all that
is around it. -/
structure Inside (U : Int → Prop) (c : Context) (vs : List Operand) (ts : List (Tree Mark))
    (w : Operand) (s : Tree Mark) : Prop where
  bears : Bears U c [w] [s]
  graft : ∀ {c' s'}, Reworks U c [s] c' [w] [s'] →
    ∃ ts', Reworks U c ts c' vs ts' ∧
      ∀ y ∈ Tree.idsOf ts, y ∉ s.ids ∨ y ∈ s'.ids → y ∈ Tree.idsOf ts'

variable {s : Tree Mark}

theorem Bears.child {id : Int} (h : Bears U c [v] [t]) (hv : v.child? = some id) :
    ∃ mark tag args, t = .node mark tag args ∧ id = mark.id :=
  (List.forall₂_cons.mp h.denotes).1.child hv

theorem Bears.inside_self (h : Bears U c [v] [t]) (hv : v.view = w.view) :
    Inside U c [v] [t] w t := by
  refine ⟨⟨h.uses, .cons ((List.forall₂_cons.mp h.denotes).1.congr hv) .nil, h.nodup, h.used⟩,
    fun {c' s} hr => ⟨[s], hr.of_view hv.symm, fun y hy hor => ?_⟩⟩
  simp only [Tree.idsOf_cons, Tree.idsOf_nil, List.append_nil] at hy ⊢
  exact hor.elim (absurd hy) id

theorem Inside.cons_head (hh : Bears U c (v :: vs) (t :: ts)) (h : Inside U c [v] [t] w s) :
    Inside U c (v :: vs) (t :: ts) w s := by
  refine ⟨h.bears, fun {c' s} hr => ?_⟩
  obtain ⟨ts', hr', hids⟩ := h.graft hr
  refine ⟨ts' ++ ts, hr'.keepTail hh, fun y hy hor => ?_⟩
  rw [Tree.idsOf_append]
  simp only [Tree.idsOf_cons, Tree.idsOf_nil, List.append_nil, List.mem_append] at hy hids ⊢
  rcases hy with hy | hy
  · exact .inl (hids y hy hor)
  · exact .inr hy

theorem Inside.cons_tail (hh : Bears U c (v :: vs) (t :: ts)) (h : Inside U c vs ts w s) :
    Inside U c (v :: vs) (t :: ts) w s := by
  refine ⟨h.bears, fun {c' s} hr => ?_⟩
  obtain ⟨ts', hr', hids⟩ := h.graft hr
  refine ⟨t :: ts', hr'.keepHead hh, fun y hy hor => ?_⟩
  simp only [Tree.idsOf_cons, List.mem_append] at hy ⊢
  rcases hy with hy | hy
  · exact .inl hy
  · exact .inr (hids y hy hor)

theorem Inside.below (hh : Bears U c [v] [.node mark tag ts]) (hn : c.forest.get? mark.id = some n)
    (h : Inside U c n.args ts w s) : Inside U c [v] [.node mark tag ts] w s := by
  refine ⟨h.bears, fun {c' s} hr => ?_⟩
  obtain ⟨ts', hr', hids⟩ := h.graft hr
  refine ⟨_, hr'.below hh hn, fun y hy hor => ?_⟩
  simp only [Tree.idsOf_cons, Tree.idsOf_nil, List.append_nil, Tree.ids_node',
    List.mem_cons] at hy ⊢
  rcases hy with hy | hy
  · exact .inl hy
  · exact .inr (hids y hy hor)

theorem Bears.tail (hh : Bears U c (v :: vs) (t :: ts)) : Bears U c vs ts := by
  have hsplit : Bears U c ([v] ++ vs) ([t] ++ ts) := hh
  exact hsplit.of_append_right rfl

theorem Bears.inside_get (hh : Bears U c vs ts) (hi : i < vs.length) (hi' : i < ts.length) :
    Inside U c vs ts vs[i] ts[i] := by
  induction vs generalizing ts i with
  | nil => simp at hi
  | cons v vs ih =>
    obtain ⟨t, ts, -, -, rfl⟩ := List.forall₂_cons_left_iff.mp hh.denotes
    cases i with
    | zero => exact .cons_head hh (hh.head.inside_self rfl)
    | succ i => exact .cons_tail hh (ih hh.tail (by simpa using hi) (by simpa using hi'))

theorem Bears.inside_nil (hh : Bears U c vs ts) (hw : w.view = .atom a) :
    Inside U c vs ts w (.leaf a) := by
  have hwide : Bears U c (w :: vs) (.leaf a :: ts) :=
    ⟨hh.uses, .cons hw hh.denotes, by simpa using hh.nodup, by simpa using hh.used⟩
  refine ⟨hwide.head, fun {c' s} hr => ⟨ts, ?_, fun y hy _ => hy⟩⟩
  have hrest := Reworks.refl (hr.tail hwide)
  have hall := hr.cons hwide hrest
  refine (hall.select hrest.bears.denotes ?_).widen fun y hy => by simpa using hy
  rw [Tree.idsOf_append]
  exact (List.sublist_append_right _ _).subperm

theorem Bears.inside_arg (hh : Bears U c [v] [.node mark tag ts])
    (hn : c.forest.get? mark.id = some n) (i : Nat) :
    Inside U c [v] [.node mark tag ts] (n.arg i) ((ts[i]?).getD (.leaf .nil)) := by
  have hargs := (hh.stored hn).2.2
  refine .below hh hn ?_
  have hlen := hargs.denotes.length_eq
  by_cases hi : i < ts.length
  · have hi' : i < n.args.length := by omega
    rw [Node.arg, List.getElem?_eq_getElem hi, List.getElem?_eq_getElem hi']
    exact hargs.inside_get hi' hi
  · rw [Node.arg, List.getElem?_eq_none (by omega), List.getElem?_eq_none (by omega)]
    exact hargs.inside_nil rfl

theorem Bears.arg (h : Bears U c n.args ts) (i : Nat) :
    Bears U c [n.arg i] [(ts[i]?).getD (.leaf .nil)] ∧
      ((ts[i]?).getD (.leaf .nil)).ids.Sublist (Tree.idsOf ts) := by
  by_cases hi : i < ts.length
  · have hlen := h.denotes.length_eq
    have hi' : i < n.args.length := by omega
    have hsub : (ts[i]).ids.Sublist (Tree.idsOf ts) :=
      List.sublist_flatten_of_mem (List.mem_map_of_mem (List.getElem_mem hi))
    rw [Node.arg, List.getElem?_eq_getElem hi, List.getElem?_eq_getElem hi', Option.getD_some,
      Option.getD_some]
    refine ⟨⟨h.uses, .cons (h.denotes.get hi' hi) .nil, ?_, ?_⟩, hsub⟩
    · simpa using h.nodup.sublist hsub
    · intro y hy
      exact h.used y (hsub.subset (by simpa using hy))
  · have hlen := h.denotes.length_eq
    rw [Node.arg, List.getElem?_eq_none (by omega), List.getElem?_eq_none (by omega)]
    exact ⟨⟨h.uses, .cons rfl .nil, by simp, by simp⟩, by simp⟩

theorem Makes.syms (c : Context) (names : List Text) :
    Makes c [] c (names.map .sym) (names.map fun x => .leaf (.sym x)) := by
  induction names with
  | nil => exact .keep .nil
  | cons name names ih => exact (Makes.sym c name).append ih

/-- A node that changes in anything but its operands. -/
theorem update_reworks (hh : Bears U c [v] [.node mark tag ts])
    (hn : c.forest.get? mark.id = some n) (hargs : (change n).args = n.args)
    (hpos : (change n).pos = n.pos) (h : update mark.id change c = .ok u c1) :
    Reworks U c [.node mark tag ts] c1 [v] [.node mark (change n).tag ts] := by
  obtain ⟨-, hmark, hbelow⟩ := hh.stored hn
  have hw : Writes (InUse U ts ts) c mark.id (change n) c1 := by
    rw [inUse_self hbelow.used]
    obtain ⟨m, hm', hw⟩ := update_writes hh.uses h
    obtain rfl : n = m := Option.mem_unique hn hm'
    exact hw
  exact Reworks.write hh (.refl hbelow) hw hargs (hpos.trans hmark)

/-- Operands that have been worked on are given to their node. -/
theorem renewArgs_reworks (hh : Bears U c [v] [.node mark tag ts]) (hr : Reworks U c ts c1 vs' ts')
    (h : renewArgs mark.id vs' c1 = .ok u c2) :
    Reworks U c [.node mark tag ts] c2 [v] [.node mark tag ts'] := by
  obtain ⟨-, hU, hid, n, hn, rfl, hpos, -⟩ := hh.node
  obtain ⟨m, hm, hw⟩ := renewArgs_writes hr.bears.uses h
  obtain rfl : n = m := Option.some.inj ((hr.same _ _ hn hU hid).symm.trans hm)
  exact Reworks.write (n := { n with args := vs' }) hh hr hw rfl hpos

theorem Bears.kept (h : Bears U c vs ts) : Kept U c vs ts c := ⟨ts, .refl h⟩

theorem Reworks.kept (h : Reworks U c ts c' vs ts') : Kept U c vs ts c' := ⟨ts', h⟩

theorem Reworks.keptOn (hU : c.Uses U) (h : Reworks U c ts c1 vs ts')
    (h' : Kept (InUse U ts ts') c1 vs ts' c') : Kept U c vs ts c' := by
  obtain ⟨us, h'⟩ := h'
  exact ⟨us, h.trans hU h'⟩

theorem quiet_walk (hv : ∀ id n, Quiet (visit id n)) (root : Int) : Quiet (walk root visit) := by
  have steers : Steers visit (fun _ _ => True) (fun _ e _ => e.IsFault) fun _ _ _ => True := by
    refine ⟨fun _ => trivial, fun _ _ => trivial, fun _ h => h, fun _ _ => trivial,
      fun _ => trivial, fun _ _ => trivial, fun {_ c x n} _ _ => ?_, fun _ _ _ _ _ _ => trivial⟩
    cases hr : visit x n c with
    | ok => trivial
    | error e d => exact hv x n c e d hr
  intro c e c' h
  have hends := steers.walk c root trivial
  rwa [h] at hends

/-- A walk that rewrites works on the tree below its root. -/
theorem Rewrites.outcome (h : Rewrites visit P B) (hh : Bears U c [v] [t])
    (hv : v.child? = some root) :
    Concludes (fun _ c' => ∃ t', Reworks U c [t] c' [v] [t'] ∧ P c t c' t') (Kept U c [v] [t])
      (PassM.walk root visit c) := by
  obtain ⟨hok, hrefused⟩ := h.walk hh hv
  cases hr : PassM.walk root visit c with
  | ok b d => exact hok b d hr
  | error e d =>
    intro he
    have hfault : ¬ e.IsFault := by
      intro hfault
      cases e with
      | fault f => simp [PassError.IsRefusal] at he
      | _ => exact hfault
    obtain ⟨⟨t', hr'⟩, -⟩ := hrefused e d hr hfault
    exact hr'.kept

/-- A run that keeps trees, whether it succeeds or not. -/
def Retains {α : Type} (U : Int → Prop) (vs : List Operand) (ts : List (Tree Mark)) (x : PassM α)
    (c : Context) : Prop := Concludes (fun _ => Kept U c vs ts) (Kept U c vs ts) (x c)

section

variable {α β : Type} {y : PassM α} {g : α → PassM β}

theorem retains_pure (hh : Bears U c vs ts) (a : α) : Retains U vs ts (pure a) c :=
  concludes_pure hh.kept

/-- A loop over operands, each round of which keeps the tree of its own. -/
theorem retains_forM {g : Operand → PassM Unit}
    (hg : ∀ {U c v t}, Bears U c [v] [t] → Retains U [v] [t] (g v) c) (hh : Bears U c vs ts) :
    Retains U vs ts (vs.forM g) c := by
  induction vs generalizing U c ts with
  | nil => exact concludes_pure hh.kept
  | cons v vs ih =>
    obtain ⟨t, ts, -, -, rfl⟩ := List.forall₂_cons_left_iff.mp hh.denotes
    have hhead := (hg hh.head).mono (fun _ _ h => h) (F := Kept U c (v :: vs) (t :: ts)) (by
      rintro d ⟨ts', hr⟩
      obtain ⟨t', rfl⟩ : ∃ t', ts' = [t'] :=
        List.length_eq_one_iff.mp hr.bears.denotes.length_eq.symm
      exact (hr.keepTail hh).kept)
    refine hhead.bind fun _ d _ hkept => ?_
    obtain ⟨ts', hr⟩ := hkept
    obtain ⟨t', rfl⟩ : ∃ t', ts' = [t'] := List.length_eq_one_iff.mp hr.bears.denotes.length_eq.symm
    have hrest : ∀ d', Kept (InUse U [t] [t']) d vs ts d' → Kept U c (v :: vs) (t :: ts) d' := by
      rintro d' ⟨us, hus⟩
      exact (hr.cons hh hus).kept
    exact (ih (hr.tail hh)).mono (fun _ d' => hrest d') hrest

/-- What is kept in a part is kept with what is around it. -/
theorem Inside.retains (h : Inside U c vs ts w s) (hy : Retains U [w] [s] y c) :
    Retains U vs ts y c := by
  have hup : ∀ d, Kept U c [w] [s] d → Kept U c vs ts d := by
    rintro d ⟨ss, hr⟩
    obtain ⟨s', rfl⟩ : ∃ s', ss = [s'] := List.length_eq_one_iff.mp hr.bears.denotes.length_eq.symm
    obtain ⟨ts', hr', -⟩ := h.graft hr
    exact hr'.kept
  exact hy.mono (fun _ => hup) hup

theorem Retains.below (hh : Bears U c [v] [.node mark tag ts]) (hn : c.forest.get? mark.id = some n)
    (h : Retains U n.args ts y c) : Retains U [v] [.node mark tag ts] y c := by
  have hup : ∀ d, Kept U c n.args ts d → Kept U c [v] [.node mark tag ts] d := by
    rintro d ⟨ts', hr⟩
    exact (hr.below hh hn).kept
  exact h.mono (fun _ => hup) hup

/-- A step that neither refuses anything nor changes the forest. -/
def PassM.Aside (y : PassM α) : Prop :=
  Quiet y ∧ ∀ {c a d}, y c = .ok a d → d.forest = c.forest ∧ d.shared = c.shared

theorem Bears.congr (hh : Bears U c vs ts) (hf : c'.forest = c.forest)
    (hs : c'.shared = c.shared) : Bears U c' vs ts :=
  ⟨⟨by rw [hf]; exact hh.uses.has, by rw [hs, hf]; exact hh.uses.groups,
    by rw [hs]; exact hh.uses.apart⟩, by rw [hf]; exact hh.denotes, hh.nodup, hh.used⟩

theorem Kept.of_congr (h : Kept U c1 vs ts d) (hf : c1.forest = c.forest) : Kept U c vs ts d := by
  obtain ⟨ts', hr⟩ := h
  exact ⟨ts', hr.bears, by rw [← hf]; exact hr.own, by rw [← hf]; exact hr.same,
    by rw [← hf]; exact hr.size⟩

theorem Retains.aside (hy : PassM.Aside y) (hh : Bears U c vs ts)
    (hg : ∀ a d, y c = .ok a d → d.forest = c.forest → Bears U d vs ts → Retains U vs ts (g a) d) :
    Retains U vs ts (y >>= g) c := by
  refine Concludes.bind (hy.1.outcome (Q := fun a d => y c = .ok a d) fun _ _ h => h)
    fun a d hd _ => ?_
  obtain ⟨hf, hs⟩ := hy.2 hd
  exact (hg a d hd hf (hh.congr hf hs)).mono (fun _ _ h => h.of_congr hf) fun _ h => h.of_congr hf

theorem PassM.Aside.retains (hy : PassM.Aside y) (hh : Bears U c vs ts) : Retains U vs ts y c := by
  have h := Retains.aside (g := pure) hy hh fun a d _ _ hd => retains_pure hd a
  rwa [bind_pure] at h

theorem aside_pure (a : α) : PassM.Aside (pure a : PassM α) := by
  refine ⟨quiet_pure a, fun h => ?_⟩
  obtain ⟨-, rfl⟩ := pure_ok.mp h
  exact ⟨rfl, rfl⟩

theorem PassM.Aside.bind (hy : PassM.Aside y) (hg : ∀ a, PassM.Aside (g a)) :
    PassM.Aside (y >>= g) := by
  refine ⟨hy.1.bind fun a => (hg a).1, fun h => ?_⟩
  obtain ⟨a, d, hd, h⟩ := bind_ok.mp h
  obtain ⟨hf, hs⟩ := hy.2 hd
  obtain ⟨hf', hs'⟩ := (hg a).2 h
  exact ⟨hf'.trans hf, hs'.trans hs⟩

theorem PassM.Aside.forM {g : α → PassM Unit} (hg : ∀ a, PassM.Aside (g a)) (as : List α) :
    PassM.Aside (as.forM g) := by
  induction as with
  | nil => exact aside_pure _
  | cons a as ih => exact (hg a).bind fun _ => ih

/-- A walk with visits that do not touch the forest does not touch it. -/
theorem aside_walk (hv : ∀ id n, PassM.Aside (visit id n)) (root : Int) :
    PassM.Aside (walk root visit) := by
  refine ⟨quiet_walk (fun id n => (hv id n).1) root, fun {c _ _} h => ?_⟩
  refine walk_keeps (I := fun d => d.forest = c.forest ∧ d.shared = c.shared) ?_
    ⟨rfl, rfl⟩ h
  intro d d' id n act hd _ hact
  obtain ⟨hf, hs⟩ := (hv id n).2 hact
  exact ⟨hf.trans hd.1, hs.trans hd.2⟩

theorem aside_fetch (id : Int) : PassM.Aside (fetch id) := by
  refine ⟨quiet_fetch id, fun h => ?_⟩
  obtain ⟨-, rfl⟩ := fetch_ok.mp h
  exact ⟨rfl, rfl⟩

theorem aside_operandAt (n : Node) (i : Nat) : PassM.Aside (operandAt n i) := by
  refine ⟨quiet_operandAt n i, fun h => ?_⟩
  obtain ⟨-, -, rfl⟩ := operandAt_ok.mp h
  exact ⟨rfl, rfl⟩

theorem aside_query (ask : Forest → Except Fault α) : PassM.Aside (query ask) := by
  refine ⟨quiet_query ask, fun h => ?_⟩
  obtain ⟨-, rfl⟩ := query_ok.mp h
  exact ⟨rfl, rfl⟩

theorem aside_get : PassM.Aside (get : PassM Context) := by
  refine ⟨quiet_get, fun h => ?_⟩
  obtain ⟨-, rfl⟩ := get_ok.mp h
  exact ⟨rfl, rfl⟩

theorem Retains.check {g : Unit → PassM β} (hh : Bears U c vs ts)
    (hg : n.malformed? = none → Retains U vs ts (g ⟨⟩) c) : Retains U vs ts (check n >>= g) c :=
  (concludes_check hh.kept).bind fun _ d _ hd => by
    obtain ⟨rfl, hn⟩ := hd
    exact hg hn

end

theorem rewrites_aside (hok : ∀ {id n c act c1}, visit id n c = .ok act c1 →
      act ≠ .stop ∧ c1.forest = c.forest ∧ c1.shared = c.shared)
    (hrefused : ∀ {id n c e c1}, visit id n c = .error e c1 → ¬ e.IsFault → c1 = c) :
    Rewrites visit (fun _ _ _ _ => True) fun _ => True where
  leaf _ _ := trivial
  ok {U c v mark tag args n act c1} hh hn h := by
    obtain ⟨hact, hf, hs⟩ := hok h
    refine ⟨tag, args, (Reworks.refl hh).congr hf hs, ?_⟩
    cases act with
    | stop => exact absurd rfl hact
    | skip => exact .inl ⟨rfl, trivial⟩
    | descend => exact .inr ⟨rfl, fun _ _ _ => trivial, fun _ _ _ => trivial⟩
  refused hh hn h he := ⟨hrefused h he, trivial⟩

theorem Rewrites.retains (h : Rewrites visit P B) (hh : Bears U c [v] [t])
    (hv : v.child? = some root) : Retains U [v] [t] (PassM.walk root visit) c :=
  (h.outcome hh hv).mono (fun _ _ ⟨_, hr, _⟩ => hr.kept) fun _ h => h

end Lowering
