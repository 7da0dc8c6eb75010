import Lowering.Proofs.ExportNotes
import Lowering.Proofs.Levels
import Lowering.Proofs.Registers
import Lowering.Proofs.Superclasses

namespace Lowering

/-- An error that finds fault with the source: a malformed node, or a form that is left over. -/
def PassError.IsRefusal : PassError → Prop
  | rejected d => d.complaint.kind = .malformed ∨ d.complaint.kind = .unresolved
  | fault _ | circular => False

/-- An error that may be met: a refusal, or a search that does not end, since superclasses come back
to one of them. -/
def PassError.Excused (e : PassError) (c : Context) : Prop :=
  e.IsRefusal ∨ (e = .circular ∧ ¬ c.classes.Rooted)

theorem PassError.Excused.not_fault {e : PassError} {c : Context} (h : e.Excused c) :
    ¬ e.IsFault := by
  intro hfault
  cases e with
  | fault f => simp [PassError.Excused, PassError.IsRefusal] at h
  | _ => exact hfault

/-- Grades of the nodes, and what is on record of them. -/
structure Survey extends Register where
  grade : Int → ℚ

instance : CoeFun Survey fun _ => Int → ℚ := ⟨Survey.grade⟩

namespace Context

/-- A state with its grades, whose functions are on record. -/
structure Surveyed (c : Context) (grade : Survey) : Prop extends
    c.Graded grade.grade, Recorded grade.toRegister c

/-- No closure is annotated with exported parameters. -/
def NoExports (c : Context) : Prop := ∀ x, c.forest.exportsAt x = []

theorem Orderly.surveyed {c : Context} (h : c.Orderly) :
    ∃ grade, c.Surveyed grade ∧ ∀ x, grade.Ordinary x := by
  obtain ⟨grade, hgrade⟩ := h
  let r : Register := ⟨{}, 0, Text.empty, [], fun _ => False⟩
  have hr : ∀ x, r.Ordinary x := fun x => ⟨nofun, by rintro ⟨_, h⟩; cases h⟩
  exact ⟨⟨r, grade⟩,
    ⟨hgrade, ⟨fun x _ _ => Register.knows_of_ordinary (hr x) fun _ _ y _ => (hr y).2,
    fun x hx => absurd hx (hr x).2, nofun, fun _ _ x _ => hr x⟩⟩, hr⟩

end Context

theorem Annotates.plain (h : Annotates (fun _ => False) c c') (hc : c.NoExports) :
    c'.NoExports := fun x => (h.exports x id).trans (hc x)

namespace PassM

/-- What a run leaves as it was: the grades of the nodes that were there, or that no closure is
annotated. -/
inductive Care where
  | grades
  | notes
  | none

variable {α β : Type} {c d : Context} {grade grade1 grade2 : Survey} {id : Int} {n : Node}
  {v : Operand} {args : List Operand} {s : Care}

/-- A later state: no node is gone, and the grades are in the order they were in. -/
structure Onward (s : Care) (c : Context) (grade : Survey) (d : Context) (grade1 : Survey) :
    Prop where
  graded : d.Surveyed grade1
  kept : ∀ x, c.forest.Has x → d.forest.Has x
  order : ∀ x y, c.forest.Has x → c.forest.Has y → grade x < grade y → grade1 x < grade1 y
  same : s = .grades → ∀ x, c.forest.Has x → grade1 x = grade x
  plain : s = .notes → c.NoExports → d.NoExports
  booked : Booked c d grade.toRegister grade1.toRegister

theorem Onward.refl (h : c.Surveyed grade) : Onward s c grade c grade :=
  ⟨h, fun _ hx => hx, fun _ _ _ _ hlt => hlt, fun _ _ _ => rfl, fun _ hp => hp,
    .same ⟨rfl, rfl, rfl, rfl⟩⟩

theorem Onward.trans (h : Onward s c grade d grade1) (h' : Onward s d grade1 e grade2) :
    Onward s c grade e grade2 where
  graded := h'.graded
  kept x hx := h'.kept x (h.kept x hx)
  order x y hx hy hlt := h'.order x y (h.kept x hx) (h.kept y hy) (h.order x y hx hy hlt)
  same hs x hx := (h'.same hs x (h.kept x hx)).trans (h.same hs x hx)
  plain hs hp := h'.plain hs (h.plain hs hp)
  booked := h.booked.trans h'.booked h.kept

theorem Onward.unlisted (h : Onward s c grade d grade1) (hid : c.forest.Has id)
    (hf : ¬ grade.IsFunction id) : ¬ grade1.IsFunction id :=
  fun h' => hf (h.booked.function id hid h')

theorem Onward.free (h : Onward s c grade d grade1) : Onward .none c grade d grade1 :=
  ⟨h.graded, h.kept, h.order, nofun, nofun, h.booked⟩

/-- An operand that lies below a node: what it refers to exists and is graded lower. -/
structure LiesBelow (c : Context) (grade : Survey) (id : Int) (v : Operand) : Prop where
  place : c.forest.Has id
  below : ∀ x, v.child? = some x → c.forest.Has x ∧ grade x < grade id

theorem LiesBelow.onward (h : LiesBelow c grade id v) (ho : Onward s c grade d grade1) :
    LiesBelow d grade1 id v where
  place := ho.kept id h.place
  below x hx := by
    obtain ⟨hhas, hlt⟩ := h.below x hx
    exact ⟨ho.kept x hhas, ho.order x id hhas h.place hlt⟩

/-- An operand that may be put below a node: it is no function. -/
structure Under (c : Context) (grade : Survey) (id : Int) (v : Operand) : Prop extends
    LiesBelow c grade id v where
  free : grade.Free v

theorem Under.onward (h : Under c grade id v) (ho : Onward s c grade d grade1) :
    Under d grade1 id v :=
  ⟨h.toLiesBelow.onward ho, fun x hx hf => h.free x hx (ho.booked.function x (h.below x hx).1 hf)⟩

theorem under_atom (hid : c.forest.Has id) (hv : v.child? = none) : Under c grade id v :=
  ⟨⟨hid, by simp [hv]⟩, Register.free_of_atom hv⟩

theorem under_sym (hid : c.forest.Has id) (name : Text) : Under c grade id (.sym name) :=
  under_atom hid rfl

theorem under_int (hid : c.forest.Has id) (value : Int64) : Under c grade id (.int value) :=
  under_atom hid rfl

theorem liesBelow_operand (hc : c.Surveyed grade) (hn : c.forest.get? id = some n)
    (hv : v ∈ n.args) : LiesBelow c grade id v :=
  ⟨⟨n, hn⟩, fun x hx => hc.below hn x (List.mem_filterMap.mpr ⟨v, hv, hx⟩)⟩

/-- Only an assignment has a function for an operand. -/
theorem under_operand (hc : c.Surveyed grade) (hn : c.forest.get? id = some n)
    (ht : n.tag ≠ .assign) (hv : v ∈ n.args) : Under c grade id v :=
  ⟨liesBelow_operand hc hn hv, (hc.nodes id n hn).free ((hc.nodes id n hn).not_anchor ht) v hv⟩

theorem liesBelow_arg (hc : c.Surveyed grade) (hn : c.forest.get? id = some n) (i : Nat) :
    LiesBelow c grade id (n.arg i) :=
  (arg_cases n i).elim (fun h => (under_atom ⟨n, hn⟩ h).toLiesBelow) (liesBelow_operand hc hn)

theorem under_arg (hc : c.Surveyed grade) (hn : c.forest.get? id = some n) (ht : n.tag ≠ .assign)
    (i : Nat) : Under c grade id (n.arg i) :=
  (arg_cases n i).elim (under_atom ⟨n, hn⟩) (under_operand hc hn ht)

theorem LiesBelow.trans (h : LiesBelow c grade x v) (hw : c.forest.Has id)
    (hlt : grade x < grade id) : LiesBelow c grade id v :=
  ⟨hw, fun y hy => ⟨(h.below y hy).1, (h.below y hy).2.trans hlt⟩⟩

theorem Under.trans (h : Under c grade x v) (hw : c.forest.Has id) (hlt : grade x < grade id) :
    Under c grade id v := ⟨h.toLiesBelow.trans hw hlt, h.free⟩

theorem liesBelow_children (h : ∀ a ∈ args, LiesBelow c grade id a) :
    ∀ y ∈ args.filterMap Operand.child?, c.forest.Has y ∧ grade y < grade id := by
  intro y hy
  obtain ⟨a, ha, hay⟩ := List.mem_filterMap.mp hy
  exact (h a ha).below y hay

/-- From a state on, a run succeeds with something known of its result, or it refuses the source. In
either case it leaves a state that has grades. -/
structure Lands (s : Care) (x : PassM α) (c : Context) (grade : Survey)
    (Q : α → Context → Survey → Prop) : Prop where
  ok : ∀ {a d}, x c = .ok a d → ∃ grade1, Onward s c grade d grade1 ∧ Q a d grade1
  error : ∀ {e d}, x c = .error e d → e.Excused d ∧ ∃ grade1, Onward .none c grade d grade1

/-- No claim about a result. -/
def Anything : α → Context → Survey → Prop := fun _ _ _ => True

variable {x : PassM α} {g : α → PassM β} {P Q : α → Context → Survey → Prop}
  {S : β → Context → Survey → Prop}

theorem lands_of_ok (hx : x c = .ok a d) (ho : Onward s c grade d w) (hq : Q a d w) :
    Lands s x c grade Q where
  ok h := by
    rw [hx] at h
    cases h
    exact ⟨w, ho, hq⟩
  error h := by
    rw [hx] at h
    cases h

theorem lands_pure (hc : c.Surveyed grade) (hq : Q a c grade) : Lands s (pure a) c grade Q :=
  lands_of_ok rfl (.refl hc) hq

theorem lands_throw (hc : c.Surveyed grade) (he : e.Excused c) :
    Lands s (throw e : PassM α) c grade Q where
  ok h := absurd h throw_ok
  error h := by
    cases h
    exact ⟨he, grade, .refl hc⟩

theorem Lands.bind (hx : Lands s x c grade P)
    (hg : ∀ a d grade1, x c = .ok a d → Onward s c grade d grade1 → P a d grade1 →
      Lands s (g a) d grade1 S) : Lands s (x >>= g) c grade S where
  ok h := by
    obtain ⟨a, t, ha, h⟩ := bind_ok.mp h
    obtain ⟨grade1, ho, hp⟩ := hx.ok ha
    obtain ⟨grade2, ho', hs⟩ := (hg a t grade1 ha ho hp).ok h
    exact ⟨grade2, ho.trans ho', hs⟩
  error h := by
    rcases bind_error.mp h with h | ⟨a, t, ha, h⟩
    · exact hx.error h
    · obtain ⟨grade1, ho, hp⟩ := hx.ok ha
      obtain ⟨he, grade2, ho'⟩ := (hg a t grade1 ha ho hp).error h
      exact ⟨he, grade2, ho.free.trans ho'⟩

theorem Lands.mono (hx : Lands s x c grade P)
    (hpq : ∀ a d grade1, x c = .ok a d → Onward s c grade d grade1 → P a d grade1 → Q a d grade1) :
    Lands s x c grade Q where
  ok h := by
    obtain ⟨grade1, ho, hp⟩ := hx.ok h
    exact ⟨grade1, ho, hpq _ _ _ h ho hp⟩
  error := hx.error

theorem Lands.free (hx : Lands s x c grade Q) : Lands .none x c grade Q where
  ok h := by
    obtain ⟨grade1, ho, hq⟩ := hx.ok h
    exact ⟨grade1, ho.free, hq⟩
  error := hx.error

/-- What is forgotten of the grades can be kept in what is known. -/
theorem Lands.noting (hx : Lands s x c grade Q) :
    Lands .none x c grade fun a d grade1 => Onward s c grade d grade1 ∧ Q a d grade1 :=
  (hx.mono fun _ _ _ _ ho hq => ⟨ho, hq⟩).free

theorem Lands.anything (hx : Lands s x c grade P) : Lands s x c grade Anything :=
  hx.mono fun _ _ _ _ _ _ => trivial

theorem Lands.discard (hx : Lands s x c grade P) : Lands s (discard x) c grade Anything where
  ok h := by
    obtain ⟨a, h⟩ := discard_ok.mp h
    obtain ⟨grade1, ho, -⟩ := hx.ok h
    exact ⟨grade1, ho, trivial⟩
  error h := hx.error (discard_error.mp h)

theorem Lands.after (hx : x c = .ok a c) (hg : Lands s (g a) c grade S) :
    Lands s (x >>= g) c grade S where
  ok h := by
    obtain ⟨a', t, ha, h⟩ := bind_ok.mp h
    rw [hx] at ha
    cases ha
    exact hg.ok h
  error h := by
    rcases bind_error.mp h with h | ⟨a', t, ha, h⟩
    · rw [hx] at h
      cases h
    · rw [hx] at ha
      cases ha
      exact hg.error h

theorem Lands.after_fetch {g : Node → PassM β} (hn : c.forest.get? id = some n)
    (hg : Lands s (g n) c grade S) : Lands s (fetch id >>= g) c grade S :=
  .after (fetch_ok.mpr ⟨hn, rfl⟩) hg

theorem Lands.after_query (ha : ask c.forest = .ok a) (hg : Lands s (g a) c grade S) :
    Lands s (query ask >>= g) c grade S :=
  .after (query_ok.mpr ⟨ha, rfl⟩) hg

theorem Lands.after_operandAt {g : Operand → PassM β} (hi : i < n.args.length)
    (hg : Lands s (g (n.arg i)) c grade S) : Lands s (operandAt n i >>= g) c grade S :=
  .after (operandAt_ok.mpr ⟨hi, rfl, rfl⟩) hg

theorem Lands.after_get {g : Context → PassM β} (hg : Lands s (g c) c grade S) :
    Lands s (get >>= g) c grade S :=
  .after rfl hg

theorem malformed_isRefusal (h : n.malformed? = some e) : (PassError.rejected e).IsRefusal := by
  have := Node.malformed?_kind h
  simp [PassError.IsRefusal, this]

theorem Lands.after_check {g : Unit → PassM β} (hc : c.Surveyed grade)
    (hg : n.malformed? = none → Lands s (g ⟨⟩) c grade S) : Lands s (check n >>= g) c grade S := by
  cases hm : n.malformed? with
  | none => exact .after (check_ok.mpr ⟨hm, rfl⟩) (hg hm)
  | some e =>
    refine Lands.bind (P := fun _ _ _ => False) ?_ fun _ _ _ _ _ h => h.elim
    unfold check
    rw [hm]
    exact lands_throw hc (.inl (malformed_isRefusal hm))

section

-- `T` is what is known of how each step changes the state
variable {T : Context → Context → Prop}

/-- What is known after each step has to hold on. -/
theorem lands_forM_all (refl : ∀ c, T c c) (trans : ∀ {a b c}, T a b → T b c → T a c)
    {g : α → PassM Unit} {R : α → Context → Prop} {as : List α}
    (hg : ∀ a ∈ as, ∀ d grade1, Onward s c grade d grade1 → T c d →
      Lands s (g a) d grade1 fun _ e _ => T d e ∧ R a e)
    (hR : ∀ {a c d}, T c d → R a c → R a d) (hc : c.Surveyed grade) :
    Lands s (as.forM g) c grade fun _ d _ => T c d ∧ ∀ a ∈ as, R a d := by
  induction as generalizing c grade with
  | nil => exact lands_pure hc ⟨refl c, by simp⟩
  | cons a as ih =>
    refine (hg a (by simp) c grade (.refl hc) (refl c)).bind fun _ d grade1 _ ho ⟨ht, ha⟩ => ?_
    refine (ih (fun b hb e grade2 ho' ht' => ?_) ho.graded).mono fun _ _ _ _ _ ⟨ht', has⟩ => ?_
    · exact hg b (List.mem_cons_of_mem a hb) e grade2 (ho.trans ho') (trans ht ht')
    · exact ⟨trans ht ht', List.forall_mem_cons.mpr ⟨hR ht' ha, has⟩⟩

theorem lands_forM (refl : ∀ c, T c c) (trans : ∀ {a b c}, T a b → T b c → T a c)
    {g : α → PassM Unit} {as : List α}
    (hg : ∀ a ∈ as, ∀ d grade1, Onward s c grade d grade1 → T c d →
      Lands s (g a) d grade1 fun _ e _ => T d e) (hc : c.Surveyed grade) :
    Lands s (as.forM g) c grade fun _ d _ => T c d := by
  refine (lands_forM_all (R := fun _ _ => True) refl trans (fun a ha d grade1 ho ht => ?_)
    (fun _ _ => trivial) hc).mono fun _ _ _ _ _ h => h.1
  exact (hg a ha d grade1 ho ht).mono fun _ _ _ _ _ h => ⟨h, trivial⟩

/-- What is known of each result has to hold on. -/
theorem lands_mapM (refl : ∀ c, T c c) (trans : ∀ {a b c}, T a b → T b c → T a c)
    {R : α → β → Context → Survey → Prop}
    (hg : ∀ a ∈ as, ∀ d grade1, Onward s c grade d grade1 → T c d →
      Lands s (g a) d grade1 fun b e grade2 => T d e ∧ R a b e grade2)
    (hR : ∀ {a b c grade d grade1}, Onward s c grade d grade1 → T c d → R a b c grade →
      R a b d grade1) (hc : c.Surveyed grade) :
    Lands s (as.mapM g) c grade fun bs d grade1 => T c d ∧
      List.Forall₂ (fun a b => R a b d grade1) as bs := by
  induction as generalizing c grade with
  | nil => exact lands_pure hc ⟨refl c, .nil⟩
  | cons a as ih =>
    rw [List.mapM_cons]
    refine (hg a (by simp) c grade (.refl hc) (refl c)).bind fun b d grade1 _ ho ⟨ht, hb⟩ => ?_
    refine (ih (fun x hx e grade2 ho' ht' => ?_) ho.graded).bind
      fun bs e grade2 _ ho' ⟨ht', hbs⟩ => ?_
    · exact hg x (List.mem_cons_of_mem a hx) e grade2 (ho.trans ho') (trans ht ht')
    · exact lands_pure ho'.graded ⟨trans ht ht', .cons (hR ho' ht' hb) hbs⟩

end

/-- The same for results of which nothing is known but how they lie in the later states. -/
theorem lands_each {R : α → β → Context → Survey → Prop}
    (hg : ∀ a ∈ as, ∀ d grade1, Onward s c grade d grade1 → Lands s (g a) d grade1 (R a))
    (hR : ∀ {a b c grade d grade1}, Onward s c grade d grade1 → R a b c grade → R a b d grade1)
    (hc : c.Surveyed grade) : Lands s (as.mapM g) c grade fun bs d grade1 =>
      List.Forall₂ (fun a b => R a b d grade1) as bs := by
  refine (lands_mapM (T := fun _ _ => True) (R := R) (fun _ => trivial) (fun _ _ => trivial)
    (fun a ha d grade1 ho _ => ?_) (fun ho _ => hR ho) hc).mono fun _ _ _ _ _ h => h.2
  exact (hg a ha d grade1 ho).mono fun _ _ _ _ _ hb => ⟨trivial, hb⟩

/-- A new node gets a grade above those of its operands. -/
theorem onward_add (hc : c.Surveyed grade) (hd : d.forest = c.forest.push n ∧ d.shared = c.shared)
    (hn : n.notes.namesAt "exports" = []) (hch : ∀ y ∈ n.children, c.forest.Has y ∧ grade y < m)
    (hr : Recorded r (c.add n)) (hb : Booked c d grade.toRegister r) :
    Onward s c grade d ⟨r, Function.update grade ((c.forest.size : Int) + 1) m⟩ where
  graded := ⟨(hc.toGraded.add hch).congr hd.1 hd.2, hr.congr hd.1 hd.2⟩
  kept x hx := hd.1 ▸ hx.push n
  order x y hx hy hlt := by
    simpa only [Function.update_of_ne hx.ne_new, Function.update_of_ne hy.ne_new] using hlt
  same _ x hx := Function.update_of_ne hx.ne_new _ _
  plain _ hp x := by
    rw [hd.1]
    exact (Annotates.add c hn).plain hp x
  booked := hb

/-- A node over operands that lie below another one may itself be put there. -/
theorem add_liesBelow (hc : c.Surveyed grade) (hid : c.forest.Has id)
    (hd : d.forest = c.forest.push n ∧ d.shared = c.shared) (hn : n.notes.namesAt "exports" = [])
    (hargs : ∀ a ∈ n.args, LiesBelow c grade id a) (hr : Recorded r (c.add n))
    (hb : Booked c d grade.toRegister r) :
    ∃ grade1 : Survey, Onward s c grade d grade1 ∧ grade1.toRegister = r ∧
      LiesBelow d grade1 id (.ref ((c.forest.size : Int) + 1)) := by
  obtain ⟨m, hm, hroom⟩ := exists_room_below grade c.forest.numbers (grade id)
  have ho : Onward s c grade d _ := onward_add (m := m) hc hd hn (fun y hy => ?_) hr hb
  · refine ⟨_, ho, rfl, ho.kept id hid, fun x hx => ?_⟩
    rw [Operand.child?_ref] at hx
    cases hx
    refine ⟨hd.1 ▸ Forest.has_push_self _ _, ?_⟩
    simpa only [Function.update_self, Function.update_of_ne hid.ne_new] using hm
  · obtain ⟨hhas, hlt⟩ := liesBelow_children hargs y hy
    exact ⟨hhas, hroom y (Forest.mem_numbers.mpr hhas) hlt⟩

theorem lands_alloc (hc : c.Surveyed grade) (hid : c.forest.Has id)
    (hargs : ∀ a ∈ args, Under c grade id a) :
    Lands s (alloc tag pos args) c grade fun x d grade1 => Under d grade1 id (.ref x) := by
  obtain ⟨grade1, ho, hr, hb⟩ :=
    add_liesBelow (s := s) (d := c.add { tag, args, pos }) hc hid ⟨rfl, rfl⟩ rfl
    (fun a ha => (hargs a ha).toLiesBelow) (hc.toRecorded.add fun a ha => (hargs a ha).free)
    (.same ⟨rfl, rfl, rfl, rfl⟩)
  refine lands_of_ok (alloc_ok.mpr ⟨rfl, rfl⟩) ho ⟨hb, ?_⟩
  rw [hr]
  exact Register.free_ref hc.new_ordinary.2

theorem lands_node (hc : c.Surveyed grade) (hid : c.forest.Has id)
    (hargs : ∀ a ∈ args, Under c grade id a) :
    Lands s (node tag pos args) c grade fun v d grade1 => Under d grade1 id v :=
  (lands_alloc hc hid hargs).bind fun _ _ _ _ ho hu => lands_pure ho.graded hu

theorem lands_anchor (hc : c.Surveyed grade) (hid : c.forest.Has id)
    (hargs : ∀ a ∈ args, LiesBelow c grade id a) :
    Lands s (node .assign pos args) c grade fun v d grade1 => Under d grade1 id v := by
  obtain ⟨grade1, ho, hr, hb⟩ :=
    add_liesBelow (s := s) (d := c.add { tag := .assign, args, pos }) hc hid
    ⟨rfl, rfl⟩ rfl hargs
    (hc.toRecorded.addAnchor (fun _ hg _ hx => hc.has_of_mem hg hx) rfl)
    ⟨fun _ _ hf => hf, fun _ hx ha => ha.resolve_left hx.ne_new, fun ⟨hd, h1, h2, h3, h4⟩ =>
      ⟨⟨hd.numbered, hd.names, hd.values⟩, h1, h2, h3, h4⟩, rfl⟩
  refine lands_of_ok (node_ok.mpr ⟨rfl, rfl⟩) ho ⟨hb, ?_⟩
  rw [hr]
  exact Register.free_ref (r := grade.anchor _) hc.new_ordinary.2

theorem lands_list (hc : c.Surveyed grade) (hid : c.forest.Has id)
    (hargs : ∀ a ∈ args, Under c grade id a) :
    Lands s (list pos args) c grade fun v d grade1 => Under d grade1 id v :=
  lands_node hc hid hargs

theorem lands_sexpCall (hc : c.Surveyed grade) (hid : c.forest.Has id)
    (hargs : ∀ a ∈ args, Under c grade id a) :
    Lands s (sexpCall pos function args) c grade fun v d grade1 => Under d grade1 id v := by
  refine (lands_node hc hid
    (List.forall_mem_cons.mpr ⟨under_sym hid function, hargs⟩)).bind
    fun call d grade1 _ ho hcall => ?_
  exact lands_node ho.graded (ho.kept id hid) (by simpa using hcall)

theorem onward_of_graded (h : d.Graded grade) (hr : Recorded r d)
    (hsize : c.forest.size = d.forest.size) (hp : s = .notes → c.NoExports → d.NoExports)
    (hb : Booked c d grade.toRegister r) : Onward s c grade d { grade with toRegister := r } where
  graded := ⟨h, hr⟩
  kept x hx := by
    rw [Forest.has_iff] at hx ⊢
    omega
  order _ _ _ _ hlt := hlt
  same _ _ _ := rfl
  plain := hp
  booked := hb

/-- A change of the state that leaves the forest and the sharing. -/
theorem lands_aside (hc : c.Surveyed grade) (hx : x c = .ok a d)
    (h : d.forest = c.forest ∧ d.shared = c.shared) (hr : Recorded r c)
    (hb : Booked c d grade.toRegister r) : Lands s x c grade fun _ e _ => e.forest = c.forest := by
  refine lands_of_ok hx (onward_of_graded (hc.toGraded.congr h.1 h.2) (hr.congr h.1 h.2)
    (by rw [h.1])
    (fun _ hp x => ?_) hb) h.1
  rw [h.1]
  exact hp x

theorem lands_update (hc : c.Surveyed grade) (hn : c.forest.get? id = some n)
    (hsame : (change n).args = n.args) (ht : (change n).tag = n.tag ∨ grade.Ordinary id)
    (hnotes : s = .notes → (change n).notes = n.notes) :
    Lands s (update id change) c grade Anything := by
  have hk := hc.nodes id n hn
  refine lands_of_ok (a := ⟨⟩) (update_ok.mpr ⟨n, hn, rfl⟩) (onward_of_graded
    (hc.toGraded.put_same hn hsame) (hc.toRecorded.put ?_) (by simp)
    (fun hs => (Annotates.put hn (fun _ => by rw [hnotes hs]) (by rw [hnotes hs])).plain)
    (.same ⟨rfl, rfl, rfl, rfl⟩)) trivial
  rcases ht with ht | hp
  · exact ⟨by rw [ht, hsame]; exact hk.name, ht ▸ hk.anchor, hsame ▸ hk.free⟩
  · exact Register.knows_of_ordinary hp (hsame ▸ hk.free hp.1)

theorem lands_reshape (hc : c.Surveyed grade) (hid : c.forest.Has id) (hf : ¬ grade.IsFunction id)
    (hargs : ∀ a ∈ args, Under c grade id a) : Lands s (reshape id tag args) c grade Anything := by
  obtain ⟨n, hn⟩ := hid
  refine lands_of_ok (a := ⟨⟩) (reshape_ok.mpr ⟨n, hn, rfl⟩)
    (onward_of_graded (hc.toGraded.renew ?_)
    (hc.toRecorded.release hf fun a ha => (hargs a ha).free) (by simp)
    (fun _ => (Annotates.put (m := n.reshape tag args) hn (fun _ => rfl) rfl).plain)
    (.release (.same ⟨rfl, rfl, rfl, rfl⟩))) trivial
  exact liesBelow_children fun a ha => (hargs a ha).toLiesBelow

theorem lands_renewArgs (hc : c.Surveyed grade) (hid : c.forest.Has id)
    (hf : ¬ grade.IsFunction id) (hargs : ∀ a ∈ args, Under c grade id a) :
    Lands s (renewArgs id args) c grade Anything := by
  obtain ⟨n, hn⟩ := hid
  refine lands_of_ok (a := ⟨⟩) (renewArgs_ok.mpr ⟨n, hn, rfl⟩)
    (onward_of_graded (hc.toGraded.renew ?_)
    (hc.toRecorded.release hf fun a ha => (hargs a ha).free) (by simp)
    (fun _ => (Annotates.put (m := { n with args }) hn (fun _ => rfl) rfl).plain)
    (.release (.same ⟨rfl, rfl, rfl, rfl⟩))) trivial
  exact liesBelow_children fun a ha => (hargs a ha).toLiesBelow

theorem exists_setArgs (h : ∀ x ∈ c.sharers id, c.forest.Has x) :
    ∃ d, setArgs id args c = .ok ⟨⟩ d := by
  have each : ∀ (l : List Int) (c : Context), (∀ x ∈ l, c.forest.Has x) →
      ∃ d, l.forM (fun other => update other ({ · with args := args })) c = .ok ⟨⟩ d := by
    intro l
    induction l with
    | nil => exact fun c _ => ⟨c, rfl⟩
    | cons y l ih =>
      intro c hl
      obtain ⟨n, hn⟩ := hl y (by simp)
      obtain ⟨d, hd⟩ := ih (c.put y { n with args := args })
        fun x hx => (hl x (List.mem_cons_of_mem y hx)).set _
      exact ⟨d, forM_cons_ok.mpr ⟨_, update_ok.mpr ⟨n, hn, rfl⟩, hd⟩⟩
  obtain ⟨d, hd⟩ := each _ c h
  exact ⟨d, bind_ok.mpr ⟨c, c, rfl, hd⟩⟩

/-- A function keeps its name, and what gets a function for an operand is an assignment. -/
theorem lands_setArgs (hc : c.Surveyed grade) (hid : c.forest.Has id)
    (hargs : ∀ a ∈ args, LiesBelow c grade id a)
    (hk : ∀ m, grade.Knows id m → grade.Knows id { m with args }) :
    Lands s (setArgs id args) c grade Anything := by
  obtain ⟨n, hn⟩ := hid
  obtain ⟨d, hd⟩ : ∃ d, setArgs id args c = .ok ⟨⟩ d := by
    apply exists_setArgs
    intro x hx
    obtain ⟨m, hm, -⟩ := hc.sharers_alike hn x hx
    exact ⟨m, hm⟩
  obtain ⟨hs, -, hget⟩ := setArgs_frame hd
  obtain ⟨f, hf⟩ := setArgs_aside hd
  refine lands_of_ok (w := grade) hd ⟨⟨hc.toGraded.setAll hs hn hget (liesBelow_children hargs),
    hc.toRecorded.setArgs hk hd⟩, ?_, fun _ _ _ _ hlt => hlt, fun _ _ _ => rfl,
    fun _ => (setArgs_annotates hd).plain, .same (by simp [hf])⟩ trivial
  rintro x ⟨m, hm⟩
  unfold Forest.Has
  rw [hget, hm]
  split <;> exact ⟨_, rfl⟩

/-- A node that is no function gets operands that it had or that are no functions. -/
theorem lands_exchange (hc : c.Surveyed grade) (hn : c.forest.get? id = some n)
    (hf : ¬ grade.IsFunction id) (hargs : ∀ a ∈ args, LiesBelow c grade id a)
    (hfree : ∀ a ∈ args, a ∈ n.args ∨ grade.Free a) :
    Lands s (setArgs id args) c grade Anything := by
  refine lands_setArgs hc ⟨n, hn⟩ hargs fun m hm =>
    ⟨fun name hmem => absurd ⟨name, hmem⟩ hf, hm.anchor, fun ha a hmem => ?_⟩
  exact (hfree a hmem).elim ((hc.nodes id n hn).free ha a) fun h => h

theorem lands_replace (hc : c.Surveyed grade) (hid : c.forest.Has id) (hf : ¬ grade.IsFunction id)
    (hn : c.forest.get? src = some n) (ht : n.tag ≠ .assign) (hnotes : s = .notes → n.notes = {})
    (hch : ∀ y ∈ n.children, grade y ≤ grade id ∧ y ≠ id) (hs : s ≠ .grades) :
    Lands s (replace id src) c grade Anything := by
  obtain ⟨old, hold⟩ := hid
  obtain ⟨grade1, hg, order⟩ := hc.replace (n := { n with
      pos := if n.pos = Position.unknown then old.pos else n.pos
      notes := if id = src then {} else n.notes }) ⟨old, hold⟩
    fun y hy => ⟨(hc.below hn y hy).1, hch y hy⟩
  have hk := hc.nodes src n hn
  refine lands_of_ok (a := ⟨⟩) (w := ⟨grade.release id, grade1⟩)
    (replace_ok.mpr ⟨old, n, hold, hn, rfl⟩)
      ⟨⟨hg, hc.toRecorded.release hf (hk.free (hk.not_anchor ht))⟩,
    fun x hx => hx.set _, order, fun h => absurd h hs, fun h hp => ?_,
    Booked.release (.same ⟨rfl, rfl, rfl, rfl⟩)⟩ trivial
  intro x
  rw [Forest.exportsAt, Context.detach_forest, Context.put_forest, Forest.get?_set, hnotes h,
    ite_self]
  split
  · rw [hold]
    rfl
  · exact hp x

/-- The operand list of a node becomes a list that may be put below it. -/
theorem lands_moveArgs (hc : c.Surveyed grade) (hn : c.forest.get? id = some n)
    (ht : n.tag ≠ .assign) (hs : s ≠ .grades) :
    Lands s (moveArgs id n) c grade fun v d grade1 => Under d grade1 id v := by
  obtain ⟨grade1, hg, order, hlt⟩ := hc.handOver hn n.pos
  have hk := hc.nodes id n hn
  have hadd : Recorded grade.toRegister (c.add { tag := .list, args := n.args, pos := n.pos }) :=
    hc.toRecorded.add (hk.free (hk.not_anchor ht))
  refine lands_of_ok (w := ⟨grade.toRegister, grade1⟩) (moveArgs_ok.mpr ⟨rfl, rfl⟩)
    ⟨⟨hg, hadd.handOver hc.new_ordinary⟩, fun x hx => hx.push _, order, fun h => absurd h hs,
    fun _ => (Annotates.add (X := fun _ => False) c rfl).plain, .same ⟨rfl, rfl, rfl, rfl⟩⟩
    ⟨⟨Forest.Has.push ⟨n, hn⟩ _, fun x hx => ?_⟩, Register.free_ref hc.new_ordinary.2⟩
  rw [Operand.child?_ref] at hx
  cases hx
  exact ⟨Forest.has_push_self _ _, hlt⟩

section

variable {visit : Int → Node → PassM Walk.Action}

/-- The visits of a walk land. -/
def VisitsLand (visit : Int → Node → PassM Walk.Action) : Prop :=
  ∀ {c grade id n}, c.Surveyed grade → c.forest.get? id = some n →
    Lands .notes (visit id n) c grade Anything

/-- The depth of a walk is enough for it to come to its end, unless a visit refuses the source. -/
theorem lands_walk (hv : VisitsLand visit) (hsink : VisitsSink visit) (hc : c.Surveyed grade)
    (hid : c.forest.Has id) : Lands .notes (walk id visit) c grade Anything := by
  obtain ⟨drop, hdrop, hsink⟩ := hsink
  have steers : Steers visit
      (fun c d => ∀ grade, c.Surveyed grade → (∃ grade1, Onward .notes c grade d grade1) ∧
        ∀ level, Forest.Levelled drop c.forest level →
          ∃ level1, Forest.Relevelled drop c.forest level d.forest level1)
      (fun c e d => ∀ grade, c.Surveyed grade → e.Excused d ∧
        ∃ grade1, Onward .none c grade d grade1)
      fun k c x => (∃ grade, c.Surveyed grade) ∧
        ∃ level, Forest.Levelled drop c.forest level ∧ c.forest.Has x ∧ level x ≤ k := by
    constructor
    · exact fun c grade hc => ⟨⟨grade, .refl hc⟩, fun level hl => ⟨level, .refl hl⟩⟩
    · intro c d e h h' grade hc
      obtain ⟨⟨grade1, ho⟩, hlevels⟩ := h grade hc
      obtain ⟨⟨grade2, ho'⟩, hlevels'⟩ := h' grade1 ho.graded
      refine ⟨⟨grade2, ho.trans ho'⟩, fun level hl => ?_⟩
      obtain ⟨level1, hr⟩ := hlevels level hl
      obtain ⟨level2, hr'⟩ := hlevels' level1 hr.levelled
      exact ⟨level2, hr.trans hr'⟩
    · intro c d e err h h' grade hc
      obtain ⟨⟨grade1, ho⟩, -⟩ := h grade hc
      obtain ⟨he, grade2, ho'⟩ := h' grade1 ho.graded
      exact ⟨he, grade2, ho.free.trans ho'⟩
    · rintro k c d x h ⟨⟨grade, hc⟩, level, hl, hx, hk⟩
      obtain ⟨⟨grade1, ho⟩, hlevels⟩ := h grade hc
      obtain ⟨level1, hr⟩ := hlevels level hl
      obtain ⟨hx', heq⟩ := hr.kept x hx
      exact ⟨⟨grade1, ho.graded⟩, level1, hr.levelled, hx', heq ▸ hk⟩
    · rintro c x ⟨-, level, hl, ⟨n, hn⟩, hk⟩
      have := hl.pays hn
      have := (hdrop n).1
      omega
    · rintro k c x ⟨-, -, -, ⟨n, hn⟩, -⟩ hnone
      cases hnone.symm.trans hn
    · intro k c x n _ hn
      cases hr : visit x n c with
      | ok act d =>
        refine fun grade hc => ⟨((hv hc hn).ok hr).imp fun _ h => h.1, fun level hl => ?_⟩
        exact (hsink hc.toGraded hn hl act d hr).imp fun _ h => h.1
      | error e d => exact fun grade hc => (hv hc hn).error hr
    · rintro k c d x n m ⟨⟨grade, hc⟩, level, hl, hx, hk⟩ hn hvisit hm y hy
      obtain ⟨grade1, ho, -⟩ := (hv hc hn).ok hvisit
      obtain ⟨level1, hr, -⟩ := hsink hc.toGraded hn hl _ d hvisit
      obtain ⟨hy', hle⟩ := hr.levelled.falls hm y hy
      have heq := (hr.kept x hx).2
      have hpos := (hdrop m).1
      exact ⟨⟨grade1, ho.graded⟩, level1, hr.levelled, hy', by omega⟩
  have hlevel := Forest.levelled_budget hc.acyclic hc.valid fun n => (hdrop n).2
  have hends := steers.walk c _ ⟨⟨grade, hc⟩, _, hlevel, hid, Forest.budget_le_extent _ _⟩
  constructor
  · intro b d hr
    rw [hr] at hends
    exact (hends grade hc).1.imp fun _ ho => ⟨ho, trivial⟩
  · intro e d hr
    rw [hr] at hends
    exact hends grade hc

end

end PassM

end Lowering
