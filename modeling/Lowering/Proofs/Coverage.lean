import Lowering.Proofs.Outside
import Lowering.Proofs.Walks

namespace Lowering.Coverage

open Forest PassM

/-- What a walk leaves as it was: the nodes it has visited, and what is clear. -/
structure WalkedOn (P : Condition) (c : Context) (seen : List Int) (c' : Context)
    (seen' : List Int) : Prop where
  unshared : c'.shared = []
  kept : ∀ x ∈ seen, x ∈ seen'
  same : ∀ x ∈ seen, ∀ n, c.forest.get? x = some n → c'.forest.get? x = some n
  noDestruct : NoNewDestruct c.forest c'.forest
  clear : ∀ {x}, Clear P c.forest x → Clear P c'.forest x

/-- A node that meets a condition, with the nodes below it visited. -/
def Done (Q : Condition) (c : Context) (seen : List Int) (id : Int) : Prop :=
  ∃ n, c.forest.get? id = some n ∧ Q c.forest n ∧
    (n.tag ≠ .sexp → ∀ child ∈ n.children, child ∈ seen)

/-- How a walk goes on: past lowered code and into everything else. -/
def GoesOn (act : Walk.Action) (n : Node) : Prop :=
  act = .skip ∧ n.tag = .sexp ∨ act = .descend ∧ n.tag ≠ .sexp

/-- The outcome of a visit: its node meets a condition. -/
structure Visited (P Q : Condition) (c : Context) (seen : List Int) (id : Int)
    (act : Walk.Action) (c' : Context) : Prop where
  later : WalkedOn P c seen c' (id :: seen)
  node : ∃ n, c'.forest.get? id = some n ∧ Q c'.forest n ∧ GoesOn act n

variable {P Q : Condition} {c c1 c' : Context} {seen seen' : List Int} {id : Int} {n n' : Node}
  {v : Operand} {visit : Int → Node → PassM Walk.Action} {act : Walk.Action}

theorem WalkedOn.refl (hs : c.shared = []) (seen : List Int) : WalkedOn P c seen c seen where
  unshared := hs
  kept _ h := h
  same _ _ _ h := h
  noDestruct _ n h ht := ⟨n, h, ht⟩
  clear h := h

theorem WalkedOn.trans (h : WalkedOn P c seen c1 seen1) (h' : WalkedOn P c1 seen1 c' seen') :
    WalkedOn P c seen c' seen' where
  unshared := h'.unshared
  kept x hx := h'.kept x (h.kept x hx)
  same x hx n hn := h'.same x (h.kept x hx) n (h.same x hx n hn)
  noDestruct := h.noDestruct.trans h'.noDestruct
  clear hx := h'.clear (h.clear hx)

theorem WalkedOn.done (hQ : Lasting Q) (h : WalkedOn P c seen c' seen') (hx : x ∈ seen)
    (hd : Done Q c seen x) : Done Q c' seen' x := by
  obtain ⟨n, hn, hq, hbelow⟩ := hd
  exact ⟨n, h.same x hx n hn, hQ _ _ _ h.noDestruct hq,
    fun ht child hc => h.kept child (hbelow ht child hc)⟩

/-- What a walk over some nodes has done: they have been visited, and every node visited on the way
meets the condition and has nothing unvisited below it. -/
structure Swept (P Q : Condition) (ids : List Int) (c : Context) (seen : List Int) (c' : Context)
    (seen' : List Int) : Prop where
  later : WalkedOn P c seen c' seen'
  reached : ∀ id ∈ ids, id ∈ seen'
  fresh : ∀ x ∈ seen', x ∉ seen → Done Q c' seen' x

/-- The walk of a pass, down to a depth. -/
def steps (visit : Int → Node → PassM Walk.Action) :
    Nat → List Int → Int → PassM (Bool × List Int) :=
  Walk.from_ (.fault .endless) (fun id => return (← fetch id).children)
    (fun id => do visit id (← fetch id))

theorem sweep_all (hQ : Lasting Q)
    (step : ∀ {c c' : Context} {seen seen' : List Int} {id : Int} {b : Bool}, c.shared = [] →
      Clear P c.forest id → steps visit k seen id c = .ok (b, seen') c' →
      b = true ∧ Swept P Q [id] c seen c' seen') (hs : c.shared = [])
    (hp : ∀ id ∈ ids, Clear P c.forest id)
    (h : Walk.all (steps visit k) seen ids c = .ok (b, seen') c') :
    b = true ∧ Swept P Q ids c seen c' seen' := by
  induction ids generalizing c seen with
  | nil =>
    obtain ⟨he, rfl⟩ := pure_ok.mp h
    cases he
    exact ⟨rfl, .refl hs _, by simp, fun x hx hn => absurd hx hn⟩
  | cons id ids ih =>
    obtain ⟨⟨finished, seen1⟩, c1, h1, h2⟩ := bind_ok.mp h
    obtain ⟨rfl, s1⟩ := step hs (hp id (by simp)) h1
    obtain ⟨rfl, s2⟩ := ih s1.later.unshared
      (fun x hx => s1.later.clear (hp x (List.mem_cons_of_mem _ hx))) h2
    refine ⟨rfl, s1.later.trans s2.later, ?_, ?_⟩
    · intro x hx
      rcases List.mem_cons.mp hx with rfl | hx
      · exact s2.later.kept x (s1.reached x (by simp))
      · exact s2.reached x hx
    · intro x hx hn
      by_cases hx1 : x ∈ seen1
      · exact s2.later.done hQ hx1 (s1.fresh x hx1 hn)
      · exact s2.fresh x hx hx1

/-- The duties of a visitor. -/
def Covers (visit : Int → Node → PassM Walk.Action) (P Q : Condition) : Prop :=
  ∀ {c c' : Context} {seen : List Int} {id : Int} {n : Node} {act : Walk.Action}, c.shared = [] →
    id ∉ seen → Clear P c.forest id → c.forest.get? id = some n → visit id n c = .ok act c' →
    Visited P Q c seen id act c'

theorem Covers.steps (hv : Covers visit P Q) (hQ : Lasting Q) (hs : c.shared = [])
    (hp : Clear P c.forest id) (h : steps visit k seen id c = .ok (b, seen') c') :
    b = true ∧ Swept P Q [id] c seen c' seen' := by
  have visited : ∀ {c c' : Context} {seen seen' : List Int} {id : Int} {b : Bool}, c.shared = [] →
      id ∈ seen → (pure (true, seen) : PassM _) c = .ok (b, seen') c' →
      b = true ∧ Swept P Q [id] c seen c' seen' := by
    intro c c' seen seen' id b hs hm h
    obtain ⟨he, rfl⟩ := pure_ok.mp h
    cases he
    exact ⟨rfl, .refl hs _, by simpa using hm, fun x hx hn => absurd hx hn⟩
  induction k generalizing c c' seen seen' id b with
  | zero =>
    unfold Coverage.steps Walk.from_ at h
    split at h
    · rename_i hm
      exact visited hs (by simpa using hm) h
    · exact absurd h throw_ok
  | succ k ih =>
    unfold Coverage.steps Walk.from_ at h
    split at h
    · rename_i hm
      exact visited hs (by simpa using hm) h
    · rename_i hm
      have hm : id ∉ seen := by simpa using hm
      obtain ⟨act, c1, hact, h⟩ := bind_ok.mp h
      obtain ⟨n, hn, hact⟩ := fetch_bind_ok.mp hact
      obtain ⟨l1, n', hn', hq, hgo⟩ := hv hs hm hp hn hact
      rcases hgo with ⟨rfl, ht⟩ | ⟨rfl, ht⟩
      · obtain ⟨he, rfl⟩ := pure_ok.mp h
        cases he
        refine ⟨rfl, l1, by simp, fun x hx hxn => ?_⟩
        obtain rfl : x = id := by simpa [hxn] using hx
        exact ⟨n', hn', hq, fun h => absurd ht h⟩
      · obtain ⟨ids, _, hc, h⟩ := bind_ok.mp h
        obtain ⟨m, hm', hc⟩ := fetch_bind_ok.mp hc
        obtain ⟨rfl, rfl⟩ := pure_ok.mp hc
        obtain rfl := Option.mem_unique hn' hm'
        obtain ⟨m, hm', -, hbelow⟩ := selfContained_clear P _ id (l1.clear hp)
        obtain rfl := Option.mem_unique hn' hm'
        obtain ⟨rfl, s2⟩ := sweep_all hQ (fun hs hp h => ih hs hp h) l1.unshared (hbelow ht) h
        refine ⟨rfl, l1.trans s2.later, ?_, fun x hx hxn => ?_⟩
        · simpa using s2.later.kept id (by simp)
        · by_cases hxi : x = id
          · subst hxi
            exact ⟨n', s2.later.same x (by simp) n' hn', hQ _ _ _ s2.later.noDestruct hq,
              fun _ => s2.reached⟩
          · exact s2.fresh x hx (by simp [hxi, hxn])

/-- What a walk that succeeds has come to below its root meets the condition. -/
theorem Covers.walk (hv : Covers visit P Q) (hQ : Lasting Q) (hs : c.shared = [])
    (hr : Clear P c.forest root) (h : walk root visit c = .ok b c') :
    c'.shared = [] ∧ Clear Q c'.forest root := by
  unfold PassM.walk Walk.run at h
  have h := get_bind_ok.mp h
  obtain ⟨⟨finished, seen⟩, hs', -⟩ := bind_pure_ok.mp h
  obtain ⟨-, s⟩ := hv.steps hQ hs hr hs'
  exact ⟨s.later.unshared, (· ∈ seen), fun x hx => s.fresh x hx (by simp), s.reached root (by simp)⟩

theorem unchanged (hs : c.shared = []) (hn : c.forest.get? id = some n) (hq : Q c.forest n)
    (hgo : GoesOn act n) : Visited P Q c seen id act c :=
  ⟨{ WalkedOn.refl hs seen with kept := fun _ hx => List.mem_cons_of_mem id hx }, n, hn, hq, hgo⟩

/-- Nodes have been added, and nothing else has happened to the forest. -/
structure Adds (c c' : Context) : Prop where
  shared : c'.shared = c.shared
  grows : Grows c.forest c'.forest
  noDestruct : NoNewDestruct c.forest c'.forest

theorem adds_of_eq (hf : c'.forest = c.forest) (hs : c'.shared = c.shared) : Adds c c' where
  shared := hs
  grows := hf ▸ .refl _
  noDestruct _ n hn ht := ⟨n, hf ▸ hn, ht⟩

theorem Adds.refl (c : Context) : Adds c c := adds_of_eq rfl rfl

theorem Adds.trans (h : Adds c c1) (h' : Adds c1 c') : Adds c c' where
  shared := h'.shared.trans h.shared
  grows := h.grows.trans h'.grows
  noDestruct := h.noDestruct.trans h'.noDestruct

theorem adds_add (c : Context) (ht : n.tag ≠ .destruct) : Adds c (c.add n) :=
  ⟨rfl, grows_push _ _, noNewDestruct_push ht⟩

/-- Below an operand everything is clear. -/
def Fine (P : Condition) (f : Forest) (v : Operand) : Prop :=
  ∀ x, v.child? = some x → Clear P f x

theorem Fine.adds (hP : Lasting P) (h : Adds c c') (hv : Fine P c.forest v) : Fine P c'.forest v :=
  fun x hx => (hv x hx).grow hP h.grows h.noDestruct

theorem fine_atom (hv : v.child? = none) : Fine P f v := by simp [Fine, hv]

theorem meets (hc : Clear P c.forest id) (hn : c.forest.get? id = some n) : P c.forest n := by
  obtain ⟨m, hm, hp, -⟩ := selfContained_clear P c.forest id hc
  obtain rfl := Option.mem_unique hn hm
  exact hp

theorem fine_operand (hc : Clear P c.forest id) (hn : c.forest.get? id = some n)
    (ht : n.tag ≠ .sexp) (hv : v ∈ n.args) : Fine P c.forest v := by
  obtain ⟨m, hm, -, hbelow⟩ := selfContained_clear P c.forest id hc
  obtain rfl := Option.mem_unique hn hm
  exact fun x hx => hbelow ht x (List.mem_filterMap.mpr ⟨v, hv, hx⟩)

theorem fine_add (hP : Lasting P) (ht : n.tag ≠ .destruct) (hp : P (c.forest.push n) n)
    (hargs : n.tag ≠ .sexp → ∀ a ∈ n.args, Fine P c.forest a) :
    Fine P (c.add n).forest (.ref ((c.forest.size : Int) + 1)) := by
  intro x hx
  rw [Operand.child?_ref] at hx
  cases hx
  refine clear_new hP ht hp fun hs child hc => ?_
  obtain ⟨a, ha, hac⟩ := List.mem_filterMap.mp hc
  exact hargs hs a ha child hac

/-- A visit that gives its node another tag and other operands, over nodes it has added. -/
theorem rewritten (hP : Lasting P) (hs : c.shared = []) (hid : id ∉ seen)
    (hn : c.forest.get? id = some n) (ha : Adds c c1)
    (ht : n'.tag = .destruct → n.tag = .destruct) (hopen : n'.tag ≠ .sexp)
    (hp : P (c1.put id n').forest n') (hq : Q (c1.put id n').forest n')
    (hargs : ∀ v ∈ n'.args, Fine P c1.forest v) :
    Visited P Q c seen id .descend (c1.put id n') := by
  have hn1 : c1.forest.get? id = some n := ha.grows id n hn
  refine ⟨⟨ha.shared.trans hs, fun x hx => by simp [hx], fun x hx m hm => ?_, ?_, fun hx => ?_⟩,
    n', by rw [Context.put_forest, get?_set, if_pos rfl, hn1]; rfl, hq, .inr ⟨rfl, hopen⟩⟩
  · have hxi : x ≠ id := fun he => hid (he ▸ hx)
    rw [Context.put_forest, get?_set, if_neg hxi]
    exact ha.grows x m hm
  · exact ha.noDestruct.trans (noNewDestruct_set hn1 ht)
  · refine (hx.grow hP ha.grows ha.noDestruct).set hP hn1 ht hp fun _ child hc => ?_
    obtain ⟨v, hv, hvc⟩ := List.mem_filterMap.mp hc
    exact hargs v hv child hvc

end Lowering.Coverage
