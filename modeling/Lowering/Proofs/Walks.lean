import Lowering.Proofs.Steps

namespace Lowering.PassM

variable {α β : Type} {x : PassM α} {g : α → PassM β} {visit : Int → Node → PassM Walk.Action}
  {R : Context → Context → Prop} {E : Context → PassError → Context → Prop}
  {X : Nat → Context → Int → Prop} {c : Context} {k : Nat} {id : Int}

/-- A run has changed a state as `R` says, or failed as `E` says. -/
def EndsBy (R : Context → Context → Prop) (E : Context → PassError → Context → Prop) (c : Context) :
    EStateM.Result PassError Context α → Prop
  | .ok _ d => R c d
  | .error e d => E c e d

/-- Visits to nodes of a kind end as `R` and `E` say, and lead only to nodes of that kind, to which
one level less is left. -/
structure Steers (visit : Int → Node → PassM Walk.Action) (R : Context → Context → Prop)
    (E : Context → PassError → Context → Prop) (X : Nat → Context → Int → Prop) : Prop where
  refl : ∀ c, R c c
  trans : ∀ {c d e}, R c d → R d e → R c e
  fails : ∀ {c d e err}, R c d → E d err e → E c err e
  holds : ∀ {k c d x}, R c d → X k c x → X k d x
  deep : ∀ {c x}, X 0 c x → E c (.fault .endless) c
  missing : ∀ {k c x}, X (k + 1) c x → c.forest.get? x = none → E c (.fault (.invalidNode x)) c
  visits : ∀ {k c x n}, X (k + 1) c x → c.forest.get? x = some n → EndsBy R E c (visit x n c)
  below : ∀ {k c d x n m}, X (k + 1) c x → c.forest.get? x = some n →
    visit x n c = .ok .descend d → d.forest.get? x = some m → ∀ y ∈ m.children, X k d y

namespace Steers

theorem bind (h : Steers visit R E X) (hx : EndsBy R E c (x c))
    (hg : ∀ a d, x c = .ok a d → R c d → EndsBy R E d (g a d)) : EndsBy R E c ((x >>= g) c) := by
  change EndsBy R E c (EStateM.bind x g c)
  unfold EStateM.bind
  cases hrun : x c with
  | error e d => rwa [hrun] at hx
  | ok a d =>
    rw [hrun] at hx
    have hrest := hg a d hrun hx
    dsimp only
    cases hlast : g a d <;> rw [hlast] at hrest
    · exact h.trans hx hrest
    · exact h.fails hx hrest

theorem fetch (h : Steers visit R E X) (hX : X (k + 1) c id) {g : Node → PassM α}
    (hg : ∀ n, c.forest.get? id = some n → EndsBy R E c (g n c)) :
    EndsBy R E c ((PassM.fetch id >>= g) c) := by
  refine h.bind ?_ fun n d hrun _ => ?_
  · rw [fetch_eq]
    cases hn : c.forest.get? id with
    | none => exact h.missing hX hn
    | some n => exact h.refl c
  · obtain ⟨hn, rfl⟩ := fetch_ok.mp hrun
    exact hg n hn

theorem all (h : Steers visit R E X) {walk : List Int → Int → PassM (Bool × List Int)}
    (hw : ∀ {c} seen {id}, X k c id → EndsBy R E c (walk seen id c)) (seen : List Int)
    (hids : ∀ x ∈ ids, X k c x) : EndsBy R E c (Walk.all walk seen ids c) := by
  induction ids generalizing c seen with
  | nil => exact h.refl c
  | cons id ids ih =>
    refine h.bind (hw seen (hids id (by simp))) fun (finished, seen) d _ hR => ?_
    cases finished with
    | true => exact ih seen fun x hx => h.holds hR (hids x (List.mem_cons_of_mem id hx))
    | false => exact h.refl d

theorem walk (h : Steers visit R E X) (c : Context) (id : Int) (hX : X c.forest.extent c id) :
    EndsBy R E c (walk id visit c) := by
  have steps : ∀ k {c} seen {id}, X k c id → EndsBy R E c
      (Walk.from_ (.fault .endless) (fun id => do return (← PassM.fetch id).children)
        (fun id => do visit id (← PassM.fetch id)) k seen id c) := by
    intro k
    induction k with
    | zero =>
      intro c seen id hX
      unfold Walk.from_
      split
      · exact h.refl c
      · exact h.deep hX
    | succ k ih =>
      intro c seen id hX
      unfold Walk.from_
      split
      · exact h.refl c
      · refine h.bind (h.fetch hX fun n hn => h.visits hX hn) fun act d hact hR => ?_
        obtain ⟨n, hn, hact⟩ := fetch_bind_ok.mp hact
        cases act with
        | stop | skip => exact h.refl d
        | descend =>
          refine h.bind (h.fetch (h.holds hR hX) fun m _ => h.refl d) fun ids e hids hR' => ?_
          obtain ⟨m, hm, hids⟩ := fetch_bind_ok.mp hids
          obtain ⟨rfl, rfl⟩ := pure_ok.mp hids
          exact h.all (fun seen _ hX => ih seen hX) _ (h.below hX hn hact hm)
  refine h.bind (x := get) (h.refl c) fun d e hd _ => ?_
  obtain ⟨rfl, rfl⟩ := get_ok.mp hd
  exact h.bind (steps _ [] hX) fun _ d _ _ => h.refl d

end Steers

/-- What every visit keeps, a walk keeps. -/
theorem walk_keeps {I : Context → Prop}
    (hv : ∀ {c c' : Context} {id : Int} {n : Node} {act : Walk.Action}, I c →
      c.forest.get? id = some n → visit id n c = .ok act c' → I c') (hI : I c)
    (h : walk root visit c = .ok b c') : I c' := by
  have steers : Steers visit (fun c d => I c → I d) (fun _ _ _ => True) fun _ _ _ => True := by
    refine ⟨fun _ h => h, fun h h' hI => h' (h hI), fun _ _ => trivial, fun _ _ => trivial,
      fun _ => trivial, fun _ _ => trivial, fun {_ c x n} _ hn => ?_, fun _ _ _ _ _ _ => trivial⟩
    cases hr : visit x n c with
    | ok act d => exact fun hI => hv hI hn hr
    | error e d => trivial
  have hends := steers.walk c root trivial
  rw [h] at hends
  exact hends hI

end Lowering.PassM
