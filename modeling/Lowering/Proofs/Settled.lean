import Lowering.Pipeline
import Lowering.Proofs.Budgets
import Lowering.Proofs.Coverage

namespace Lowering

/-- Nothing below a node outside lowered code is missing. -/
abbrev Forest.Whole : Forest → Int → Prop := Clear fun _ _ => True

namespace Pass

open Forest

/-- What a pass leaves of a node: no form that it replaces, and operands that it accepts. -/
def Settled : Pass → Condition
  | destruct, f, n => n.tag = .assign → n.args.length = 2 ∧
      ∀ t d, (n.arg 0).child? = some t → f.get? t = some d → d.tag ≠ .destruct
  | concat, _, n => n.tag ≠ .concat
  | range, _, n => n.tag ≠ .range
  | strings, _, n => n.tag ≠ .sexp → ∀ v ∈ n.args, v.isString = false
  | ints, _, n => n.tag ≠ .sexp → ∀ v ∈ n.args, v.isInt = false
  | operators, _, n => n.tag.isOperator = false
  | yield, _, n => n.tag ≠ .yield ∧
      (n.tag = .call → 1 ≤ n.args.length ∧ n.args.length ≤ 3 ∧ (n.arg 0).is "yield" = false)
  | lambda, _, n => n.tag.isClosure = false
  | _, _, _ => True

/-- A node settled for each of some passes. -/
def SettledBy (S : List Pass) : Condition := fun f n => ∀ p ∈ S, p.Settled f n

theorem lasting_settled (p : Pass) : Lasting p.Settled := by
  intro f f' n hd h
  cases p with
  | destruct =>
    intro ht
    obtain ⟨hlen, hno⟩ := h ht
    refine ⟨hlen, ?_⟩
    intro t d hc hg hdt
    obtain ⟨d0, hg0, hdt0⟩ := hd t d hg hdt
    exact hno t d0 hc hg0 hdt0
  | _ => exact h

theorem lasting_settledBy (S : List Pass) : Lasting (SettledBy S) :=
  fun f f' n hd h p hp => lasting_settled p f f' n hd (h p hp)

theorem settledBy_cons : SettledBy (p :: S) f n ↔ p.Settled f n ∧ SettledBy S f n := by
  simp [SettledBy]

/-- Lists and method calls are forms that no pass replaces; only their operands matter. -/
theorem settledBy_plain (ht : n.tag = .list ∨ n.tag = .callm)
    (hstr : .strings ∈ S → ∀ v ∈ n.args, v.isString = false)
    (hint : .ints ∈ S → ∀ v ∈ n.args, v.isInt = false) : SettledBy S f n := by
  intro p hp
  cases p with
  | strings => exact fun _ => hstr hp
  | ints => exact fun _ => hint hp
  | _ => rcases ht with ht | ht <;> simp [Settled, ht, Tag.isOperator, Tag.isClosure]

theorem settledBy_over (h : SettledBy S f n) (hs : n.tag ≠ .sexp)
    (ht : n'.tag = .list ∨ n'.tag = .callm)
    (hargs : ∀ v ∈ n'.args, v ∈ n.args ∨ v.isString = false ∧ v.isInt = false) :
    SettledBy S f' n' := by
  refine settledBy_plain ht (fun hS v hv => ?_) (fun hS v hv => ?_)
  · exact (hargs v hv).elim (h .strings hS hs v) (·.1)
  · exact (hargs v hv).elim (h .ints hS hs v) (·.2)

open Coverage PassM

variable {S : List Pass} {p : Pass} {visit : Int → Node → PassM Walk.Action}
variable {c c' : Context} {root id : Int} {b : Bool}

/-- A visitor that changes nothing where its pass has been, and passes lowered code by. -/
def Still (p : Pass) (visit : Int → Node → PassM Walk.Action) : Prop :=
  ∀ {c : Context} {id : Int} {n : Node}, c.shared = [] → c.forest.get? id = some n →
    Whole c.forest id → p.Settled c.forest n → ∃ act, visit id n c = .ok act c ∧ GoesOn act n

theorem still_of_descend (skips : ∀ id n, n.tag = .sexp → visit id n = pure .skip)
    (descends : ∀ {c : Context} {id : Int} {n : Node}, c.shared = [] → c.forest.get? id = some n →
      Whole c.forest id → n.tag ≠ .sexp → p.Settled c.forest n → visit id n c = .ok .descend c) :
    p.Still visit := by
  intro c id n hs hn hwhole hset
  by_cases ht : n.tag = .sexp
  · exact ⟨.skip, by rw [skips id n ht]; rfl, .inl ⟨rfl, ht⟩⟩
  · exact ⟨.descend, descends hs hn hwhole ht hset, .inr ⟨rfl, ht⟩⟩

/-- A pass that rewrites the nodes it has not settled settles everything below its root. -/
theorem walk_settles (still : p.Still visit)
    (rewrites : ∀ {d d' : Context} {seen : List Int} {id : Int} {n : Node} {act : Walk.Action},
      d.shared = [] → id ∉ seen → Clear (SettledBy S) d.forest id → d.forest.get? id = some n →
      ¬ p.Settled d.forest n → visit id n d = .ok act d' →
      Visited (SettledBy S) (SettledBy (p :: S)) d seen id act d')
    (hs : c.shared = []) (hr : Clear (SettledBy S) c.forest root)
    (h : walk root visit c = .ok b c') :
    c'.shared = [] ∧ Clear (SettledBy (p :: S)) c'.forest root := by
  have covers : Covers visit (SettledBy S) (SettledBy (p :: S)) := by
    intro d d' seen id n act hs hid hp hn hv
    by_cases hset : p.Settled d.forest n
    · obtain ⟨act', hv', hgo⟩ := still hs hn (hp.mono fun _ _ => trivial) hset
      rw [hv'] at hv
      cases hv
      exact unchanged hs hn (settledBy_cons.mpr ⟨hset, meets hp hn⟩) hgo
    · exact rewrites hs hid hp hn hset hv
  exact covers.walk (lasting_settledBy _) hs hr h

/-- What changes nothing from each of some nodes on changes nothing from one after the other. -/
theorem all_still {walk : List Int → Int → PassM (Bool × List Int)} {X : Int → Prop}
    (step : ∀ seen id, X id → c.forest.unseen seen ≤ k →
      ∃ b seen', walk seen id c = .ok (b, seen') c ∧ seen ⊆ seen')
    (hids : ∀ x ∈ ids, X x) (hk : c.forest.unseen seen ≤ k) :
    ∃ b seen', Walk.all walk seen ids c = .ok (b, seen') c ∧ seen ⊆ seen' := by
  induction ids generalizing seen with
  | nil => exact ⟨true, seen, rfl, List.Subset.refl _⟩
  | cons id ids ih =>
    obtain ⟨hid, hids⟩ := List.forall_mem_cons.mp hids
    obtain ⟨b, seen1, hrun, hkept⟩ := step seen id hid hk
    cases b with
    | false => exact ⟨false, seen1, bind_ok.mpr ⟨_, c, hrun, rfl⟩, hkept⟩
    | true =>
      obtain ⟨b, seen2, hrun', hkept'⟩ := ih hids ((unseen_antitone _ hkept).trans hk)
      exact ⟨b, seen2, bind_ok.mpr ⟨_, c, hrun, hrun'⟩, List.Subset.trans hkept hkept'⟩

theorem Still.steps (still : p.Still visit) (hs : c.shared = [])
    (hid : Clear p.Settled c.forest id) (hk : c.forest.unseen seen ≤ k) :
    ∃ b seen', steps visit k seen id c = .ok (b, seen') c ∧ seen ⊆ seen' := by
  -- no node is visited twice, so the walk goes no deeper than there are nodes it has not seen
  induction k generalizing seen id with
  | zero =>
    obtain ⟨n, hn, -⟩ := selfContained_clear _ c.forest id hid
    by_cases hm : id ∈ seen
    · refine ⟨true, seen, ?_, List.Subset.refl _⟩
      rw [Coverage.steps, Walk.from_, if_pos (by simpa using hm)]
      rfl
    · have := unseen_cons hn hm
      omega
  | succ k ih =>
    obtain ⟨n, hn, hset, hc⟩ := selfContained_clear _ c.forest id hid
    unfold Coverage.steps Walk.from_
    by_cases hm : id ∈ seen
    · exact ⟨true, seen, by rw [if_pos (by simpa using hm)]; rfl, List.Subset.refl _⟩
    · rw [if_neg (by simpa using hm)]
      have hless := unseen_cons hn hm
      obtain ⟨act, hv, ⟨rfl, -⟩ | ⟨rfl, ht⟩⟩ := still hs hn (hid.mono fun _ _ => trivial) hset
      · exact ⟨true, id :: seen, bind_ok.mpr ⟨_, c, fetch_bind_ok.mpr ⟨n, hn, hv⟩, rfl⟩,
          List.subset_cons_self id seen⟩
      · have hrest : c.forest.unseen (id :: seen) ≤ k := by omega
        obtain ⟨b, seen', hrun, hkept⟩ := all_still (X := Clear p.Settled c.forest)
          (fun _ _ hx hk => ih hx hk) (hc ht) hrest
        refine ⟨b, seen', bind_ok.mpr ⟨_, c, fetch_bind_ok.mpr ⟨n, hn, hv⟩, ?_⟩,
          List.Subset.trans (List.subset_cons_self id seen) hkept⟩
        exact bind_ok.mpr ⟨_, c, fetch_bind_ok.mpr ⟨n, hn, rfl⟩, hrun⟩

/-- Where everything is settled, the pass changes nothing. -/
theorem Still.walk (still : p.Still visit) (hs : c.shared = [])
    (hr : Clear p.Settled c.forest root) : ∃ b, walk root visit c = .ok b c := by
  obtain ⟨b, seen, hrun, -⟩ := still.steps hs hr (unseen_le_extent c.forest)
  exact ⟨b, bind_ok.mpr ⟨c, c, rfl, bind_ok.mpr ⟨_, c, hrun, rfl⟩⟩⟩

end Pass

end Lowering
