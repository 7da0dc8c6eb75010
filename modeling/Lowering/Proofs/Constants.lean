import Lowering.Proofs.Settled

namespace Lowering.Pass.Hoist

open Forest Coverage PassM

variable {S : List Pass} {c c' : Context} {root : Int} {u : Unit} {family : Family}

/-- The pass that takes the constants of a family out of the tree. -/
def Family.pass : Family → Pass
  | strings => .strings
  | ints => .ints

theorem Family.constant?_eq_none : family.constant? v = none ↔
    match family with
    | strings => v.isString = false
    | ints => v.isInt = false := by
  cases family with
  | strings =>
    cases h : v.isString with
    | false =>
      have hno : ∀ text, v.view ≠ .atom (.str text) := fun text he => by
        simp [(Operand.view_eq_str.mp he).1] at h
      unfold constant?
      split <;> simp_all
    | true =>
      have hv : v.view = .atom (.str v.text) := Operand.view_eq_str.mpr ⟨h, rfl⟩
      simp [constant?, hv]
  | ints =>
    cases h : v.isInt with
    | false =>
      have hno : ∀ value, v.view ≠ .atom (.int value) := fun value he => by
        simp [(Operand.view_eq_int.mp he).1] at h
      unfold constant?
      split <;> simp_all
    | true =>
      have hv : v.view = .atom (.int v.number) := Operand.view_eq_int.mpr ⟨h, rfl⟩
      simp [constant?, hv]

/-- A node is settled if none of its operands is a constant. -/
theorem settled_iff : family.pass.Settled f n ↔
    (n.tag ≠ .sexp → ∀ v ∈ n.args, family.constant? v = none) := by
  cases family <;> simp [Family.pass, Settled, Family.constant?_eq_none]

/-- What stands for an operand afterwards: itself, or a node that fetches it. -/
def Fetched (family : Family) (f : Forest) (v w : Operand) : Prop :=
  family.constant? v = none ∧ w = v ∨
    ∃ x m, w = .ref x ∧ f.get? x = some m ∧ (m.tag = .sexp ∨ m.tag = .list)

theorem Fetched.grows (h : Fetched family f v w) (hg : Grows f f') : Fetched family f' v w :=
  h.imp_right fun ⟨x, m, hw, hm, ht⟩ => ⟨x, m, hw, hg x m hm, ht⟩

theorem operand_still (h : family.constant? v = none) : operand family n v i = pure v := by
  unfold operand
  rw [h]

theorem operands_still {n : Node} {l : List (Operand × Nat)}
    (h : ∀ p ∈ l, family.constant? p.1 = none) :
    (l.mapM fun p => operand family n p.1 p.2) = (pure (l.map (·.1)) : PassM _) := by
  induction l with
  | nil => rfl
  | cons p l ih =>
    rw [List.mapM_cons, operand_still (h p (by simp)),
      ih fun q hq => h q (List.mem_cons_of_mem p hq)]
    simp

theorem visit_open {id : Int} (ht : n.tag ≠ .sexp) : visit family id n = do
    let args ← n.args.zipIdx.mapM fun p => operand family n p.1 p.2
    setArgs id args
    return .descend := by
  unfold visit
  split
  · contradiction
  · rfl

/-- Where there are no constants the visit changes nothing. -/
theorem still (family : Family) : Pass.Still family.pass (visit family) := by
  refine still_of_descend (fun id n ht => by rw [visit, ht]) fun {c id n} hs hn _ ht hset => ?_
  have hargs : (n.args.zipIdx.mapM fun p => operand family n p.1 p.2) =
      (pure n.args : PassM _) := by
    rw [operands_still fun p hp => settled_iff.mp hset ht p.1 (List.fst_mem_of_mem_zipIdx hp),
      List.zipIdx_map_fst]
  have hput : c.put id n = c := by rw [Context.put, set_self hn]
  rw [visit_open ht, hargs]
  simp only [pure_bind]
  exact bind_ok.mpr ⟨(), c, (setArgs_ok hs).mpr ⟨n, hn, hput.symm⟩, rfl⟩

/-- A constant gives way to a call that fetches it, which may get a list around it. -/
theorem operand_cases (h : operand family n v i c = .ok w c') :
    family.constant? v = none ∧ w = v ∧ c' = c ∨ family.constant? v ≠ none ∧
      ∃ label c1 fetched c2, c1.forest = c.forest ∧ c1.shared = c.shared ∧
        sexpCall n.pos family.fetcher [.sym label] c1 = .ok fetched c2 ∧
        (w = fetched ∧ c' = c2 ∨ list n.pos [fetched] c2 = .ok w c') := by
  cases hc : family.constant? v with
  | none =>
    rw [operand_still hc] at h
    obtain ⟨rfl, rfl⟩ := pure_ok.mp h
    exact .inl ⟨rfl, rfl, rfl⟩
  | some value =>
    unfold operand at h
    rw [hc] at h
    obtain ⟨label, c1, hintern, h⟩ := bind_ok.mp h
    obtain ⟨fetched, c2, hfetch, h⟩ := bind_ok.mp h
    obtain ⟨hf, hs⟩ := intern_ok hintern
    refine .inr ⟨by simp, label, c1, fetched, c2, hf, hs, hfetch, ?_⟩
    split at h
    · exact .inr h
    · obtain ⟨rfl, rfl⟩ := pure_ok.mp h
      exact .inl ⟨rfl, rfl⟩

theorem operand_adds (h : operand family n v i c = .ok w c') : Adds c c' := by
  obtain ⟨-, -, rfl⟩ | ⟨-, label, c1, fetched, c2, hf, hs, hfetch, hlist⟩ := operand_cases h
  · exact .refl _
  · have hcall : Adds c c2 := by
      obtain ⟨-, rfl⟩ := sexpCall_ok.mp hfetch
      exact ((adds_of_eq hf hs).trans (adds_add _ (by simp))).trans (adds_add _ (by simp))
    obtain ⟨-, rfl⟩ | hlist := hlist
    · exact hcall
    · obtain ⟨-, rfl⟩ := list_ok.mp hlist
      exact hcall.trans (adds_add _ (by simp))

theorem operands_adds {l : List (Operand × Nat)}
    (h : l.mapM (fun p => operand family n p.1 p.2) c = .ok ws c') : Adds c c' := by
  induction l generalizing c ws with
  | nil =>
    obtain ⟨-, rfl⟩ := pure_ok.mp h
    exact .refl _
  | cons p l ih =>
    obtain ⟨w, d, ws', hw, hws, rfl⟩ := mapM_cons_ok.mp h
    exact (operand_adds hw).trans (ih hws)

theorem operand_ok (hfine : Fine (SettledBy S) c.forest v)
    (h : operand family n v i c = .ok w c') :
    Fetched family c'.forest v w ∧ Fine (SettledBy S) c'.forest w := by
  obtain ⟨hc, rfl, rfl⟩ | ⟨-, label, c1, fetched, c2, -, -, hfetch, hlist⟩ := operand_cases h
  · exact ⟨.inl ⟨hc, rfl⟩, hfine⟩
  obtain ⟨call, d, hcall, hsexp⟩ := bind_ok.mp hfetch
  obtain ⟨rfl, rfl⟩ := node_ok.mp hsexp
  have fetched_fine := fine_add (lasting_settledBy S) (c := d)
    (n := { tag := .sexp, args := [call], pos := n.pos }) (by simp)
    (fun p _ => by cases p <;> simp [Settled, Tag.isOperator, Tag.isClosure]) (by simp)
  obtain ⟨rfl, rfl⟩ | hlist := hlist
  · exact ⟨.inr ⟨_, _, rfl, get?_push_self _ _, .inl rfl⟩, fetched_fine⟩
  · obtain ⟨rfl, rfl⟩ := list_ok.mp hlist
    refine ⟨.inr ⟨_, _, rfl, get?_push_self _ _, .inr rfl⟩, ?_⟩
    refine fine_add (lasting_settledBy S) (by simp) ?_ fun _ => by simpa using fetched_fine
    apply settledBy_plain (.inl rfl) <;> simp [Operand.isString, Operand.isInt, Operand.ref]

theorem operands_ok {l : List (Operand × Nat)}
    (hfine : ∀ p ∈ l, Fine (SettledBy S) c.forest p.1)
    (h : l.mapM (fun p => operand family n p.1 p.2) c = .ok ws c') :
    List.Forall₂ (fun p w => Fetched family c'.forest p.1 w ∧
      Fine (SettledBy S) c'.forest w) l ws := by
  induction l generalizing c ws with
  | nil =>
    obtain ⟨rfl, -⟩ := pure_ok.mp h
    exact .nil
  | cons p l ih =>
    obtain ⟨w, d, ws', hw, hws, rfl⟩ := mapM_cons_ok.mp h
    obtain ⟨hp, hl⟩ := List.forall_mem_cons.mp hfine
    obtain ⟨hfetch, hf⟩ := operand_ok hp hw
    have hall := ih (fun q hq => (hl q hq).adds (lasting_settledBy S) (operand_adds hw)) hws
    have adds := operands_adds hws
    exact .cons ⟨hfetch.grows adds.grows, hf.adds (lasting_settledBy S) adds⟩ hall

/-- A settled node stays settled when its constants are fetched, and is settled for the family. -/
theorem settled_fetched (hset : SettledBy S f n) (hs : n.tag ≠ .sexp) (hd : NoNewDestruct f f')
    (h : List.Forall₂ (Fetched family f') n.args ws) :
    SettledBy (family.pass :: S) f' { n with args := ws } := by
  have hlen : n.args.length = ws.length := h.length_eq
  have operand : ∀ w ∈ ws, ∃ v ∈ n.args, Fetched family f' v w := fun w hw => by
    obtain ⟨i, hi, rfl⟩ := List.getElem_of_mem hw
    exact ⟨n.args[i], List.getElem_mem _, h.get (by omega) hi⟩
  have constant : ∀ {isConstant : Operand → Bool}, (∀ x, isConstant (.ref x) = false) →
      (∀ v ∈ n.args, isConstant v = false) → ∀ w ∈ ws, isConstant w = false := by
    intro isConstant href hargs w hw
    obtain ⟨v, hv, ⟨-, rfl⟩ | ⟨x, _, rfl, -⟩⟩ := operand w hw
    · exact hargs _ hv
    · exact href x
  have first : 0 < n.args.length → Fetched family f' (n.arg 0) ({ n with args := ws }.arg 0) := by
    intro hpos
    have hpos' : 0 < ws.length := by omega
    simpa [Node.arg, hpos, hpos'] using h.get hpos hpos'
  rw [settledBy_cons, settled_iff]
  constructor
  · intro _ w hw
    obtain ⟨v, -, ⟨hc, rfl⟩ | ⟨x, _, rfl, -⟩⟩ := operand w hw
    · exact hc
    · cases family <;> rfl
  · intro p hp
    cases p with
    | destruct =>
      intro ht
      obtain ⟨hargs, hno⟩ := lasting_settled .destruct f f' n hd (hset _ hp) ht
      refine ⟨hlen ▸ hargs, fun t d hc hg => ?_⟩
      rcases first (by omega) with ⟨-, he⟩ | ⟨x, m, he, hm, htag⟩
      · exact hno t d (he ▸ hc) hg
      · rw [he, Operand.child?_ref] at hc
        cases hc
        rw [hg] at hm
        cases hm
        rcases htag with htag | htag <;> simp [htag]
    | yield =>
      refine ⟨(hset _ hp).1, fun ht => ?_⟩
      obtain ⟨hlo, hhi, hy⟩ := (hset _ hp).2 ht
      refine ⟨hlen ▸ hlo, hlen ▸ hhi, ?_⟩
      rcases first (by omega) with ⟨-, he⟩ | ⟨x, m, he, -⟩
      · rw [he, hy]
      · rw [he]
        rfl
    | strings => exact fun _ => constant (fun _ => rfl) (hset _ hp hs)
    | ints => exact fun _ => constant (fun _ => rfl) (hset _ hp hs)
    | _ => exact hset _ hp

/-- The pass settles its constants and keeps what is settled. -/
theorem run_settles (hs : c.shared = []) (hr : Clear (SettledBy S) c.forest root)
    (h : run family root c = .ok u c') :
    c'.shared = [] ∧ Clear (SettledBy (family.pass :: S)) c'.forest root := by
  obtain ⟨b, h⟩ := discard_ok.mp h
  refine walk_settles (still family) ?_ hs hr h
  intro d d' seen id n act hs hid hp hn hset hv
  have hsexp : n.tag ≠ .sexp := fun ht => hset (settled_iff.mpr fun h => absurd ht h)
  rw [visit_open hsexp] at hv
  obtain ⟨ws, d1, hargs, hv⟩ := bind_ok.mp hv
  obtain ⟨_, hset, rfl⟩ := bind_pure_ok.mp hv
  have adds := operands_adds hargs
  have hall := operands_ok
    (fun p hp' => fine_operand hp hn hsexp (List.fst_mem_of_mem_zipIdx hp')) hargs
  obtain ⟨m, hm, rfl⟩ := (setArgs_ok (adds.shared.trans hs)).mp hset
  obtain rfl := Option.mem_unique (adds.grows id n hn) hm
  have hfetched : List.Forall₂ (Fetched family d1.forest) n.args ws := by
    rw [← List.zipIdx_map_fst 0 n.args, List.forall₂_map_left_iff]
    exact hall.imp fun _ _ h => h.1
  have hset' : SettledBy (family.pass :: S) (d1.put id { n with args := ws }).forest
      { n with args := ws } :=
    lasting_settledBy _ _ _ _ (noNewDestruct_set hm fun h => h)
      (settled_fetched (meets hp hn) hsexp adds.noDestruct hfetched)
  refine rewritten (lasting_settledBy S) hs hid hn adds (fun h => h) hsexp
    (settledBy_cons.mp hset').2 hset' fun w hw => ?_
  obtain ⟨i, hi, rfl⟩ := List.getElem_of_mem hw
  exact (hall.get (hall.length_eq ▸ hi) hi).2

end Lowering.Pass.Hoist
