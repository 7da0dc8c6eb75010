import Lowering.Proofs.Settled

namespace Lowering.Pass.Destruct

open Forest Coverage PassM

variable {c c' : Context} {root : Int} {u : Unit}

theorem still : Pass.Still .destruct visit := by
  refine still_of_descend (fun id n ht => by rw [visit, ht]) fun {c id n} _ hn hwhole ht hset => ?_
  by_cases ha : n.tag = .assign
  · obtain ⟨hlen, hno⟩ := hset ha
    rw [visit, ha]
    refine bind_ok.mpr ⟨(), c, check_ok.mpr ⟨(Node.malformed?_assign ha).mpr hlen, rfl⟩, ?_⟩
    refine bind_ok.mpr ⟨n.arg 0, c, operandAt_ok.mpr ⟨by omega, rfl, rfl⟩, ?_⟩
    cases hc : (n.arg 0).child? with
    | none => rfl
    | some t =>
      obtain ⟨m, hm, -, hch⟩ := selfContained_clear _ c.forest id hwhole
      rw [hn] at hm
      cases hm
      have hmem : t ∈ n.children := by
        refine List.mem_filterMap.mpr ⟨n.arg 0, ?_, hc⟩
        simp [Node.arg, show 0 < n.args.length by omega]
      obtain ⟨d, hd, -⟩ := selfContained_clear _ c.forest t (hch ht t hmem)
      refine bind_ok.mpr ⟨d, c, fetch_ok.mpr ⟨hd, rfl⟩, ?_⟩
      simp only [if_neg (hno t d hc hd)]
      rfl
  · have hv : visit id n = pure .descend := by
      unfold visit
      split <;> first | contradiction | rfl
    rw [hv]
    rfl

theorem settledBy_nil : SettledBy [] f n := nofun

theorem node_fine (h : node tag pos args c = .ok v c') (ht : tag ≠ .destruct)
    (hargs : ∀ a ∈ args, Fine (SettledBy []) c.forest a) :
    Adds c c' ∧ Fine (SettledBy []) c'.forest v := by
  obtain ⟨rfl, rfl⟩ := node_ok.mp h
  exact ⟨adds_add c ht, fine_add (lasting_settledBy []) ht settledBy_nil fun _ => hargs⟩

theorem assignElement_ok (htarget : Fine (SettledBy []) c.forest target)
    (h : assignElement pos target i c = .ok v c') :
    Adds c c' ∧ Fine (SettledBy []) c'.forest v := by
  obtain ⟨position, c1, hposition, h⟩ := bind_ok.mp h
  obtain ⟨element, c2, helement, h⟩ := bind_ok.mp h
  obtain ⟨a1, position_fine⟩ := node_fine hposition (by simp) 
    (List.forall_mem_singleton.mpr (fine_atom rfl))
  obtain ⟨a2, element_fine⟩ := node_fine helement (by simp)
    (by simpa using ⟨fine_atom rfl, fine_atom rfl, position_fine⟩)
  have a := a1.trans a2
  obtain ⟨a3, hv⟩ := node_fine h (by simp)
    (by simpa using ⟨htarget.adds (lasting_settledBy []) a, element_fine⟩)
  exact ⟨a.trans a3, hv⟩

theorem assignElements_ok {l : List (Operand × Nat)}
    (hl : ∀ p ∈ l, Fine (SettledBy []) c.forest p.1)
    (h : l.mapM (fun p => assignElement pos p.1 p.2) c = .ok vs c') :
    Adds c c' ∧ ∀ v ∈ vs, Fine (SettledBy []) c'.forest v := by
  induction l generalizing c vs with
  | nil =>
    obtain ⟨rfl, rfl⟩ := pure_ok.mp h
    exact ⟨.refl _, by simp⟩
  | cons p l ih =>
    obtain ⟨v, d, vs', hv, hvs, rfl⟩ := mapM_cons_ok.mp h
    obtain ⟨hp, hl⟩ := List.forall_mem_cons.mp hl
    obtain ⟨a1, hv⟩ := assignElement_ok hp hv
    obtain ⟨a2, hvs⟩ := ih (fun q hq => (hl q hq).adds (lasting_settledBy []) a1) hvs
    exact ⟨a1.trans a2, List.forall_mem_cons.mpr ⟨hv.adds (lasting_settledBy []) a2, hvs⟩⟩

/-- The nodes of an expansion, all but the one it replaces. -/
def parts (pos : Position) (targets : List Operand) (value : Operand) :
    PassM (Operand × Operand) := do
  let first ← node .assign pos [temporary, value]
  let rest ← targets.zipIdx.mapM fun p => assignElement pos p.1 p.2
  let vars ← list pos [temporary]
  let body ← node .block pos (first :: rest)
  return (vars, body)

theorem expand_eq (id : Int) (pos : Position) (targets : List Operand) (value : Operand) :
    expand id pos targets value =
      parts pos targets value >>= fun p => reshape id .letIn [p.1, p.2] := by
  simp only [expand, parts, bind_assoc, pure_bind]

/-- What an assignment to parts is made of is fine. -/
theorem parts_ok {targets : List Operand}
    (hfine : ∀ v ∈ value :: targets, Fine (SettledBy []) c.forest v)
    (h : parts pos targets value c = .ok p c') :
    Adds c c' ∧ ∀ v ∈ [p.1, p.2], Fine (SettledBy []) c'.forest v := by
  have hP := lasting_settledBy []
  obtain ⟨first, c1, hfirst, h⟩ := bind_ok.mp h
  obtain ⟨rest, c2, hrest, h⟩ := bind_ok.mp h
  obtain ⟨vars, c3, hvars, h⟩ := bind_ok.mp h
  obtain ⟨body, hbody, rfl⟩ := bind_pure_ok.mp h
  obtain ⟨hvalue, htargets⟩ := List.forall_mem_cons.mp hfine
  obtain ⟨a1, first_fine⟩ := node_fine hfirst (by simp) (by simpa using ⟨fine_atom rfl, hvalue⟩)
  obtain ⟨a2, rest_fine⟩ := assignElements_ok
    (fun q hq => (htargets q.1 (List.fst_mem_of_mem_zipIdx hq)).adds hP a1) hrest
  obtain ⟨a3, vars_fine⟩ := node_fine hvars (by simp)
    (List.forall_mem_singleton.mpr (fine_atom rfl))
  have stmts_fine : ∀ v ∈ first :: rest, Fine (SettledBy []) c3.forest v := List.forall_mem_cons.mpr
    ⟨(first_fine.adds hP a2).adds hP a3, fun v hv => (rest_fine v hv).adds hP a3⟩
  obtain ⟨a4, body_fine⟩ := node_fine hbody (by simp) stmts_fine
  exact ⟨((a1.trans a2).trans a3).trans a4, by simpa using ⟨vars_fine.adds hP a4, body_fine⟩⟩

theorem visit_destruct {id : Int} (hset : ¬ Pass.Settled .destruct c.forest n)
    (h : visit id n c = .ok act c') : act = .descend ∧ n.tag = .assign ∧
      ∃ t d value p c1, n.args = [t, value] ∧ t.child?.bind c.forest.get? = some d ∧
        d.tag = .destruct ∧ parts n.pos d.args value c = .ok p c1 ∧
        (c1.shared = [] → c1.forest.get? id = some n →
          c' = c1.put id (n.reshape .letIn [p.1, p.2])) := by
  simp only [Settled, Classical.not_imp] at hset
  obtain ⟨ht, hset⟩ := hset
  rw [visit, ht] at h
  obtain ⟨hwell, h⟩ := check_bind_ok.mp h
  have hlen := (Node.malformed?_assign ht).mp hwell
  obtain ⟨t, value, hargs⟩ : ∃ t value, n.args = [t, value] := by
    exact List.length_eq_two.mp hlen
  simp only [hlen, true_and, not_forall] at hset
  obtain ⟨x, d, hx, hd, hdt⟩ := hset
  have hdt : d.tag = .destruct := by simpa using hdt
  obtain ⟨-, h⟩ := operandAt_bind_ok.mp h
  rw [hx] at h
  obtain ⟨d', hd', h⟩ := fetch_bind_ok.mp h
  rw [hd] at hd'
  cases hd'
  simp only [if_pos hdt] at h
  obtain ⟨-, h⟩ := check_bind_ok.mp h
  obtain ⟨-, h⟩ := operandAt_bind_ok.mp h
  obtain ⟨_, hexpand, rfl⟩ := bind_pure_ok.mp h
  rw [expand_eq] at hexpand
  obtain ⟨p, c1, hparts, hshape⟩ := bind_ok.mp hexpand
  have h0 : n.arg 0 = t := by simp [Node.arg, hargs]
  have h1 : n.arg 1 = value := by simp [Node.arg, hargs]
  rw [h0] at hx
  rw [h1] at hparts
  refine ⟨rfl, ht, t, d, value, p, c1, hargs, by rw [hx]; exact hd, hdt, hparts, ?_⟩
  exact fun hs1 hn1 => reshape_unshared hs1 hn1 hshape

/-- The pass settles its form. -/
theorem run_settles (hs : c.shared = []) (hr : Clear (SettledBy []) c.forest root)
    (h : run root c = .ok u c') :
    c'.shared = [] ∧ Clear (SettledBy [.destruct]) c'.forest root := by
  obtain ⟨b, h⟩ := discard_ok.mp h
  refine walk_settles still ?_ hs hr h
  intro d d' seen id n act hs hid hclear hn hset hv
  obtain ⟨rfl, ht, t, m, value, p, d1, hargs, htm, hmt, hparts, hd'⟩ := visit_destruct hset hv
  obtain ⟨x, hx, hm⟩ := Option.bind_eq_some_iff.mp htm
  have operand : ∀ {v}, v ∈ n.args → Fine (SettledBy []) d.forest v :=
    fine_operand hclear hn (by simp [ht])
  have hfine : ∀ v ∈ value :: m.args, Fine (SettledBy []) d.forest v :=
    List.forall_mem_cons.mpr ⟨operand (by simp [hargs]), fun v hv =>
      fine_operand (operand (v := t) (by simp [hargs]) x hx) hm (by simp [hmt]) hv⟩
  obtain ⟨adds, hparts_fine⟩ := parts_ok hfine hparts
  obtain rfl := hd' (adds.shared.trans hs) (adds.grows id n hn)
  exact rewritten (lasting_settledBy []) hs hid hn adds (by simp [Node.reshape])
    (by simp [Node.reshape]) settledBy_nil (by simp [SettledBy, Settled, Node.reshape]) hparts_fine

end Lowering.Pass.Destruct
