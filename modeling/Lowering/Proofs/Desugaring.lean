import Lowering.Proofs.Settled

namespace Lowering.Pass

open Forest Coverage PassM

variable {S : List Pass} {c c' : Context} {root : Int} {u : Unit}

/-- An operand for a node that is to take the place of `n`: fine, and a constant only if `n` has
it. -/
def SuitsNode (S : List Pass) (n : Node) (f : Forest) (v : Operand) : Prop :=
  Fine (SettledBy S) f v ∧ (v ∈ n.args ∨ v.isString = false ∧ v.isInt = false)

theorem SuitsNode.adds (h : SuitsNode S n c.forest v) (ha : Adds c c') :
    SuitsNode S n c'.forest v :=
  ⟨h.1.adds (lasting_settledBy S) ha, h.2⟩

theorem suitsNode_sym (name : Text) : SuitsNode S n f (.sym name) :=
  ⟨fine_atom rfl, .inr ⟨rfl, rfl⟩⟩

theorem node_suitsNode (hset : SettledBy S f n) (hs : n.tag ≠ .sexp)
    (ht : tag = .list ∨ tag = .callm)
    (hargs : ∀ a ∈ args, SuitsNode S n c.forest a) (h : node tag pos args c = .ok v c') :
    Adds c c' ∧ SuitsNode S n c'.forest v := by
  obtain ⟨rfl, rfl⟩ := node_ok.mp h
  have hd : tag ≠ .destruct := by rcases ht with rfl | rfl <;> simp
  refine ⟨adds_add c hd, fine_add (lasting_settledBy S) hd ?_ fun _ v hv => (hargs v hv).1,
    .inr ⟨rfl, rfl⟩⟩
  exact settledBy_over hset hs ht fun v hv => (hargs v hv).2

/-- A visit to a form. -/
structure AtForm (S : List Pass) (c : Context) (seen : List Int) (id : Int) (n : Node) : Prop where
  unshared : c.shared = []
  fresh : id ∉ seen
  clear : Clear (SettledBy S) c.forest id
  found : c.forest.get? id = some n
  form : n.tag ≠ .sexp

namespace AtForm

variable {d d' : Context} {seen : List Int} {id : Int} {n : Node}

theorem operand (h : AtForm S d seen id n) (hv : v ∈ n.args) : SuitsNode S n d.forest v :=
  ⟨fine_operand h.clear h.found h.form hv, .inl hv⟩

theorem list (h : AtForm S d seen id n) (hargs : ∀ a ∈ args, a ∈ n.args)
    (hlist : PassM.list pos args d = .ok v d') : Adds d d' ∧ SuitsNode S n d'.forest v :=
  node_suitsNode (meets h.clear h.found) h.form (.inl rfl)
    (fun a ha => h.operand (hargs a ha)) hlist

theorem reshape (h : AtForm S d seen id n) (ha : Adds d d1)
    (hshape : PassM.reshape id tag args d1 = .ok u d') : d' = d1.put id (n.reshape tag args) :=
  reshape_unshared (ha.shared.trans h.unshared) (ha.grows id n h.found) hshape

end AtForm

/-- A pass settles a form if it makes a method call of it, over its operands and nodes that have
been added. -/
theorem calls_settle (hp : p ∈ [.concat, .range, .operators, .yield]) (still : p.Still visit)
    (form : ∀ {f n}, ¬ p.Settled f n → n.tag ≠ .sexp)
    (becomes : ∀ {d d' seen id n act}, AtForm S d seen id n → ¬ p.Settled d.forest n →
      visit id n d = .ok act d' → act = .descend ∧ ∃ d1 m, Adds d d1 ∧ d' = d1.put id m ∧
        m.tag = .callm ∧ ∀ v ∈ m.args, SuitsNode S n d1.forest v)
    (hs : c.shared = []) (hr : Clear (SettledBy S) c.forest root)
    (h : discard (walk root visit) c = .ok u c') :
    c'.shared = [] ∧ Clear (SettledBy (p :: S)) c'.forest root := by
  obtain ⟨b, h⟩ := discard_ok.mp h
  refine walk_settles still ?_ hs hr h
  intro d d' seen id n act hs hid hclear hn hset hv
  have hat : AtForm S d seen id n := ⟨hs, hid, hclear, hn, form hset⟩
  obtain ⟨rfl, d1, m, ha, rfl, ht, hargs⟩ := becomes hat hset hv
  have hP : ∀ f, SettledBy S f m :=
    fun f => settledBy_over (meets hclear hn) hat.form (.inr ht) fun v hv => (hargs v hv).2
  have hQ : ∀ f, p.Settled f m := by
    intro f
    simp only [List.mem_cons, List.not_mem_nil, or_false] at hp
    rcases hp with rfl | rfl | rfl | rfl <;> simp [Settled, Tag.isOperator, ht]
  exact rewritten (lasting_settledBy S) hs hid hn ha (by simp [ht]) (by simp [ht]) (hP _)
    (settledBy_cons.mpr ⟨hQ _, hP _⟩) fun v hv => (hargs v hv).1

namespace Concat

/-- A chain over fitting parts is a method call over fitting operands. -/
theorem chain_ok (hset : SettledBy S f n) (hs : n.tag ≠ .sexp)
    (hparts : ∀ part ∈ last :: earlier, SuitsNode S n c.forest part)
    (h : chain pos last earlier c = .ok v c') : Adds c c' ∧ SuitsNode S n c'.forest v ∧
      ∃ m, v.child?.bind c'.forest.get? = some m ∧ m.tag = .callm ∧
        ∀ a ∈ m.args, SuitsNode S n c'.forest a := by
  have call : ∀ {c d v args}, (∀ a ∈ args, SuitsNode S n c.forest a) →
      node .callm pos args c = .ok v d → Adds c d ∧ SuitsNode S n d.forest v ∧
        ∃ m, v.child?.bind d.forest.get? = some m ∧ m.tag = .callm ∧
          ∀ a ∈ m.args, SuitsNode S n d.forest a := by
    intro c d v args hargs h
    obtain ⟨adds, hv⟩ := node_suitsNode hset hs (.inr rfl) hargs h
    obtain ⟨rfl, rfl⟩ := node_ok.mp h
    exact ⟨adds, hv, { tag := .callm, args, pos }, get?_push_self _ _, rfl,
      fun a ha => (hargs a ha).adds adds⟩
  induction earlier generalizing last v c c' with
  | nil => exact call (by simpa using ⟨hparts last (by simp), suitsNode_sym _⟩) h
  | cons before earlier ih =>
    obtain ⟨right, c1, hright, h⟩ := bind_ok.mp h
    obtain ⟨left, c2, hleft, h⟩ := bind_ok.mp h
    obtain ⟨args, c3, hlist, h⟩ := bind_ok.mp h
    obtain ⟨a1, right_fits⟩ := node_suitsNode hset hs (.inr rfl)
      (by simpa using ⟨hparts last (by simp), suitsNode_sym _⟩) hright
    obtain ⟨a2, left_fits, -⟩ := ih
      (fun a ha => (hparts a (List.mem_cons_of_mem _ ha)).adds a1) hleft
    obtain ⟨a3, args_fits⟩ := node_suitsNode hset hs (.inl rfl)
      (by simpa using right_fits.adds a2) hlist
    obtain ⟨a4, hv⟩ := call (by simpa using ⟨left_fits.adds a3, suitsNode_sym _, args_fits⟩) h
    exact ⟨((a1.trans a2).trans a3).trans a4, hv⟩

theorem still : Pass.Still .concat visit := by
  refine still_of_descend (fun id n ht => by rw [visit, ht]) fun {_ id n} _ _ _ ht hset => ?_
  have hv : visit id n = pure .descend := by
    unfold visit
    split <;> first | contradiction | rfl
  rw [hv]
  rfl

/-- The pass settles its form and keeps what is settled. -/
theorem run_settles (hs : c.shared = []) (hr : Clear (SettledBy S) c.forest root)
    (h : run root c = .ok u c') :
    c'.shared = [] ∧ Clear (SettledBy (.concat :: S)) c'.forest root := by
  refine calls_settle (by simp) still (fun hset => ?_)
    (fun {d _ _ id n _} hat hset hv => ?_) hs hr h
  · simp_all [Settled]
  have ht : n.tag = .concat := by simpa [Settled] using hset
  rw [visit, ht] at hv
  obtain ⟨-, hv⟩ := check_bind_ok.mp hv
  cases hargs : n.args.reverse with
  | nil =>
    rw [hargs] at hv
    exact absurd hv throw_ok
  | cons last earlier =>
    rw [hargs] at hv
    obtain ⟨top, d1, hchain, hv⟩ := bind_ok.mp hv
    obtain ⟨_, hreplace, rfl⟩ := bind_pure_ok.mp hv
    have hparts : ∀ part ∈ last :: earlier, SuitsNode S n d.forest part := by
      intro part hm
      rw [← hargs, List.mem_reverse] at hm
      exact hat.operand hm
    obtain ⟨adds, -, m, hm, htag, hfit⟩ :=
      chain_ok (meets hat.clear hat.found) hat.form hparts hchain
    obtain ⟨x, hx, hm⟩ := Option.bind_eq_some_iff.mp hm
    obtain ⟨o, m', ho, hm', rfl⟩ := replace_ok.mp hreplace
    rw [Operand.target_of_child? hx] at hm'
    obtain rfl := Option.mem_unique hm hm'
    have hunshared : d1.shared = [] := adds.shared.trans hat.unshared
    exact ⟨rfl, d1, _, adds, Context.detach_of_unshared (c := d1.put id _) hunshared id, htag, hfit⟩

end Concat

namespace Range

theorem still : Pass.Still .range visit := by
  refine still_of_descend (fun id n ht => by rw [visit, ht]) fun {_ id n} _ _ _ ht hset => ?_
  have hv : visit id n = pure .descend := by
    unfold visit
    split <;> first | contradiction | rfl
  rw [hv]
  rfl

theorem run_settles (hs : c.shared = []) (hr : Clear (SettledBy S) c.forest root)
    (h : run root c = .ok u c') :
    c'.shared = [] ∧ Clear (SettledBy (.range :: S)) c'.forest root := by
  refine calls_settle (by simp) still (fun hset => ?_) (fun {_ _ _ _ n _} hat hset hv => ?_) hs hr h
  · simp_all [Settled]
  have ht : n.tag = .range := by simpa [Settled] using hset
  rw [visit, ht] at hv
  obtain ⟨-, hv⟩ := check_bind_ok.mp hv
  obtain ⟨bounds, d1, hmove, hv⟩ := bind_ok.mp hv
  obtain ⟨_, hshape, rfl⟩ := bind_pure_ok.mp hv
  obtain ⟨adds, bounds_fit⟩ := hat.list (fun _ h => h)
    (list_ok.mpr ((moveArgs_unshared hat.unshared).mp hmove))
  exact ⟨rfl, d1, _, adds, hat.reshape adds hshape, rfl,
    by simpa [Node.reshape] using ⟨suitsNode_sym _, suitsNode_sym _, bounds_fit⟩⟩

end Range

namespace Operators

theorem still : Pass.Still .operators visit := by
  refine still_of_descend (fun id n ht => by rw [visit, ht]) fun {_ id n} _ _ _ ht hset => ?_
  have hv : visit id n = pure .descend := by
    unfold visit
    split <;> simp_all [Settled, Tag.isOperator]
  rw [hv]
  rfl

theorem run_settles (hs : c.shared = []) (hr : Clear (SettledBy S) c.forest root)
    (h : run root c = .ok u c') :
    c'.shared = [] ∧ Clear (SettledBy (.operators :: S)) c'.forest root := by
  refine calls_settle (by simp) still (fun {_ n} hset => ?_) (fun {d _ _ _ n _} hat hset hv => ?_)
    hs hr h
  · rintro ht
    simp [Settled, ht, Tag.isOperator] at hset
  obtain ⟨o, ht⟩ : ∃ o, n.tag = .op o := by
    cases hn : n.tag <;> simp_all [Settled, Tag.isOperator]
  rw [visit, ht] at hv
  obtain ⟨hwell, hv⟩ := check_bind_ok.mp hv
  obtain ⟨left, hargs⟩ | ⟨left, right, hargs⟩ := Node.args_operator ht hwell
  · rw [hargs] at hv
    obtain ⟨-, hv⟩ := operandAt_bind_ok.mp hv
    obtain ⟨_, hshape, rfl⟩ := bind_pure_ok.mp hv
    have hleft : n.arg 0 = left := by simp [Node.arg, hargs]
    exact ⟨rfl, d, _, .refl _, hat.reshape (.refl _) hshape, rfl,
      by simpa [Node.reshape, hleft] using ⟨hat.operand (by simp [hargs]), suitsNode_sym _⟩⟩
  · rw [hargs] at hv
    obtain ⟨_, d1, hlist, hv⟩ := bind_ok.mp hv
    obtain ⟨_, hshape, rfl⟩ := bind_pure_ok.mp hv
    obtain ⟨adds, args_fit⟩ := hat.list (by simp [hargs]) hlist
    have left_fits := (hat.operand (v := left) (by simp [hargs])).adds adds
    exact ⟨rfl, d1, _, adds, hat.reshape adds hshape, rfl,
      by simpa [Node.reshape] using ⟨left_fits, suitsNode_sym _, args_fit⟩⟩

end Operators

namespace Yield

theorem still : Pass.Still .yield visit := by
  refine still_of_descend (fun id n ht => by rw [visit, ht]) fun {c id n} _ _ _ ht hset => ?_
  by_cases hc : n.tag = .call
  · obtain ⟨hlo, hhi, hy⟩ := hset.2 hc
    have hwell := (Node.malformed?_call hc).mpr ⟨hlo, hhi⟩
    rw [visit, hc]
    refine bind_ok.mpr ⟨(), c, check_ok.mpr ⟨hwell, rfl⟩, ?_⟩
    refine bind_ok.mpr ⟨n.arg 0, c, operandAt_ok.mpr ⟨by omega, rfl, rfl⟩, ?_⟩
    simp only [hy]
    rfl
  · have hv : visit id n = pure .descend := by
      unfold visit
      split <;> simp_all [Settled]
    rw [hv]
    rfl

theorem run_settles (hs : c.shared = []) (hr : Clear (SettledBy S) c.forest root)
    (h : run root c = .ok u c') :
    c'.shared = [] ∧ Clear (SettledBy (.yield :: S)) c'.forest root := by
  have form : ∀ {f n}, ¬ Pass.Settled .yield f n → n.tag = .yield ∨ n.tag = .call := by
    intro f n hset
    by_contra hno
    exact hset ⟨fun h => hno (.inl h), fun h => absurd (.inr h) hno⟩
  refine calls_settle (by simp) still (fun hset => ?_) (fun {d _ _ _ n _} hat hset hv => ?_) hs hr h
  · rcases form hset with ht | ht <;> simp [ht]
  rcases form hset with ht | ht
  · rw [visit, ht] at hv
    by_cases he : n.args.isEmpty = true
    · simp only [if_pos he, pure_bind] at hv
      obtain ⟨_, hshape, rfl⟩ := bind_pure_ok.mp hv
      exact ⟨rfl, d, _, .refl _, hat.reshape (.refl _) hshape, rfl,
        by simpa [Node.reshape] using ⟨suitsNode_sym _, suitsNode_sym _⟩⟩
    · simp only [if_neg he, pure_bind] at hv
      obtain ⟨_, d1, hmove, hv⟩ := bind_ok.mp hv
      obtain ⟨_, hshape, rfl⟩ := bind_pure_ok.mp hv
      obtain ⟨adds, args_fit⟩ := hat.list (fun _ h => h)
        (list_ok.mpr ((moveArgs_unshared hat.unshared).mp hmove))
      exact ⟨rfl, d1, _, adds, hat.reshape adds hshape, rfl,
        by simpa [Node.reshape] using ⟨suitsNode_sym _, suitsNode_sym _, args_fit⟩⟩
  · rw [visit, ht] at hv
    obtain ⟨hwell, hv⟩ := check_bind_ok.mp hv
    obtain ⟨-, hv⟩ := operandAt_bind_ok.mp hv
    by_cases hy : (n.arg 0).is "yield" = true
    · simp only [if_pos hy] at hv
      obtain ⟨_, hshape, rfl⟩ := bind_pure_ok.mp hv
      refine ⟨rfl, d, _, .refl _, hat.reshape (.refl _) hshape, rfl,
        List.forall_mem_append.mpr ⟨?_, fun v hv => hat.operand (List.mem_of_mem_drop hv)⟩⟩
      simpa using ⟨suitsNode_sym _, suitsNode_sym _⟩
    · -- a call that is none of `yield` has been settled before
      have hlen := (Node.malformed?_call ht).mp hwell
      exact absurd ⟨by simp [ht], fun _ => ⟨hlen.1, hlen.2, by simpa using hy⟩⟩ hset

end Yield

end Lowering.Pass
