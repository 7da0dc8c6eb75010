import Lowering.Proofs.ClassesLand
import Lowering.Proofs.Desugaring
import Lowering.Proofs.MultipleAssignment

namespace Lowering

open Forest PassM

theorem Coverage.root_exists (h : walk root visit c = .ok b c') :
    ∃ n, c.forest.get? root = some n := by
  unfold PassM.walk Walk.run at h
  have h := get_bind_ok.mp h
  obtain ⟨r, c1, h, -⟩ := bind_ok.mp h
  obtain ⟨k, hk⟩ : ∃ k, c.forest.extent = k + 1 := ⟨c.forest.extent - 1, by rw [extent_eq]; omega⟩
  rw [hk] at h
  unfold Walk.from_ at h
  simp only [List.contains_nil, Bool.false_eq_true] at h
  obtain ⟨act, c2, hact, -⟩ := bind_ok.mp h
  obtain ⟨n, _, hf, -⟩ := bind_ok.mp hact
  exact ⟨n, (fetch_ok.mp hf).1⟩

theorem Forest.Valid.whole (hf : f.Valid) {id : Int} (hn : f.get? id = some n) : Whole f id :=
  ⟨fun x => ∃ m, f.get? x = some m,
    fun x ⟨m, hm⟩ => ⟨m, hm, trivial, fun _ child hc => hf x m hm child hc⟩, n, hn⟩

namespace Pass

variable {p : Pass} {S : List Pass} {c c' : Context} {root : Int} {u : Unit}

/-- Each normalizing pass is a walk with a visitor that leaves settled nodes alone. -/
theorem run_eq_walk (hp : p ∈ normalizing) :
    ∃ visit, p.Still visit ∧ ∀ root, p.run root = discard (walk root visit) := by
  simp only [normalizing, List.mem_cons, List.not_mem_nil, or_false] at hp
  rcases hp with rfl | rfl | rfl | rfl | rfl | rfl | rfl
  · exact ⟨_, Destruct.still, fun _ => rfl⟩
  · exact ⟨_, Concat.still, fun _ => rfl⟩
  · exact ⟨_, Range.still, fun _ => rfl⟩
  · exact ⟨_, Hoist.still .strings, fun _ => rfl⟩
  · exact ⟨_, Hoist.still .ints, fun _ => rfl⟩
  · exact ⟨_, Operators.still, fun _ => rfl⟩
  · exact ⟨_, Yield.still, fun _ => rfl⟩

theorem run_still (hp : p ∈ normalizing) (hs : c.shared = [])
    (hr : Clear p.Settled c.forest root) : p.run root c = .ok () c := by
  obtain ⟨visit, still, hrun⟩ := run_eq_walk hp
  rw [hrun]
  exact discard_ok.mpr (still.walk hs hr)

theorem whole_of_run (hp : p ∈ normalizing) (hv : c.forest.Valid)
    (h : p.run root c = .ok u c') : Whole c.forest root := by
  obtain ⟨visit, -, hrun⟩ := run_eq_walk hp
  rw [hrun] at h
  obtain ⟨b, h⟩ := discard_ok.mp h
  obtain ⟨n, hn⟩ := Coverage.root_exists h
  exact hv.whole hn

/-- The normalizing passes after the first one settle their own and keep what is settled. -/
theorem run_settles (hp : p ∈ normalizing.drop 1) (hs : c.shared = [])
    (hr : Clear (SettledBy S) c.forest root) (h : p.run root c = .ok u c') :
    c'.shared = [] ∧ Clear (SettledBy (p :: S)) c'.forest root := by
  simp only [normalizing, List.drop_succ_cons, List.drop_zero, List.mem_cons, List.not_mem_nil,
    or_false] at hp
  rcases hp with rfl | rfl | rfl | rfl | rfl | rfl
  · exact Concat.run_settles hs hr h
  · exact Range.run_settles hs hr h
  · exact Hoist.run_settles hs hr h
  · exact Hoist.run_settles hs hr h
  · exact Operators.run_settles hs hr h
  · exact Yield.run_settles hs hr h

end Pass

namespace Pipeline

variable {c c' : Context} {root : Int} {u : Unit}

theorem runPass_ok : runPass root p c = .ok u c' ↔ p.run root c = .ok u c' := by
  unfold runPass
  cases p.run root c <;> simp

theorem forM_settles {l S : List Pass} (hl : ∀ p ∈ l, p ∈ Pass.normalizing.drop 1)
    (hs : c.shared = []) (hr : Clear (Pass.SettledBy S) c.forest root)
    (h : l.forM (runPass root) c = .ok u c') :
    c'.shared = [] ∧ Clear (Pass.SettledBy (l.reverse ++ S)) c'.forest root := by
  induction l generalizing c S with
  | nil =>
    obtain ⟨-, rfl⟩ := pure_ok.mp h
    exact ⟨hs, hr⟩
  | cons p l ih =>
    obtain ⟨d, hp, h⟩ := forM_cons_ok.mp h
    obtain ⟨hs', hr'⟩ := Pass.run_settles (hl p (by simp)) hs hr (runPass_ok.mp hp)
    rw [List.reverse_cons, List.append_assoc]
    exact ih (fun q hq => hl q (List.mem_cons_of_mem p hq)) hs' hr' h

/-- Any choice of normalizing passes settles everything for each of them. -/
theorem normalizing_settles {q : Pass → Bool} (hc : c.Tidy)
    (h : (Pass.normalizing.filter q).forM (runPass root) c = .ok u c') :
    c'.shared = [] ∧ ∀ p ∈ Pass.normalizing.filter q, Clear p.Settled c'.forest root := by
  have whole : ∀ {p : Pass} {d : Context}, p ∈ Pass.normalizing →
      runPass root p c = .ok () d → Clear (Pass.SettledBy []) c.forest root :=
    fun hp h => (Pass.whole_of_run hp hc.valid (runPass_ok.mp h)).mono fun _ _ => nofun
  have rest : ∀ p ∈ (Pass.normalizing.drop 1).filter q, p ∈ Pass.normalizing.drop 1 :=
    fun p hp => List.mem_of_mem_filter hp
  have split : Pass.normalizing.filter q =
      [Pass.destruct].filter q ++ (Pass.normalizing.drop 1).filter q := by
    rw [← List.filter_append]
    rfl
  rw [split] at h ⊢
  cases hq : q .destruct with
  | true =>
    simp only [List.filter_cons_of_pos, hq, List.filter_nil, List.singleton_append] at h ⊢
    obtain ⟨d, hd, h⟩ := forM_cons_ok.mp h
    obtain ⟨hs, hr⟩ := Pass.Destruct.run_settles hc.unshared
      (whole (by simp [Pass.normalizing]) hd) (runPass_ok.mp hd)
    obtain ⟨hs', hr'⟩ := forM_settles rest hs hr h
    refine ⟨hs', fun p hp => hr'.mono fun n hn => hn p ?_⟩
    simp only [List.mem_append, List.mem_reverse, List.mem_singleton]
    exact (List.mem_cons.mp hp).symm
  | false =>
    simp only [List.filter_cons, hq, Bool.false_eq_true, if_false, List.filter_nil,
      List.nil_append] at h ⊢
    cases hl : (Pass.normalizing.drop 1).filter q with
    | nil =>
      rw [hl] at h
      obtain ⟨-, rfl⟩ := pure_ok.mp h
      exact ⟨hc.unshared, by simp⟩
    | cons p l =>
      rw [hl] at h rest
      obtain ⟨d, hd, -⟩ := forM_cons_ok.mp h
      obtain ⟨hs', hr'⟩ := forM_settles rest hc.unshared
        (whole (List.mem_of_mem_drop (rest p (by simp))) hd) h
      exact ⟨hs', fun p hp => hr'.mono fun n hn => hn p (by simpa [or_comm] using hp)⟩

theorem forM_still {l : List Pass} (hl : ∀ p ∈ l, p ∈ Pass.normalizing) (hs : c.shared = [])
    (hr : ∀ p ∈ l, Clear p.Settled c.forest root) : l.forM (runPass root) c = .ok () c := by
  induction l with
  | nil => rfl
  | cons p l ih =>
    refine forM_cons_ok.mpr ⟨c, runPass_ok.mpr ?_, ?_⟩
    · exact Pass.run_still (hl p (by simp)) hs (hr p (by simp))
    · exact ih (fun q hq => hl q (List.mem_cons_of_mem p hq))
        (fun q hq => hr q (List.mem_cons_of_mem p hq))

theorem runNamed_ok : runNamed root names c = .ok u c' ↔
    unknown? names = none ∧
      (Pass.all.filter fun p => names.contains p.name).forM (runPass root) c = .ok u c' := by
  unfold runNamed checkNames
  cases h : unknown? names with
  | none => simp
  | some name => simp [bind_ok, throw_ok]

theorem chosen_eq {names : List Text} (hn : ∀ name ∈ names, name ∈ Pass.normalizing.map Pass.name) :
    (Pass.all.filter fun p => names.contains p.name) =
      Pass.normalizing.filter fun p => names.contains p.name := by
  have other : ∀ p : Pass, p.name ∉ Pass.normalizing.map Pass.name →
      names.contains p.name = false := by
    intro p hp
    simpa using fun h => hp (hn _ h)
  have hall : Pass.all = [.classes] ++ Pass.normalizing ++ [.env, .lambda, .validate] := rfl
  rw [hall, List.filter_append, List.filter_append]
  simp only [List.filter_cons, List.filter_nil, other .classes (by decide),
    other .env (by decide), other .lambda (by decide), other .validate (by decide),
    Bool.false_eq_true, if_false, List.nil_append, List.append_nil]

theorem fingerprint_ok :
    fingerprint root c = .ok w c' ↔ c.forest.fingerprint root = .ok w ∧ c = c' := by
  unfold fingerprint
  rw [bind_ok]
  constructor
  · rintro ⟨d, t, hg, h⟩
    obtain ⟨rfl, rfl⟩ := get_ok.mp hg
    cases hw : c.forest.fingerprint root with
    | error e =>
      rw [hw] at h
      exact absurd h throw_ok
    | ok w' =>
      rw [hw] at h
      obtain ⟨rfl, rfl⟩ := pure_ok.mp h
      exact ⟨rfl, rfl⟩
  · rintro ⟨hw, rfl⟩
    refine ⟨c, c, get_ok.mpr ⟨rfl, rfl⟩, ?_⟩
    rw [hw]
    exact pure_ok.mpr ⟨rfl, rfl⟩

/-- The class pass comes before the normalizing ones, which then run on a tidy state. -/
theorem isIdempotent_true {b : Bool} (hc : c.Tidy) (h : isIdempotent root c = .ok b c') :
    b = true := by
  unfold isIdempotent at h
  obtain ⟨_, c1, h1, h⟩ := bind_ok.mp h
  obtain ⟨before, _, hbefore, h⟩ := bind_ok.mp h
  obtain ⟨hw, rfl⟩ := fingerprint_ok.mp hbefore
  obtain ⟨_, c2, h2, h⟩ := bind_ok.mp h
  obtain ⟨after, _, hafter, h⟩ := bind_ok.mp h
  obtain ⟨hw', rfl⟩ := fingerprint_ok.mp hafter
  obtain ⟨rfl, rfl⟩ := pure_ok.mp h
  have first : (Pass.all.filter fun p =>
      (Pass.name .classes :: Pass.normalizing.map Pass.name).contains p.name) =
      .classes :: Pass.normalizing.filter fun _ => true := by decide
  have second : (Pass.all.filter fun p =>
      (Pass.normalizing.map Pass.name).contains p.name) =
      Pass.normalizing.filter fun _ => true := by decide
  obtain ⟨-, h1⟩ := runNamed_ok.mp h1
  rw [first] at h1
  obtain ⟨d, hclasses, h1⟩ := forM_cons_ok.mp h1
  have hd : d.Tidy := Pass.ClassScopes.run_tidy hc (runPass_ok.mp hclasses)
  obtain ⟨hs, hr⟩ := normalizing_settles hd h1
  obtain ⟨-, h2⟩ := runNamed_ok.mp h2
  rw [second, forM_still (fun p hp => List.mem_of_mem_filter hp) hs hr] at h2
  cases h2
  rw [hw] at hw'
  cases hw'
  simp

/-- Normalization is idempotent on the whole state. Over a forest without cycles or missing nodes,
if some of the normalizing passes succeed, they succeed again and change nothing, neither nodes nor
literals nor labels; and the check of this property never denies it. -/
theorem runNamed_normalizing_again {f : Forest} (ha : f.Acyclic) (hv : f.Valid) (c : Context)
    (root : Int) :
    (∀ names c', (∀ name ∈ names, name ∈ Pass.normalizing.map Pass.name) →
      runNamed root names (c.withForest f) = .ok () c' → runNamed root names c' = .ok () c') ∧
    ∀ b c', isIdempotent root (c.withForest f) = .ok b c' → b = true := by
  have hc : (c.withForest f).Tidy := ⟨rfl, ha, hv⟩
  refine ⟨?_, fun b c' => isIdempotent_true hc⟩
  intro names c' hn h
  obtain ⟨hknown, h⟩ := runNamed_ok.mp h
  refine runNamed_ok.mpr ⟨hknown, ?_⟩
  rw [chosen_eq hn] at h ⊢
  obtain ⟨hs, hr⟩ := normalizing_settles hc h
  exact forM_still (fun p hp => List.mem_of_mem_filter hp) hs hr

/-- A source in which every normalizing pass has work to do, nested multiple assignment included. -/
def allForms : Text :=
  "(do (assign (destruct a (destruct b c)) (range 1 2)) (concat \"x\" (+ a 1)) (call yield (a)))"

theorem runNamed_normalizing_again_allForms : ∃ f root c',
    Forest.parse "all" allForms = .ok (f, root) ∧ f.Acyclic ∧ f.Valid ∧
      runNamed root (Pass.normalizing.map Pass.name) ((Context.ofForest f {}).withForest f) =
        .ok () c' ∧
      runNamed root (Pass.normalizing.map Pass.name) c' = .ok () c' := by
  have hrun : testRun "all" allForms (fun f root =>
      runNamed root (Pass.normalizing.map Pass.name) ((Context.ofForest f {}).withForest f))
      (fun _ _ _ => true) = true := by decide +kernel
  obtain ⟨f, root, ⟨⟩, c', hp, hc', -⟩ := of_testRun hrun
  have hg := parse_grown hp
  exact ⟨f, root, c', hp, hg.ordered.acyclic, hg.ordered.valid, hc',
    (runNamed_normalizing_again hg.ordered.acyclic hg.ordered.valid _ _).1 _ c' (fun _ h => h) hc'⟩

end Pipeline

end Lowering
