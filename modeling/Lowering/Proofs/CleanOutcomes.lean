import Lowering.Proofs.ClassHistory
import Lowering.Proofs.EnvironmentLands
import Lowering.Proofs.Snapshots

namespace Lowering

open PassM
open Pass.ClassScopes (stateOf)

namespace Pass

variable {c : Context} {grade : Survey} {root : Int}

/-- Every pass but that for environments leaves the closures without annotations. -/
theorem lands_plain {p : Pass} (hp : p ≠ .env) (hc : c.Surveyed grade) (hroot : c.forest.Has root) :
    Lands .notes (p.run root) c grade Anything := by
  cases p with
  | classes => exact (ClassScopes.lands_run hc hroot).anything
  | destruct => exact (lands_walk Destruct.visits_land Destruct.visits_sink hc hroot).discard
  | concat => exact (lands_walk Concat.visits_land Concat.visits_sink hc hroot).discard
  | range => exact (lands_walk Range.visits_land Range.visits_sink hc hroot).discard
  | strings =>
    exact (lands_walk (Hoist.visits_land .strings)
      (Hoist.visits_sink .strings) hc hroot).discard
  | ints => exact (lands_walk (Hoist.visits_land .ints) (Hoist.visits_sink .ints) hc hroot).discard
  | operators => exact (lands_walk Operators.visits_land Operators.visits_sink hc hroot).discard
  | yield => exact (lands_walk Yield.visits_land Yield.visits_sink hc hroot).discard
  | env => exact absurd rfl hp
  | lambda => exact (lands_walk Closures.visits_land Closures.visits_sink hc hroot).discard
  | validate => exact (lands_walk Validate.visits_land Validate.visits_sink hc hroot).discard

theorem lands (p : Pass) (hc : c.Surveyed grade) (hroot : c.forest.Has root)
    (hp : grade.Ordinary root) : Lands .none (p.run root) c grade Anything := by
  by_cases he : p = .env
  · subst he
    exact Environment.lands_run hc hroot hp
  · exact (lands_plain he hc hroot).free

end Pass

/-- An error that finds fault with a name, which is that of no pass, or with the tree. -/
def PipelineError.IsRefusal : PipelineError → Prop
  | unknownPass name => Pass.ofName? name = none
  | inPass _ e => e.IsRefusal
  | fault _ => False

/-- The errors that a run may end with in a state. -/
def PipelineError.Excused : PipelineError → Context → Prop
  | unknownPass name, _ => Pass.ofName? name = none
  | inPass _ e, c => e.Excused c
  | fault _, _ => False

namespace Pipeline

variable {α β : Type} {c : Context} {root : Int}

/-- The outcomes that a caller may meet: success, or a refusal. -/
inductive Clean : EStateM.Result PipelineError Context α → Prop where
  | success {a : α} {c : Context} : Clean (.ok a c)
  | refusal {e : PipelineError} {c : Context} (h : e.IsRefusal) : Clean (.error e c)

/-- A state in which the passes may be run on the tree below a root. -/
structure Ready (root : Int) (c : Context) : Prop where
  orderly : c.Orderly
  root : c.forest.Has root

/-- An outcome after which the state is as it has to be. If it is an error, then one that may be. -/
inductive Safe (I : Context → Prop) (E : PipelineError → Context → Prop) :
    EStateM.Result PipelineError Context α → Prop where
  | success {a : α} {c : Context} (h : I c) : Safe I E (.ok a c)
  | failure {e : PipelineError} {c : Context} (h : I c) (he : E e c) : Safe I E (.error e c)

theorem Safe.state {r : EStateM.Result PipelineError Context α} (h : Safe I E r) :
    I (stateOf r) := by
  cases h with
  | success h => exact h
  | failure h he => exact h

/-- From a state as it has to be, a run has an outcome as it has to be. -/
def Stable (I : Context → Prop) (E : PipelineError → Context → Prop) (x : PipelineM α) : Prop :=
  ∀ c, I c → Safe I E (x c)

section

variable {I : Context → Prop} {E : PipelineError → Context → Prop}

theorem stable_pure (a : α) : Stable I E (pure a) := fun _ hc => .success hc

theorem Stable.ok (h : Stable I E x) (hc : I c) (hx : x c = .ok a d) : I d := by
  have hd := h c hc
  rw [hx] at hd
  cases hd with
  | success hd => exact hd

theorem Stable.bind (hx : Stable I E x) (hg : ∀ a, Stable I E (g a)) : Stable I E (x >>= g) := by
  intro c hc
  change Safe I E (EStateM.bind x g c)
  unfold EStateM.bind
  have hx := hx c hc
  generalize x c = r at hx ⊢
  cases hx with
  | success hd => exact hg _ _ hd
  | failure hd he => exact .failure hd he

theorem stable_forM (hg : ∀ a, Stable I E (g a)) (as : List α) : Stable I E (as.forM g) := by
  induction as with
  | nil => exact stable_pure _
  | cons a as ih => exact (hg a).bind fun _ => ih

end

theorem upright_runPass (p : Pass) :
    Stable (Ready root) PipelineError.Excused (runPass root p) := by
  intro c hc
  obtain ⟨grade, hgrade, hplain⟩ := hc.orderly.surveyed
  have lands := p.lands hgrade hc.root (hplain root)
  unfold runPass
  cases h : p.run root c with
  | ok a d =>
    obtain ⟨grade1, ho, -⟩ := lands.ok h
    exact .success ⟨⟨grade1, ho.graded.toGraded⟩, ho.kept root hc.root⟩
  | error e d =>
    obtain ⟨hexcused, grade1, ho⟩ := lands.error h
    exact .failure ⟨⟨grade1, ho.graded.toGraded⟩, ho.kept root hc.root⟩ hexcused

theorem upright_fingerprint : Stable (Ready root) PipelineError.Excused (fingerprint root) := by
  intro c hc
  obtain ⟨grade, hgrade⟩ := hc.orderly
  obtain ⟨t, ht, -⟩ := (hgrade.unfolds hc.root).tree
  have hrun : fingerprint root c = .ok t.fingerprint c := by
    refine bind_ok.mpr ⟨c, c, rfl, ?_⟩
    rw [Forest.fingerprint, ht]
    rfl
  rw [hrun]
  exact .success hc

/-- What can be asked of the passes for the tree below a root. -/
inductive Call where
  | pass (p : Pass)
  | named (names : List Text)
  | enabled
  /-- Whether the normalizing passes have nothing left to do. -/
  | idempotent
deriving DecidableEq, Repr

/-- Carries out what is asked for. -/
def Call.run (root : Int) : Call → PipelineM Unit
  | pass p => runPass root p
  | named names => runNamed root names
  | enabled => Pipeline.run root
  | idempotent => do let _ ← isIdempotent root

/-- The state after some calls, failed ones among them. -/
def after (root : Int) (calls : List Call) (c : Context) : Context :=
  calls.foldl (fun c call => stateOf (call.run root c)) c

/-- What a caller has to know of single passes to know it of calls. -/
structure Sturdy (root : Int) (I : Context → Prop) (E : PipelineError → Context → Prop) :
    Prop where
  pass : ∀ p, Stable I E (runPass root p)
  fingerprint : Stable I E (fingerprint root)
  unknown : ∀ name, Pass.ofName? name = none → ∀ c, E (.unknownPass name) c

theorem sturdy_ready : Sturdy root (Ready root) PipelineError.Excused :=
  ⟨upright_runPass, upright_fingerprint, fun _ h _ => h⟩

namespace Sturdy

variable {I : Context → Prop} {E : PipelineError → Context → Prop} (h : Sturdy root I E)

include h

theorem checkNames (names : List Text) : Stable I E (checkNames names) := by
  intro c hc
  unfold Pipeline.checkNames
  cases hname : unknown? names with
  | none => exact .success hc
  | some name => exact .failure hc (h.unknown name (by simpa using List.find?_some hname) c)

theorem runNamed (names : List Text) : Stable I E (runNamed root names) :=
  (h.checkNames names).bind fun _ => stable_forM h.pass _

theorem run : Stable I E (run root) :=
  fun c hc => ((h.checkNames c.options.disabled).bind fun _ => stable_forM h.pass _) c hc

theorem call (call : Call) : Stable I E (call.run root) := by
  cases call with
  | pass p => exact h.pass p
  | named names => exact h.runNamed names
  | enabled => exact h.run
  | idempotent =>
    refine Stable.bind ?_ fun _ => stable_pure _
    exact (h.runNamed _).bind fun _ => h.fingerprint.bind fun _ => (h.runNamed _).bind fun _ =>
      h.fingerprint.bind fun _ => stable_pure _

theorem after (calls : List Call) (hc : I c) : I (after root calls c) := by
  induction calls generalizing c with
  | nil => exact hc
  | cons call calls ih => exact ih (h.call call c hc).state

end Sturdy

theorem Safe.clean {r : EStateM.Result PipelineError Context α} (h : Safe I PipelineError.Excused r)
    (hrooted : (stateOf r).classes.Rooted) : Clean r := by
  cases h with
  | success h => exact .success
  | @failure e c h he =>
    refine .refusal ?_
    cases e with
    | unknownPass name => exact he
    | inPass p e => exact he.resolve_right fun hcircular => hcircular.2 hrooted
    | fault f => exact he

theorem valid_of_parse (h : Forest.parse file source = .ok (f, root)) : f.Valid ∧ f.Has root := by
  have hgrown := Forest.parse_grown h
  obtain ⟨ts, hts, -⟩ := hgrown.trees
  refine ⟨hgrown.ordered.valid, ?_⟩
  cases hts with
  | @cons _ t _ _ ht =>
    cases t with
    | leaf a => cases ht
    | node mark tag args =>
      obtain ⟨hview, n, hn, -⟩ := Forest.denotes_node.mp ht
      obtain rfl : root = mark.id := by
        simpa [Operand.child?_ref] using Operand.view_eq_child.mp hview
      exact ⟨n, hn⟩

theorem valid_of_decode (h : Snapshot.decode bytes = .ok (f, root)) : f.Valid ∧ f.Has root := by
  obtain ⟨-, hcomplete, hroot⟩ := Snapshot.decode_eq_ok.mp h
  have has : ∀ {id}, f.isValid id = true → f.Has id := fun h =>
    Forest.has_iff.mpr (by simpa [Forest.isValid] using h)
  refine ⟨fun id n hn child hc => has (hcomplete n ?_ child hc), has hroot⟩
  unfold Forest.get? at hn
  split at hn
  · exact Array.mem_of_getElem? hn
  · cases hn

/-- On a tree without cycles that was read from a source or from a snapshot, whatever the options
and the other state are, and after any calls: every call has a clean outcome, if it leaves chains of
superclasses that end. -/
theorem clean_after {f : Forest} (hf : f.Acyclic)
    (hread : (∃ file source, Forest.parse file source = .ok (f, root)) ∨
      ∃ bytes, Snapshot.decode bytes = .ok (f, root))
    (c : Context) (calls : List Call) (call : Call)
    (hrooted : (stateOf (call.run root (after root calls (c.withForest f)))).classes.Rooted) :
    Clean (call.run root (after root calls (c.withForest f))) := by
  have hvalid : f.Valid ∧ f.Has root := by
    rcases hread with ⟨file, source, h⟩ | ⟨bytes, h⟩
    · exact valid_of_parse h
    · exact valid_of_decode h
  have tidy : (c.withForest f).Tidy := ⟨rfl, hf, hvalid.1⟩
  exact (sturdy_ready.call call _ (sturdy_ready.after calls ⟨tidy.orderly, hvalid.2⟩)).clean
    hrooted

/-- A method and a closure with one list of parameters between them, the closure in two places, over
a node of an unknown tag with an unknown operand. -/
def knotted : Forest :=
  ⟨#[⟨Tag.ofByte 0xEE, [⟨9, "é", -5, -7⟩, .sym "x"], Position.unknown, {}⟩,
    ⟨.list, [.sym "x"], Position.unknown, {}⟩,
    ⟨.lambda, [.ref 2, .ref 1], Position.unknown, {}⟩,
    ⟨.defm, [.sym "f", .ref 2, .ref 3], Position.unknown, {}⟩,
    ⟨.block, [.ref 4, .ref 3, .ref 1], Position.unknown, {}⟩]⟩

theorem clean_after_knotted : knotted.Acyclic ∧
    Snapshot.decode (Snapshot.encode knotted 5) = .ok (knotted, 5) ∧
    Clean (Call.run 5 (.pass .env) (after 5 [.enabled, .pass .env, .named ["nope"], .idempotent]
      ((Context.ofForest knotted {}).withForest knotted))) := by
  have hacyclic : knotted.Acyclic := by
    apply Forest.Ordered.acyclic
    intro id n hn
    have hbounds := Forest.get?_eq_some_bounds hn
    have hsize : knotted.size = 5 := rfl
    obtain rfl | rfl | rfl | rfl | rfl : id = 1 ∨ id = 2 ∨ id = 3 ∨ id = 4 ∨ id = 5 := by omega
    all_goals
      cases hn
      decide
  have hdecode : Snapshot.decode (Snapshot.encode knotted 5) = .ok (knotted, 5) :=
    Snapshot.decode_encode_complete (by decide +kernel) (by decide +kernel) (by decide)
  exact ⟨hacyclic, hdecode, clean_after hacyclic (.inr ⟨_, hdecode⟩) (Context.ofForest knotted {})
    [.enabled, .pass .env, .named ["nope"], .idempotent] (.pass .env) (by decide +kernel)⟩

end Pipeline

end Lowering
