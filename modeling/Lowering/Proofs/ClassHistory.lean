import Lowering.Pass.ClassScopes
import Lowering.Proofs.Keeping
import Lowering.Proofs.Steps
import Lowering.Proofs.Superclasses

namespace Lowering

namespace Classes.Table

/-- One thing that the class pass does to a table. A class is opened in a scope that is there. -/
inductive Step (t : Table) : Table → Prop where
  | method (scope : Scope) (name : Text) : Step t (t.addMethod scope name)
  | ivar (scope : Scope) (name : Text) : Step t (t.addIvar scope name)
  | opening {kind : Kind} {scope : Scope} (named : kind = .ofClass ∨ kind = .ofModule)
      (known : t.knows scope = true) (name super : Text) :
      Step t (t.enter kind name (some scope) super)

/-- What may become of a table, step after step. -/
abbrev History : Table → Table → Prop := Relation.ReflTransGen Step

variable {t t' : Table} {scope : Scope}

theorem Step.exists_change (h : Step t t') : ∃ change, t' = t.apply change := by
  cases h with
  | method scope name => exact ⟨.method scope name, rfl⟩
  | ivar scope name => exact ⟨.ivar scope name, rfl⟩
  | opening named known name super => exact ⟨.opening _ name (some _) super, rfl⟩

theorem History.exists_changes (h : History t t') : ∃ changes, t' = t.after changes := by
  induction h with
  | refl => exact ⟨[], rfl⟩
  | tail _ hstep ih =>
    obtain ⟨changes, rfl⟩ := ih
    obtain ⟨change, rfl⟩ := hstep.exists_change
    exact ⟨changes ++ [change], by rw [after, after, List.foldl_append]; rfl⟩

theorem find?_isSome_enter :
    ((t.enter kind name parent super).find? x).isSome = ((t.find? x).isSome || x = name) := by
  rw [enter_eq]
  cases parent <;> simp only [isSome_find?_addConstant, isSome_find?_linked]

theorem knows_enter : (t.enter kind name parent super).knows (.named name) = true := by
  simp [knows, find?_isSome_enter]

theorem Step.knows (h : Step t t') (hs : t.knows scope = true) : t'.knows scope = true := by
  cases scope with
  | global => rfl
  | named x =>
    cases h with
    | method scope name =>
      cases scope with
      | global => exact hs
      | named c =>
        have hx : ((t.intern name).find? x).isSome = true := hs
        simpa [Table.knows, addMethod, isSome_find?_update] using hx
    | ivar scope name =>
      cases scope with
      | global => exact hs
      | named c => simpa [Table.knows, addIvar, isSome_find?_update] using hs
    | opening named known name super =>
      have hx : (t.find? x).isSome = true := hs
      simp [Table.knows, find?_isSome_enter, hx]

theorem History.knows (h : History t t') (hs : t.knows scope = true) : t'.knows scope = true := by
  induction h with
  | refl => exact hs
  | tail _ hstep ih => exact hstep.knows ih

end Classes.Table

namespace Pass.ClassScopes

open Classes PassM Std.Do
open Classes.Table (History)

set_option mvcgen.warning false

variable {α β : Type}

/-- The state in which a run ends, whether it succeeds or not. -/
def stateOf {ε σ : Type} : EStateM.Result ε σ α → σ
  | .ok _ s | .error _ s => s

/-- A table that has come of another by changes, in which some scopes are there. -/
structure Evolved (t : Table) (scopes : List Scope) (t' : Table) : Prop where
  history : History t t'
  known : ∀ s ∈ scopes, t'.knows s = true

/-- A computation that changes the class table as the pass does, if the scopes it works in are
there. -/
abbrev Evolves (t : Table) (scopes : List Scope) (x : PassM α) : Prop :=
  Keeps (fun c => Evolved t scopes c.classes) (fun _ => True) (fun _ => True) x

section

variable {t : Table} {scopes : List Scope} {scope : Scope}

theorem Evolved.outer (h : Evolved t (scope :: scopes) t') : Evolved t scopes t' :=
  ⟨h.history, fun s hs => h.known s (List.mem_cons_of_mem scope hs)⟩

theorem evolves_changeTable (h : ∀ t, Table.Step t (change t)) :
    Evolves t scopes (changeTable change) := by
  mvcgen [changeTable]
  rename_i c hc _
  exact ⟨hc.history.tail (h _), fun s hs => (h _).knows (hc.known s hs)⟩

theorem evolves_method (name : Text) : Evolves t scopes (changeTable (·.addMethod scope name)) :=
  evolves_changeTable fun _ => .method scope name

theorem evolves_ivar (name : Text) : Evolves t scopes (changeTable (·.addIvar scope name)) :=
  evolves_changeTable fun _ => .ivar scope name

/-- In a class the scope of that class is there, too. -/
theorem evolves_openClass (hs : scope ∈ scopes) (hkind : kind = .ofClass ∨ kind = .ofModule)
    (name super : Text) : ⦃fun c => ⌜Evolved t scopes c.classes⌝⦄
      openClass kind name scope super
      ⦃post⟨fun _ c => ⌜Evolved t (.named name :: scopes) c.classes⌝,
        fun _ c => ⌜Evolved t scopes c.classes ∧ True⌝⟩⦄ := by
  mvcgen [openClass, changeTable]
  rename_i c hc _ _
  have hstep := Table.Step.opening hkind (hc.known scope hs) name super
  exact ⟨hc.history.tail hstep,
    List.forall_mem_cons.mpr ⟨Table.knows_enter, fun s hs => hstep.knows (hc.known s hs)⟩⟩

theorem evolves_fetch (id : Int) : Evolves t scopes (fetch id) := by mvcgen [fetch]

theorem evolves_node : Evolves t scopes (node tag pos args) := by mvcgen [node, alloc]

theorem evolves_operandAt (n : Node) (i : Nat) : Evolves t scopes (operandAt n i) := by
  mvcgen [operandAt]

theorem evolves_scanIvars (body : Operand) : Evolves t scopes (scanIvars scope body) := by
  have note : ∀ v, Evolves t scopes (noteIvar scope v) := by
    intro v
    mvcgen [noteIvar, evolves_ivar]
  have scan : ∀ id (n : Node), Evolves t scopes (scanning scope id n) := by
    intro id n
    have each : Evolves t scopes (n.args.forM (noteIvar scope)) := Keeps.forM fun v _ => note v
    mvcgen [scanning, each]
  have walk : ∀ k id, Evolves t scopes (Walk.run (.fault .endless)
      (fun id => return (← fetch id).children)
      (fun id => do scanning scope id (← fetch id)) k id) := by
    refine Keeps.walk trivial (fun x => ?_) (fun x => ?_)
    · mvcgen [evolves_fetch]
    · mvcgen [evolves_fetch, scan]
      assumption
  unfold scanIvars
  split
  · exact note body
  · change Evolves t scopes (PassM.walk _ _ >>= fun _ => pure ())
    mvcgen [PassM.walk, walk]

theorem evolves_expandAttributes (id : Int) (n : Node) (wanted : Accessors) :
    Evolves t scopes (expandAttributes id n wanted scope) := by
  have define : ∀ names : List Text,
      Keeps (fun c => Evolved t scopes c.classes) (fun _ => True) (fun bs => ∀ b ∈ bs, True)
        (names.mapM (define wanted scope n.pos)) := fun _ => Keeps.mapM fun symbol _ => by
    mvcgen [define, defineReader, defineWriter, list, evolves_node, evolves_method,
      evolves_ivar] <;>
      assumption
  mvcgen [expandAttributes, query, reshape, update, evolves_fetch, define]
  simp_all

theorem evolves_build (fuel : Nat) (v : Operand) (hs : scope ∈ scopes) :
    Evolves t scopes (build fuel scope v) := by
  induction fuel generalizing scope scopes v with
  | zero => mvcgen [build]
  | succ fuel ih =>
    have operands : ∀ n : Node, Evolves t scopes (n.args.forM (build fuel scope)) :=
      fun n => Keeps.forM fun v _ => ih v hs
    have inner : ∀ (name : Text) v,
        Evolves t (.named name :: scopes) (build fuel (.named name) v) :=
      fun name v => ih v (by simp)
    have ofClass := @evolves_openClass t scopes scope .ofClass hs (.inl rfl)
    have ofModule := @evolves_openClass t scopes scope .ofModule hs (.inr rfl)
    mvcgen [build, check, evolves_fetch, evolves_operandAt, evolves_method, evolves_scanIvars,
      evolves_expandAttributes, operands, ofClass, ofModule, inner] <;> grind [Evolved.outer]

end

theorem history_run (root : Int) (c : Context) :
    History c.classes (stateOf (run root c)).classes := by
  have h : Evolves c.classes [.global] (run root) := by
    have := @evolves_build c.classes [.global] .global
    mvcgen [run, this]
  have hc : Evolved c.classes [.global] c.classes := ⟨.refl, by simp [Table.knows]⟩
  cases hr : run root c with
  | ok a d => exact (h.ok hc hr).1.history
  | error e d => exact (h.error hc hr).1.history

end Pass.ClassScopes

end Lowering
