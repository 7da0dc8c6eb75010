import Lowering.Proofs.Renaming

namespace Lowering

namespace Block

open Scope Pass.Environment

/-- What a body captures. -/
def captures (b : Block) : List Text := b.reading.captures

/-- A function that captures something, or that has closures. -/
def HasEnvironment (b : Block) : Prop := b.reading.HasEnvironment

/-- The note of the names that a body uses. -/
def frequencies (b : Block) : Note :=
  .names (if b.reading.byFrequency.isEmpty then none else some b.reading.byFrequency)

end Block

namespace Pass.Environment

open Scope

/-- What the `let` of a body depends on besides its parameters and its statements. -/
structure Setup where
  /-- The name of the parameter that takes the remaining arguments, or empty. -/
  rest : Text
  /-- How many parameters are plain names. -/
  fixed : Nat
  /-- Whether the body is outside every function. -/
  top : Bool
  wordSize : Int64

namespace Setup

/-- The parameter that collects the rest, if there is one. -/
def restNames (s : Setup) : List Text := if s.rest.isEmpty then [] else [s.rest]

/-- The bytes that an environment takes. -/
def bytes (s : Setup) (captures : List Text) : Int64 :=
  Int64.ofNat (captures.length + 2) * s.wordSize

end Setup

/-- The statements that set up the environment of a function, if it has one: the allocation, and
copies of what is in a slot from the beginning. -/
inductive Starts (b : Block) (s : Setup) : List (Tree Mark) → Prop where
  | absent (without : ¬ b.HasEnvironment) : Starts b s []
  | present {allocation : Tree Mark} {filled : List Text} {copies : List (Tree Mark)}
      (has : b.HasEnvironment) (allocates : allocation.shape = allocForm (s.bytes b.captures))
      (nodup : filled.Nodup)
      (fills : ∀ name, name ∈ filled ↔ b.Shares name ∨ name = closureName ∧ s.top = false)
      (each : List.Forall₂ (fun name t => ∃ k, SlotOf b.captures name k ∧ t.shape = copyForm k name)
        filled copies) : Starts b s (allocation :: copies)

/-- The `let` of a body: what it declares, then what fills the environment, then the statements. -/
inductive LetLayout (b : Block) (s : Setup) : List (Tree Mark) → Prop where
  | intro {vars : Tree Mark} {collect start stmts : List (Tree Mark)}
      (readable : ∀ t ∈ b.stmts, Readable t)
      (declares : vars.shape =
        namesForm (b.reading.locals ++ [envName, tmpProcName] ++ s.restNames))
      (collects : collect.map Tree.shape = s.restNames.map (collectForm · s.fixed))
      (starts : Starts b s start) (out : RenamedEach b.reading [] b.stmts stmts) :
      LetLayout b s (vars :: collect ++ start ++ stmts)

variable {params : List Text} {stmts stmts' args args' : List (Tree Mark)} {s : Setup}

theorem Starts.like (hread : ∀ t ∈ stmts, Readable t) (hstmts : List.Forall₂ Like stmts stmts')
    (h : Starts ⟨params, stmts⟩ s args) (hargs : List.Forall₂ Like args args') :
    Starts ⟨params, stmts'⟩ s args' := by
  have hreading := reading_of_like params hstmts
  cases h with
  | absent without =>
    cases hargs
    exact .absent (by rwa [Block.HasEnvironment, hreading])
  | @present allocation filled copies has allocates nodup fills each =>
    cases hargs with
    | cons hfirst hrest =>
      refine .present (by rwa [Block.HasEnvironment, hreading]) ?_ nodup (fun name => ?_) ?_
      · rw [Block.captures, hreading]
        exact Tree.shape_of_like hfirst allocates rfl
      · rw [fills, Block.Shares.congr hstmts hread]
      · refine List.forall₂_iff_get.mpr ⟨each.length_eq.trans hrest.length_eq, fun i hi hi' => ?_⟩
        have hmid : i < copies.length := each.length_eq ▸ hi
        obtain ⟨k, hk, hshape⟩ := each.get hi hmid
        refine ⟨k, ?_, Tree.shape_of_like (hrest.get hmid hi') hshape rfl⟩
        rwa [Block.captures, hreading]

/-- The statements of a body and the operands of its `let` may be replaced by what is like them. -/
theorem LetLayout.like (hstmts : List.Forall₂ Like stmts stmts')
    (h : LetLayout ⟨params, stmts⟩ s args)
    (hargs : List.Forall₂ Like args args') : LetLayout ⟨params, stmts'⟩ s args' := by
  have hreading := reading_of_like params hstmts
  obtain ⟨hread, declares, collects, starts, out⟩ := h
  obtain ⟨first, outs', hfirst, houts, rfl⟩ := Forest.forall₂_append_left hargs
  cases hfirst with
  | @cons _ vars' _ rest hvars hrest =>
    obtain ⟨collect', start', hcollect, hstart, rfl⟩ := Forest.forall₂_append_left hrest
    refine .intro (fun t' ht' => ?_) ?_ ?_ (starts.like hread hstmts hstart) ?_
    · obtain ⟨t, ht, hlike⟩ := Forest.forall₂_mem_left hstmts.flip ht'
      exact readable_of_like hlike (hread t ht)
    · rw [hreading]
      exact Tree.shape_of_like hvars declares (functionFree_namesForm _)
    · rw [← collects]
      refine map_of_like hcollect fun t ht u htu => ?_
      have hmem := List.mem_map_of_mem (f := Tree.shape) ht
      rw [collects, List.mem_map] at hmem
      obtain ⟨name, -, hform⟩ := hmem
      rw [Tree.eq_of_like htu (hform ▸ rfl)]
    · rw [hreading]
      exact renamedEach_like hread hstmts out houts

end Pass.Environment

end Lowering
