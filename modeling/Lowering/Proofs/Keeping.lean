import Lowering.Forest.Walk
import Mathlib.Data.List.Flatten

namespace Lowering

open Std.Do

set_option mvcgen.warning false

variable {ε σ α β : Type} {I : σ → Prop} {E : ε → Prop} {P : α → Prop} {m : EStateM ε σ α}
  {children : Int → EStateM ε σ (List Int)} {visit : Int → EStateM ε σ Walk.Action}

/-- Whether or not a computation fails, it keeps a property of the state; what it gives has another,
and so have its errors. -/
abbrev Keeps (I : σ → Prop) (E : ε → Prop) (P : α → Prop) (m : EStateM ε σ α) : Prop :=
  ⦃fun s => ⌜I s⌝⦄ m ⦃post⟨fun a s => ⌜I s ∧ P a⌝, fun e s => ⌜I s ∧ E e⌝⟩⦄

namespace Keeps

theorem ok (h : Keeps I E P m) (hs : I s) (hm : m s = .ok a s') : I s' ∧ P a := by
  have := h s hs
  simp only [wp, PredTrans.apply] at this
  rwa [show m.run s = .ok a s' from hm] at this

theorem error (h : Keeps I E P m) (hs : I s) (hm : m s = .error e s') : I s' ∧ E e := by
  have := h s hs
  simp only [wp, PredTrans.apply] at this
  rwa [show m.run s = .error e s' from hm] at this

/-- A loop keeps what each round keeps. -/
theorem forM {g : α → EStateM ε σ PUnit} {as : List α}
    (h : ∀ a ∈ as, Keeps I E (fun _ => True) (g a)) : Keeps I E (fun _ => True) (as.forM g) := by
  induction as with
  | nil => exact Triple.pure _ fun _ hs => ⟨hs, trivial⟩
  | cons a as ih =>
    obtain ⟨ha, has⟩ := List.forall_mem_cons.mp h
    have ih := ih has
    change Keeps I E (fun _ => True) (g a >>= fun _ => as.forM g)
    mvcgen [ha, ih]
    assumption

theorem mapM {g : α → EStateM ε σ β} {as : List α} {P : β → Prop}
    (h : ∀ a ∈ as, Keeps I E P (g a)) : Keeps I E (fun bs => ∀ b ∈ bs, P b) (as.mapM g) := by
  induction as with
  | nil => exact Triple.pure _ fun _ hs => ⟨hs, nofun⟩
  | cons a as ih =>
    obtain ⟨ha, has⟩ := List.forall_mem_cons.mp h
    have ih := ih has
    rw [List.mapM_cons]
    mvcgen [ha, ih] <;> simp_all

theorem all {walk : List Int → Int → EStateM ε σ (Bool × List Int)}
    (h : ∀ seen x, Keeps I E (fun _ => True) (walk seen x)) (seen xs : List Int) :
    Keeps I E (fun _ => True) (Walk.all walk seen xs) := by
  induction xs generalizing seen with
  | nil => exact Triple.pure _ fun _ hs => ⟨hs, trivial⟩
  | cons x xs ih =>
    mvcgen [Walk.all, h, ih]
    simp_all

/-- A walk keeps what the visits keep. -/
theorem walk {tooDeep : ε} (hdeep : E tooDeep)
    (hc : ∀ x, Keeps I E (fun _ => True) (children x))
    (hv : ∀ x, Keeps I E (fun _ => True) (visit x)) (k : Nat) (x : Int) :
    Keeps I E (fun _ => True) (Walk.run tooDeep children visit k x) := by
  have from_ : ∀ seen x, Keeps I E (fun _ => True)
      (Walk.from_ tooDeep children visit k seen x) := by
    induction k with
    | zero =>
      intro seen x
      mvcgen [Walk.from_]
    | succ k ih =>
      intro seen x
      have hall := all ih
      mvcgen [Walk.from_, hc, hv, hall] <;> simp_all
  have := from_ [] x
  mvcgen [Walk.run, this]

end Keeps

end Lowering
