import Lowering.Proofs.Shell

namespace Lowering

open Forest

/-- A node has a note of the names that a body uses. -/
def Forest.Carries (f : Forest) (x : Int) (note : Note) : Prop :=
  ∃ n, f.get? x = some n ∧ n.notes.find? "varfreq" = some note

theorem Forest.Carries.push {f : Forest} (h : f.Carries x note) (n : Node) :
    (f.push n).Carries x note := by
  obtain ⟨m, hm, hnote⟩ := h
  have := (get?_eq_some_bounds hm).2
  exact ⟨m, by rw [get?_push, if_neg (by omega), hm], hnote⟩

/-- No node outside a set is annotated with other exported parameters than before, and no note of
the names that a body uses is lost. -/
structure Annotates (X : Int → Prop) (c c' : Context) : Prop where
  options : c'.options = c.options
  exports : ∀ x, ¬ X x → c'.forest.exportsAt x = c.forest.exportsAt x
  carries : ∀ x note, c.forest.Carries x note → c'.forest.Carries x note

namespace Annotates

variable {X Y : Int → Prop} {c c1 c' : Context} {id : Int} {n m : Node}

theorem refl (c : Context) : Annotates X c c := ⟨rfl, fun _ _ => rfl, fun _ _ h => h⟩

theorem trans (h : Annotates X c c1) (h' : Annotates X c1 c') : Annotates X c c' :=
  ⟨h'.options.trans h.options, fun x hx => (h'.exports x hx).trans (h.exports x hx),
    fun x note hx => h'.carries x note (h.carries x note hx)⟩

theorem mono (h : Annotates X c c') (hxy : ∀ x, X x → Y x) : Annotates Y c c' :=
  ⟨h.options, fun x hx => h.exports x fun hx' => hx (hxy x hx'), h.carries⟩

theorem add (c : Context) (hn : n.notes.namesAt "exports" = []) : Annotates X c (c.add n) := by
  refine ⟨rfl, fun x _ => ?_, fun x note h => h.push n⟩
  rw [exportsAt, exportsAt, Context.add_forest, get?_push]
  split
  · next hx =>
    have hnone : c.forest.get? x = none := by
      cases hg : c.forest.get? x with
      | none => rfl
      | some m =>
        have := (get?_eq_some_bounds hg).2
        omega
    rw [hnone, Option.map_some, Option.getD_some, hn]
    rfl
  · rfl

theorem put (hn : c.forest.get? id = some n)
    (hm : ¬ X id → m.notes.namesAt "exports" = n.notes.namesAt "exports")
    (hf : m.notes.find? "varfreq" = n.notes.find? "varfreq") : Annotates X c (c.put id m) := by
  refine ⟨rfl, fun x hx => ?_, fun x note ⟨k, hk, hnote⟩ => ?_⟩
  · rw [exportsAt, exportsAt, Context.put_forest, get?_set]
    split
    · next heq =>
      subst heq
      simp [hn, hm hx]
    · rfl
  · rw [Carries, Context.put_forest, get?_set]
    split
    · next heq =>
      subst heq
      cases hn.symm.trans hk
      exact ⟨m, by simp [hn], hf.trans hnote⟩
    · exact ⟨k, hk, hnote⟩

end Annotates

namespace PassM

variable {X : Int → Prop} {c c' : Context} {id : Int} {v : Operand} {tag : Tag} {pos : Position}
variable {args : List Operand} {u : Unit}

theorem node_annotates (h : node tag pos args c = .ok v c') : Annotates X c c' := by
  obtain ⟨-, rfl⟩ := node_ok.mp h
  exact .add c rfl

theorem setArgs_annotates (h : setArgs id args c = .ok u c') : Annotates X c c' := by
  obtain ⟨f, hf⟩ := setArgs_aside h
  obtain ⟨-, -, hget⟩ := setArgs_frame h
  refine ⟨by rw [hf], fun x _ => ?_, fun x note ⟨n, hn, hnote⟩ => ?_⟩
  · rw [exportsAt, exportsAt, hget]
    split
    · rw [Option.map_map]
      rfl
    · rfl
  · rw [Carries, hget, hn]
    split
    · exact ⟨_, rfl, hnote⟩
    · exact ⟨n, rfl, hnote⟩

theorem renewArgs_annotates (h : renewArgs id args c = .ok u c') : Annotates X c c' := by
  obtain ⟨n, hn, rfl⟩ := renewArgs_ok.mp h
  have hput : Annotates X c (c.put id { n with args }) := .put hn (fun _ => rfl) rfl
  exact ⟨hput.options, hput.exports, hput.carries⟩

end PassM

end Lowering
