import Lowering.Proofs.EnvironmentCases
import Lowering.Proofs.KeptTrees
import Lowering.Proofs.ShapeEncoding

namespace Lowering

namespace Tree

variable {α : Type} {t : Tree α}

theorem shape_node (mark : α) (tag : Tag) (args : List (Tree α)) :
    (Tree.node mark tag args).shape = .node () tag (args.map shape) := by
  rw [shape, shapes_eq]

theorem shape_eq_leaf : t.shape = .leaf a ↔ t = .leaf a := by
  cases t with
  | leaf b => simp [shape]
  | node mark tag args => simp [shape]

theorem shape_eq_node :
    t.shape = .node () tag es ↔ ∃ mark args, t = .node mark tag args ∧ args.map shape = es := by
  cases t with
  | leaf a => simp [shape]
  | node mark tag' args =>
    simp only [shape_node, node.injEq, true_and]
    constructor
    · rintro ⟨ht, hargs⟩
      exact ⟨mark, args, ⟨rfl, ht, rfl⟩, hargs⟩
    · rintro ⟨_, _, ⟨rfl, ht, rfl⟩, hargs⟩
      exact ⟨ht, hargs⟩

end Tree

theorem Makes.fresh (h : Makes c [] c' vs ts) : ∀ x ∈ Tree.idsOf ts, (c.forest.size : Int) < x := by
  obtain ⟨made, -, hbounds, hperm⟩ := h.ids
  intro x hx
  exact (hbounds x (by simpa using hperm.subset hx)).1

namespace Pass.Environment

open Forest PassM Scope

/-- `(index __env__ k)` -/
def slotForm (k : Nat) : Tree Unit :=
  .node () .index [.leaf (.sym envName), .leaf (.int (Int64.ofNat k))]

/-- `(assign (index __env__ k) name)` -/
def copyForm (k : Nat) (name : Text) : Tree Unit :=
  .node () .assign [slotForm k, .leaf (.sym name)]

/-- `(sexp (assign __env__ (call malloc (bytes))))` -/
def allocForm (bytes : Int64) : Tree Unit :=
  .node () .sexp [.node () .assign [.leaf (.sym envName),
    .node () .call [.leaf (.sym "malloc"), .node () .list [.leaf (.int bytes)]]]]

/-- `(sexp (assign rest (__splat_to_Array __splat (sub numargs fixed))))` -/
def collectForm (rest : Text) (fixed : Nat) : Tree Unit :=
  .node () .sexp [.node () .assign [.leaf (.sym rest),
    .node () .list [.leaf (.sym "__splat_to_Array"), .leaf (.sym splatName),
      .node () .sub [.leaf (.sym "numargs"), .leaf (.int (Int64.ofNat fixed))]]]]

/-- `(names...)` -/
def namesForm (names : List Text) : Tree Unit :=
  .node () .list (names.map fun name => .leaf (.sym name))

variable {X : Int → Prop} {c c' : Context} {v : Operand} {vs : List Operand} {env : List Text}
variable {n : Node} {key name : Text}

theorem copyIn_makes (h : copyIn env n key name c = .ok v c') : ∃ k t, env.idxOf? key = some k ∧
    Makes c [] c' [v] [t] ∧ t.shape = copyForm k name ∧ Annotates X c c' := by
  obtain ⟨k, hk, slot, d, hslot, hassign⟩ := copyIn_ok.mp h
  have hmade := ((Makes.sym c envName).append (Makes.int c (Int64.ofNat k))).node hslot
  exact ⟨k, _, hk, (hmade.append (Makes.sym d name)).node hassign, rfl,
    (node_annotates hslot).trans (node_annotates hassign)⟩

theorem copies_make (key : Text → Text) {names : List Text}
    (h : names.mapM (fun name => copyIn env n (key name) name) c = .ok vs c') :
    ∃ ts, Makes c [] c' vs ts ∧ Annotates X c c' ∧
      List.Forall₂ (fun name t => ∃ k, env.idxOf? (key name) = some k ∧ t.shape = copyForm k name)
        names ts := by
  induction names generalizing vs c with
  | nil =>
    obtain ⟨rfl, rfl⟩ := pure_ok.mp h
    exact ⟨[], .keep .nil, .refl c, .nil⟩
  | cons name names ih =>
    obtain ⟨v, d, vs, hv, hvs, rfl⟩ := mapM_cons_ok.mp h
    obtain ⟨k, t, hk, ht, hshape, hann⟩ := copyIn_makes hv
    obtain ⟨ts, hts, hann', hshapes⟩ := ih hvs
    exact ⟨t :: ts, ht.append hts, hann.trans hann', .cons ⟨k, hk, hshape⟩ hshapes⟩

theorem prologue_makes (h : prologue b r env c = .ok vs c') :
    ∃ allocation copies, Makes c [] c' vs (allocation :: copies) ∧ Annotates X c c' ∧
      allocation.shape = allocForm (Int64.ofNat env.length * c.options.wordSize) ∧
      List.Forall₂ (fun name t => ∃ k, env.idxOf? name = some k ∧ t.shape = copyForm k name)
        (copied b r env) copies := by
  obtain ⟨bytes, d1, call, d2, assign, d3, allocation, d4, copies, hbytes, hcall, hassign, hsexp,
    hcopies, rfl⟩ := prologue_ok h
  have hsize := (Makes.int c (Int64.ofNat env.length * c.options.wordSize)).list hbytes
  have hmalloc := ((Makes.sym c "malloc").append hsize).node hcall
  have hstore := (((Makes.sym c envName).append hmalloc).node hassign).node hsexp
  obtain ⟨ts, hts, hann, hshapes⟩ := copies_make (fun name => name) hcopies
  refine ⟨_, ts, hstore.append hts, ?_, rfl, hshapes⟩
  exact (((node_annotates hbytes).trans (node_annotates hcall)).trans
    ((node_annotates hassign).trans (node_annotates hsexp))).trans hann

theorem collectRest_makes (h : collectRest b c = .ok vs c') :
    ∃ ts, Makes c [] c' vs ts ∧ Annotates X c c' ∧
      ts.map Tree.shape = if b.rest.isEmpty then [] else [collectForm b.rest b.fixed] := by
  rcases collectRest_ok h with ⟨he, rfl, rfl⟩ | ⟨he, count, d1, array, d2, assign, d3, code, hcount,
    harray, hassign, hsexp, rfl⟩
  · exact ⟨[], .keep .nil, .refl _, by rw [if_pos he]; rfl⟩
  · have hsub := ((Makes.sym c "numargs").append (Makes.int c (Int64.ofNat b.fixed))).node hcount
    have hlist := ((Makes.sym c "__splat_to_Array").append
      ((Makes.sym c splatName).append hsub)).list harray
    refine ⟨_, (((Makes.sym c b.rest).append hlist).node hassign).node hsexp, ?_, ?_⟩
    · exact ((node_annotates hcount).trans (node_annotates harray)).trans
        ((node_annotates hassign).trans (node_annotates hsexp))
    · rw [if_neg (by simp [he])]
      rfl

theorem shape_names (mark : Mark) (names : List Text) :
    (Tree.node mark .list (names.map fun x => .leaf (.sym x))).shape = namesForm names := by
  rw [Tree.shape_node, namesForm, List.map_map]
  rfl

end Pass.Environment

end Lowering
