import Lowering.Proofs.Grading
import Lowering.Proofs.WrittenTokens

namespace Lowering

open Forest PassM

/-- The constants and functions of a state, and the nodes that have a function for an operand. -/
structure Register where
  literals : Literals
  labels : Nat
  stem : Text
  functions : List (Int × Text)
  anchors : Int → Prop

namespace Register

variable {r : Register} {id : Int} {n : Node} {v : Operand}

/-- A number on record as that of a function. -/
def IsFunction (r : Register) (x : Int) : Prop := ∃ name, (x, name) ∈ r.functions

/-- A number that belongs to no function and to no assignment of one. -/
def Ordinary (r : Register) (x : Int) : Prop := ¬ r.anchors x ∧ ¬ r.IsFunction x

/-- An operand that is no function. -/
def Free (r : Register) (v : Operand) : Prop := ∀ x, v.child? = some x → ¬ r.IsFunction x

/-- What a node looks like: a function has its name, and what has a function for an operand is an
assignment. -/
structure Knows (r : Register) (id : Int) (n : Node) : Prop where
  name : ∀ name, (id, name) ∈ r.functions → n.tag = .defun ∧ n.args.head? = some (.sym name)
  anchor : r.anchors id → n.tag = .assign
  free : ¬ r.anchors id → ∀ v ∈ n.args, r.Free v

theorem free_of_atom (h : v.child? = none) : r.Free v := by
  intro x hx
  rw [h] at hx
  cases hx

theorem free_ref (h : ¬ r.IsFunction id) : r.Free (.ref id) := by
  intro x hx
  obtain rfl : id = x := by simpa [Operand.child?_ref] using hx
  exact h

theorem Knows.not_anchor (h : r.Knows id n) (ht : n.tag ≠ .assign) : ¬ r.anchors id :=
  fun ha => ht (h.anchor ha)

theorem Knows.not_function (h : r.Knows id n) (ht : n.tag ≠ .defun) : ¬ r.IsFunction id :=
  fun ⟨name, hmem⟩ => ht (h.name name hmem).1

theorem knows_of_ordinary (h : r.Ordinary id) (hargs : ∀ v ∈ n.args, r.Free v) : r.Knows id n where
  name name hmem := absurd ⟨name, hmem⟩ h.2
  anchor ha := absurd ha h.1
  free _ := hargs

theorem Knows.exchange (hf : ¬ r.IsFunction id) (hargs : ∀ v ∈ args, r.Free v) (m : Node)
    (h : r.Knows id m) : r.Knows id { m with args } :=
  ⟨fun name hmem => absurd ⟨name, hmem⟩ hf, h.anchor, fun _ => hargs⟩

/-- The labels that have been given. -/
def given (r : Register) : List Text :=
  r.literals.entries.map (·.label) ++ r.functions.map Prod.snd

/-- Every label that has been given belongs to one constant or to one function, and a constant has
one label. -/
structure Distinct (r : Register) : Prop where
  numbered : ∀ name ∈ r.given, ∃ k ≤ r.labels, name = r.stem ++ Decimal.ofNat k
  names : r.given.Nodup
  values : (r.literals.entries.map (·.value)).Nodup

/-- The label that comes next. -/
def next (r : Register) : Text := r.stem ++ Decimal.ofNat (r.labels + 1)

theorem Distinct.next_not_mem (h : r.Distinct) : r.next ∉ r.given := by
  intro hmem
  obtain ⟨k, hk, heq⟩ := h.numbered _ hmem
  have hbytes : r.stem.bytes ++ (Decimal.ofNat (r.labels + 1)).bytes =
      r.stem.bytes ++ (Decimal.ofNat k).bytes := congrArg Text.bytes heq
  have hsame : Decimal.ofNat (r.labels + 1) = Decimal.ofNat k :=
    congrArg Text.mk (List.append_cancel_left hbytes)
  have := Decimal.ofNat_injective hsame
  omega

theorem Distinct.numbered_next (h : r.Distinct) : ∀ name ∈ r.next :: r.given,
    ∃ k ≤ r.labels + 1, name = r.stem ++ Decimal.ofNat k := by
  intro name hname
  rcases List.mem_cons.mp hname with rfl | hname
  · exact ⟨_, le_rfl, rfl⟩
  · obtain ⟨k, hk, heq⟩ := h.numbered name hname
    exact ⟨k, by omega, heq⟩

/-- A register with other constants and another count. -/
def relabel (r : Register) (literals : Literals) (labels : Nat) : Register :=
  { r with literals, labels }

/-- A register with one more function. -/
def enlist (r : Register) (x : Int) (name : Text) : Register :=
  { r with functions := r.functions ++ [(x, name)] }

theorem isFunction_enlist (h : (r.enlist y name).IsFunction x) : r.IsFunction x ∨ x = y := by
  obtain ⟨name', hmem⟩ := h
  rcases List.mem_append.mp hmem with hmem | hmem
  · exact .inl ⟨name', hmem⟩
  · exact .inr (Prod.ext_iff.mp (List.mem_singleton.mp hmem)).1

/-- A register with one more assignment of a function. -/
def anchor (r : Register) (x : Int) : Register := { r with anchors := fun y => y = x ∨ r.anchors y }

/-- A register in which a node assigns no function any more. -/
def release (r : Register) (x : Int) : Register :=
  { r with anchors := fun y => r.anchors y ∧ y ≠ x }

theorem Distinct.intern (h : r.Distinct) (hk : r.literals.labelOf? k = none) :
    (r.relabel (r.literals.add r.next k) (r.labels + 1)).Distinct := by
  have hperm : (r.relabel (r.literals.add r.next k) (r.labels + 1)).given.Perm
      (r.next :: r.given) := by
    simp only [given, relabel, Literals.add, List.map_append, List.map_cons, List.map_nil,
      List.append_assoc, List.singleton_append]
    exact List.perm_middle
  refine ⟨fun name hname => h.numbered_next name (hperm.mem_iff.mp hname), ?_, ?_⟩
  · exact hperm.nodup_iff.mpr (List.nodup_cons.mpr ⟨h.next_not_mem, h.names⟩)
  · simp only [relabel, Literals.add, List.map_append, List.map_cons, List.map_nil]
    refine h.values.append (List.nodup_singleton _) ?_
    rw [List.disjoint_singleton]
    intro hmem
    obtain ⟨e, he, heq⟩ := List.mem_map.mp hmem
    simp only [Literals.labelOf?, Option.map_eq_none_iff, List.find?_eq_none] at hk
    exact hk e he (by simpa using heq)

theorem Distinct.enlist (h : r.Distinct) (x : Int) :
    ((r.relabel r.literals (r.labels + 1)).enlist x r.next).Distinct := by
  have hgiven : ((r.relabel r.literals (r.labels + 1)).enlist x r.next).given =
      r.given ++ [r.next] := by
    simp [given, Register.enlist, relabel]
  refine ⟨fun name hname => h.numbered_next name ?_, ?_, h.values⟩
  · rw [hgiven] at hname
    simpa [or_comm] using hname
  · rw [hgiven]
    exact h.names.append (List.nodup_singleton _) (List.disjoint_singleton.mpr h.next_not_mem)

end Register

/-- A state whose constants and labels are the registered ones. -/
structure Ledger (r : Register) (c : Context) : Prop where
  literals : c.literals = r.literals
  labels : c.labels = r.labels
  stem : c.options.labelStem = r.stem
  hoisted : c.hoisted = r.functions.map Prod.fst

/-- A state whose functions are the registered ones, each with its name. -/
structure Recorded (r : Register) (c : Context) : Prop where
  nodes : ∀ x n, c.forest.get? x = some n → r.Knows x n
  functions : ∀ x, r.IsFunction x → c.forest.Has x
  anchors : ∀ x, r.anchors x → c.forest.Has x
  groups : ∀ g ∈ c.shared, ∀ x ∈ g, r.Ordinary x

/-- A state and what is on record of it. -/
structure Registered (r : Register) (c : Context) : Prop extends Recorded r c, Ledger r c

/-- A state in which every label has been given once, with the roots its passes may be run on. -/
def Labelled (stem : Text) (roots : List Int) (c : Context) : Prop :=
  ∃ r : Register, r.stem = stem ∧ (∀ x ∈ roots, c.forest.Has x ∧ r.Ordinary x) ∧ r.Distinct ∧
    Registered r c

namespace Recorded

variable {r : Register} {c c' : Context} {id : Int} {n m : Node} {args : List Operand}

theorem new_ordinary (h : Recorded r c) : r.Ordinary ((c.forest.size : Int) + 1) :=
  ⟨fun ha => (h.anchors _ ha).ne_new rfl, fun hf => (h.functions _ hf).ne_new rfl⟩

theorem sharer (h : Recorded r c) : ∀ x ∈ c.sharers id, x = id ∨ r.Ordinary id ∧ r.Ordinary x := by
  intro x hx
  unfold Context.sharers at hx
  cases hg : c.shared.find? (·.contains id) with
  | none =>
    rw [hg] at hx
    exact .inl (by simpa using hx)
  | some g =>
    rw [hg, Option.getD_some] at hx
    have hmem := List.mem_of_find?_eq_some hg
    have hin : id ∈ g := by simpa using List.find?_some hg
    exact .inr ⟨h.groups g hmem id hin, h.groups g hmem x hx⟩

theorem add (h : Recorded r c) (hargs : ∀ v ∈ n.args, r.Free v) : Recorded r (c.add n) where
  nodes x m hm := by
    rw [Context.add_forest, get?_push] at hm
    split at hm
    · rename_i hx
      cases hm
      exact hx ▸ Register.knows_of_ordinary h.new_ordinary hargs
    · exact h.nodes x m hm
  functions x hx := (h.functions x hx).push n
  anchors x hx := (h.anchors x hx).push n
  groups := h.groups

/-- Nodes are replaced by others that are known alike, and none goes away. -/
theorem refit (h : Recorded r c) (hf : ∀ x, c.forest.Has x → c'.forest.Has x)
    (hn : ∀ x n, c'.forest.get? x = some n → r.Knows x n) (hs : c'.shared = c.shared) :
    Recorded r c' where
  nodes := hn
  functions x hx := hf x (h.functions x hx)
  anchors x hx := hf x (h.anchors x hx)
  groups := hs ▸ h.groups

theorem put (h : Recorded r c) (hk : r.Knows id n) : Recorded r (c.put id n) := by
  refine h.refit (fun x hx => hx.set n) (fun x m hm => ?_) rfl
  rw [Context.put_forest, get?_set] at hm
  split at hm
  · rename_i hx
    obtain ⟨_, -, rfl⟩ := Option.map_eq_some_iff.mp hm
    exact hx ▸ hk
  · exact h.nodes x m hm

/-- Groups of plain nodes may be changed. -/
theorem regroup (h : Recorded r c) (hs : ∀ g ∈ shared, ∀ x ∈ g, r.Ordinary x) :
    Recorded r { c with shared } :=
  ⟨h.nodes, h.functions, h.anchors, hs⟩

theorem detach (h : Recorded r c) (id : Int) : Recorded r (c.detach id) := by
  refine h.regroup fun g hg x hx => ?_
  obtain ⟨g0, hg0, rfl⟩ := Context.mem_detach (c := c) hg
  exact h.groups g0 hg0 x (List.mem_filter.mp hx).1

theorem share (h : Recorded r c) (hid : r.Ordinary id) (hnew : r.Ordinary new) :
    Recorded r (c.share id new) := by
  refine h.regroup fun g hg x hx => ?_
  rcases List.mem_cons.mp hg with rfl | hg
  · rcases List.mem_cons.mp hx with rfl | hx
    · exact hnew
    · exact (h.sharer x hx).elim (fun he => he ▸ hid) fun hp => hp.2
  · exact h.groups g (List.mem_filter.mp hg).1 x hx

theorem handOver (h : Recorded r c) (hnew : r.Ordinary new) : Recorded r (c.handOver id new) := by
  refine h.regroup fun g hg x hx => ?_
  obtain ⟨g0, hg0, rfl⟩ := List.mem_map.mp hg
  obtain ⟨y, hy, rfl⟩ := List.mem_map.mp hx
  split
  · exact hnew
  · exact h.groups g0 hg0 y hy

/-- A node that shares its operands is plain, and so are the others that get them. -/
theorem setArgs (h : Recorded r c) (hk : ∀ m, r.Knows id m → r.Knows id { m with args })
    (hset : PassM.setArgs id args c = .ok u c') : Recorded r c' := by
  obtain ⟨hshared, hex, hget⟩ := setArgs_frame hset
  obtain ⟨m, hm⟩ := hex id (mem_sharers c id)
  have hargs := hk m (h.nodes id m hm)
  refine h.refit (fun x ⟨k, hx⟩ => ?_) (fun x k hx => ?_) hshared
  · unfold Has
    rw [hget, hx]
    split
    · exact ⟨_, rfl⟩
    · exact ⟨k, rfl⟩
  · rw [hget] at hx
    split at hx
    · rename_i hsharer
      obtain ⟨k', hk', rfl⟩ := Option.map_eq_some_iff.mp hx
      obtain rfl | ⟨hid, hplain⟩ := h.sharer x hsharer
      · exact hk k' (h.nodes x k' hk')
      · exact Register.knows_of_ordinary hplain (hargs.free hid.1)
    · exact h.nodes x k hx

theorem congr (h : Recorded r c) (hf : c'.forest = c.forest) (hs : c'.shared = c.shared) :
    Recorded r c' :=
  h.refit (fun _ hx => hf ▸ hx) (fun x n hn => h.nodes x n (hf ▸ hn)) hs

theorem relabel (h : Recorded r c) (l : Literals) (k : Nat) : Recorded (r.relabel l k) c :=
  ⟨fun x n hn => ⟨(h.nodes x n hn).name, (h.nodes x n hn).anchor, (h.nodes x n hn).free⟩,
    h.functions, h.anchors, h.groups⟩

theorem addAnchor (h : Recorded r c) (hshared : ∀ g ∈ c.shared, ∀ x ∈ g, c.forest.Has x)
    (ht : n.tag = .assign) :
    Recorded (r.anchor ((c.forest.size : Int) + 1)) (c.add n) := by
  refine ⟨fun x m hm => ?_, fun x hx => (h.functions x hx).push n, fun x hx => ?_,
    fun g hg x hx => ?_⟩
  · rw [Context.add_forest, get?_push] at hm
    split at hm
    · rename_i hx
      cases hm
      refine ⟨fun name hmem => ?_, fun _ => ht, fun ha => absurd (.inl hx) ha⟩
      exact absurd ⟨name, hx ▸ hmem⟩ h.new_ordinary.2
    · rename_i hx
      have hk := h.nodes x m hm
      exact ⟨hk.name, fun ha => hk.anchor (ha.resolve_left hx),
        fun ha => hk.free fun h => ha (.inr h)⟩
  · rcases hx with rfl | hx
    · exact has_push_self _ _
    · exact (h.anchors x hx).push n
  · have hp := h.groups g hg x hx
    exact ⟨fun ha => ha.elim (hshared g hg x hx).ne_new hp.1, hp.2⟩

/-- A new function. No node has it for an operand yet. -/
theorem enlist (h : Recorded r c) (hshared : ∀ g ∈ c.shared, ∀ x ∈ g, c.forest.Has x)
    (hvalid : c.forest.Valid) (ht : n.tag = .defun) (hname : n.args.head? = some (.sym name))
    (hargs : ∀ v ∈ n.args, r.Free v) (hhas : ∀ x ∈ n.children, c.forest.Has x) :
    Recorded (r.enlist ((c.forest.size : Int) + 1) name) (c.add n) := by
  have hold : ∀ {x}, c.forest.Has x → ¬ r.IsFunction x →
      ¬ (r.enlist ((c.forest.size : Int) + 1) name).IsFunction x :=
    fun hx hf hf' => (Register.isFunction_enlist hf').elim hf hx.ne_new
  have hfree : ∀ {m : Node}, (∀ x ∈ m.children, c.forest.Has x) → ∀ v ∈ m.args, r.Free v →
      (r.enlist ((c.forest.size : Int) + 1) name).Free v := by
    intro m hm v hv hf x hx
    exact hold (hm x (List.mem_filterMap.mpr ⟨v, hv, hx⟩)) (hf x hx)
  refine ⟨fun x m hm => ?_, fun x hx => ?_, fun x hx => (h.anchors x hx).push n,
    fun g hg x hx => ?_⟩
  · rw [Context.add_forest, get?_push] at hm
    split at hm
    · rename_i hx
      cases hm
      subst hx
      refine ⟨fun name' hmem => ⟨ht, ?_⟩, fun ha => absurd ha h.new_ordinary.1, fun _ v hv => ?_⟩
      · rcases List.mem_append.mp hmem with hmem | hmem
        · exact absurd ⟨name', hmem⟩ h.new_ordinary.2
        · obtain rfl : name' = name := (Prod.ext_iff.mp (List.mem_singleton.mp hmem)).2
          exact hname
      · exact hfree hhas v hv (hargs v hv)
    · rename_i hx
      have hk := h.nodes x m hm
      refine ⟨fun name' hmem => ?_, hk.anchor, fun ha v hv => ?_⟩
      · rcases List.mem_append.mp hmem with hmem | hmem
        · exact hk.name name' hmem
        · exact absurd (Prod.ext_iff.mp (List.mem_singleton.mp hmem)).1 hx
      · exact hfree (hvalid x m hm) v hv (hk.free ha v hv)
  · rcases Register.isFunction_enlist hx with hx | rfl
    · exact (h.functions x hx).push n
    · exact has_push_self _ _
  · have hp := h.groups g hg x hx
    exact ⟨hp.1, hold (hshared g hg x hx) hp.2⟩

/-- A node that gets operands none of which is a function. -/
theorem release (h : Recorded r c) (hid : ¬ r.IsFunction id) (hargs : ∀ v ∈ n.args, r.Free v) :
    Recorded (r.release id) ((c.put id n).detach id) := by
  have hput : Recorded (r.release id) (c.put id n) := by
    refine ⟨fun x m hm => ?_, fun x hx => (h.functions x hx).set n,
      fun x hx => (h.anchors x hx.1).set n,
      fun g hg x hx => ⟨fun ha => (h.groups g hg x hx).1 ha.1, (h.groups g hg x hx).2⟩⟩
    rw [Context.put_forest, get?_set] at hm
    split at hm
    · rename_i hx
      obtain ⟨_, -, rfl⟩ := Option.map_eq_some_iff.mp hm
      subst hx
      exact Register.knows_of_ordinary ⟨fun ha => ha.2 rfl, hid⟩ hargs
    · rename_i hx
      have hk := h.nodes x m hm
      exact ⟨hk.name, fun ha => hk.anchor ha.1, fun ha => hk.free fun h => ha ⟨h, hx⟩⟩
  exact hput.detach id

end Recorded

/-- From a state on, no node that was there has become a function or got one for an operand, and if
the tables were the registered ones, then so they are. -/
structure Booked (c d : Context) (r r1 : Register) : Prop where
  function : ∀ x, c.forest.Has x → r1.IsFunction x → r.IsFunction x
  anchor : ∀ x, c.forest.Has x → r1.anchors x → r.anchors x
  ledger : r.Distinct ∧ Ledger r c → r1.Distinct ∧ Ledger r1 d
  stem : r1.stem = r.stem

namespace Booked

variable {r r1 r2 : Register} {c c1 c2 : Context} {id : Int}

theorem same (h : c1.literals = c.literals ∧ c1.labels = c.labels ∧ c1.options = c.options ∧
    c1.hoisted = c.hoisted) : Booked c c1 r r where
  function _ _ hf := hf
  anchor _ _ ha := ha
  ledger hl := ⟨hl.1, h.1.trans hl.2.literals, h.2.1.trans hl.2.labels, h.2.2.1 ▸ hl.2.stem,
    h.2.2.2.trans hl.2.hoisted⟩
  stem := rfl

theorem trans (h : Booked c c1 r r1) (h' : Booked c1 c2 r1 r2)
    (hkept : ∀ x, c.forest.Has x → c1.forest.Has x) : Booked c c2 r r2 where
  function x hx hf := h.function x hx (h'.function x (hkept x hx) hf)
  anchor x hx ha := h.anchor x hx (h'.anchor x (hkept x hx) ha)
  ledger hl := h'.ledger (h.ledger hl)
  stem := h'.stem.trans h.stem

theorem plain (h : Booked c c1 r r1) (hid : c.forest.Has id) (hp : r.Ordinary id) :
    r1.Ordinary id :=
  ⟨fun ha => hp.1 (h.anchor id hid ha), fun hf => hp.2 (h.function id hid hf)⟩

theorem release (h : Booked c c1 r r) : Booked c c1 r (r.release id) where
  function := h.function
  anchor x hx ha := h.anchor x hx ha.1
  ledger hl := by
    obtain ⟨hd, h1, h2, h3, h4⟩ := h.ledger hl
    exact ⟨⟨hd.numbered, hd.names, hd.values⟩, h1, h2, h3, h4⟩
  stem := rfl

theorem intern (hk : c.literals.labelOf? k = none) :
    let literals := c.literals.add (c.options.labelStem ++ Decimal.ofNat (c.labels + 1)) k
    Booked c { c with literals, labels := c.labels + 1 } r (r.relabel literals (c.labels + 1)) := by
  refine ⟨fun _ _ hf => hf, fun _ _ ha => ha,
    fun ⟨hd, hl⟩ => ⟨?_, rfl, rfl, hl.stem, hl.hoisted⟩, rfl⟩
  rw [hl.stem, hl.literals, hl.labels]
  exact hd.intern (hl.literals ▸ hk)

theorem enlist :
    Booked c
      { c.add n with
        labels := c.labels + 1, hoisted := c.hoisted ++ [(c.forest.size : Int) + 1] } r
      ((r.relabel r.literals (r.labels + 1)).enlist ((c.forest.size : Int) + 1)
        (c.options.labelStem ++ Decimal.ofNat (c.labels + 1))) := by
  refine ⟨fun x hx hf => (Register.isFunction_enlist hf).resolve_right hx.ne_new, fun _ _ ha => ha,
    fun ⟨hd, hl⟩ => ⟨?_, hl.literals, congrArg (· + 1) hl.labels, hl.stem, ?_⟩, rfl⟩
  · rw [hl.stem, hl.labels]
    exact hd.enlist _
  · rw [Register.enlist, List.map_append]
    exact congrArg (· ++ _) hl.hoisted

end Booked

end Lowering
