import Lowering.Proofs.Budgets
import Lowering.Proofs.WrittenTokens

namespace Lowering

namespace Forest

/-- Nodes stand after the nodes below them. -/
def Ordered (f : Forest) : Prop :=
  ∀ id n, f.get? id = some n → ∀ child ∈ n.children, 0 < child ∧ child < id

theorem Ordered.acyclic {f : Forest} (h : f.Ordered) : f.Acyclic := by
  have below : ∀ a b, Relation.TransGen f.Child a b → b < a := by
    intro a b hab
    induction hab with
    | single hab =>
      obtain ⟨n, hn, hc⟩ := hab
      exact (h _ n hn _ hc).2
    | tail _ hbc ih =>
      obtain ⟨n, hn, hc⟩ := hbc
      have := (h _ n hn _ hc).2
      omega
  intro id hid
  have := below id id hid
  omega

theorem Ordered.valid {f : Forest} (h : f.Ordered) : f.Valid := by
  intro id n hn child hc
  have hb := get?_eq_some_bounds hn
  have := h id n hn child hc
  exact get?_of_bounds this.1 (by omega)

/-- A forest with no more than the trees of some operands needs: no node is in two of them, or twice
in one. -/
structure Grown (f : Forest) (vs : List Operand) : Prop where
  ordered : f.Ordered
  plain : ∀ id n, f.get? id = some n → n.notes = {}
  trees : ∃ ts, List.Forall₂ (Denotes f) vs ts ∧ (ts.flatMap Tree.ids).Nodup

theorem grown_empty : Grown {} [] where
  ordered id n hn := by simp [get?] at hn
  plain id n hn := by simp [get?] at hn
  trees := ⟨[], .nil, by simp⟩

/-- Nodes have been added to a forest: they stand after the nodes below them, which are new as well,
and have no annotations. -/
structure Sprung (base f : Forest) : Prop where
  grows : Grows base f
  ordered : ∀ id n, (base.size : Int) < id → f.get? id = some n →
    ∀ child ∈ n.children, (base.size : Int) < child ∧ child < id
  plain : ∀ id n, (base.size : Int) < id → f.get? id = some n → n.notes = {}

/-- The nodes that have been added make up the trees of some operands: no node is in two of them, or
twice in one. -/
structure GrownOver (base f : Forest) (vs : List Operand) : Prop extends Sprung base f where
  trees : ∃ ts, List.Forall₂ (Denotes f) vs ts ∧ (ts.flatMap Tree.ids).Nodup ∧
    ∀ x ∈ ts.flatMap Tree.ids, (base.size : Int) < x

theorem grownOver_self (f : Forest) : GrownOver f f [] where
  grows := .refl f
  ordered id n hid hn := by
    have := (get?_eq_some_bounds hn).2
    omega
  plain id n hid hn := by
    have := (get?_eq_some_bounds hn).2
    omega
  trees := ⟨[], .nil, by simp, by simp⟩

theorem GrownOver.grown (h : GrownOver {} f vs) : Grown f vs := by
  have hpos : ∀ {id n}, f.get? id = some n → ((({} : Forest).size : Nat) : Int) < id := fun hn =>
    (get?_eq_some_bounds hn).1
  obtain ⟨ts, hts, hd, -⟩ := h.trees
  exact ⟨fun id n hn => h.ordered id n (hpos hn) hn, fun id n hn => h.plain id n (hpos hn) hn,
    ts, hts, hd⟩

variable {base : Forest}

theorem GrownOver.atom (h : GrownOver base f vs) (hv : v.view = .atom a) :
    GrownOver base f (v :: vs) := by
  obtain ⟨ts, hts, hd, hnew⟩ := h.trees
  exact ⟨h.toSprung, .leaf a :: ts, .cons hv hts, by simpa [Tree.ids] using hd,
    by simpa [Tree.ids] using hnew⟩

/-- A new node over operands, the last one first, takes their place. Some of the first operands may
be left out. -/
theorem GrownOver.node {elems rest pre : List Operand} (h : GrownOver base f (elems ++ rest))
    (hargs : elems.reverse = pre ++ n.args) (hn : n.notes = {}) :
    GrownOver base (f.push n) (.ref ((f.size : Int) + 1) :: rest) := by
  obtain ⟨ts, hts, hd, hnew⟩ := h.trees
  obtain ⟨ts1, ts2, h1, h2, rfl⟩ := forall₂_append_left hts
  have h1 := List.forall₂_reverse_iff.mpr h1
  rw [hargs] at h1
  obtain ⟨tp, ta, -, ha, hrev⟩ := forall₂_append_left h1
  have old : ∀ {vs : List Operand} {ss : List (Tree Mark)}, List.Forall₂ (Denotes f) vs ss →
      List.Forall₂ (Denotes (f.push n)) vs ss :=
    fun hss => hss.imp fun _ _ hd => hd.grow (grows_push f n)
  have hperm : (ts1 ++ ts2).Perm (tp ++ (ta ++ ts2)) := by
    rw [← List.append_assoc, ← hrev]
    exact (List.reverse_perm ts1).symm.append_right ts2
  have hids := hperm.flatMap_right Tree.ids
  have hsize := h.grows.size
  have hta : ∀ x ∈ (ta ++ ts2).flatMap Tree.ids, (base.size : Int) < x := by
    intro x hx
    apply hnew x
    rw [hids.mem_iff, List.flatMap_append]
    exact List.mem_append_right _ hx
  refine ⟨⟨h.grows.trans (grows_push f n), ?_, ?_⟩,
    .node ⟨(f.size : Int) + 1, n.pos⟩ n.tag ta :: ts2, ?_, ?_, ?_⟩
  · intro id m hid hm child hc
    rw [get?_push] at hm
    split at hm
    · rename_i heq
      cases hm
      obtain ⟨v, hv, hvc⟩ := List.mem_filterMap.mp hc
      obtain ⟨t, ht, hd⟩ := forall₂_mem_left ha hv
      have hmem := hd.child_mem_ids hvc
      have hbounds := hd.ids_bounds child hmem
      refine ⟨hta child (List.mem_flatMap.mpr ⟨t, List.mem_append_left _ ht, hmem⟩), by omega⟩
    · exact h.ordered id m hid hm child hc
  · intro id m hid hm
    rw [get?_push] at hm
    split at hm
    · cases hm
      exact hn
    · exact h.plain id m hid hm
  · exact .cons (denotes_node.mpr ⟨rfl, n, get?_push_self f n, rfl, rfl, old ha⟩) (old h2)
  · rw [List.flatMap_cons, Tree.ids_node, List.cons_append, List.nodup_cons, ← List.flatMap_append]
    constructor
    · intro hm
      obtain ⟨t, ht, hid⟩ := List.mem_flatMap.mp hm
      have hbound : ∀ id ∈ t.ids, id ≤ f.size := by
        rcases List.mem_append.mp ht with ht | ht
        · obtain ⟨v, -, hd⟩ := forall₂_mem_left ha.flip ht
          exact fun id hid => (hd.ids_bounds id hid).2
        · obtain ⟨v, -, hd⟩ := forall₂_mem_left h2.flip ht
          exact fun id hid => (hd.ids_bounds id hid).2
      have := hbound _ hid
      simp only at this
      omega
    · have hd' := hids.nodup_iff.mp hd
      rw [List.flatMap_append] at hd'
      exact hd'.of_append_right
  · rw [List.flatMap_cons, Tree.ids_node, List.cons_append, List.forall_mem_cons,
      ← List.flatMap_append]
    exact ⟨by simp only; omega, hta⟩

end Forest

/-- An atom as an operand. -/
def Atom.operand : Atom → Operand
  | nil => .nil
  | sym name => .sym name
  | str text => .str text
  | int value => .int value
  | unknown kind => { kind }

/-- The operand that a token stands for by itself. -/
def Token.Kind.operand? : Kind → Option Operand
  | .atom text => some (Reader.atom text)
  | .string body => (Quoted.decodeBody body).map .str
  | _ => none

/-- Why a token is refused wherever it stands. -/
def Token.Kind.fault? : Kind → Option ReadError.Cause
  | .string body => if (Quoted.decodeBody body).isNone then some .badString else none
  | .unclosed => some .unterminatedString
  | _ => none

theorem Token.StandsAlone.operand {t : Token} (h : t.StandsAlone) (hv : t.kind.operand? = some v) :
    ∃ a : Atom, v = a.operand ∧ a.operand.view = .atom a ∧ a.Writable := by
  cases hk : t.kind with
  | opening | closing | unclosed => simp [hk, Kind.operand?] at hv
  | atom text =>
    rw [hk] at hv
    obtain rfl := Option.some.inj hv
    obtain ⟨hne, hplain⟩ := h text hk
    unfold Reader.atom
    split
    · exact ⟨.nil, rfl, rfl, trivial⟩
    · rename_i hnil
      split
      · exact ⟨.int _, rfl, rfl, trivial⟩
      · exact ⟨.sym text, rfl, rfl, hne, hplain, hnil, ‹_›⟩
  | string body =>
    rw [hk] at hv
    obtain ⟨text, -, rfl⟩ := Option.map_eq_some_iff.mp hv
    exact ⟨.str text, rfl, rfl, trivial⟩

namespace Reader

open Forest

variable {p p' : Progress} {base f f' : Forest}

/-- The operands that no node has yet, in the order in which they will be used up. -/
def Progress.pending (p : Progress) : List Operand := p.opened.flatMap (·.elems) ++ p.forms

theorem pending_add (p : Progress) (v : Operand) : (p.add v).pending = v :: p.pending := by
  unfold Progress.add Progress.pending
  cases h : p.opened <;> simp

/-- The operands of a list become those of its node, but for a first one that names its tag. -/
theorem listNode_args (pos : Position) (elems : List Operand) :
    (∃ pre, elems = pre ++ (listNode pos elems).args ∧ (pre = [] ∨ ∃ v, pre = [v] ∧ v.isSymbol)) ∧
      (listNode pos elems).notes = {} ∧ (listNode pos elems).tag ∈ Tag.assigned := by
  have hlist : Tag.list ∈ Tag.assigned := by decide
  unfold listNode
  split
  · exact ⟨⟨[], rfl, .inl rfl⟩, rfl, hlist⟩
  · rename_i first rest
    split
    · rename_i tag htag
      obtain ⟨name, -, hfind⟩ := Option.bind_eq_some_iff.mp htag
      refine ⟨⟨[first], rfl, .inr ⟨first, rfl, ?_⟩⟩, rfl, List.mem_of_find?_eq_some hfind⟩
      by_contra hs
      simp [Operand.symbol?, hs] at htag
    · exact ⟨⟨[], rfl, .inl rfl⟩, rfl, hlist⟩

theorem listNode_pos (pos : Position) (elems : List Operand) : (listNode pos elems).pos = pos := by
  unfold listNode
  split
  · rfl
  · split <;> rfl

theorem alloc_ok {n : Node} {id : Int} : alloc n f = .ok id f' ↔
    id = (f.size : Int) + 1 ∧ f' = f.push n := by
  unfold alloc
  simp only [bind_ok, modify_ok, get_ok, pure_ok]
  constructor
  · rintro ⟨_, d, rfl, _, _, ⟨rfl, rfl⟩, h, rfl⟩
    exact ⟨by simpa using h.symm, rfl⟩
  · rintro ⟨rfl, rfl⟩
    exact ⟨⟨⟩, _, rfl, _, _, ⟨rfl, rfl⟩, by simp, rfl⟩

/-- What one token does to a reader. -/
inductive Stepped (p : Progress) (f : Forest) (t : Token) :
    EStateM.Result ReadError Forest Progress → Prop where
  | opening (kind : t.kind = .opening) :
      Stepped p f t (.ok { p with opened := ⟨t.pos, []⟩ :: p.opened } f)
  | closing {inner : OpenList} {outer : List OpenList} (kind : t.kind = .closing)
      (opened : p.opened = inner :: outer) :
      Stepped p f t (.ok (Progress.add { p with opened := outer } (.ref ((f.size : Int) + 1)))
        (f.push (listNode inner.pos inner.elems.reverse)))
  | value {v : Operand} (operand : t.kind.operand? = some v) : Stepped p f t (.ok (p.add v) f)
  | unmatched (kind : t.kind = .closing) (closed : p.opened = []) :
      Stepped p f t (.error ⟨t.pos, .unexpectedClosing⟩ f)
  | faulty {cause : ReadError.Cause} (fault : t.kind.fault? = some cause) :
      Stepped p f t (.error ⟨t.pos, cause⟩ f)

theorem stepped (p : Progress) (f : Forest) (t : Token) : Stepped p f t (step p t f) := by
  unfold step
  cases hk : t.kind with
  | opening => exact .opening hk
  | closing =>
    cases ho : p.opened with
    | nil => exact .unmatched hk ho
    | cons inner outer =>
      have hclose : (do
          let id ← alloc (listNode inner.pos inner.elems.reverse)
          return Progress.add { p with opened := outer } (.ref id) : ReadM Progress) f = .ok _ _ :=
        bind_ok.mpr ⟨_, _, alloc_ok.mpr ⟨rfl, rfl⟩, rfl⟩
      dsimp only
      rw [hclose]
      exact .closing hk ho
  | atom text => exact .value (by rw [hk]; rfl)
  | string body =>
    cases hq : Quoted.decodeBody body with
    | none =>
      simp only [hq]
      exact .faulty (by simp [hk, Token.Kind.fault?, hq])
    | some text =>
      simp only [hq]
      exact .value (by simp [hk, Token.Kind.operand?, hq])
  | unclosed => exact .faulty (by rw [hk]; rfl)

theorem forms_ok : forms tokens base = .ok vs f ↔
    ∃ p, tokens.foldlM step {} base = .ok p f ∧ p.opened = [] ∧ vs = p.forms.reverse := by
  unfold forms
  rw [bind_ok]
  constructor
  · rintro ⟨p, d, hfold, h⟩
    cases ho : p.opened with
    | nil =>
      rw [ho] at h
      obtain ⟨rfl, rfl⟩ := pure_ok.mp h
      exact ⟨p, hfold, ho, rfl⟩
    | cons inner outer =>
      rw [ho] at h
      exact absurd h throw_ok
  · rintro ⟨p, hfold, ho, rfl⟩
    refine ⟨p, f, hfold, ?_⟩
    rw [ho]
    rfl

theorem forms_error : forms tokens base = .error e f ↔
    tokens.foldlM step {} base = .error e f ∨
    ∃ p inner outer, tokens.foldlM step {} base = .ok p f ∧
      p.opened = inner :: outer ∧ e = ⟨inner.pos, .unterminatedList⟩ := by
  unfold forms
  rw [bind_error]
  refine or_congr_right ⟨?_, ?_⟩
  · rintro ⟨p, d, hfold, h⟩
    cases ho : p.opened with
    | nil =>
      rw [ho] at h
      exact absurd h pure_error
    | cons inner outer =>
      rw [ho] at h
      cases h
      exact ⟨p, inner, outer, hfold, ho, rfl⟩
  · rintro ⟨p, inner, outer, hfold, ho, rfl⟩
    refine ⟨p, f, hfold, ?_⟩
    rw [ho]
    rfl

/-- What the forms of a source stand for: a node by itself, or all of them under one more node. -/
inductive RootOf (file : Text) (vs : List Operand) (d : Forest) : Int → Forest → Prop where
  | single {v : Operand} {root : Int} (forms : vs = [v]) (child : v.child? = some root) :
      RootOf file vs d root d
  | wrapped (several : ∀ v root, vs = [v] → v.child? ≠ some root) :
      RootOf file vs d ((d.size : Int) + 1)
        (d.push { tag := .block, args := vs, pos := Position.start file })

theorem read_ok (h : read file source base = .ok root f) :
    ∃ vs d, forms (Token.scan file source) base = .ok vs d ∧ RootOf file vs d root f := by
  unfold read at h
  obtain ⟨vs, d, hforms, h⟩ := bind_ok.mp h
  refine ⟨vs, d, hforms, ?_⟩
  have wrapped : (∀ v root, vs = [v] → v.child? ≠ some root) →
      alloc { tag := .block, args := vs, pos := Position.start file } d = .ok root f →
      RootOf file vs d root f := by
    intro hno h
    obtain ⟨rfl, rfl⟩ := alloc_ok.mp h
    exact .wrapped hno
  match vs with
  | [] => exact wrapped nofun h
  | [v] =>
    cases hv : v.child? with
    | none =>
      simp only [hv] at h
      refine wrapped (fun w root hw => ?_) h
      cases hw
      simp [hv]
    | some id =>
      simp only [hv] at h
      obtain ⟨rfl, rfl⟩ := pure_ok.mp h
      exact .single rfl hv
  | _ :: _ :: _ => exact wrapped nofun h

theorem read_error (h : read file source base = .error e f) :
    forms (Token.scan file source) base = .error e f := by
  unfold read at h
  rcases bind_error.mp h with h | ⟨vs, d, -, h⟩
  · exact h
  · match vs with
    | [] | _ :: _ :: _ => cases h
    | [v] => cases hv : v.child? <;> simp only [hv] at h <;> cases h

/-- A property of a forest and of the operands that no node has yet which the reader keeps: by
taking one more atom, and by making a node of the last operands. A symbol in front of them may be
its tag. -/
structure KeptByReader (I : Forest → List Operand → Prop) : Prop where
  atom {f : Forest} {vs : List Operand} {a : Atom} :
    I f vs → a.operand.view = .atom a → a.Writable → I f (a.operand :: vs)
  node {f : Forest} {elems rest pre : List Operand} {n : Node} :
    I f (elems ++ rest) → elems.reverse = pre ++ n.args → (pre = [] ∨ ∃ v, pre = [v] ∧ v.isSymbol) →
      n.notes = {} → n.tag ∈ Tag.assigned → I (f.push n) (.ref ((f.size : Int) + 1) :: rest)

namespace KeptByReader

variable {I : Forest → List Operand → Prop}

theorem step {t : Token} (hI : KeptByReader I) (ht : t.StandsAlone) (hg : I f p.pending)
    (h : Reader.step p t f = .ok p' f') : I f' p'.pending := by
  have hstep := stepped p f t
  rw [h] at hstep
  cases hstep with
  | opening => simpa [Progress.pending] using hg
  | @closing inner outer kind opened =>
    obtain ⟨⟨pre, hpre, hfirst⟩, hnotes, htag⟩ := listNode_args inner.pos inner.elems.reverse
    rw [pending_add]
    have hg : I f (inner.elems ++ Progress.pending { opened := outer, forms := p.forms }) := by
      simpa [Progress.pending, opened] using hg
    exact hI.node hg hpre hfirst hnotes htag
  | value operand =>
    obtain ⟨a, rfl, hview, hw⟩ := ht.operand operand
    rw [pending_add]
    exact hI.atom hg hview hw

theorem foldlM {tokens : List Token} (hI : KeptByReader I) (ht : ∀ t ∈ tokens, t.StandsAlone)
    (hg : I f p.pending) (h : tokens.foldlM Reader.step p f = .ok p' f') : I f' p'.pending := by
  induction tokens generalizing p f with
  | nil =>
    obtain ⟨rfl, rfl⟩ := pure_ok.mp h
    exact hg
  | cons t tokens ih =>
    obtain ⟨hfirst, hrest⟩ := List.forall_mem_cons.mp ht
    rw [List.foldlM_cons] at h
    obtain ⟨q, d, hstep, h⟩ := bind_ok.mp h
    exact ih hrest (hI.step hfirst hg hstep) h

/-- What the reader keeps holds of the root in the end. -/
theorem read {file source : Text} (hI : KeptByReader I) (hg : I base [])
    (h : Reader.read file source base = .ok root f) : ∃ v, v.child? = some root ∧ I f [v] := by
  obtain ⟨vs, d, hforms, hroot⟩ := read_ok h
  obtain ⟨p, hfold, ho, rfl⟩ := forms_ok.mp hforms
  have hg : I d p.pending := hI.foldlM (p := {}) (Token.scan_standsAlone file source) hg hfold
  have hg : I d (p.forms ++ []) := by simpa [Progress.pending, ho] using hg
  cases hroot with
  | @single v root hv hchild =>
    refine ⟨v, hchild, ?_⟩
    rwa [List.append_nil, ← List.reverse_reverse p.forms, hv] at hg
  | wrapped =>
    have hblock : Tag.block ∈ Tag.assigned := by decide
    exact ⟨_, Operand.child?_ref _, hI.node hg (List.nil_append _).symm (.inl rfl) rfl hblock⟩

end KeptByReader

theorem keptByReader_grown : KeptByReader (GrownOver base) where
  atom hg hview _ := hg.atom hview
  node hg hargs _ hnotes _ := hg.node hargs hnotes

theorem read_grown (h : read file source base = .ok root f) : GrownOver base f [.ref root] := by
  obtain ⟨v, hv, hg⟩ := keptByReader_grown.read (grownOver_self base) h
  obtain ⟨ts, hts, hd, hnew⟩ := hg.trees
  obtain ⟨t, _, ht, hnil, rfl⟩ := List.forall₂_cons_left_iff.mp hts
  exact ⟨hg.toSprung, _, .cons (ht.congr (Operand.view_eq_child.mpr hv)) hnil, hd, hnew⟩

theorem step_error (h : step p t f = .error e f') : f' = f := by
  have hstep := stepped p f t
  rw [h] at hstep
  cases hstep <;> rfl

theorem foldlM_sprung {tokens : List Token} (ht : ∀ t ∈ tokens, t.StandsAlone)
    (hg : GrownOver base f p.pending) (h : tokens.foldlM step p f = .error e f') :
    Sprung base f' := by
  induction tokens generalizing p f with
  | nil => exact absurd h pure_error
  | cons t tokens ih =>
    obtain ⟨hfirst, hrest⟩ := List.forall_mem_cons.mp ht
    rw [List.foldlM_cons] at h
    rcases bind_error.mp h with hstep | ⟨q, d, hstep, h⟩
    · obtain rfl := step_error hstep
      exact hg.toSprung
    · exact ih hrest (keptByReader_grown.step hfirst hg hstep) h

theorem read_sprung {file source : Text} (h : read file source base = .error e f) :
    Sprung base f := by
  have hsound := Token.scan_standsAlone file source
  rcases forms_error.mp (read_error h) with h | ⟨p, -, -, hfold, -⟩
  · exact foldlM_sprung (p := {}) hsound (grownOver_self base) h
  · exact (keptByReader_grown.foldlM (p := {}) hsound (grownOver_self base) hfold).toSprung

end Reader

namespace Forest

theorem parse_ok : parse file source = .ok (f, root) ↔ Reader.read file source {} = .ok root f := by
  unfold parse
  cases Reader.read file source {} <;> simp [and_comm]

theorem parse_error :
    parse file source = .error e ↔ ∃ f, Reader.read file source {} = .error e f := by
  unfold parse
  cases Reader.read file source {} <;> simp

/-- A source that can be read is a tree: its nodes stand in order, none is below two others, and
none is annotated. -/
theorem parse_grown (h : parse file source = .ok (f, root)) : Grown f [.ref root] :=
  (Reader.read_grown (parse_ok.mp h)).grown

/-- What a source is read into is a tree with no node twice. -/
theorem parse_tree (h : parse file source = .ok (f, root)) :
    ∃ t, Denotes f (.ref root) t ∧ t.ids.Nodup := by
  obtain ⟨ts, hts, hd⟩ := (parse_grown h).trees
  obtain ⟨t, _, ht, hnil, rfl⟩ := List.forall₂_cons_left_iff.mp hts
  cases hnil
  exact ⟨t, ht, by simpa using hd⟩

end Forest

end Lowering
