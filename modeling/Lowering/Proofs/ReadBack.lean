import Lowering.Proofs.ShapeEncoding
import Lowering.Proofs.SourceTrees

namespace Lowering

namespace Tree

variable {α β : Type}

theorem symbol?_shape (t : Tree α) : t.shape.symbol? = t.symbol? := by
  cases t with
  | leaf a => cases a <;> rfl
  | node mark tag args => rfl

theorem elems_shape (t : Tree α) : t.shape.elems = t.elems.map shape := by
  cases t with
  | leaf a => cases a <;> simp [shape, elems]
  | node mark tag args =>
    rw [shape, shapes_eq]
    cases tag
    case list => rfl
    all_goals simp [elems, shape, shapes_eq]

theorem paramName?_shape (t : Tree α) : t.shape.paramName? = t.paramName? := by
  cases t with
  | leaf a => cases a <;> rfl
  | node mark tag args =>
    rw [shape, shapes_eq]
    cases args with
    | nil => rfl
    | cons a args => exact symbol?_shape a

theorem paramNames_shape (t : Tree α) : t.shape.paramNames = t.paramNames := by
  rw [paramNames, paramNames, elems_shape, List.filterMap_map]
  exact List.filterMap_congr fun s _ => paramName?_shape s

theorem malformed?_shape (tag : Tag) (args : List (Tree α)) :
    malformed? tag (args.map shape) = malformed? tag args := by
  have hsymbol : (fun i : Nat => (((args.map shape)[i]?).bind symbol?).isSome) =
      fun i => ((args[i]?).bind symbol?).isSome := by
    funext i
    rw [List.getElem?_map]
    cases args[i]? with
    | none => rfl
    | some t => exact congrArg Option.isSome (symbol?_shape t)
  unfold malformed?
  rw [hsymbol, List.length_map]

/-- How a tree is written is a matter of its shape. -/
theorem format_shape (t : Tree α) : t.shape.format = t.format := by
  induction t with
  | leaf a => rfl
  | node mark tag args ih =>
    have hargs : (args.map shape).map format = args.map format := by
      rw [List.map_map]
      exact List.map_congr_left ih
    have hhead : heading tag (args.map shape) = heading tag args := by
      have hfirst : (args.map shape).head?.bind symbol? = args.head?.bind symbol? := by
        cases args with
        | nil => rfl
        | cons t ts => exact symbol?_shape t
      rw [heading, heading, hfirst]
    rw [shape, format, format, shapes_eq, formats_eq, formats_eq, hargs, hhead]

end Tree

namespace Forest

open Tree

variable {f f' : Forest} {v : Operand} {t : Tree Mark}

theorem Denotes.symbol? (h : Denotes f v t) : v.symbol? = t.symbol? := by
  cases hv : v.symbol? with
  | some name =>
    have hview := Operand.symbol?_eq_some.mp hv
    cases t with
    | leaf a =>
      cases hview.symm.trans h
      rfl
    | node mark tag args => cases hview.symm.trans (denotes_node.mp h).1
  | none =>
    cases ht : t.symbol? with
    | none => rfl
    | some name =>
      obtain rfl : t = .leaf (.sym name) := by
        unfold Tree.symbol? at ht
        split at ht <;> simp_all
      rw [Operand.symbol?_eq_some.mpr h] at hv
      cases hv

end Forest

namespace Reader

open Forest Tree

variable {α : Type}

/-- The tokens of a tree are read as an operand that stands for a tree of the same shape. -/
def Reads (t : Tree α) : Prop := ∀ (tokens : List Token) (p : Progress) (f : Forest),
  tokens.map (·.kind) = t.tokens → ∃ v f' u, tokens.foldlM step p f = .ok (p.add v) f' ∧
    Grows f f' ∧ Denotes f' v u ∧ u.shape = t.shape

theorem foldlM_parts {ts : List (Tree α)} (each : ∀ t ∈ ts, Reads t) {tokens : List Token}
    {p : Progress} {f : Forest} (h : tokens.map (·.kind) = ts.flatMap Tree.tokens) :
    ∃ vs f' us, tokens.foldlM step p f = .ok (vs.foldl Progress.add p) f' ∧ Grows f f' ∧
      List.Forall₂ (Denotes f') vs us ∧ us.map shape = ts.map shape := by
  induction ts generalizing tokens p f with
  | nil =>
    obtain rfl := List.map_eq_nil_iff.mp h
    exact ⟨[], f, [], rfl, .refl f, .nil, rfl⟩
  | cons t ts ih =>
    obtain ⟨hone, hmore⟩ := List.forall_mem_cons.mp each
    rw [List.flatMap_cons] at h
    obtain ⟨first, rest, rfl, hfirst, hrest⟩ := List.map_eq_append_iff.mp h
    obtain ⟨v, f1, u, hread, hgrow, hv, hu⟩ := hone first p f hfirst
    obtain ⟨vs, f2, us, hreads, hgrow', hvs, hus⟩ := ih hmore (p := p.add v) (f := f1) hrest
    refine ⟨v :: vs, f2, u :: us, ?_, hgrow.trans hgrow', .cons (hv.grow hgrow') hvs, ?_⟩
    · rw [List.foldlM_append]
      exact bind_ok.mpr ⟨_, _, hread, hreads⟩
    · rw [List.map_cons, List.map_cons, hu, hus]

theorem foldl_add_open (pos : Position) (outer : List OpenList) (forms elems vs : List Operand) :
    vs.foldl Progress.add ⟨⟨pos, elems⟩ :: outer, forms⟩ =
      ⟨⟨pos, vs.reverse ++ elems⟩ :: outer, forms⟩ := by
  induction vs generalizing elems with
  | nil => rfl
  | cons v vs ih =>
    rw [List.foldl_cons, List.reverse_cons, List.append_assoc]
    exact ih (v :: elems)

/-- A list is read as the node whose parts it was written from. -/
theorem listNode_parts {args : List (Tree α)} (pos : Position) (htag : tag ∈ Tag.assigned)
    (hvs : List.Forall₂ (Denotes f) vs us)
    (hus : us.map shape = (writtenParts tag args).map shape) :
    ∃ ws, (listNode pos vs).tag = tag ∧ (listNode pos vs).pos = pos ∧
      List.Forall₂ (Denotes f) (listNode pos vs).args ws ∧ ws.map shape = args.map shape := by
  have symbol : ∀ {v : Operand} {u : Tree Mark} {t : Tree α}, Denotes f v u → u.shape = t.shape →
      v.symbol? = t.symbol? := by
    intro v u t hv hu
    rw [hv.symbol?, ← symbol?_shape u, hu, symbol?_shape]
  rcases heading_cases tag args with hhead | ⟨hhead, rfl, hfirst⟩
  · -- the first part names the tag
    have hparts : writtenParts tag args = .leaf (.sym tag.spelling) :: args := by
      simp [writtenParts, hhead]
    rw [hparts] at hus
    cases hvs with
    | nil => cases hus
    | @cons v u vs us hv hvs =>
      obtain ⟨hu, hus⟩ := List.cons.inj hus
      have hnode : listNode pos (v :: vs) = { tag, args := vs, pos } := by
        simp only [listNode, symbol hv hu, Tree.symbol?, Option.bind_some,
          Tag.ofSpelling?_spelling htag]
      rw [hnode]
      exact ⟨us, rfl, rfl, hvs, hus⟩
  · -- the tag is not written, and no first symbol looks like one
    have hparts : writtenParts .list args = args := by simp [writtenParts, hhead]
    rw [hparts] at hus
    cases hvs with
    | nil => exact ⟨[], rfl, rfl, .nil, hus⟩
    | @cons v u vs us hv hvs =>
      cases args with
      | nil => cases hus
      | cons t ts =>
        have hnode : listNode pos (v :: vs) = { tag := .list, args := v :: vs, pos } := by
          have hnone : v.symbol?.bind Tag.ofSpelling? = none := by
            rw [symbol hv (List.cons.inj hus).1]
            exact hfirst
          simp only [listNode, hnone]
        rw [hnode]
        exact ⟨u :: us, rfl, rfl, .cons hv hvs, hus⟩

theorem atom_ofInt64 (value : Int64) : atom (Decimal.ofInt64 value) = .int value := by
  have hread := Decimal.toInt64?_ofInt64 value
  have hnil : Decimal.ofInt64 value ≠ "_" := by
    intro h
    have hnone : Decimal.toInt64? "_" = none := by decide
    rw [h, hnone] at hread
    cases hread
  simp only [atom, if_neg hnil, hread]

theorem atom_of_isSymbol (h : name.IsSymbol) : atom name = .sym name := by
  obtain ⟨-, -, hnil, hint⟩ := h
  simp [atom, hnil, hint]

theorem reads_atom (h : a.Writable) : Reads (.leaf a : Tree α) := by
  intro tokens p f htokens
  -- one token, which adds one operand and no node
  have one : ∀ (k : Token.Kind) (v : Operand), a.token? = some k →
      (∀ pos, step p ⟨pos, k⟩ f = .ok (p.add v) f) → v.view = .atom a →
      ∃ v f' u, tokens.foldlM step p f = .ok (p.add v) f' ∧ Grows f f' ∧ Denotes f' v u ∧
        u.shape = (.leaf a : Tree α).shape := by
    intro k v hk hstep hv
    rw [Tree.tokens, hk, Option.toList_some] at htokens
    obtain ⟨token, rfl, hkind⟩ := List.map_eq_singleton_iff.mp htokens
    obtain ⟨pos, kind⟩ := token
    obtain rfl : kind = k := hkind
    refine ⟨v, f, .leaf a, ?_, .refl f, hv, rfl⟩
    rw [List.foldlM_cons]
    exact bind_ok.mpr ⟨_, _, hstep pos, rfl⟩
  cases a with
  | nil => exact one _ .nil rfl (fun pos => rfl) rfl
  | sym name =>
    refine one _ (.sym name) rfl (fun pos => ?_) rfl
    simp only [step, atom_of_isSymbol h]
    rfl
  | str text =>
    refine one _ (.str text) rfl (fun pos => ?_) rfl
    simp only [step, Quoted.decodeBody_encodeBody]
    rfl
  | int value =>
    refine one _ (.int value) rfl (fun pos => ?_) rfl
    simp only [step, atom_ofInt64]
    rfl
  | unknown kind => exact absurd h id

/-- A tree that can be written is read as what it was. -/
theorem reads_of_writable {t : Tree α} (h : t.Writable) : Reads t := by
  induction h with
  | leaf atom => exact reads_atom atom
  | @node mark tag args assigned _ ih =>
    intro tokens p f htokens
    have hname : (Atom.sym tag.spelling).Writable := isSymbol_spelling assigned
    have hparts : ∀ t ∈ writtenParts tag args, Reads t :=
      forall_mem_writtenParts (reads_atom hname) ih
    rw [tokens_node] at htokens
    obtain ⟨first, rest, rfl, hfirst, hrest⟩ := List.map_eq_cons_iff.mp htokens
    obtain ⟨middle, last, rfl, hmiddle, hlast⟩ := List.map_eq_append_iff.mp hrest
    obtain ⟨close, rfl, hclose⟩ := List.map_eq_singleton_iff.mp hlast
    obtain ⟨vs, f1, us, hread, hgrow, hvs, hus⟩ :=
      foldlM_parts hparts (p := { p with opened := ⟨first.pos, []⟩ :: p.opened }) (f := f) hmiddle
    obtain ⟨ws, htag, hpos, hargs, hws⟩ := listNode_parts first.pos assigned hvs hus
    have hopen : step p first f = .ok { p with opened := ⟨first.pos, []⟩ :: p.opened } f := by
      simp only [step, hfirst]
      rfl
    have hnode : step ⟨⟨first.pos, vs.reverse⟩ :: p.opened, p.forms⟩ close f1 =
        .ok (p.add (.ref ((f1.size : Int) + 1))) (f1.push (listNode first.pos vs)) := by
      simp only [step, hclose, List.reverse_reverse]
      exact bind_ok.mpr ⟨_, _, alloc_ok.mpr ⟨rfl, rfl⟩, rfl⟩
    rw [foldl_add_open, List.append_nil] at hread
    refine ⟨.ref ((f1.size : Int) + 1), f1.push (listNode first.pos vs),
      .node ⟨(f1.size : Int) + 1, first.pos⟩ tag ws, ?_, hgrow.trans (grows_push _ _), ?_, ?_⟩
    · rw [List.foldlM_cons]
      refine bind_ok.mpr ⟨_, _, hopen, ?_⟩
      rw [List.foldlM_append]
      exact bind_ok.mpr ⟨_, _, hread, bind_ok.mpr ⟨_, _, hnode, rfl⟩⟩
    · refine denotes_node.mpr ⟨rfl, listNode first.pos vs, get?_push_self _ _, htag, hpos, ?_⟩
      exact hargs.imp fun _ _ h => h.grow (grows_push _ _)
    · rw [shape, shape, shapes_eq, shapes_eq, hws]

/-- The written form of a node is read as a node that stands for a tree of the same shape. -/
theorem parse_format_tree {t : Tree α} (h : t.Writable) (ht : t = .node mark tag args)
    (file : Text) : ∃ g r u,
      parse file t.format = .ok (g, r) ∧ Denotes g (.ref r) u ∧ u.shape = t.shape := by
  obtain ⟨v, g, u, hread, -, hv, hu⟩ :=
    reads_of_writable h (Token.scan file t.format) {} {} (Token.scan_format h file)
  obtain ⟨id, hid⟩ : ∃ id, v.child? = some id := by
    subst ht
    cases u with
    | leaf a => cases hu
    | node mark' tag' args' => exact ⟨_, Operand.view_eq_child.mp (denotes_node.mp hv).1⟩
  have hforms : forms (Token.scan file t.format) {} = .ok [v] g := bind_ok.mpr ⟨_, _, hread, rfl⟩
  have hroot : read file t.format {} = .ok id g := by
    refine bind_ok.mpr ⟨_, _, hforms, ?_⟩
    simp only [hid]
    rfl
  exact ⟨g, id, u, by rw [parse, hroot], hv.congr (Operand.view_eq_child.mpr hid), hu⟩

end Reader

namespace Forest

open Tree

variable {f : Forest} {root : Int} {file : Text}

/-- The written form of a node is read, into a forest of its own, as a node with the same tree up to
marks, with the same encoded form and with the same written form. -/
def ReadsBack (file : Text) (f : Forest) (root : Int) : Prop :=
  ∃ text g r t u bytes, f.format root = .ok text ∧ parse file text = .ok (g, r) ∧
    f.tree root = .ok t ∧ g.tree r = .ok u ∧ u.shape = t.shape ∧
    f.encode root = .ok bytes ∧ g.encode r = .ok bytes ∧ g.format r = .ok text

/-- What is written of a forest is read as what it was. -/
theorem readsBack_of_writable (hu : f.Unfolds root) (hw : f.AllBelow Node.Writable root)
    (file : Text) : ReadsBack file f root := by
  obtain ⟨t, ht, hdenotes⟩ := hu.tree
  have hwritable := hdenotes.writable hw
  cases t with
  | leaf a => cases hdenotes
  | node mark tag args =>
    obtain ⟨g, r, u, hparse, hu, hshape⟩ := Reader.parse_format_tree hwritable rfl file
    -- what has been read stands for a tree, and that is the one found
    obtain ⟨u', hu', hdenotes'⟩ := (parse_writable hparse).1.tree
    obtain rfl := hu.unique hdenotes'
    have hbytes : u.encode = (Tree.node mark tag args).encode := by
      rw [Tree.encode, Tree.encode, ← payload_shape u, hshape, payload_shape]
    have htext : u.format = (Tree.node mark tag args).format := by
      rw [← format_shape u, hshape, format_shape]
    refine ⟨_, g, r, _, u, u.encode, ?_, hparse, ht, hu', hshape, ?_, ?_, ?_⟩
    · rw [format, ht]
      rfl
    · rw [encode, ht, hbytes]
      rfl
    · rw [encode, hu']
      rfl
    · rw [format, hu', ← htext]
      rfl

/-- Reading undoes writing on every tree that the notation can hold, and it gives no other trees; so
what is written for a source that has been read is read as the same tree again. -/
theorem parse_format (file : Text) :
    (∀ f root, f.Unfolds root → f.AllBelow Node.Writable root → ReadsBack file f root) ∧
    ∀ source f root, parse file source = .ok (f, root) →
      f.Unfolds root ∧ f.AllBelow Node.Writable root ∧ ReadsBack file f root := by
  constructor
  · intro f root hu hw
    exact readsBack_of_writable hu hw file
  · intro source f root h
    obtain ⟨hu, hw⟩ := parse_writable h
    exact ⟨hu, hw, readsBack_of_writable hu hw file⟩

/-- A list headed by the symbol `list`, a lone minus sign, a numeral beyond 64 bits, bytes that are
no UTF-8, and the least integer; the list stands twice below an operator. -/
def awkward : Forest :=
  (({} : Forest).push
    { tag := .list
      args := [.sym "list", .sym "-", .sym "9223372036854775808", .str ⟨[0xFF, 0x22, 0x0A, 0x5C]⟩,
        .nil, .int (-9223372036854775808)]
      pos := .unknown }).push
    { tag := .op .minus, args := [.ref 1, .ref 1], pos := .unknown }

theorem parse_format_awkward : awkward.Unfolds 2 ∧ awkward.AllBelow Node.Writable 2 ∧
    ReadsBack "a" awkward 2 ∧ ∃ f root,
    parse "a" "(- (list list \"\\377\") (-) -)" = .ok (f, root) ∧
      ReadsBack "a" f root := by
  have hordered : awkward.Ordered := (grown_empty.ordered.push (by decide)).push (by decide)
  have hu : awkward.Unfolds 2 := hordered.unfolds rfl
  have hw : awkward.AllBelow Node.Writable 2 := allBelow_of_mem (by decide +kernel)
  obtain ⟨hwritten, hread⟩ := parse_format "a"
  refine ⟨hu, hw, hwritten awkward 2 hu hw, ?_⟩
  have hparse : (parse "a" "(- (list list \"\\377\") (-) -)").isOk = true := by decide +kernel
  cases hp : parse "a" "(- (list list \"\\377\") (-) -)" with
  | error e => simp [hp, Except.isOk, Except.toBool] at hparse
  | ok p =>
    obtain ⟨f, root⟩ := p
    exact ⟨f, root, rfl, (hread _ f root hp).2.2⟩

end Forest

end Lowering
