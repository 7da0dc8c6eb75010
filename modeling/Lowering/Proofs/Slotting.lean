import Lowering.Proofs.Wrapping

namespace Lowering

namespace Pass.Environment

open Forest PassM Scope

/-- The slot of a name, if its key has one. -/
def slot? (env : List Text) (keys : Keys) (name : Text) : Option Nat :=
  (keyOf keys name).bind (env.idxOf? ·)

/-- `(index __env__ i)` -/
def slotTree (mark : Mark) (i : Nat) : Tree Mark :=
  .node mark .index [.leaf (.sym envName), .leaf (.int (Int64.ofNat i))]

/-- The variables that a body declares in a `let`. -/
def letVarsOf : Tree Mark → List Text
  | .node _ .letIn args => (args.head?.map fun vars => vars.elems.filterMap Tree.symbol?).getD []
  | _ => []

/-- The keys in force inside a closure. -/
def keysInside (E : Int → List Text) (keys : Keys) (id : Int) (params body : Tree Mark) : Keys :=
  (letVarsOf body).map (·, none) ++ params.paramNames.map (fun p =>
    (p, if (E id).contains p then some (exportKey p id) else none)) ++ keys

/-- The keys with which the operands of a node are gone through; none for those left alone. -/
def operandKeys (E : Int → List Text) (keys : Keys) (id : Int) (tag : Tag)
    (args : List (Tree Mark)) : List (Option Keys) :=
  match tag, args with
  | .sexp, args | .defm, args | .defun, args => args.map fun _ => none
  | .lambda, params :: body :: rest | .proc, params :: body :: rest =>
    none :: some (keysInside E keys id params body) :: rest.map fun _ => none
  | .lambda, args | .proc, args => args.map fun _ => none
  | .callm, _ :: _ :: rest => some keys :: none :: rest.map fun _ => some keys
  | .callm, args => args.map fun _ => none
  | .letIn, _ :: rest => none :: rest.map fun _ => some keys
  | _, args => args.map fun _ => some keys

mutual
/-- A tree with its captured names replaced by slots. -/
inductive Slotted (env : List Text) (E : Int → List Text) :
    Keys → Tree Mark → Tree Mark → Prop where
  | slot {keys : Keys} {name : Text} {i : Nat}
      (found : slot? env keys name = some i) {mark : Mark} :
      Slotted env E keys (.leaf (.sym name)) (slotTree mark i)
  | leaf {keys : Keys} {a : Atom} (none : ∀ name, a = .sym name → slot? env keys name = none) :
      Slotted env E keys (.leaf a) (.leaf a)
  | node {keys : Keys} {mark : Mark} {tag : Tag} {args args' : List (Tree Mark)}
      (each : SlottedEach env E (operandKeys E keys mark.id tag args) args args') :
      Slotted env E keys (.node mark tag args) (.node mark tag args')

/-- Operands with the captured names in some of them replaced. -/
inductive SlottedEach (env : List Text) (E : Int → List Text) :
    List (Option Keys) → List (Tree Mark) → List (Tree Mark) → Prop where
  | nil : SlottedEach env E [] [] []
  | keep {ks : List (Option Keys)} {t : Tree Mark} {ts ts' : List (Tree Mark)}
      (rest : SlottedEach env E ks ts ts') :
      SlottedEach env E (none :: ks) (t :: ts) (t :: ts')
  | go {ks : List (Option Keys)} {keys : Keys} {t t' : Tree Mark} {ts ts' : List (Tree Mark)}
      (first : Slotted env E keys t t') (rest : SlottedEach env E ks ts ts') :
      SlottedEach env E (some keys :: ks) (t :: ts) (t' :: ts')
end

variable {U : Int → Prop} {env : List Text} {E : Int → List Text} {k : Nat} {keys : Keys}
variable {ks : List (Option Keys)} {pos : Position} {f : Forest} {c c' : Context} {v w : Operand}
variable {vs ws : List Operand} {t t' u : Tree Mark} {ts ts' : List (Tree Mark)} {mark : Mark}
variable {lets : Int → Option (Closed × Int)}

theorem slottedEach_keep (env : List Text) (E : Int → List Text) (ts : List (Tree Mark)) :
    SlottedEach env E (ts.map fun _ => none) ts ts := by
  induction ts with
  | nil => exact .nil
  | cons t ts ih => exact .keep ih

theorem slottedEach_go {α : Type} {us : List α} {ts ts' : List (Tree Mark)}
    (h : SlottedEach env E (us.map fun _ => some keys) ts ts') :
    List.Forall₂ (Slotted env E keys) ts ts' := by
  induction us generalizing ts ts' with
  | nil =>
    cases h
    exact .nil
  | cons u us ih =>
    cases h with
    | go first rest => exact .cons first (ih rest)

theorem slottedEach_kept {us ts ts' : List (Tree Mark)}
    (h : SlottedEach env E (us.map fun _ => none) ts ts') : ts' = ts := by
  induction us generalizing ts ts' with
  | nil =>
    cases h
    rfl
  | cons u us ih =>
    cases h with
    | keep rest => rw [ih rest]

theorem length_operandKeys (E : Int → List Text) (keys : Keys) (id : Int) (tag : Tag)
    (args : List (Tree Mark)) : (operandKeys E keys id tag args).length = args.length := by
  unfold operandKeys
  split <;> simp

theorem operandKeys_closure {id : Int} (ht : tag.isClosure = true) :
    operandKeys E keys id tag (params :: body :: rest) =
      none :: some (keysInside E keys id params body) :: rest.map fun _ => none := by
  cases tag <;> first | rfl | cases ht

theorem operandKeys_short {id : Int} (ht : tag.isClosure = true) (hlen : args.length < 2) :
    operandKeys E keys id tag args = args.map fun _ => none := by
  rcases args with _ | ⟨x, _ | ⟨y, rest⟩⟩
  · cases tag <;> rfl
  · cases tag <;> first | rfl | simp [Tag.isClosure] at ht
  · exact absurd hlen (by simp)

theorem operandKeys_sealed {id : Int} (hs : tag.isSealed = true) :
    operandKeys E keys id tag args = args.map fun _ => none := by
  rcases Tag.isSealed_iff.mp hs with rfl | rfl | rfl <;> rfl

theorem slotted_self (E : Int → List Text) (keys : Keys) (t : Tree Mark) :
    Slotted [] E keys t t := by
  induction t generalizing keys with
  | leaf a =>
    refine .leaf fun name _ => ?_
    unfold slot?
    cases keyOf keys name <;> rfl
  | node mark tag args ih =>
    have each : ∀ (ts : List (Tree Mark)) (ks : List (Option Keys)), (∀ t ∈ ts, t ∈ args) →
        ks.length = ts.length → SlottedEach [] E ks ts ts := by
      intro ts
      induction ts with
      | nil =>
        intro ks _ hlen
        obtain rfl := List.eq_nil_of_length_eq_zero hlen
        exact .nil
      | cons t ts ihs =>
        intro ks hmem hlen
        rcases ks with _ | ⟨_ | keys, ks⟩
        · cases hlen
        · exact .keep (ihs ks (fun s hs => hmem s (by simp [hs])) (Nat.succ.inj hlen))
        · exact .go (ih t (hmem t (by simp)) keys)
            (ihs ks (fun s hs => hmem s (by simp [hs])) (Nat.succ.inj hlen))
    exact .node (each args _ (fun _ h => h) (length_operandKeys E keys mark.id tag args))

/-- A closure whose statements stand in a `let` is rewritten there, with its own keys. -/
theorem Slotted.closure (ht : tag.isClosure = true) (h : Slotted env E keys
      (.node mark tag (params :: Tree.letTree pos cl b stmts :: rest)) t') :
    ∃ stmts', t' = .node mark tag (params :: Tree.letTree pos cl b stmts' :: rest) ∧
      List.Forall₂ (Slotted env E
        (keysInside E keys mark.id params (Tree.letTree pos cl b stmts))) stmts stmts' := by
  cases h with
  | node each =>
    rw [operandKeys_closure ht] at each
    cases each with
    | keep each =>
      cases each with
      | go first hrest =>
        obtain rfl := slottedEach_kept hrest
        cases first with
        | node each =>
          cases each with
          | keep each => exact ⟨_, rfl, slottedEach_go each⟩

/-- The keys in a closure are those that its node and its `let` give. -/
theorem keysInside_eq {pos : Position} {cl : Closed} {id b : Int} {params : Tree Mark}
    {stmts : List (Tree Mark)} (hid : cl.id = id) (hE : E id = cl.exports) :
    keysInside E keys id (params.wrapped lets) (Tree.letTree pos cl b stmts) =
      closureKeys cl params.paramNames ++ keys := by
  unfold keysInside closureKeys
  rw [Tree.paramNames_wrapped, hE, hid]
  congr 2
  simp [letVarsOf, Tree.letTree, Tree.elems, List.filterMap_map, Tree.symbol?, Function.comp_def]

/-- Below what is rewritten every node is as it was, or is rewritten itself. -/
theorem SlottedEach.mem_nodes
    (each : ∀ s ∈ ts, ∀ {keys s'}, Slotted env E keys s s' → u ∈ s.within skips →
      ∃ u' ∈ s'.within skips, u' = u ∨ ∃ keys', Slotted env E keys' u u')
    (h : SlottedEach env E ks ts ts') (hs : t ∈ ts) (hu : u ∈ t.within skips) :
    ∃ t' ∈ ts', ∃ u' ∈ t'.within skips, u' = u ∨ ∃ keys', Slotted env E keys' u u' := by
  induction ts generalizing ks ts' with
  | nil => cases hs
  | cons s ts ih =>
    have each' : ∀ r ∈ ts, ∀ {keys s'}, Slotted env E keys r s' → u ∈ r.within skips → _ :=
      fun r hr => each r (List.mem_cons_of_mem s hr)
    cases h with
    | keep rest =>
      rcases List.mem_cons.mp hs with rfl | hs
      · exact ⟨t, List.mem_cons_self, u, hu, .inl rfl⟩
      · obtain ⟨r, hr, hin⟩ := ih each' rest hs
        exact ⟨r, List.mem_cons_of_mem _ hr, hin⟩
    | go first rest =>
      rcases List.mem_cons.mp hs with rfl | hs
      · exact ⟨_, List.mem_cons_self, each t List.mem_cons_self first hu⟩
      · obtain ⟨r, hr, hin⟩ := ih each' rest hs
        exact ⟨r, List.mem_cons_of_mem _ hr, hin⟩

theorem Slotted.mem_nodes (h : Slotted env E keys t t') (hu : u ∈ t.within skips) :
    ∃ u' ∈ t'.within skips, u' = u ∨ ∃ keys', Slotted env E keys' u u' := by
  induction t generalizing keys t' with
  | leaf a => cases hu
  | node mark tag args ih =>
    cases h with
    | node each =>
      rcases Tree.mem_within_node.mp hu with rfl | ⟨ht, s, hs, hu⟩
      · exact ⟨_, Tree.self_mem_nodes, .inr ⟨keys, .node each⟩⟩
      · obtain ⟨s', hs', u', hu', hrew⟩ := each.mem_nodes (fun r hr _ _ h hu => ih r hr h hu) hs hu
        exact ⟨u', Tree.mem_within_operand ht hs' hu', hrew⟩

theorem Slotted.sealed (h : Slotted env E keys t t') (hs : t.isSealed = true) : t' = t := by
  cases h with
  | slot => cases hs
  | leaf => cases hs
  | node each =>
    rw [operandKeys_sealed hs] at each
    rw [slottedEach_kept each]

theorem symbols_of_denotes (h : Denotes f v t) :
    f.symbols v = .ok (t.elems.filterMap Tree.symbol?) := by
  obtain ⟨vs, hvs, hd⟩ := h.elems
  rw [Forest.symbols, hvs, Except.map]
  congr 1
  clear hvs
  generalize t.elems = ts at hd
  induction hd with
  | nil => rfl
  | cons hv _ ih => rw [List.filterMap_cons, List.filterMap_cons, symbol?_of_view hv.view, ih]

theorem letVars_of_denotes (h : Denotes f v t) : letVars f v = .ok (letVarsOf t) := by
  unfold Environment.letVars
  cases t with
  | leaf a =>
    simp only [Operand.child?_of_atom h, letVarsOf]
  | node mark tag args =>
    obtain ⟨hv, n, hn, rfl, -, hargs⟩ := denotes_node.mp h
    simp only [Operand.view_eq_child.mp hv, get_eq_ok.mpr hn, bind, Except.bind]
    by_cases hl : n.tag = .letIn
    · rw [if_pos hl, hl]
      cases hfirst : n.args with
      | nil =>
        rw [hfirst] at hargs
        cases hargs
        simp [Node.arg, hfirst, Forest.symbols, Forest.elems, Except.map, letVarsOf]
      | cons first rest =>
        rw [hfirst] at hargs
        cases hargs with
        | cons h0 _ => simpa [Node.arg, hfirst, letVarsOf] using symbols_of_denotes h0
    · rw [if_neg hl]
      cases htag : n.tag <;> first | rfl | exact absurd htag hl

/-- The keys with which the operands of a node are gone through. -/
def keysBelow (E : Int → List Text) (keys : Keys) (id : Int) (tag : Tag) :
    List (Tree Mark) → Keys
  | params :: body :: _ => if tag.isClosure then keysInside E keys id params body else keys
  | _ => keys

theorem keysWithin_denotes {id : Int} {n : Node} {inner : Keys}
    (hE : n.notes.namesAt "exports" = E id)
    (hargs : List.Forall₂ (Denotes c.forest) n.args args)
    (hlen : n.tag.isClosure = true → 2 ≤ n.args.length)
    (h : keysWithin id n keys c = .ok inner c) : inner = keysBelow E keys id n.tag args := by
  unfold keysWithin at h
  cases ht : n.tag.isClosure with
  | false =>
    rw [ht] at h
    obtain ⟨rfl, -⟩ := pure_ok.mp h
    unfold keysBelow
    split <;> simp [ht]
  | true =>
    rw [ht] at h
    obtain ⟨-, names, vars, hnames, hvars, rfl⟩ := innerKeys_ok h
    match hn : n.args, hargs, hlen ht with
    | params :: body :: rest, .cons hparams (.cons hbody _), _ =>
      have harg0 : n.arg 0 = params := by simp [Node.arg, hn]
      have harg1 : n.arg 1 = body := by simp [Node.arg, hn]
      rw [harg0, hparams.paramNames] at hnames
      rw [harg1, letVars_of_denotes hbody] at hvars
      cases hnames
      cases hvars
      rw [keysBelow, if_pos ht, hE]
      rfl

theorem operandKeys_open {id : Int} (hs : tag.isSealed = false)
    (hlen : tag.isClosure = true → 2 ≤ args.length) (hleast : tag.least ≤ args.length) :
    operandKeys E keys id tag args =
      args.zipIdx.map fun a => if tag.reads a.2 then some (keysBelow E keys id tag args)
      else none := by
  have each : ∀ (inner : Keys) (ts : List (Tree Mark)) (i : Nat) (b : Bool),
      (∀ j, i ≤ j → tag.reads j = b) →
      (ts.zipIdx i).map (fun a => if tag.reads a.2 then some inner else none) =
        ts.map fun _ => if b then some inner else none := by
    intro inner ts
    induction ts with
    | nil => exact fun _ _ _ => rfl
    | cons t ts ih =>
      intro i b h
      rw [List.zipIdx_cons, List.map_cons, ih (i + 1) b fun j hj => h j (by omega),
        h i (Nat.le_refl i)]
      rfl
  cases tag
  case sexp | defm | defun => cases hs
  case lambda | proc =>
    obtain _ | ⟨params, _ | ⟨body, rest⟩⟩ := args
    iterate 2 exact absurd (hlen rfl) (by simp)
    rw [List.zipIdx_cons, List.zipIdx_cons, List.map_cons, List.map_cons,
      each _ rest 2 false fun j hj => by simp [Tag.reads]; omega]
    rfl
  case callm =>
    obtain _ | ⟨receiver, _ | ⟨method, rest⟩⟩ := args
    iterate 2 exact absurd hleast (by simp [Tag.least])
    rw [List.zipIdx_cons, List.zipIdx_cons, List.map_cons, List.map_cons,
      each _ rest 2 true fun j hj => by simp [Tag.reads]; omega]
    rfl
  case letIn =>
    obtain _ | ⟨vars, rest⟩ := args
    · exact absurd hleast (by simp [Tag.least])
    rw [List.zipIdx_cons, List.map_cons, each _ rest 1 true fun j hj => by simp [Tag.reads]; omega]
    cases rest <;> rfl
  all_goals
    rw [each _ args 0 true fun _ _ => rfl]
    rcases args with _ | ⟨a, _ | ⟨b, rest⟩⟩ <;> rfl

/-- Replacing names with a bound on the depth gives slots. -/
def SlotsTo (env : List Text) (E : Int → List Text) (k : Nat) : Prop :=
  ∀ {U c v t keys pos w c'}, Bears U c [v] [t] → (∀ x ∈ t.ids, c.forest.exportsAt x = E x) →
    toSlots env k keys pos v c = .ok w c' →
    ∃ t', Reworks U c [t] c' [w] [t'] ∧ Slotted env E keys t t' ∧
      Annotates (fun _ => False) c c'

/-- Going through operands one after the other rewrites each. -/
theorem operands_reworks (reads : Nat → Bool) {i : Nat} (hk : SlotsTo env E k)
    (hh : Bears U c vs ts) (hE : ∀ x ∈ Tree.idsOf ts, c.forest.exportsAt x = E x)
    (h : ((vs.zipIdx i).mapM fun a =>
      if reads a.2 then toSlots env k keys pos a.1 else pure a.1) c = .ok ws c') :
    ∃ ts', Reworks U c ts c' ws ts' ∧
      SlottedEach env E ((ts.zipIdx i).map fun a => if reads a.2 then some keys else none) ts ts' ∧
      Annotates (fun _ => False) c c' := by
  induction vs generalizing U c i ts ws with
  | nil =>
    obtain ⟨rfl, rfl⟩ := pure_ok.mp h
    cases hh.denotes
    exact ⟨[], .refl hh, .nil, .refl _⟩
  | cons v vs ih =>
    obtain ⟨t, ts, -, -, rfl⟩ := List.forall₂_cons_left_iff.mp hh.denotes
    obtain ⟨w, d, ws, hw, hws, rfl⟩ := mapM_cons_ok.mp h
    rw [Tree.idsOf_cons, List.forall_mem_append] at hE
    rw [List.zipIdx_cons, List.map_cons]
    dsimp only at hw ⊢
    split at hw
    · next hr =>
      obtain ⟨t', hr', hrew, hann⟩ := hk hh.head hE.1 hw
      obtain ⟨ts', hrs, hrews, hanns⟩ := ih (hr'.tail hh)
        (fun x hx => by rw [hann.exports x nofun, hE.2 x hx]) hws
      rw [if_pos hr]
      exact ⟨[t'] ++ ts', hr'.cons hh hrs, .go hrew hrews, hann.trans hanns⟩
    · next hr =>
      obtain ⟨rfl, rfl⟩ := pure_ok.mp hw
      obtain ⟨ts', hrs, hrews, hanns⟩ := ih hh.tail hE.2 hws
      rw [if_neg hr]
      exact ⟨t :: ts', hrs.keepHead hh, .keep hrews, hanns⟩

theorem statements_reworks (hk : SlotsTo env E k) (hh : Bears U c vs ts)
    (hE : ∀ x ∈ Tree.idsOf ts, c.forest.exportsAt x = E x)
    (h : vs.mapM (toSlots env k keys pos) c = .ok ws c') :
    ∃ ts', Reworks U c ts c' ws ts' ∧ List.Forall₂ (Slotted env E keys) ts ts' ∧
      Annotates (fun _ => False) c c' := by
  rw [← mapM_zipIdx_read (i := 0) _ vs fun _ _ => rfl] at h
  obtain ⟨ts', hr, hrew, hann⟩ := operands_reworks (fun _ => true) hk hh hE h
  exact ⟨ts', hr, slottedEach_go hrew, hann⟩

theorem toSlots_reworks (env : List Text) (E : Int → List Text) (k : Nat) : SlotsTo env E k := by
  induction k with
  | zero => exact fun _ _ h => absurd h toSlots_zero
  | succ k ih =>
    intro U c v t keys pos w c' hh hE h
    have hdenotes := (List.forall₂_cons.mp hh.denotes).1
    cases t with
    | leaf a =>
      rcases toSlots_atom hdenotes h with ⟨name, i, rfl, hi, hslot⟩ | ⟨hnone, rfl, rfl⟩
      · have hmade := ((Makes.sym c envName).append (Makes.int c (Int64.ofNat i))).node hslot
        exact ⟨_, hmade.reworks hh (by simp), .slot hi, node_annotates hslot⟩
      · exact ⟨.leaf a, .refl hh, .leaf hnone, .refl _⟩
    | node mark tag args =>
      obtain ⟨hview, -, -, n, hn, rfl, -, hargs⟩ := hh.node
      obtain ⟨rfl, m, hm, step⟩ := toSlots_child hview h
      obtain rfl : m = n := Option.mem_unique hm hn
      rw [Tree.ids_node', List.forall_mem_cons] at hE
      obtain ⟨hkept, rfl⟩ | ⟨hs, hlen, hleast, inner, ws, d, hinner, hslots, hset⟩ :=
        goThrough_ok step
      · refine ⟨_, .refl hh, .node ?_, .refl _⟩
        have hkeys : operandKeys E keys mark.id m.tag args = args.map fun _ => none := by
          rcases hkept with hs | ⟨ht, hshort⟩
          · exact operandKeys_sealed hs
          · exact operandKeys_short ht (hargs.denotes.length_eq ▸ hshort)
        rw [hkeys]
        exact slottedEach_keep env E args
      · have hexports : m.notes.namesAt "exports" = E mark.id := by
          rw [← hE.1, exportsAt, hn]
          rfl
        have hl := hargs.denotes.length_eq
        obtain rfl := keysWithin_denotes hexports hargs.denotes hlen hinner
        obtain ⟨args', hr, hrew, hann⟩ := operands_reworks _ ih hargs hE.2 hslots
        refine ⟨_, setArgs_reworks hh hr hset, .node ?_, hann.trans (setArgs_annotates hset)⟩
        rwa [operandKeys_open hs (hl ▸ hlen) (hl ▸ hleast)]

theorem quiet_innerKeys (id : Int) (n : Node) (keys : Keys) : Quiet (innerKeys id n keys) := by
  unfold innerKeys
  refine (quiet_query _).bind fun params => ?_
  split
  · exact quiet_pure _
  · refine (quiet_fetch _).bind fun body => ?_
    split
    · exact (quiet_operandAt _ _).bind fun _ => (quiet_query _).bind fun _ => quiet_pure _
    · exact quiet_pure _

theorem quiet_toSlots (env : List Text) (k : Nat) (keys : Keys) (pos : Position) (v : Operand) :
    Quiet (toSlots env k keys pos v) := by
  induction k generalizing keys pos v with
  | zero => exact quiet_throw _
  | succ k ih =>
    unfold toSlots
    split
    · split
      · exact quiet_node _ _ _
      · exact quiet_pure _
    · exact quiet_pure _
    · refine (quiet_fetch _).bind fun n => ?_
      split
      iterate 3 exact quiet_pure _
      iterate 2
        split
        · exact (quiet_innerKeys _ _ _).bind fun _ => (ih _ _ _).bind fun _ =>
            (quiet_setArgs _ _).bind fun _ => quiet_pure _
        · exact quiet_pure _
      · split
        · exact (ih _ _ _).bind fun _ => (Quiet.mapM (ih _ _) _).bind fun _ =>
            (quiet_setArgs _ _).bind fun _ => quiet_pure _
        · exact quiet_throw _
      · split
        · exact (Quiet.mapM (ih _ _) _).bind fun _ => (quiet_setArgs _ _).bind fun _ => quiet_pure _
        · exact quiet_throw _
      · exact (Quiet.mapM (ih _ _) _).bind fun _ => (quiet_setArgs _ _).bind fun _ => quiet_pure _

end Pass.Environment

end Lowering
