import Lowering.Proofs.BodyOutput
import Lowering.Proofs.TreeWalks

namespace Lowering

namespace Tree

open Pass.Environment

/-- The name of a parameter written as `(name ... rest)`. -/
def restName? : Tree Mark → Option Text
  | node _ _ (first :: second :: more) =>
    if ((second :: more).getLast?).any fun t => t.symbol? = some ("rest" : Text) then first.symbol?
    else none
  | _ => none

/-- The parameter of a function that is written so, if it is one of the last two. -/
def restParam? (d : Tree Mark) : Option (Tree Mark) :=
  ((d.operand 1).elems.reverse.take 2).find? (·.restName?.isSome)

/-- What the `let` of a function depends on besides the parameters and the statements. -/
def setup (wordSize : Int64) (d : Tree Mark) : Setup where
  rest := (d.restParam?.bind restName?).getD Text.empty
  fixed := ((d.operand 1).elems.filter fun
    | leaf _ => true
    | node .. => false).length
  top := false
  wordSize := wordSize

/-- The numbers of the parameters that collect the rest. -/
def restIds (ds : List (Tree Mark)) : List Int := ds.filterMap fun d => d.restParam?.map root

/-- A node with the name for the remaining arguments as its first operand. -/
def splatFirst : Tree Mark → Tree Mark
  | leaf a => leaf a
  | node mark tag args => node mark tag (leaf (.sym splatName) :: args.drop 1)

/-- The parameter list of a function, with the name for the remaining arguments. -/
def splatParams (d : Tree Mark) : Tree Mark :=
  match d.restParam? with
  | none => d.operand 1
  | some p => (d.operand 1).graft p.root splatFirst

/-- A node that may be a parameter with the name for the remaining arguments. -/
def splatIn (rests : List Int) (t : Tree Mark) : Tree Mark :=
  if t.root ∈ rests then t.splatFirst else t

variable {d e p : Tree Mark} {rests rests' : List Int}

theorem restName?_eq_some (h : p.restName? = some name) :
    ∃ mark tag args, p = node mark tag (leaf (.sym name) :: args) := by
  unfold restName? at h
  split at h
  · next mark tag first second more =>
    split at h
    · have hview := symbol?_eq_some.mp h
      cases first with
      | leaf a =>
        cases hview
        exact ⟨mark, tag, second :: more, rfl⟩
      | node mark tag args => cases hview
    · cases h
  · cases h

theorem restParam?_eq_some (h : d.restParam? = some p) : p ∈ (d.operand 1).elems ∧
    ∃ name mark tag args, p.restName? = some name ∧
      p = node mark tag (leaf (.sym name) :: args) := by
  unfold restParam? at h
  refine ⟨List.mem_reverse.mp (List.mem_of_mem_take (List.mem_of_find?_eq_some h)), ?_⟩
  have hsome : p.restName?.isSome = true := by simpa using List.find?_some h
  obtain ⟨name, hname⟩ := Option.isSome_iff_exists.mp hsome
  obtain ⟨mark, tag, args, hp⟩ := restName?_eq_some hname
  exact ⟨name, mark, tag, args, hname, hp⟩

theorem restParam?_mem_exposed (h : d.restParam? = some p) : p ∈ (d.operand 1).exposed := by
  obtain ⟨hmem, name, mark, tag, args, -, rfl⟩ := restParam?_eq_some h
  exact mem_within_of_elem rfl hmem self_mem_nodes

theorem mem_restIds_singleton : x ∈ restIds [d] ↔ ∃ p, d.restParam? = some p ∧ p.root = x := by
  rw [restIds, List.mem_filterMap]
  simp

theorem mem_ids_of_restIds (h : x ∈ restIds [d]) : x ∈ (d.operand 1).ids := by
  obtain ⟨p, hp, rfl⟩ := mem_restIds_singleton.mp h
  exact root_mem_ids_of_within (restParam?_mem_exposed hp)

theorem splatIn_of_not_mem (h : d.root ∉ rests) : d.splatIn rests = d := if_neg h

@[simp] theorem root_splatIn : (d.splatIn rests).root = d.root := by
  unfold splatIn
  split
  · cases d <;> rfl
  · rfl

@[simp] theorem operand_splatIn (i : Nat) :
    (d.splatIn rests).operand (i + 1) = d.operand (i + 1) := by
  unfold splatIn
  split
  · cases d with
    | leaf a => rfl
    | node mark tag args => cases args <;> rfl
  · rfl

theorem splatIn_node (rests : List Int) (mark : Mark) (tag : Tag) (args : List (Tree Mark)) :
    ∃ args', (node mark tag args).splatIn rests = node mark tag args' := by
  unfold splatIn
  split
  · exact ⟨_, rfl⟩
  · exact ⟨_, rfl⟩

theorem ids_splatIn : (d.splatIn rests).ids.Sublist d.ids := by
  unfold splatIn
  split
  · cases d with
    | leaf a => exact .refl _
    | node mark tag args =>
      rw [splatFirst, ids_node', ids_node', idsOf_cons, ids_leaf, List.nil_append]
      refine .cons_cons _ ?_
      cases args with
      | nil => exact .refl _
      | cons first args =>
        rw [List.drop_succ_cons, List.drop_zero, idsOf_cons]
        exact List.sublist_append_right _ _
  · exact .refl _

theorem splatIn_append : (d.splatIn rests).splatIn rests' = d.splatIn (rests ++ rests') := by
  have htwice : d.splatFirst.splatFirst = d.splatFirst := by cases d <;> rfl
  rw [splatIn, root_splatIn, splatIn, splatIn]
  by_cases h : d.root ∈ rests <;> by_cases h' : d.root ∈ rests' <;> simp [h, h', htwice]

/-- What is known of a function from its parameters and its statements does not hang on its name. -/
theorem restParam?_splatIn : (d.splatIn rests).restParam? = d.restParam? := by
  unfold restParam?
  rw [operand_splatIn]

theorem splatParams_splatIn (rests : List Int) (d : Tree Mark) :
    (d.splatIn rests).splatParams = d.splatParams := by
  unfold splatParams
  rw [restParam?_splatIn, operand_splatIn]

theorem setup_splatIn (w : Int64) : (d.splatIn rests).setup w = d.setup w := by
  unfold setup
  rw [restParam?_splatIn, operand_splatIn]

theorem restIds_splatIn : restIds [d.splatIn rests] = restIds [d] := by
  unfold restIds
  rw [List.filterMap_cons, List.filterMap_cons, restParam?_splatIn]

/-- A function in a parameter list keeps its place there, and may be renamed as a parameter. -/
theorem splatIn_mem_params (hd : d.ids.Nodup) (he : e ∈ (d.operand 1).exposed)
    (hs : e.isSealed = true) : e.splatIn (restIds [d]) ∈ d.splatParams.exposed := by
  have hids : (d.operand 1).ids.Nodup := hd.sublist (d.ids_operand 1)
  have hlist : ∀ mark args, e ≠ node mark .list args := by
    rintro mark args rfl
    cases hs
  unfold splatParams
  split
  · next hnone =>
    rw [splatIn_of_not_mem fun h => ?_]
    · exact he
    · obtain ⟨p, hp, -⟩ := mem_restIds_singleton.mp h
      cases hnone.symm.trans hp
  · next p hp =>
    have hmem := restParam?_mem_exposed hp
    by_cases hroot : e.root = p.root
    · obtain rfl := eq_of_same_root hids he hmem hroot
      rw [splatIn, if_pos (mem_restIds_singleton.mpr ⟨e, hp, rfl⟩)]
      refine change_mem_nodes hids hmem rfl _ ?_
      obtain ⟨mark, tag, args, rfl⟩ := exists_of_mem_within he
      exact self_mem_nodes
    · rw [splatIn_of_not_mem fun h => ?_]
      · obtain ⟨helem, name, mark, tag, args, -, hform⟩ := restParam?_eq_some hp
        -- either below the parameter or in another one
        have hbelow : e ∈ p.exposed → e ∈ ((d.operand 1).graft p.root splatFirst).exposed := by
          intro hin
          refine change_mem_nodes hids hmem rfl _ ?_
          subst hform
          rcases mem_within_node.mp hin with rfl | ⟨ht, a, ha, hin⟩
          · exact absurd rfl hroot
          · rcases List.mem_cons.mp ha with rfl | ha
            · cases hin
            · exact mem_within_operand ht (List.mem_cons_of_mem _ ha) hin
        obtain ⟨s, hs, hin⟩ := mem_nodes_elems he hlist
        by_cases hsp : s = p
        · exact hbelow (hsp ▸ hin)
        have hx : p.root ∉ e.ids := by
          intro hx
          obtain ⟨i, hi⟩ := List.mem_iff_getElem?.mp hs
          obtain ⟨j, hj⟩ := List.mem_iff_getElem?.mp helem
          have hself : p.root ∈ p.ids := by simp [hform, root, ids_node]
          obtain rfl := index_unique (hids.sublist (gathers_ids.elems _)) hi hj
            ((ids_within hin).subset hx) hself
          exact hsp (Option.mem_unique hi hj)
        rcases graft_mem_nodes he hroot with hin | ⟨r, hr, hrp, hin⟩
        · rwa [graft_of_not_mem hx] at hin
        · exact hbelow (eq_of_same_root hids hr hmem hrp ▸ hin)
      · obtain ⟨q, hq, hqr⟩ := mem_restIds_singleton.mp h
        obtain rfl := Option.mem_unique hp hq
        exact hroot hqr.symm

end Tree

namespace Tree

variable {skips : Tag → Bool} {d e t : Tree Mark} {pre post : List (Tree Mark)}

/-- Of several trees, what one comes to before a node is not in it, if this holds of each. -/
theorem within_order_each {ts : List (Tree Mark)} (h : (ts.flatMap ids).Nodup)
    (each : ∀ t ∈ ts, ∀ {pre post : List (Tree Mark)}, t.within skips = pre ++ d :: post →
      e ∈ pre → e.root ∉ d.ids)
    (hsplit : ts.flatMap (within skips) = pre ++ d :: post) (he : e ∈ pre) : e.root ∉ d.ids := by
  induction ts generalizing pre with
  | nil => simp at hsplit
  | cons t ts ih =>
    rw [List.flatMap_cons] at hsplit
    rw [List.flatMap_cons, List.nodup_append'] at h
    have hrest : ∀ {pre : List (Tree Mark)}, ts.flatMap (within skips) = pre ++ d :: post →
        e ∈ pre → e.root ∉ d.ids :=
      fun hsplit he => ih h.2.1 (fun s hs => each s (List.mem_cons_of_mem t hs)) hsplit he
    -- in different trees
    have hcross : e ∈ t.within skips → d ∈ ts.flatMap (within skips) → e.root ∉ d.ids := by
      intro he hd hx
      obtain ⟨s, hs, hd⟩ := List.mem_flatMap.mp hd
      exact h.2.2 (root_mem_ids_of_within he)
        (List.mem_flatMap.mpr ⟨s, hs, (ids_within hd).subset hx⟩)
    obtain ⟨a, rfl, hlast⟩ | ⟨a, hfirst, hlast⟩ := List.append_eq_append_iff.mp hsplit
    · obtain he | he := List.mem_append.mp he
      · refine hcross he ?_
        rw [hlast]
        simp
      · exact hrest hlast he
    · cases a with
      | nil =>
        rw [List.append_nil] at hfirst
        rw [List.nil_append] at hlast
        refine hcross (hfirst ▸ he) ?_
        rw [← hlast]
        simp
      | cons a as =>
        cases hlast
        exact each t (by simp) hfirst he

/-- What one comes to before a node is not in it. -/
theorem within_order (h : t.ids.Nodup) (hsplit : t.within skips = pre ++ d :: post) (he : e ∈ pre) :
    e.root ∉ d.ids := by
  induction t generalizing pre post with
  | leaf a => simp [within] at hsplit
  | node mark tag args ih =>
    rw [ids_node, List.nodup_cons] at h
    rw [within_node] at hsplit
    cases pre with
    | nil => cases he
    | cons a pre =>
      obtain ⟨rfl, hbelow⟩ := List.cons.inj hsplit
      split at hbelow
      · simp at hbelow
      · obtain rfl | he := List.mem_cons.mp he
        · intro hx
          have hd : d ∈ args.flatMap (within skips) := by
            rw [hbelow]
            simp
          obtain ⟨s, hs, hd⟩ := List.mem_flatMap.mp hd
          exact h.1 (List.mem_flatMap.mpr ⟨s, hs, (ids_within hd).subset hx⟩)
        · refine within_order_each h.2 (fun s hs _ _ hsplit he => ?_) hbelow he
          exact ih s hs ((List.nodup_flatMap.mp h.2).1 s hs) hsplit he

/-- A function does not lie in one that comes after it. -/
theorem definitions_order (h : t.ids.Nodup) (hsplit : t.definitions = pre ++ d :: post)
    (he : e ∈ pre) : e.root ∉ d.ids := by
  obtain ⟨a, b, hab, rfl, hb⟩ := List.filter_eq_append_iff.mp hsplit
  obtain ⟨b1, b2, rfl, -, -, -⟩ := List.filter_eq_cons_iff.mp hb
  rw [← List.append_assoc] at hab
  exact within_order h hab (List.mem_append_left _ (List.mem_filter.mp he).1)

end Tree

namespace Pass.Environment

open Forest PassM Scope

variable {U : Int → Prop} {c c' : Context} {n : Node} {d : Tree Mark}

theorem is_eq {v : Operand} {t : Tree Mark} {name : Text} (h : v.view = t.view) :
    v.is name = decide (t.symbol? = some name) := by
  rw [Bool.eq_iff_iff, decide_eq_true_eq, ← symbol?_of_view h, Operand.symbol?, Operand.is]
  cases v.isSymbol <;> simp

/-- The name of a parameter can be seen from its tree. -/
theorem restName?_eq {tag : Tag} (h : List.Forall₂ (fun v t => v.view = Tree.view t) n.args args) :
    restName? n = (Tree.node mark tag args).restName? := by
  unfold restName? Tree.restName?
  generalize n.args = vs at h
  cases h with
  | nil => rfl
  | @cons first first' _ _ hfirst hrest =>
    cases hrest with
    | nil => rfl
    | @cons second second' more more' hsecond hmore =>
      have hlast : ((second :: more).getLast?).any (·.is "rest") =
          ((second' :: more').getLast?).any fun t => t.symbol? = some ("rest" : Text) := by
        rw [List.getLast?_eq_head?_reverse, List.getLast?_eq_head?_reverse]
        have hall : List.Forall₂ (fun v t => v.view = Tree.view t) (second :: more)
            (second' :: more') := .cons hsecond hmore
        replace hall := List.rel_reverse hall
        generalize (second :: more).reverse = vs at hall
        generalize (second' :: more').reverse = ts at hall
        cases hall with
        | nil => rfl
        | cons hview _ => exact is_eq hview
      simp only [hlast, symbol?_of_view hfirst]

/-- The parameter that is renamed is the first one of some that is written as such. -/
theorem renameRest_eq {name : Text} (hts : List.Forall₂ (Denotes c.forest) vs ts)
    (h : renameRest vs c = .ok name c') :
    ts.find? (·.restName?.isSome) = none ∧ name = Text.empty ∧ c' = c ∨
      ∃ p n, ts.find? (·.restName?.isSome) = some p ∧ p.restName? = some name ∧
        c.forest.get? p.root = some n ∧
        setArgs p.root (.sym splatName :: n.args.drop 1) c = .ok ⟨⟩ c' := by
  induction hts with
  | nil =>
    obtain ⟨rfl, rfl⟩ := pure_ok.mp h
    exact .inl ⟨rfl, rfl, rfl⟩
  | @cons v t vs ts hv _ ih =>
    rw [renameRest] at h
    cases t with
    | leaf a =>
      rw [Operand.child?_of_atom hv] at h
      rw [List.find?_cons_of_neg (by simp [Tree.restName?])]
      exact ih h
    | node mark tag args =>
      obtain ⟨hview, n, hn, -, -, hargs⟩ := denotes_node.mp hv
      rw [Operand.view_eq_child.mp hview] at h
      obtain ⟨m, d, hfetch, h⟩ := bind_ok.mp h
      obtain ⟨hm, rfl⟩ := fetch_ok.mp hfetch
      obtain rfl : n = m := Option.mem_unique hn hm
      have hname : restName? n = (Tree.node mark tag args).restName? :=
        restName?_eq (hargs.imp fun _ _ h => h.view)
      rw [hname] at h
      cases hr : (Tree.node mark tag args).restName? with
      | none =>
        rw [hr] at h
        rw [List.find?_cons_of_neg (by simp [hr])]
        exact ih h
      | some found =>
        rw [hr] at h
        obtain ⟨_, hset, rfl⟩ := bind_pure_ok.mp h
        refine .inr ⟨_, n, ?_, hr, hn, hset⟩
        rw [List.find?_cons_of_pos (by simp [hr])]

theorem renameRest_reworks {name : Text} (w : Int64) (hh : Bears U c [v] [d.operand 1])
    (hparams : c.forest.elems v = .ok params)
    (h : renameRest (params.reverse.take 2) c = .ok name c') :
    name = (d.setup w).rest ∧ Reworks U c [d.operand 1] c' [v] [d.splatParams] ∧
      Annotates (fun _ => False) c c' := by
  have hlast := List.forall₂_take 2 (List.rel_reverse (bears_elems hh hparams))
  rcases renameRest_eq hlast h with ⟨hnone, rfl, rfl⟩ | ⟨p, n, hfound, hname, hn, hset⟩
  · have hnone : d.restParam? = none := hnone
    refine ⟨by simp [Tree.setup, hnone], ?_, .refl _⟩
    rw [Tree.splatParams, hnone]
    exact .refl hh
  · have hfound : d.restParam? = some p := hfound
    refine ⟨by simp [Tree.setup, hfound, hname], ?_, setArgs_annotates hset⟩
    have hgraft := hh.grafts List.mem_cons_self
      (Tree.within_subset _ _ (Tree.restParam?_mem_exposed hfound))
    rw [Tree.splatParams, hfound]
    obtain ⟨mark, tag, args, rfl⟩ := Tree.restName?_eq_some hname
    have hbelow := (hgraft.bears.stored hn).2.2
    have hargs : Reworks U c (.leaf (.sym name) :: args) c (.sym splatName :: n.args.drop 1)
        (.leaf (.sym splatName) :: args) := by
      refine ((Makes.sym c splatName).append (.keep ?_)).reworks hbelow ?_
      · exact List.forall₂_drop 1 hbelow.denotes
      · rw [Tree.idsOf_cons, Tree.ids_leaf]
        exact List.Subperm.refl _
    exact hgraft.graft Tree.splatFirst (setArgs_reworks hgraft.bears hargs hset)

end Pass.Environment

end Lowering
