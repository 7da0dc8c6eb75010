import Lowering.Proofs.Inserting
import Lowering.Proofs.SharedParams

namespace Lowering

namespace Pass.Environment

open Scope

/-- A closure around a place. -/
structure Enclosure where
  id : Int
  params : List Text
  /-- The variables that its `let` declares. -/
  vars : List Text
  /-- The parameters that closures further in use. -/
  shared : List Text

/-- A closure declares a name, as a parameter or as a variable. -/
def Enclosure.Binds (e : Enclosure) (name : Text) : Prop := name ∈ e.params ∨ name ∈ e.vars

/-- The key of a name at a place, given the closures around it, innermost first: the name itself if
none of them has it, a key of its own if it is a shared parameter of the first that has it. -/
inductive KeyAt : List Enclosure → Text → Text → Prop where
  | own {around : List Enclosure} {name : Text} (free : ∀ e ∈ around, ¬ e.Binds name) :
      KeyAt around name name
  | shared {around inner outer : List Enclosure} {e : Enclosure} {name : Text}
      (nest : around = inner ++ e :: outer) (free : ∀ e' ∈ inner, ¬ e'.Binds name)
      (param : name ∈ e.params) (noVar : name ∉ e.vars) (shares : name ∈ e.shared) :
      KeyAt around name (exportKey name e.id)

/-- The slot of a key: the frame of the caller comes first, then the captures in their order, then
the closure. -/
inductive SlotOf (captures : List Text) : Text → Nat → Prop where
  | frame : SlotOf captures stackframeName 0
  | capture {i : Nat} {key : Text} (found : captures[i]? = some key) : SlotOf captures key (i + 1)
  | closure : SlotOf captures closureName (captures.length + 1)

end Pass.Environment

namespace Scope.Resolver

/-- Something is captured, or there are closures. -/
def HasEnvironment (r : Resolver) : Prop := ¬ (r.captures = [] ∧ r.closures = [])

/-- The slot of a key, in a function that has slots. -/
def SlotOf (r : Resolver) (key : Text) (k : Nat) : Prop :=
  r.HasEnvironment ∧ Pass.Environment.SlotOf r.captures key k

end Scope.Resolver

/-- A resolver that has been told of a block. -/
def Block.reading (b : Block) : Scope.Resolver := (Scope.Resolver.start b.params).readAll b.stmts

namespace Pass.Environment

open Scope

mutual
/-- What is made of a tree in a body of which a resolver has been told, in the closures around
it. -/
inductive Renamed (r : Resolver) : List Enclosure → Tree Mark → Tree Mark → Prop where
  /-- A name that has a slot. -/
  | slot {around : List Enclosure} {name key : Text} {k : Nat} {t : Tree Mark}
      (known : KeyAt around name key) (slot : r.SlotOf key k) (made : t.shape = slotForm k) :
      Renamed r around (.leaf (.sym name)) t
  /-- Any other name, and what is no name. -/
  | leaf {around : List Enclosure} {a : Atom}
      (noSlot : ∀ name key k, a = .sym name → KeyAt around name key → ¬ r.SlotOf key k) :
      Renamed r around (.leaf a) (.leaf a)
  /-- Lowered code, or a function of its own. -/
  | shut {around : List Enclosure} {t t' : Tree Mark} (isSealed : t.isSealed = true)
      (like : Like t t') : Renamed r around t t'
  /-- A closure without a body. -/
  | bare {around : List Enclosure} {mark : Mark} {tag : Tag} {args args' : List (Tree Mark)}
      (isClosure : tag.isClosure = true) (noBody : ∀ body, args[1]? = some body → body = .leaf .nil)
      (like : List.Forall₂ Like args args') :
      Renamed r around (.node mark tag args) (.node mark tag args')
  /-- A closure with a body. -/
  | closure {around : List Enclosure} {mark m : Mark} {tag : Tag} {params params' body : Tree Mark}
      {names shared : List Text} {vars : Tree Mark} {copies stmts : List (Tree Mark)}
      (isClosure : tag.isClosure = true) (hasBody : body ≠ .leaf .nil) (like : Like params params')
      (known : ⟨mark.id, names, shared⟩ ∈ r.closed) (declares : vars.shape = namesForm names)
      (nodup : shared.Nodup)
      (shares : ∀ name, name ∈ shared ↔ (⟨params.paramNames, body.elems⟩ : Block).Shares name)
      (fills : List.Forall₂ (fun name s => ∃ k, r.SlotOf (exportKey name mark.id) k ∧
        s.shape = copyForm k name) shared copies)
      (each : RenamedEach r (⟨mark.id, params.paramNames, names, shared⟩ :: around)
        body.elems stmts) :
      Renamed r around (.node mark tag [params, body])
        (.node mark tag [params', .node m .letIn (vars :: copies ++ stmts)])
  /-- A call of a method, whose name is no variable. -/
  | callm {around : List Enclosure} {mark : Mark} {receiver receiver' : Tree Mark} {method : Text}
      {rest rest' : List (Tree Mark)} (first : Renamed r around receiver receiver')
      (each : RenamedEach r around rest rest') :
      Renamed r around (.node mark .callm (receiver :: .leaf (.sym method) :: rest))
        (.node mark .callm (receiver' :: .leaf (.sym method) :: rest'))
  /-- A `let`, which lists variables of its own. -/
  | letIn {around : List Enclosure} {mark : Mark} {vars vars' : Tree Mark}
      {stmts stmts' : List (Tree Mark)} (like : Like vars vars')
      (each : RenamedEach r around stmts stmts') :
      Renamed r around (.node mark .letIn (vars :: stmts)) (.node mark .letIn (vars' :: stmts'))
  | node {around : List Enclosure} {mark : Mark} {tag : Tag} {args args' : List (Tree Mark)}
      (isOpen : tag.isSealed = false) (noClosure : tag.isClosure = false) (noCall : tag ≠ .callm)
      (noLet : tag ≠ .letIn) (each : RenamedEach r around args args') :
      Renamed r around (.node mark tag args) (.node mark tag args')

/-- Trees in one body, each renamed. -/
inductive RenamedEach (r : Resolver) : List Enclosure → List (Tree Mark) → List (Tree Mark) → Prop
    where
  | nil {around : List Enclosure} : RenamedEach r around [] []
  | cons {around : List Enclosure} {t t' : Tree Mark} {ts ts' : List (Tree Mark)}
      (first : Renamed r around t t') (rest : RenamedEach r around ts ts') :
      RenamedEach r around (t :: ts) (t' :: ts')
end

variable {r : Resolver} {around : List Enclosure}

theorem renamedEach_iff : RenamedEach r around ts ts' ↔ List.Forall₂ (Renamed r around) ts ts' := by
  constructor
  · intro h
    induction ts generalizing ts' with
    | nil =>
      cases h
      exact .nil
    | cons t ts ih =>
      cases h with
      | cons first rest => exact .cons first (ih rest)
  · intro h
    induction h with
    | nil => exact .nil
    | cons first _ ih => exact .cons first ih

/-- The keys in force inside some closures. -/
def keysOf (around : List Enclosure) : Keys :=
  around.flatMap fun e => closureKeys ⟨e.id, e.vars, e.shared⟩ e.params

theorem lookup_keysOf (e : Enclosure) (around : List Enclosure) (name : Text) :
    (keysOf (e :: around)).lookup name =
      if name ∈ e.vars then some none
      else if name ∈ e.params then
        some (if name ∈ e.shared then some (exportKey name e.id) else none)
      else (keysOf around).lookup name := by
  rw [keysOf, List.flatMap_cons, List.lookup_append, lookup_closureKeys]
  split
  · rfl
  · split
    · rfl
    · rfl

theorem keyAt_nil {name key : Text} : KeyAt [] name key ↔ name = key := by
  constructor
  · intro h
    cases h with
    | own => rfl
    | shared nest => simp at nest
  · rintro rfl
    exact .own nofun

theorem keyAt_cons {name key : Text} : KeyAt (e :: around) name key ↔
      name ∈ e.params ∧ name ∉ e.vars ∧ name ∈ e.shared ∧ exportKey name e.id = key ∨
        ¬ e.Binds name ∧ KeyAt around name key := by
  constructor
  · intro h
    cases h with
    | own free =>
      exact .inr ⟨free e (by simp), .own fun e' he' => free e' (List.mem_cons_of_mem e he')⟩
    | @shared inner outer e' _ nest free param noVar shares =>
      cases inner with
      | nil =>
        cases nest
        exact .inl ⟨param, noVar, shares, rfl⟩
      | cons first inner =>
        cases nest
        refine .inr ⟨free e (by simp), .shared rfl (fun e'' he'' => ?_) param noVar shares⟩
        exact free e'' (List.mem_cons_of_mem e he'')
  · rintro (⟨param, noVar, shares, rfl⟩ | ⟨hfree, h⟩)
    · exact .shared (show e :: around = [] ++ e :: around from rfl) nofun param noVar shares
    · cases h with
      | own free => exact .own (List.forall_mem_cons.mpr ⟨hfree, free⟩)
      | @shared inner outer e' _ nest free param noVar shares =>
        have hnest : e :: around = (e :: inner) ++ e' :: outer := by rw [nest, List.cons_append]
        exact .shared hnest (List.forall_mem_cons.mpr ⟨hfree, free⟩) param noVar shares

/-- The keys that the pass looks names up in give the key of a name. -/
theorem keyOf_keysOf {name key : Text} :
    keyOf (keysOf around) name = some key ↔ KeyAt around name key := by
  induction around with
  | nil => exact Option.some_inj.trans keyAt_nil.symm
  | cons e around ih =>
    rw [keyAt_cons, ← ih]
    unfold keyOf
    rw [lookup_keysOf]
    by_cases hv : name ∈ e.vars
    · simp [hv, Enclosure.Binds]
    · by_cases hp : name ∈ e.params
      · by_cases hs : name ∈ e.shared <;> simp [hv, hp, hs, Enclosure.Binds]
      · simp [hv, hp, Enclosure.Binds]

theorem slotOf_iff :
    SlotOf captures key k ↔ (stackframeName :: captures ++ [closureName])[k]? = some key := by
  constructor
  · intro h
    cases h with
    | frame => rfl
    | capture found =>
      have hlt := (List.getElem?_eq_some_iff.mp found).1
      simp [List.getElem?_append_left hlt, found]
    | closure => simp
  · intro h
    cases k with
    | zero =>
      obtain rfl : stackframeName = key := by simpa using h
      exact .frame
    | succ i =>
      have h : (captures ++ [closureName])[i]? = some key := by simpa using h
      by_cases hi : i < captures.length
      · rw [List.getElem?_append_left hi] at h
        exact .capture h
      · rw [List.getElem?_append_right (by omega)] at h
        have hzero : i - captures.length = 0 := by
          have := (List.getElem?_eq_some_iff.mp h).1
          simpa using this
        obtain rfl : i = captures.length := by omega
        obtain rfl : closureName = key := by simpa using h
        exact .closure

theorem nodup_slots (captures : List Text) : (slots captures).Nodup := by
  unfold slots
  generalize stackframeName :: captures ++ [closureName] = names
  have fold : ∀ acc : List Text, acc.Nodup → (names.foldl Names.add acc).Nodup := by
    induction names with
    | nil => exact fun _ hacc => hacc
    | cons name names ih => exact fun acc hacc => ih _ (Names.nodup_add hacc)
  exact fold [] .nil

theorem idxOf?_slots (h : r.Keyed params) :
    (slots r.captures).idxOf? key = some k ↔ SlotOf r.captures key k := by
  have hd := nodup_slots r.captures
  rw [slotOf_iff, ← Keyed.slots h, List.idxOf?_eq_some_iff, List.getElem?_eq_some_iff]
  constructor
  · rintro ⟨hlt, hk, -⟩
    exact ⟨hlt, hk⟩
  · rintro ⟨hlt, hk⟩
    refine ⟨hlt, hk, fun j hj he => ?_⟩
    have := (List.Nodup.getElem_inj_iff hd).mp (he.trans hk.symm)
    omega

end Pass.Environment

namespace Tree

open Pass.Environment

mutual
/-- There is no function in a tree outside lowered code. -/
def functionFree {α : Type} : Tree α → Bool
  | leaf _ => true
  | node _ tag args => tag = .sexp || (!tag.isSealed && functionFreeEach args)

def functionFreeEach {α : Type} : List (Tree α) → Bool
  | [] => true
  | t :: ts => functionFree t && functionFreeEach ts
end

theorem functionFree_node {mark : α} : (Tree.node mark tag args).functionFree = true ↔
      tag = .sexp ∨ tag.isSealed = false ∧ ∀ t ∈ args, t.functionFree = true := by
  have hiff : ∀ ts : List (Tree α),
      functionFreeEach ts = true ↔ ∀ t ∈ ts, t.functionFree = true := by
    intro ts
    induction ts with
    | nil => simp [functionFreeEach]
    | cons t ts ih => simp [functionFreeEach, ih]
  simp [functionFree, hiff]

theorem functionFree_shape {α : Type} (t : Tree α) : t.shape.functionFree = t.functionFree := by
  induction t with
  | leaf a => rfl
  | node mark tag args ih =>
    rw [Bool.eq_iff_iff, shape_node, functionFree_node, functionFree_node]
    simp only [List.forall_mem_map]
    exact or_congr_right (and_congr_right' (forall₂_congr fun t ht => by rw [ih t ht]))

theorem eq_of_like {t t' : Tree Mark} (h : Like t t') (ht : t.shape.functionFree = true) :
    t' = t := by
  rw [functionFree_shape] at ht
  induction t generalizing t' with
  | leaf a =>
    cases h
    rfl
  | node mark tag args ih =>
    rcases functionFree_node.mp ht with rfl | ⟨hs, hargs⟩
    · cases h with
      | code => rfl
      | shut hf => simp at hf
      | node hs => cases hs
    · obtain ⟨args', rfl, each⟩ := like_open hs h
      congr 1
      refine List.ext_getElem each.length_eq.symm fun i hi hi' => ?_
      have hmem := List.getElem_mem hi'
      exact ih _ hmem (each.get hi' hi) (hargs _ hmem)

/-- What has a form without functions keeps it. -/
theorem shape_of_like (h : Like t t') (ht : t.shape = e) (he : e.functionFree = true) :
    t'.shape = e := by
  subst ht
  rw [eq_of_like h he]

end Tree

section Blocks

open Scope Pass.Environment

variable {params : List Text} {stmts stmts' : List (Tree Mark)}

theorem Pass.Environment.reading_of_like (params : List Text) (h : List.Forall₂ Like stmts stmts') :
    Block.reading ⟨params, stmts'⟩ = Block.reading ⟨params, stmts⟩ := by
  have hevents : stmts'.map events = stmts.map events :=
    map_of_like h fun _ _ _ hs => events_of_like hs
  rw [Block.reading, Block.reading, ← Resolver.foldl_events, ← Resolver.foldl_events,
    List.flatMap_def, List.flatMap_def, hevents]

theorem Scope.readable_of_like (h : Like t t') (ht : Readable t) : Readable t' := by
  intro d hd
  rw [events_of_like h] at hd
  exact ht d hd

theorem Block.Shares.congr (h : List.Forall₂ Like stmts stmts') (hread : ∀ t ∈ stmts, Readable t)
    (name : Text) : (⟨params, stmts⟩ : Block).Shares name ↔
    (⟨params, stmts'⟩ : Block).Shares name := by
  have hread' : ∀ t ∈ stmts', Readable t := by
    intro t' ht'
    obtain ⟨t, ht, hlike⟩ := Forest.forall₂_mem_left h.flip ht'
    exact readable_of_like hlike (hread t ht)
  have hreading := reading_of_like params h
  unfold Block.reading at hreading
  rw [← Resolver.mem_capturedParams (b := ⟨params, stmts⟩) hread,
    ← Resolver.mem_capturedParams (b := ⟨params, stmts'⟩) hread', hreading]

end Blocks

namespace Pass.Environment

open Scope

theorem functionFree_namesForm (names : List Text) : (namesForm names).functionFree = true := by
  refine Tree.functionFree_node.mpr (.inr ⟨rfl, fun t ht => ?_⟩)
  obtain ⟨name, -, rfl⟩ := List.mem_map.mp ht
  rfl

theorem forall₂_like_trans (h : List.Forall₂ Like ts us) (h' : List.Forall₂ Like us vs) :
    List.Forall₂ Like ts vs := by
  induction h generalizing vs with
  | nil => exact h'
  | cons hu _ ih =>
    cases h' with
    | cons hv hvs => exact .cons (hu.trans hv) (ih hvs)

theorem eq_of_like_leaf (h : Like (.leaf a) t) : t = .leaf a := by
  cases h
  rfl

theorem renamedEach_map
    (each : ∀ t ∈ ts, ∀ {t' s s'}, Like t t' → Renamed r around t s → Like s s' →
      Renamed r around t' s') (ht : List.Forall₂ Like ts ts') (h : RenamedEach r around ts ss)
    (hs : List.Forall₂ Like ss ss') : RenamedEach r around ts' ss' := by
  induction ht generalizing ss ss' with
  | nil =>
    cases h
    cases hs
    exact .nil
  | cons hfirst _ ih =>
    cases h with
    | cons first rest =>
      cases hs with
      | cons hs hss =>
        exact .cons (each _ (by simp) hfirst first hs)
          (ih (fun u hu => each u (List.mem_cons_of_mem _ hu)) rest hss)

/-- A tree, and what is made of it, may be replaced by what is like it. -/
theorem Renamed.like (hread : Readable t) (ht : Like t t') (h : Renamed r around t s)
    (hs : Like s s') : Renamed r around t' s' := by
  induction t using Tree.induct_parts generalizing around t' s s' with
  | step t ih =>
    have each : ∀ u ∈ t.parts, ∀ {around : List Enclosure} {u' w w'}, Like u u' →
        Renamed r around u w → Like w w' → Renamed r around u' w' :=
      fun u hu _ _ _ _ hlike h hs => ih u hu (hread.part hu) hlike h hs
    cases h with
    | slot known slot made =>
      cases ht
      exact .slot known slot (Tree.shape_of_like hs made rfl)
    | leaf noSlot =>
      cases ht
      cases hs
      exact .leaf noSlot
    | shut hsealed hl =>
      refine .shut ?_ ((ht.symm.trans hl).trans hs)
      cases ht with
      | leaf => cases hsealed
      | code => rfl
      | shut hf => exact Tag.isSealed_iff.mpr (.inr hf)
      | node _ _ => exact hsealed
    | bare hc hbody hl =>
      obtain ⟨args', rfl, hargs⟩ := like_open (Tag.isSealed_closure hc) ht
      obtain ⟨outs', rfl, houts⟩ := like_open (Tag.isSealed_closure hc) hs
      refine .bare hc (fun body hb => ?_)
        (forall₂_like_trans (forall₂_like_trans (hargs.flip.imp fun _ _ h => h.symm) hl) houts)
      obtain ⟨hi, rfl⟩ := List.getElem?_eq_some_iff.mp hb
      have hi' : 1 < _ := hargs.length_eq ▸ hi
      have hnil := hbody _ (List.getElem?_eq_getElem hi')
      exact eq_of_like_leaf (hnil ▸ hargs.get hi' hi)
    | @closure _ mark m tag params params' body names shared vars copies stmts hc hbody hl hknown
        hvars hnodup hshares hfills hstmts =>
      obtain ⟨args', rfl, hargs⟩ := like_open (Tag.isSealed_closure hc) ht
      obtain ⟨outs', rfl, houts⟩ := like_open (Tag.isSealed_closure hc) hs
      have hparts : (Tree.node mark tag [params, body]).parts = body.elems := Tree.parts_closure hc
      rw [hparts] at each
      have hreads : ∀ u ∈ body.elems, Readable u := fun u hu => hread.part (hparts ▸ hu)
      cases hargs with
      | @cons _ ps _ _ hps hargs =>
        cases hargs with
        | @cons _ bs _ _ hbs hnil =>
          cases hnil
          cases houts with
          | cons hpo houts =>
            cases houts with
            | cons hlet hnil =>
              cases hnil
              obtain ⟨inner, rfl, hinner⟩ := like_open rfl hlet
              cases hinner with
              | @cons _ vars' _ rest hvars' hinner =>
                obtain ⟨copies', stmts', hcopies', hstmts', rfl⟩ :=
                  Forest.forall₂_append_left hinner
                rw [← hps.paramNames] at hshares hstmts
                refine .closure hc ?_ ((hps.symm.trans hl).trans hpo) hknown
                  (Tree.shape_of_like hvars' hvars (functionFree_namesForm names)) hnodup
                  (fun name => (hshares name).trans (Block.Shares.congr hbs.elems hreads name)) ?_
                  (renamedEach_map (fun u hu _ _ _ hlike h hs => each u hu hlike h hs) hbs.elems
                    hstmts hstmts')
                · rintro rfl
                  cases hbs
                  exact hbody rfl
                · refine List.forall₂_iff_get.mpr ⟨hfills.length_eq.trans hcopies'.length_eq, ?_⟩
                  intro i hi hi'
                  have hmid : i < copies.length := hfills.length_eq ▸ hi
                  obtain ⟨k, hk, hmade⟩ := hfills.get hi hmid
                  exact ⟨k, hk, Tree.shape_of_like (hcopies'.get hmid hi') hmade rfl⟩
    | callm first hrest =>
      obtain ⟨args', rfl, hargs⟩ := like_open rfl ht
      obtain ⟨outs', rfl, houts⟩ := like_open rfl hs
      cases hargs with
      | cons hreceiver hargs =>
        cases hargs with
        | cons hmethod hargs =>
          cases houts with
          | cons hreceiver' houts =>
            cases houts with
            | cons hmethod' houts =>
              cases hmethod
              cases hmethod'
              refine .callm (each _ (by simp [Tree.parts]) hreceiver first hreceiver')
                (renamedEach_map (fun u hu _ _ _ hlike h hs =>
                  each u ?_ hlike h hs) hargs hrest houts)
              simp [Tree.parts, hu]
    | letIn hl hstmts =>
      obtain ⟨args', rfl, hargs⟩ := like_open rfl ht
      obtain ⟨outs', rfl, houts⟩ := like_open rfl hs
      cases hargs with
      | cons hvars hargs =>
        cases houts with
        | cons hvars' houts =>
          exact .letIn ((hvars.symm.trans hl).trans hvars')
            (renamedEach_map (fun u hu _ _ _ hlike h hs =>
              each u (by simpa [Tree.parts]) hlike h hs)
              hargs hstmts houts)
    | @node _ mark tag args _ hopen hc hcall hlet hargs =>
      obtain ⟨args', rfl, hlikes⟩ := like_open hopen ht
      obtain ⟨outs', rfl, houts⟩ := like_open hopen hs
      have hparts : (Tree.node mark tag args).parts = args := by
        cases tag <;> first | rfl | contradiction
      rw [hparts] at each
      exact .node hopen hc hcall hlet
        (renamedEach_map (fun u hu _ _ _ hlike h hs => each u hu hlike h hs) hlikes hargs houts)

theorem renamedEach_like (hread : ∀ t ∈ ts, Readable t) (ht : List.Forall₂ Like ts ts')
    (h : RenamedEach r around ts ss) (hs : List.Forall₂ Like ss ss') :
    RenamedEach r around ts' ss' :=
  renamedEach_map (fun t hmem _ _ _ hlike h hs => h.like (hread t hmem) hlike hs) ht h hs

end Pass.Environment

end Lowering
