import Lowering.Proofs.EnvironmentCases
import Lowering.Proofs.Grading
import Lowering.Proofs.Subtrees
import Lowering.Proofs.Traversals

namespace Lowering

namespace Walk

open Forest

variable {f : Forest} {act : Int → Action} {seen ids rest : List Int}

theorem DepthFirst.unique (h : DepthFirst f act seen ids order)
    (h' : DepthFirst f act seen ids order') : order' = order := by
  induction h generalizing order' with
  | done =>
    cases h'
    rfl
  | again hid _ ih =>
    cases h' with
    | again _ h' => exact ih h'
    | past hno | into hno => exact absurd hid hno
  | past hid hact _ ih =>
    cases h' with
    | again hin => exact absurd hin hid
    | past _ _ h' => rw [ih h']
    | into _ hdown => exact absurd hdown hact
  | into hid hact hn _ ih =>
    cases h' with
    | again hin => exact absurd hin hid
    | past _ hno => exact absurd hact hno
    | into _ _ hm h' =>
      obtain rfl := Option.mem_unique hm hn
      rw [ih h']

/-- A walk is stopped exactly if it can reach a node that stops it. -/
theorem Course.stopped_iff (h : Course f act root visited finished) :
    finished = false ↔ ∃ x, Reaches f act root x ∧ act x = .stop := by
  constructor
  · intro hf
    obtain ⟨before, x, rfl, -, hx⟩ := h.stops hf
    obtain ⟨rest, horder, -⟩ := h.order
    exact ⟨x, horder.mem_iff.mp (by simp), hx⟩
  · rintro ⟨x, hx, hstop⟩
    rw [← Bool.not_eq_true]
    intro hf
    obtain ⟨hgo, hmem⟩ := h.ends hf
    exact hgo x ((hmem x).mpr hx) hstop

/-- The state in the end, if each visit notes something about its node. -/
theorem each_noted {ε σ : Type} {visit : Int → EStateM ε σ Action} {I : σ → Prop} {s s' : σ}
    (note : Int → σ → σ)
    (hvisit : ∀ id ∈ ids, ∀ s, I s → I (note id s) ∧ ∃ a, visit id s = .ok a (note id s))
    (hs : I s) (h : each visit ids s = .ok () s') : s' = ids.foldl (fun s id => note id s) s := by
  induction ids generalizing s with
  | nil => exact (pure_ok.mp h).2.symm
  | cons id ids ih =>
    obtain ⟨t, hfirst, h⟩ := forM_cons_ok.mp h
    obtain ⟨a, hfirst⟩ := discard_ok.mp hfirst
    obtain ⟨ht, b, hid⟩ := hvisit id (by simp) s hs
    rw [hid] at hfirst
    cases hfirst
    exact ih (fun x hx => hvisit x (by simp [hx])) ht h

end Walk

namespace Forest

open Walk

variable {f : Forest} {root : Int} {t : Tree Mark} {v : Operand} {skips : Tag → Bool}

/-- How a walk goes on that passes over what is below the nodes with some tags. -/
def skipping (f : Forest) (skips : Tag → Bool) (id : Int) : Walk.Action :=
  if (f.get? id).any fun n => skips n.tag then .skip else .descend

/-- A walk through a valid forest comes to its end. -/
theorem exists_preorderSkipping (hf : f.Valid) (hroot : f.Has root) (skips : Tag → Bool) :
    ∃ ids, f.preorderSkipping root skips = .ok ids ∧
      DepthFirst f (f.skipping skips) [] [root] ids := by
  -- the log of a walk holds what was visited, the last node first
  have hrun : ∀ {children : Int → EStateM Fault (List Int) (List Int)} {visit result},
      run .endless children visit f.extent root [] = result →
      (∀ s id n, f.get? id = some n → children id s = .ok n.children s) →
      (∀ s id n, f.get? id = some n → visit id s = .ok (f.skipping skips id) (id :: s)) →
      ∃ b log, result = .ok b log ∧ DepthFirst f (f.skipping skips) [] [root] log.reverse := by
    rintro children visit _ rfl hchildren hvisit
    have hwatches : Watches (fun _ => f) f children visit (f.skipping skips) :=
      ⟨fun s id n _ hn => hchildren s id n hn, fun s id n _ hn => ⟨_, hvisit s id n hn, rfl⟩⟩
    obtain ⟨visited, finished, s', hcourse, hrun, heach⟩ := hwatches.course hf hroot (s := []) rfl
    obtain ⟨rest, horder, hend⟩ := hcourse.order
    have hfinished : finished = true := by
      rw [← Bool.not_eq_false]
      intro hstopped
      obtain ⟨x, -, hx⟩ := hcourse.stopped_iff.mp hstopped
      unfold skipping at hx
      split at hx <;> cases hx
    rw [hend hfinished, List.append_nil] at horder
    have hlog : s' = visited.foldl (fun s id => id :: s) [] :=
      each_noted (I := fun _ => True) List.cons (fun id hid s _ =>
        (horder.exist hf hroot id hid).elim fun n hn =>
        ⟨trivial, _, hvisit s id n hn⟩) trivial heach
    refine ⟨finished, s', hrun, ?_⟩
    rw [hlog]
    simpa using horder
  unfold preorderSkipping
  dsimp only
  generalize hresult : run _ _ _ f.extent root [] = result
  obtain ⟨b, log, rfl, horder⟩ := hrun hresult
    (fun s id n hn => by rw [get_eq_ok.mpr hn]; rfl)
    (fun s id n hn => by rw [get_eq_ok.mpr hn, skipping, hn]; rfl)
  exact ⟨_, rfl, horder⟩

/-- The order is that of the trees, one after the other. -/
theorem depthFirst_trees (skips : Tag → Bool) (hvs : List.Forall₂ (Denotes f) vs ts)
    (hd : (ts.flatMap Tree.ids).Nodup) (hseen : ∀ x ∈ ts.flatMap Tree.ids, x ∉ seen) :
    DepthFirst f (f.skipping skips) seen (vs.filterMap Operand.child?)
      ((ts.flatMap (Tree.within skips)).map Tree.root) := by
  -- each step leaves fewer nodes, or else fewer trees
  induction hk : (ts.flatMap Tree.ids).length using Nat.strong_induction_on
    generalizing seen vs ts with
  | _ k ih =>
    subst hk
    induction hvs with
    | nil => exact .done
    | @cons v t vs ts hv hvs ihs =>
      cases t with
      | leaf a =>
        rw [List.filterMap_cons, Operand.child?_of_atom hv]
        exact ihs hd hseen ih
      | node mark tag args =>
        obtain ⟨hview, n, hn, rfl, -, hargs⟩ := denotes_node.mp hv
        rw [List.filterMap_cons, Operand.view_eq_child.mp hview]
        rw [List.flatMap_cons, Tree.ids_node, List.cons_append] at hd hseen ih
        rw [List.nodup_cons] at hd
        rw [List.forall_mem_cons] at hseen
        have hlater : ∀ x ∈ args.flatMap Tree.ids ++ ts.flatMap Tree.ids, x ∉ mark.id :: seen :=
          fun x hx hx' => (List.mem_cons.mp hx').elim (fun h => hd.1 (h ▸ hx)) (hseen.2 x hx)
        rw [List.flatMap_cons, Tree.within_node]
        cases hs : skips n.tag with
        | true =>
          refine .past hseen.1 (by simp [skipping, hn, hs]) ?_
          exact ih _ (by rw [List.length_cons, List.length_append]; omega) hvs
            (List.nodup_append.mp hd.2).2.1 (fun x hx => hlater x (List.mem_append_right _ hx)) rfl
        | false =>
          refine .into hseen.1 (by simp [skipping, hn, hs]) hn ?_
          have := ih _ (by simp) (List.rel_append hargs hvs) (by simpa using hd.2)
            (fun x hx => hlater x (by simpa using hx)) rfl
          simpa [Node.children] using this

theorem Denotes.has {id : Int} (h : Denotes f v t) (hv : v.child? = some id) : f.Has id := by
  obtain ⟨mark, tag, args, rfl, rfl⟩ := h.child hv
  exact (denotes_node.mp h).2.imp fun _ hn => hn.1

/-- What a walk through the forest of a tree visits. -/
theorem preorderSkipping_eq (hf : f.Valid) (h : Denotes f (.ref root) t) (hd : t.ids.Nodup) :
    f.preorderSkipping root skips = .ok ((t.within skips).map Tree.root) := by
  obtain ⟨ids, hids, horder⟩ := exists_preorderSkipping hf (h.has (Operand.child?_ref root)) skips
  have htree := depthFirst_trees skips (.cons h .nil) (by simpa using hd)
    fun _ _ => List.not_mem_nil
  rw [hids, htree.unique horder, List.flatMap_singleton]

end Forest

namespace Tree

/-- The functions in a tree, also those in others, but not those in lowered code. -/
def definitions (t : Tree Mark) : List (Tree Mark) :=
  (t.within fun tag => tag = .sexp).filter fun
    | leaf _ => false
    | node _ tag _ => tag = .defm ∨ tag = .defun

/-- There is a closure outside functions and lowered code. -/
def HasClosure (t : Tree Mark) : Prop := ∃ u ∈ t.within Tag.isSealed, u.closure?.isSome = true

theorem hasClosure_node {mark : Mark} {tag : Tag} {args : List (Tree Mark)} :
    (node mark tag args).HasClosure ↔
      tag.isClosure = true ∨ tag.isSealed = false ∧ ∃ t ∈ args, t.HasClosure := by
  have hself : (node mark tag args).closure?.isSome = tag.isClosure := by
    rw [closure?]
    cases tag.isClosure <;> rfl
  simp only [HasClosure, mem_within_node, or_and_right, exists_or, exists_eq_left, hself]
  refine or_congr_right ?_
  simp only [and_assoc, exists_and_left]
  refine and_congr_right' ⟨?_, ?_⟩
  · rintro ⟨u, ⟨s, hs, hu⟩, hc⟩
    exact ⟨s, hs, u, hu, hc⟩
  · rintro ⟨s, hs, u, hu, hc⟩
    exact ⟨u, ⟨s, hs, hu⟩, hc⟩

theorem HasClosure.isOpen {mark : Mark} {tag : Tag} {args : List (Tree Mark)}
    (h : (node mark tag args).HasClosure) : tag.isSealed = false :=
  (hasClosure_node.mp h).elim Tag.isSealed_closure And.left

end Tree

namespace Pass.Environment

open Forest PassM

variable {c c' : Context} {root : Int} {t : Tree Mark}

/-- The definitions that the pass works on are those of the source. -/
theorem definitions_eq (hf : c.forest.Valid) (ht : Denotes c.forest (.ref root) t)
    (hd : t.ids.Nodup)
    (h : definitions root c = .ok ids c') : c' = c ∧ ids = t.definitions.map Tree.root := by
  obtain ⟨rfl, all, hall, rfl⟩ := definitions_ok h
  rw [preorderSkipping_eq hf ht hd] at hall
  obtain rfl := Except.ok.inj hall
  refine ⟨rfl, ?_⟩
  rw [List.filter_map, Tree.definitions]
  congr 1
  refine List.filter_congr fun u hu => ?_
  obtain ⟨mark, tag, args, rfl⟩ := Tree.exists_of_mem_within hu
  obtain ⟨w, hw⟩ := ht.within hu
  obtain ⟨-, n, hn, rfl, -⟩ := denotes_node.mp hw
  simp [Tree.root, hn]

/-- How the search for a closure outside functions goes on. -/
def search (f : Forest) (id : Int) : Walk.Action :=
  match f.get? id with
  | none => .descend
  | some n => if n.tag.isClosure then .stop else if n.tag.isSealed then .skip else .descend

theorem search_eq {f : Forest} {id : Int} (hn : f.get? id = some n) : search f id =
    if n.tag.isClosure then .stop else if n.tag.isSealed then .skip else .descend := by
  rw [search, hn]

theorem hasClosure_iff {f : Forest} {id : Int} (h : Denotes f v t) (hv : v.child? = some id) :
    t.HasClosure ↔ ∃ x, Walk.Reaches f (search f) id x ∧ search f x = .stop := by
  induction t generalizing v id with
  | leaf a =>
    rw [Operand.child?_of_atom h] at hv
    cases hv
  | node mark tag args ih =>
    obtain ⟨hview, n, hn, rfl, -, hargs⟩ := denotes_node.mp h
    obtain rfl : mark.id = id := Option.mem_unique (Operand.view_eq_child.mp hview) hv
    have hact := search_eq hn
    rw [Tree.hasClosure_node]
    cases hc : n.tag.isClosure with
    | true => exact iff_of_true (.inl rfl) ⟨mark.id, .refl, by rw [hact, if_pos hc]⟩
    | false =>
      rw [hc] at hact
      constructor
      · rintro (hc | ⟨hs, t, ht, hclosure⟩)
        · cases hc
        obtain ⟨w, hw, hdenotes⟩ := forall₂_mem_left hargs.flip ht
        obtain ⟨id, hid⟩ : ∃ id, w.child? = some id := by
          cases t with
          | leaf a => exact hclosure.elim fun _ h => absurd h.1 List.not_mem_nil
          | node m _ _ => exact ⟨m.id, Operand.view_eq_child.mp (denotes_node.mp hdenotes).1⟩
        obtain ⟨x, hx, hstop⟩ := (ih t ht hdenotes hid).mp hclosure
        refine ⟨x, .head ⟨by simp [hact, hs], n, hn, ?_⟩ hx, hstop⟩
        exact List.mem_filterMap.mpr ⟨w, hw, hid⟩
      · rintro ⟨x, hx, hstop⟩
        rcases hx.cases_head with rfl | ⟨y, ⟨hdown, m, hm, hy⟩, hx⟩
        · rw [hact, if_neg (by simp)] at hstop
          split at hstop <;> cases hstop
        · obtain rfl := Option.mem_unique hn hm
          obtain ⟨w, hw, hid⟩ := List.mem_filterMap.mp hy
          obtain ⟨t, ht, hdenotes⟩ := forall₂_mem_left hargs hw
          exact .inr ⟨by simp_all, t, ht, (ih t ht hdenotes hid).mpr ⟨x, hx, hstop⟩⟩

/-- The search finds a closure exactly if there is one. -/
theorem hasOuterClosure_eq (hf : c.forest.Valid) (ht : Denotes c.forest (.ref root) t)
    (h : hasOuterClosure root c = .ok b c') : c' = c ∧ (b = true ↔ t.HasClosure) := by
  have hrun : ∀ {visit : Int → PassM Walk.Action} {r : Bool},
      (∀ s id n, s.forest = c.forest → c.forest.get? id = some n →
        visit id s = .ok (search c.forest id) s) →
      Walk.run (.fault .endless) (fun id => do return (← fetch id).children) visit
        c.forest.extent root c = .ok r c' →
      c' = c ∧ ((!r) = true ↔ t.HasClosure) := by
    intro visit r hvisit hrun
    have hwatches : Walk.Watches (·.forest) c.forest (fun id => do return (← fetch id).children)
        visit (search c.forest) :=
      ⟨fun s id n hs hn => bind_ok.mpr ⟨n, s, fetch_ok.mpr ⟨hs ▸ hn, rfl⟩, rfl⟩,
        fun s id n hs hn => ⟨s, hvisit s id n hs hn, hs⟩⟩
    have hroot := ht.has (Operand.child?_ref root)
    obtain ⟨visited, r', s', hcourse, hrun', heach⟩ := hwatches.course hf hroot (s := c) rfl
    obtain ⟨rfl, rfl⟩ := EStateM.Result.ok.inj (hrun.symm.trans hrun')
    rw [Bool.not_eq_true', hcourse.stopped_iff, hasClosure_iff ht (Operand.child?_ref root)]
    refine ⟨?_, Iff.rfl⟩
    obtain ⟨rest, horder, -⟩ := hcourse.order
    rw [Walk.each_noted (I := (·.forest = c.forest)) (fun _ d => d)
      (fun id hid s hs => ?_) rfl heach]
    · simp
    · obtain ⟨n, hn⟩ := horder.exist hf hroot id (List.mem_append_left rest hid)
      exact ⟨hs, _, hvisit s id n hs hn⟩
  unfold hasOuterClosure at h
  obtain ⟨r, hwalk, rfl⟩ := bind_pure_ok.mp h
  refine hrun (fun s id n hs hn => ?_) (get_bind_ok.mp hwalk)
  refine bind_ok.mpr ⟨n, s, fetch_ok.mpr ⟨hs ▸ hn, rfl⟩, ?_⟩
  rw [search_eq hn]
  cases n with | _ tag args pos => cases tag <;> rfl

end Pass.Environment

end Lowering
