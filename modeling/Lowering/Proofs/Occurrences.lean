import Lowering.Proofs.Resolving

namespace Lowering

/-- The forms whose inside does not belong to the body they stand in. -/
def Tag.isSealed : Tag → Bool
  | sexp | defm | defun => true
  | _ => false

theorem Tag.isSealed_iff {tag : Tag} :
    tag.isSealed = true ↔ tag = .sexp ∨ tag = .defm ∨ tag = .defun := by
  cases tag <;> simp [isSealed]

theorem Tag.isSealed_closure {tag : Tag} (h : tag.isClosure = true) : tag.isSealed = false := by
  cases tag <;> first | rfl | cases h

namespace Tree

/-- The trees read below a node, in order; for a closure its statements. -/
def parts : Tree Mark → List (Tree Mark)
  | leaf _ => []
  | node _ tag args =>
    match tag with
    | .sexp | .defm | .defun => []
    | .callm => args.eraseIdx 1
    | .letIn => args.drop 1
    | .lambda | .proc => ((args[1]?).map elems).getD []
    | _ => args

/-- The number of a closure and its parameters. -/
def closure? : Tree Mark → Option (Int × List Text)
  | leaf _ => none
  | node mark tag args =>
    if tag.isClosure then some (mark.id, (args.head?.map paramNames).getD []) else none

/-- The name that an assignment assigns. -/
def target? : Tree Mark → Option Text
  | leaf _ => none
  | node _ tag args => if tag = .assign then args.head?.bind symbol? else none

mutual
/-- The names that are assigned in a tree, but not in the closures in it. -/
def assigned : Tree Mark → List Text
  | leaf _ => []
  | node _ tag args =>
    match tag with
    | .sexp | .defm | .defun | .lambda | .proc => []
    | .callm => ((assignedEach args).eraseIdx 1).flatten
    | .letIn => ((assignedEach args).drop 1).flatten
    | .assign => (assignedEach args).flatten ++ (args.head?.bind symbol?).toList
    | _ => (assignedEach args).flatten

def assignedEach : List (Tree Mark) → List (List Text)
  | [] => []
  | t :: ts => assigned t :: assignedEach ts
end

/-- The tree at a place: the path that leads there through the parts. -/
def at? : Tree Mark → List Nat → Option (Tree Mark)
  | t, [] => some t
  | t, i :: p => (t.parts[i]?).bind (at? · p)

theorem closure?_eq_some {id : Int} : closure? (.node mark tag args) = some (id, params) ↔
      tag.isClosure = true ∧ id = mark.id ∧ params = (args.head?.map paramNames).getD [] := by
  cases h : tag.isClosure <;> simp [closure?, h, eq_comm]

theorem parts_closure (h : tag.isClosure = true) :
    (node mark tag args).parts = ((args[1]?).map elems).getD [] := by
  cases tag <;> first | rfl | cases h

theorem closure?_eq_none : closure? (.node mark tag args) = none ↔ tag.isClosure = false := by
  cases h : tag.isClosure <;> simp [closure?, h]

theorem assignedEach_eq (ts : List (Tree Mark)) : assignedEach ts = ts.map assigned :=
  eq_map rfl (fun _ _ => rfl) ts

theorem assigned_closure {t : Tree Mark} (h : t.closure?.isSome = true) : t.assigned = [] := by
  cases t with
  | leaf a => rfl
  | node mark tag args => cases tag <;> first | rfl | simp [closure?, Tag.isClosure] at h

theorem assigned_eq {t : Tree Mark} (h : t.closure? = none) :
    t.assigned = t.parts.flatMap assigned ++ t.target?.toList := by
  cases t with
  | leaf a => rfl
  | node mark tag args =>
    cases tag
    case lambda | proc => simp [closure?, Tag.isClosure] at h
    all_goals simp [assigned, parts, target?, assignedEach_eq, List.flatMap, List.eraseIdx_map]

theorem mem_elems_depth (h : s ∈ t.elems) : depth s ≤ depth t := by
  unfold elems at h
  split at h
  · simp at h
  · rw [depth]
    exact Nat.le_succ_of_le (depth_le_depthEach h)
  · exact Nat.le_of_eq (congrArg depth (List.mem_singleton.mp h))

mutual
/-- The names in a tree. -/
def names : Tree Mark → List Text
  | leaf (.sym name) => [name]
  | leaf _ => []
  | node _ _ args => namesEach args

def namesEach : List (Tree Mark) → List Text
  | [] => []
  | t :: ts => names t ++ namesEach ts
end

theorem mem_namesEach : name ∈ namesEach ts ↔ ∃ t ∈ ts, name ∈ t.names := by
  induction ts with
  | nil => simp [namesEach]
  | cons t ts ih => simp [namesEach, ih]

theorem names_elems {s t : Tree Mark} (h : s ∈ t.elems) : ∀ x ∈ s.names, x ∈ t.names := by
  unfold elems at h
  split at h
  · simp at h
  · exact fun x hx => mem_namesEach.mpr ⟨s, h, hx⟩
  · obtain rfl := List.mem_singleton.mp h
    exact fun x hx => hx

theorem mem_parts (h : s ∈ (node mark tag args).parts) : ∃ t ∈ args, s = t ∨ s ∈ t.elems := by
  cases tag
  case sexp | defm | defun => simp [parts] at h
  case lambda | proc =>
    cases hbody : args[1]? with
    | none => simp [parts, hbody] at h
    | some body => exact ⟨body, List.mem_of_getElem? hbody, .inr (by simpa [parts, hbody] using h)⟩
  case callm => exact ⟨s, List.mem_of_mem_eraseIdx h, .inl rfl⟩
  case letIn => exact ⟨s, List.mem_of_mem_drop h, .inl rfl⟩
  all_goals exact ⟨s, h, .inl rfl⟩

theorem names_parts {s t : Tree Mark} (h : s ∈ t.parts) : ∀ x ∈ s.names, x ∈ t.names := by
  cases t with
  | leaf a => simp [parts] at h
  | node mark tag args =>
    obtain ⟨t, ht, rfl | hs⟩ := mem_parts h
    · exact fun x hx => mem_namesEach.mpr ⟨s, ht, hx⟩
    · exact fun x hx => mem_namesEach.mpr ⟨t, ht, names_elems hs x hx⟩

theorem names_head (h : args.head?.bind symbol? = some name) :
    name ∈ (node mark tag args).names := by
  obtain ⟨first, hfirst, hname⟩ := Option.bind_eq_some_iff.mp h
  refine mem_namesEach.mpr ⟨first, List.mem_of_head? hfirst, ?_⟩
  unfold symbol? at hname
  split at hname
  · cases hname
    simp [names]
  · cases hname

theorem depth_lt_of_mem_parts (h : s ∈ t.parts) : depth s < depth t := by
  cases t with
  | leaf a => simp [parts] at h
  | node mark tag args =>
    rw [depth, Nat.lt_succ_iff]
    obtain ⟨t, ht, rfl | hs⟩ := mem_parts h
    · exact depth_le_depthEach ht
    · exact Nat.le_trans (mem_elems_depth hs) (depth_le_depthEach ht)

theorem induct_parts {P : Tree Mark → Prop} (step : ∀ t, (∀ s ∈ t.parts, P s) → P t)
    (t : Tree Mark) : P t := by
  induction hd : t.depth using Nat.strongRecOn generalizing t with
  | _ d ih =>
    subst hd
    exact step t fun s hs => ih s.depth (depth_lt_of_mem_parts hs) s rfl

end Tree

/-- A function or a closure: its parameters and its statements. -/
structure Block where
  params : List Text
  stmts : List (Tree Mark)

/-- What a function or a closure around a place declares. -/
structure Level where
  params : List Text
  targets : List Text
  /-- Those of them that are assigned before the place. -/
  before : List Text
deriving DecidableEq, Repr

namespace Tree

/-- The block that a closure is. -/
def block? (t : Tree Mark) : Option Block := t.closure?.map fun (_, params) => ⟨params, t.parts⟩

/-- The levels at a part, from those at the node it belongs to. -/
def levelsIn (levels : List Level) (t : Tree Mark) (i : Nat) : List Level :=
  let before := (t.parts.take i).flatMap assigned
  match t.closure? with
  | some (_, params) => ⟨params, t.parts.flatMap assigned, before⟩ :: levels
  | none => levels.modify 0 fun l => { l with before := l.before ++ before }

/-- The levels at a place in a tree, innermost first, from those at the tree. -/
def levelsAt : List Level → Tree Mark → List Nat → List Level
  | levels, _, [] => levels
  | levels, t, i :: p =>
    match t.parts[i]? with
    | some s => levelsAt (levelsIn levels t i) s p
    | none => levels

/-- The names that are assigned in a tree before a place, but not in closures. -/
def beforeAt : Tree Mark → List Nat → List Text
  | _, [] => []
  | t, i :: p =>
    match t.closure?, t.parts[i]? with
    | none, some s => (t.parts.take i).flatMap assigned ++ beforeAt s p
    | _, _ => []

/-- The levels at a place are those of the closures in between, and then those at the tree, of
which the innermost has seen what comes before the place. -/
theorem levelsAt_eq (levels : List Level) (t : Tree Mark) (p : List Nat) :
    levelsAt levels t p = levelsAt [] t p ++
      levels.modify 0 fun l => { l with before := l.before ++ t.beforeAt p } := by
  induction p generalizing levels t with
  | nil => cases levels <;> simp [levelsAt, beforeAt]
  | cons i p ih =>
    cases hi : t.parts[i]? with
    | none => cases levels <;> simp [levelsAt, beforeAt, hi]
    | some s =>
      simp only [levelsAt, beforeAt, hi]
      rw [ih (levelsIn levels t i) s, ih (levelsIn [] t i) s]
      unfold levelsIn
      cases t.closure? with
      | some c => cases levels <;> simp
      | none => cases levels <;> simp

end Tree

namespace Block

/-- The tree at a place in a block; the first step leads to a statement. -/
def at? (b : Block) : List Nat → Option (Tree Mark)
  | [] => none
  | i :: p => (b.stmts[i]?).bind (·.at? p)

/-- What a block declares around its statement `i`. -/
def level (b : Block) (i : Nat) : Level where
  params := b.params
  targets := b.stmts.flatMap Tree.assigned
  before := (b.stmts.take i).flatMap Tree.assigned

/-- The levels at a place in a block, innermost first; the block itself comes last. -/
def levelsAt (b : Block) : List Nat → List Level
  | [] => []
  | i :: p =>
    match b.stmts[i]? with
    | some t => t.levelsAt [b.level i] p
    | none => []

/-- The block at a place: at no distance the block itself, else a closure. -/
def block? (b : Block) : List Nat → Option Block
  | [] => some b
  | p => (b.at? p).bind Tree.block?

end Block

namespace Scope

theorem events_elems (t : Tree Mark) : t.elems.flatMap events = events t := by
  unfold Tree.elems
  split
  · simp [events]
  · rw [events_node, if_neg (by simp)]
    simp [Tree.malformed?, Complaint.ofOperands, Arity.ofTag, nodeEvents, List.flatMap]
  · simp

/-- A closure that is not malformed has no more operands than parameters and statements. -/
theorem closure_length (ht : tag.isClosure = true) (h : Tree.malformed? tag args = none) :
    args.length ≤ 2 := by
  cases tag
  case lambda | proc =>
    have h := (Complaint.ofOperands_eq_none rfl (by simp)).mp h
    exact (Arity.admits_iff.mp h).2 2 rfl
  all_goals cases ht

theorem malformed?_of_read (h : ∀ d, .reject d ∉ events (.node mark tag args))
    (ht : tag.isSealed = false) : Tree.malformed? tag args = none := by
  have hsealed : ¬ (tag = .sexp ∨ tag = .defm ∨ tag = .defun) := by
    rw [← Tag.isSealed_iff, ht]
    simp
  rw [events_node, if_neg hsealed] at h
  cases hm : Tree.malformed? tag args with
  | some c =>
    rw [hm] at h
    exact absurd (List.mem_singleton.mpr rfl) (h _)
  | none => rfl

theorem define_mem_names {t : Tree Mark} (h : .define name ∈ events t) : name ∈ t.names := by
  induction t with
  | leaf a => cases a <;> simp [events] at h
  | node mark tag args ih =>
    rw [events_node] at h
    split at h
    · cases h
    split at h
    · simp at h
    obtain h | h | ⟨-, _, h⟩ | ⟨x, hx, h⟩ := mem_nodeEvents h
    · rw [← List.flatMap_def, List.mem_flatMap] at h
      obtain ⟨t, ht, h⟩ := h
      exact Tree.mem_namesEach.mpr ⟨t, ht, ih t ht h⟩
    · cases h
    · cases h
    · cases h
      exact Tree.names_head hx

/-- The events of a closure that is read, by its statements. -/
theorem events_closure (ht : tag.isClosure = true)
    (h : ∀ d, .reject d ∉ events (.node mark tag args)) :
    events (.node mark tag args) = .enter mark.id ((args.head?.map Tree.paramNames).getD []) ::
      (Tree.node mark tag args).parts.flatMap events ++ [.leave] := by
  have hm := malformed?_of_read h (Tag.isSealed_closure ht)
  have hlen := closure_length ht hm
  rw [events_node, hm]
  cases tag
  case lambda | proc =>
    rcases args with _ | ⟨p, _ | ⟨body, _ | ⟨x, rest⟩⟩⟩
    · simp [nodeEvents, Tree.parts]
    · simp [nodeEvents, Tree.parts]
    · simp [nodeEvents, Tree.parts, events_elems]
    · simp at hlen
  all_goals cases ht

/-- The events of any other node that is read, by its parts: an assignment is complete after its
operands. -/
theorem events_open (ht : tag.isClosure = false)
    (h : ∀ d, .reject d ∉ events (.node mark tag args)) :
    events (.node mark tag args) = (Tree.node mark tag args).parts.flatMap events ++
      (Tree.node mark tag args).target?.toList.map .define := by
  have assign : definition args = (args.head?.bind Tree.symbol?).toList.map .define := by
    unfold definition
    cases args.head?.bind Tree.symbol? <;> rfl
  cases hsealed : tag.isSealed with
  | true =>
    rw [events_node, if_pos (Tag.isSealed_iff.mp hsealed)]
    rcases Tag.isSealed_iff.mp hsealed with rfl | rfl | rfl <;> rfl
  | false =>
    rw [events_node, malformed?_of_read h hsealed]
    cases tag
    case lambda | proc => cases ht
    case sexp | defm | defun => cases hsealed
    all_goals simp [nodeEvents, Tree.parts, Tree.target?, List.flatMap, List.eraseIdx_map, assign]

end Scope

end Lowering
