import Lowering.Pass.Environment
import Lowering.Proofs.ReadBack

namespace Lowering

namespace Node

/-- A node without its place. -/
def unplaced (n : Node) : Node := { n with pos := Position.unknown }

@[simp] theorem unplaced_tag (n : Node) : n.unplaced.tag = n.tag := rfl
@[simp] theorem unplaced_args (n : Node) : n.unplaced.args = n.args := rfl
@[simp] theorem unplaced_notes (n : Node) : n.unplaced.notes = n.notes := rfl
@[simp] theorem unplaced_arg (n : Node) (i : Nat) : n.unplaced.arg i = n.arg i := rfl
end Node

namespace Diagnostic

/-- A complaint without its place. -/
def unplaced (d : Diagnostic) : Diagnostic := { d with pos := Position.unknown }

end Diagnostic

theorem Node.malformed?_unplaced (n : Node) :
    n.unplaced.malformed? = n.malformed?.map Diagnostic.unplaced := by
  unfold Node.malformed?
  rw [Option.map_map]
  rfl

namespace Tree

mutual
/-- A tree without places. -/
def unplaced : Tree Mark → Tree Mark
  | leaf a => leaf a
  | node mark tag args => node { mark with pos := Position.unknown } tag (unplacedEach args)

def unplacedEach : List (Tree Mark) → List (Tree Mark)
  | [] => []
  | t :: ts => unplaced t :: unplacedEach ts
end

theorem unplacedEach_eq (ts : List (Tree Mark)) : unplacedEach ts = ts.map unplaced :=
  eq_map rfl (fun _ _ => rfl) ts

theorem unplaced_node (mark : Mark) (tag : Tag) (args : List (Tree Mark)) :
    (node mark tag args).unplaced =
      node { mark with pos := Position.unknown } tag (args.map unplaced) := by
  rw [unplaced, unplacedEach_eq]

@[simp] theorem symbol?_unplaced (t : Tree Mark) : t.unplaced.symbol? = t.symbol? := by
  cases t with
  | leaf a => rfl
  | node => rfl

theorem shape_unplaced (t : Tree Mark) : t.unplaced.shape = t.shape := by
  induction t with
  | leaf a => rfl
  | node mark tag args ih =>
    rw [unplaced_node, shape, shape, shapes_eq, shapes_eq, List.map_map]
    exact congrArg _ (List.map_congr_left ih)

end Tree

namespace Forest

/-- A forest without places. -/
def unplaced (f : Forest) : Forest := ⟨f.nodes.map Node.unplaced⟩

variable (f : Forest)

@[simp] theorem size_unplaced : f.unplaced.size = f.size := by simp [unplaced, size]

@[simp] theorem get?_unplaced (id : Int) : f.unplaced.get? id = (f.get? id).map Node.unplaced := by
  unfold get? unplaced
  split <;> simp

theorem get_unplaced (id : Int) : f.unplaced.get id = (f.get id).map Node.unplaced := by
  unfold get
  rw [get?_unplaced]
  cases f.get? id <;> rfl

theorem push_unplaced (n : Node) : (f.push n).unplaced = f.unplaced.push n.unplaced := by
  simp [unplaced, push]

theorem set_unplaced (id : Int) (n : Node) :
    (f.set id n).unplaced = f.unplaced.set id n.unplaced := by
  unfold set
  split
  · simp [unplaced]
  · rfl

@[simp] theorem extent_unplaced : f.unplaced.extent = f.extent := by
  rw [extent, extent, unplaced, ← Array.foldl_toList, ← Array.foldl_toList, Array.toList_map,
    List.foldl_map]
  rfl

theorem replace_unplaced (id src : Int) :
    f.unplaced.replace id src = (f.replace id src).map unplaced := by
  unfold replace
  rw [get_unplaced, get_unplaced]
  cases f.get id with
  | error e => rfl
  | ok old =>
    cases f.get src with
    | error e => rfl
    | ok new =>
      change Except.ok _ = Except.ok (Forest.unplaced (f.set id _))
      rw [set_unplaced]
      simp [Node.unplaced]

@[simp] theorem elems_unplaced (v : Operand) : f.unplaced.elems v = f.elems v := by
  unfold elems
  cases v.view with
  | atom a => cases a <;> rfl
  | child id =>
    change f.unplaced.get id >>= _ = f.get id >>= _
    rw [get_unplaced]
    cases f.get id <;> rfl

@[simp] theorem symbols_unplaced (v : Operand) : f.unplaced.symbols v = f.symbols v := by
  rw [symbols, symbols, elems_unplaced]

@[simp] theorem paramNames_unplaced (v : Operand) : f.unplaced.paramNames v = f.paramNames v := by
  have heach : ∀ id, (f.unplaced.get id).map (fun n => (n.arg 0).symbol?) =
      (f.get id).map fun n => (n.arg 0).symbol? := by
    intro id
    rw [get_unplaced]
    cases f.get id <;> rfl
  unfold paramNames
  have hdeclares : f.unplaced.declares = f.declares := by
    funext p
    simp only [declares, heach]
  simp only [elems_unplaced, hdeclares]

@[simp] theorem preorderSkipping_unplaced (root : Int) (skips : Tag → Bool) :
    f.unplaced.preorderSkipping root skips = f.preorderSkipping root skips := by
  unfold preorderSkipping
  rw [extent_unplaced]
  dsimp only
  congr 2
  all_goals
    funext id
    rw [get_unplaced]
    cases f.get id <;> rfl

theorem mapM_map {g : α → Except Fault β} (h : ∀ a, g' a = (g a).map k) (as : List α) :
    as.mapM g' = (as.mapM g).map (List.map k) := by
  induction as with
  | nil => rfl
  | cons a as ih =>
    rw [List.mapM_cons, List.mapM_cons, h, ih]
    cases g a with
    | error e => rfl
    | ok b => cases as.mapM g <;> rfl

theorem treeFrom_unplaced (fuel : Nat) (id : Int) :
    f.unplaced.treeFrom fuel id = (f.treeFrom fuel id).map Tree.unplaced := by
  induction fuel generalizing id with
  | zero => rfl
  | succ fuel ih =>
    have unfolded : ∀ g : Forest, g.treeFrom (fuel + 1) id = (do
        let n ← g.get id
        let args ← n.args.mapM (g.operandFrom fuel)
        return .node ⟨id, n.pos⟩ n.tag args) := fun _ => rfl
    have heach : ∀ v, f.unplaced.operandFrom fuel v = (f.operandFrom fuel v).map Tree.unplaced := by
      intro v
      unfold operandFrom
      cases v.view with
      | atom a => rfl
      | child c => exact ih c
    rw [unfolded, unfolded, get_unplaced]
    cases f.get id with
    | error e => rfl
    | ok n =>
      change n.args.mapM _ >>= _ = Except.map _ (n.args.mapM _ >>= _)
      rw [mapM_map heach]
      cases n.args.mapM (f.operandFrom fuel) with
      | error e => rfl
      | ok ts => exact congrArg Except.ok (Tree.unplaced_node ⟨id, n.pos⟩ n.tag ts).symm

theorem tree_unplaced (id : Int) : f.unplaced.tree id = (f.tree id).map Tree.unplaced := by
  rw [tree, tree, size_unplaced, treeFrom_unplaced]

theorem operandTree_unplaced (v : Operand) :
    f.unplaced.operandTree v = (f.operandTree v).map Tree.unplaced := by
  unfold operandTree
  cases v.view with
  | atom a => rfl
  | child id => exact tree_unplaced f id

@[simp] theorem format_unplaced (id : Int) : f.unplaced.format id = f.format id := by
  rw [format, format, tree_unplaced]
  cases f.tree id with
  | error e => rfl
  | ok t =>
    change Except.ok _ = Except.ok _
    rw [← Tree.format_shape, Tree.shape_unplaced, Tree.format_shape]

end Forest

namespace Context

/-- A state without places. -/
def unplaced (c : Context) : Context := { c with forest := c.forest.unplaced }

@[simp] theorem unplaced_forest (c : Context) : c.unplaced.forest = c.forest.unplaced := rfl
theorem add_unplaced (c : Context) (n : Node) : (c.add n).unplaced = c.unplaced.add n.unplaced := by
  unfold unplaced add
  rw [Forest.push_unplaced]

theorem put_unplaced (c : Context) (id : Int) (n : Node) :
    (c.put id n).unplaced = c.unplaced.put id n.unplaced := by
  unfold unplaced put
  rw [Forest.set_unplaced]

end Context

namespace PassError

/-- An error without places. -/
def unplaced : PassError → PassError
  | rejected d => .rejected d.unplaced
  | fault f => .fault f
  | circular => .circular

end PassError

/-- The outcome of some steps with all places forgotten, also in what the steps give. -/
def outcomeUnplaced {α β : Type} (g : α → β) :
    EStateM.Result PassError Context α → EStateM.Result PassError Context β
  | .ok a c => .ok (g a) c.unplaced
  | .error e c => .error e.unplaced c.unplaced

/-- The steps `y` do to a state without places what `x` does to the state, and give what `g` makes
of the result of `x`. -/
def Blind {α β : Type} (g : α → β) (x : PassM α) (y : PassM β) : Prop :=
  ∀ c, y c.unplaced = outcomeUnplaced g (x c)

section

variable {α β γ δ : Type} {g : α → β} {h : γ → δ}

theorem Blind.bind (hx : Blind g x y) (hk : ∀ a, Blind h (k a) (l (g a))) :
    Blind h (x >>= k) (y >>= l) := by
  intro c
  change EStateM.bind y l c.unplaced = outcomeUnplaced h (EStateM.bind x k c)
  unfold EStateM.bind
  rw [hx c]
  cases x c with
  | ok a d => exact hk a d
  | error e d => rfl

/-- A step that is only taken under a condition. -/
theorem Blind.bindIf [Decidable p] (hx : Blind id x y) (hk : Blind h k l) :
    Blind h (if p then x >>= fun _ => k else k) (if p then y >>= fun _ => l else l) := by
  split
  · exact hx.bind fun _ => hk
  · exact hk

/-- Steps whose result stands in for another one under a condition. -/
theorem Blind.bindElse [Decidable p] (hx : Blind id x y) (hk : ∀ a, Blind h (k a) (l a)) :
    Blind h (if p then k a else x >>= k) (if p then l a else y >>= l) := by
  split
  · exact hk a
  · exact hx.bind hk

theorem Blind.map (hx : Blind g x y) (hk : ∀ a, l (g a) = h (k a)) :
    Blind h (k <$> x) (l <$> y) := by
  intro c
  change EStateM.map l y c.unplaced = outcomeUnplaced h (EStateM.map k x c)
  unfold EStateM.map
  rw [hx c]
  cases x c with
  | ok a d => exact congrArg (EStateM.Result.ok · d.unplaced) (hk a)
  | error e d => rfl

theorem Blind.discard (hx : Blind g x y) : Blind id (discard x) (discard y) :=
  hx.map fun _ => rfl

end

namespace PassM

variable {α β γ : Type} {g : α → β}

theorem blind_pure (a : α) : Blind g (pure a) (pure (g a)) := fun _ => rfl

theorem blind_throw (e : PassError) : Blind g (throw e) (throw e.unplaced) := fun _ => rfl

theorem blind_get : Blind Context.unplaced get get := fun _ => rfl

theorem blind_modify (h : ∀ c, l c.unplaced = (k c).unplaced) :
    Blind id (modify k : PassM PUnit) (modify l) := by
  intro c
  exact congrArg (EStateM.Result.ok PUnit.unit) (h c)

theorem blind_mapM (h : ∀ a, Blind g (k a) (l a)) (as : List γ) :
    Blind (List.map g) (as.mapM k) (as.mapM l) := by
  induction as with
  | nil => exact blind_pure []
  | cons a as ih =>
    rw [List.mapM_cons, List.mapM_cons]
    exact (h a).bind fun b => ih.bind fun bs => blind_pure (b :: bs)

/-- As `blind_mapM`, for steps that give no places. -/
theorem blind_each (h : ∀ a, Blind id (k a) (l a)) (as : List γ) :
    Blind id (as.mapM k) (as.mapM l) := by
  have hmap := blind_mapM h as
  rwa [List.map_id_fun] at hmap

theorem blind_forM (h : ∀ a, Blind id (k a) (l a)) (as : List γ) :
    Blind id (as.forM k) (as.forM l) := by
  induction as with
  | nil => exact blind_pure PUnit.unit
  | cons a as ih => exact (h a).bind fun _ => ih

theorem blind_filterM (h : ∀ a, Blind id (k a) (l a)) (as : List γ) :
    Blind id (as.filterM k) (as.filterM l) := by
  have haux : ∀ kept, Blind id (as.filterAuxM k kept) (as.filterAuxM l kept) := by
    induction as with
    | nil => exact fun kept => blind_pure kept
    | cons a as ih => exact fun kept => (h a).bind fun _ => ih _
  exact (haux []).bind fun kept => blind_pure kept.reverse

theorem blind_fetch (id : Int) : Blind Node.unplaced (fetch id) (fetch id) := by
  unfold fetch
  refine blind_get.bind fun c => ?_
  rw [Context.unplaced_forest, Forest.get?_unplaced]
  cases c.forest.get? id with
  | none => exact blind_throw _
  | some n => exact blind_pure n

theorem blind_operandAt (n : Node) (i : Nat) :
    Blind id (operandAt n i) (operandAt n.unplaced i) := by
  unfold operandAt
  rw [Node.unplaced_args]
  split
  · exact blind_pure _
  · exact blind_throw _

theorem blind_query (h : ∀ f, ask' f.unplaced = (ask f).map g) :
    Blind g (query ask) (query ask') := by
  unfold query
  refine blind_get.bind fun c => ?_
  rw [Context.unplaced_forest, h]
  cases ask c.forest with
  | error f => exact blind_throw _
  | ok a => exact blind_pure a

/-- As `blind_query`, for a question with an answer that holds no places. -/
theorem blind_ask (h : ∀ f, ask f.unplaced = ask f) : Blind id (query ask) (query ask) := by
  refine blind_query fun f => ?_
  rw [h]
  cases ask f <;> rfl

variable {tag : Tag} {pos : Position} {args : List Operand}

theorem blind_alloc : Blind id (alloc tag pos args) (alloc tag .unknown args) := by
  unfold alloc
  refine Blind.bind (blind_modify fun c => ?_) fun _ => blind_get.bind fun c => ?_
  · exact (c.add_unplaced { tag, args, pos }).symm
  · rw [Context.unplaced_forest, Forest.size_unplaced]
    exact blind_pure _

theorem blind_node : Blind id (node tag pos args) (node tag .unknown args) := by
  unfold node
  exact blind_alloc.bind fun _ => blind_pure _

theorem blind_list : Blind id (list pos args) (list .unknown args) := blind_node

theorem blind_sexpCall :
    Blind id (sexpCall pos function args) (sexpCall .unknown function args) := by
  unfold sexpCall
  exact blind_node.bind fun call => blind_node

theorem blind_update (h : ∀ n, change' n.unplaced = (change n).unplaced) :
    Blind id (update x change) (update x change') := by
  unfold update
  refine (blind_fetch x).bind fun n => blind_modify fun c => ?_
  rw [h]
  exact (c.put_unplaced x (change n)).symm

theorem blind_reshape (x : Int) : Blind id (reshape x tag args) (reshape x tag args) := by
  unfold reshape
  exact Blind.bind (blind_update fun _ => rfl) fun _ => blind_modify fun _ => rfl

theorem blind_setArgs (x : Int) : Blind id (setArgs x args) (setArgs x args) := by
  unfold setArgs
  refine blind_get.bind fun c => blind_forM (fun other => ?_) (c.sharers x)
  exact blind_update fun _ => rfl

theorem blind_renewArgs (x : Int) : Blind id (renewArgs x args) (renewArgs x args) := by
  unfold renewArgs
  exact Blind.bind (blind_update fun _ => rfl) fun _ => blind_modify fun _ => rfl

theorem blind_replace (x src : Int) : Blind id (replace x src) (replace x src) := by
  unfold replace setForest
  refine (blind_query fun f => f.replace_unplaced x src).bind fun f => ?_
  exact Blind.bind (blind_modify fun _ => rfl) fun _ => blind_modify fun _ => rfl

theorem blind_twin (x : Int) (n : Node) : Blind id (twin x n) (twin x n.unplaced) := by
  unfold twin
  refine blind_alloc.bind fun new => Blind.bind (blind_update fun _ => rfl) fun _ => ?_
  exact Blind.bind (blind_modify fun _ => rfl) fun _ => blind_pure new

theorem blind_moveArgs (x : Int) (n : Node) : Blind id (moveArgs x n) (moveArgs x n.unplaced) := by
  unfold moveArgs
  refine blind_alloc.bind fun new => Blind.bind (blind_modify fun _ => rfl) fun _ => ?_
  exact blind_pure (Operand.ref new)

theorem blind_reject (n : Node) (complaint : Complaint) :
    Blind g (reject n complaint) (reject n.unplaced complaint) :=
  blind_throw _

theorem blind_check (n : Node) : Blind id (check n) (check n.unplaced) := by
  unfold check
  rw [Node.malformed?_unplaced]
  cases n.malformed? with
  | none => exact blind_pure PUnit.unit
  | some d => exact blind_throw _

theorem blind_newLabel : Blind id newLabel newLabel := fun _ => rfl

theorem blind_intern (value : Constant) : Blind id (intern value) (intern value) := by
  unfold intern
  refine blind_get.bind fun c => ?_
  rw [show c.unplaced.literals = c.literals from rfl]
  cases c.literals.labelOf? value with
  | some label => exact blind_pure label
  | none =>
    refine blind_newLabel.bind fun label => Blind.bind (blind_modify fun _ => rfl) fun _ => ?_
    exact blind_pure label

section Walks

variable {children children' : Int → PassM (List Int)} {visit visit' : Int → PassM Walk.Action}

theorem blind_all {walk walk' : List Int → Int → PassM (Bool × List Int)}
    (h : ∀ seen x, Blind id (walk seen x) (walk' seen x)) (seen xs : List Int) :
    Blind id (Walk.all walk seen xs) (Walk.all walk' seen xs) := by
  induction xs generalizing seen with
  | nil => exact blind_pure _
  | cons x xs ih =>
    unfold Walk.all
    refine (h seen x).bind fun r => ?_
    obtain ⟨finished, seen⟩ := r
    cases finished with
    | true => exact ih seen
    | false => exact blind_pure _

theorem blind_from (hc : ∀ x, Blind id (children x) (children' x))
    (hv : ∀ x, Blind id (visit x) (visit' x)) (fuel : Nat) (seen : List Int) (x : Int) :
    Blind id (Walk.from_ e children visit fuel seen x)
      (Walk.from_ e.unplaced children' visit' fuel seen x) := by
  induction fuel generalizing seen x with
  | zero =>
    unfold Walk.from_
    split
    · exact blind_pure _
    · exact blind_throw e
  | succ fuel ih =>
    unfold Walk.from_
    split
    · exact blind_pure _
    · refine (hv x).bind fun action => ?_
      cases action with
      | stop => exact blind_pure _
      | skip => exact blind_pure _
      | descend => exact (hc x).bind fun xs => blind_all ih _ xs

theorem blind_walk {visit visit' : Int → Node → PassM Walk.Action} (root : Int)
    (h : ∀ x n, Blind id (visit x n) (visit' x n.unplaced)) :
    Blind id (walk root visit) (walk root visit') := by
  unfold walk Walk.run
  refine blind_get.bind fun c => ?_
  rw [Context.unplaced_forest, Forest.extent_unplaced]
  refine (blind_from (fun x => ?_) (fun x => ?_) _ _ _).bind fun r => blind_pure r.1
  · exact (blind_fetch x).bind fun n => blind_pure n.children
  · exact (blind_fetch x).bind fun n => h x n

end Walks

end PassM

end Lowering
