import Lowering.Pipeline
import Lowering.Proofs.ClosureTrees
import Lowering.Proofs.Unplaced

namespace Lowering

open PassM

namespace Pass

namespace Concat

theorem blind_chain (pos : Position) (last : Operand) (earlier : List Operand) :
    Blind id (chain pos last earlier) (chain .unknown last earlier) := by
  induction earlier generalizing last with
  | nil => exact blind_node
  | cons before earlier ih =>
    unfold chain
    exact blind_node.bind fun _ => (ih before).bind fun _ => blind_list.bind fun _ => blind_node

theorem blind_visit (x : Int) (n : Node) : Blind id (visit x n) (visit x n.unplaced) := by
  unfold visit
  rw [Node.unplaced_tag]
  cases n.tag
  case concat =>
    refine (blind_check n).bind fun _ => ?_
    rw [Node.unplaced_args]
    cases n.args.reverse with
    | nil => exact blind_throw _
    | cons last earlier =>
      refine (blind_chain n.pos last earlier).bind fun top => ?_
      exact (blind_replace x top.target).bind fun _ => blind_pure _
  all_goals exact blind_pure _

end Concat

namespace Range

theorem blind_visit (x : Int) (n : Node) : Blind id (visit x n) (visit x n.unplaced) := by
  unfold visit
  rw [Node.unplaced_tag]
  cases n.tag
  case range =>
    refine (blind_check n).bind fun _ => (blind_moveArgs x n).bind fun bounds => ?_
    exact (blind_reshape x).bind fun _ => blind_pure _
  all_goals exact blind_pure _

end Range

namespace Operators

theorem blind_visit (x : Int) (n : Node) : Blind id (visit x n) (visit x n.unplaced) := by
  unfold visit
  rw [Node.unplaced_tag]
  cases n.tag
  case op operator =>
    refine (blind_check n).bind fun _ => ?_
    rw [Node.unplaced_args]
    dsimp only
    split
    · exact blind_list.bind fun _ => (blind_reshape x).bind fun _ => blind_pure _
    · refine (blind_operandAt n 0).bind fun _ => ?_
      exact (blind_reshape x).bind fun _ => blind_pure _
  all_goals exact blind_pure _

end Operators

namespace Yield

theorem blind_visit (x : Int) (n : Node) : Blind id (visit x n) (visit x n.unplaced) := by
  unfold visit
  rw [Node.unplaced_tag]
  cases n.tag
  case yield =>
    simp only [Node.unplaced_args, pure_bind]
    split
    · exact (blind_reshape x).bind fun _ => blind_pure _
    · refine (blind_moveArgs x n).bind fun _ => ?_
      exact (blind_reshape x).bind fun _ => blind_pure _
  case call =>
    refine (blind_check n).bind fun _ => (blind_operandAt n 0).bind fun function => ?_
    rw [Node.unplaced_args]
    dsimp only [id]
    split
    · exact (blind_reshape x).bind fun _ => blind_pure _
    · exact blind_pure _
  all_goals exact blind_pure _

end Yield

namespace Destruct

theorem blind_expand (x : Int) (pos : Position) (targets : List Operand) (value : Operand) :
    Blind id (expand x pos targets value) (expand x .unknown targets value) := by
  unfold expand
  refine blind_node.bind fun first => (blind_each (fun e => ?_) _).bind fun rest => ?_
  · unfold assignElement
    exact blind_list.bind fun _ => blind_node.bind fun _ => blind_node
  · exact blind_list.bind fun _ => blind_node.bind fun _ => blind_reshape x

theorem blind_visit (x : Int) (n : Node) : Blind id (visit x n) (visit x n.unplaced) := by
  unfold visit
  rw [Node.unplaced_tag]
  cases n.tag
  case assign =>
    refine (blind_check n).bind fun _ => (blind_operandAt n 0).bind fun target => ?_
    dsimp only [id]
    cases target.child? with
    | none => exact blind_pure _
    | some y =>
      refine (blind_fetch y).bind fun d => ?_
      rw [Node.unplaced_tag]
      split
      · refine (blind_check d).bind fun _ => (blind_operandAt n 1).bind fun value => ?_
        exact (blind_expand x n.pos d.args value).bind fun _ => blind_pure _
      · exact blind_pure _
  all_goals exact blind_pure _

end Destruct

namespace Hoist

theorem blind_operand (family : Family) (n : Node) (v : Operand) (i : Nat) :
    Blind id (operand family n v i) (operand family n.unplaced v i) := by
  unfold operand
  cases family.constant? v with
  | none => exact blind_pure v
  | some value =>
    refine (blind_intern value).bind fun label => blind_sexpCall.bind fun fetched => ?_
    rw [Node.unplaced_tag]
    split
    · exact blind_list
    · exact blind_pure fetched

theorem blind_visit (family : Family) (x : Int) (n : Node) :
    Blind id (visit family x n) (visit family x n.unplaced) := by
  unfold visit
  rw [Node.unplaced_tag]
  split
  · exact blind_pure _
  · refine (blind_each (fun e => ?_) _).bind fun args => ?_
    · exact blind_operand family n e.1 e.2
    · exact (blind_setArgs x).bind fun _ => blind_pure _

end Hoist

namespace Validate

theorem blind_visit (n : Node) : Blind id (visit n) (visit n.unplaced) := by
  have hcomplaint : complaint? n.unplaced = complaint? n := rfl
  unfold visit
  rw [Node.unplaced_tag, hcomplaint]
  split
  · exact blind_pure _
  · refine (blind_check n).bind fun _ => ?_
    cases complaint? n with
    | none => exact blind_pure _
    | some c => exact blind_reject n c

end Validate

namespace ClassScopes

theorem blind_changeTable (change : Classes.Table → Classes.Table) :
    Blind id (changeTable change) (changeTable change) :=
  blind_modify fun _ => rfl

theorem blind_noteIvar (scope : Classes.Scope) (v : Operand) :
    Blind id (noteIvar scope v) (noteIvar scope v) := by
  unfold noteIvar
  split
  · exact blind_changeTable _
  · exact blind_pure PUnit.unit

theorem blind_scanIvars (scope : Classes.Scope) (body : Operand) :
    Blind id (scanIvars scope body) (scanIvars scope body) := by
  unfold scanIvars
  cases body.child? with
  | none => exact blind_noteIvar scope body
  | some x =>
    refine (blind_walk x fun _ n => ?_).discard
    exact (blind_forM (blind_noteIvar scope) n.args).bind fun _ => blind_pure _

theorem blind_defineReader (scope : Classes.Scope) (pos : Position) (name : Text) :
    Blind id (defineReader scope pos name) (defineReader scope .unknown name) := by
  unfold defineReader
  refine (blind_changeTable _).bind fun _ => blind_list.bind fun params => ?_
  exact blind_list.bind fun body => blind_node

theorem blind_defineWriter (scope : Classes.Scope) (pos : Position) (name : Text) :
    Blind id (defineWriter scope pos name) (defineWriter scope .unknown name) := by
  unfold defineWriter
  refine (blind_changeTable _).bind fun _ => blind_node.bind fun assign => ?_
  exact blind_list.bind fun params => blind_list.bind fun body => blind_node

theorem blind_define (wanted : Accessors) (scope : Classes.Scope) (pos : Position) (symbol : Text) :
    Blind id (define wanted scope pos symbol) (define wanted scope .unknown symbol) := by
  have hwriter : ∀ reader : List Operand, Blind id
      (if wanted.writer then do
        let w ← defineWriter scope pos (symbol.dropStart ":")
        pure (reader ++ [w]) else pure (reader ++ []))
      (if wanted.writer then do
        let w ← defineWriter scope .unknown (symbol.dropStart ":")
        pure (reader ++ [w]) else pure (reader ++ [])) := by
    intro reader
    split
    · exact (blind_defineWriter scope pos _).bind fun w => blind_pure _
    · exact blind_pure _
  unfold define
  refine (blind_changeTable _).bind fun _ => ?_
  simp only [pure_bind]
  split
  · exact (blind_defineReader scope pos _).bind fun r => hwriter [r]
  · exact hwriter []

theorem blind_expandAttributes (x : Int) (n : Node) (wanted : Accessors) (scope : Classes.Scope) :
    Blind id (expandAttributes x n wanted scope) (expandAttributes x n.unplaced wanted scope) := by
  unfold expandAttributes
  refine (blind_ask fun f => f.symbols_unplaced _).bind fun names => ?_
  exact (blind_each (blind_define wanted scope n.pos) names).bind fun _ => blind_reshape x

theorem blind_openClass (kind : Classes.Kind) (name : Text) (scope : Classes.Scope) (super : Text) :
    Blind id (openClass kind name scope super) (openClass kind name scope super) := by
  unfold openClass
  refine blind_get.bind fun c => ?_
  change Blind id (ite (c.classes.findsSuper (some scope) super) _ _)
    (ite (c.classes.findsSuper (some scope) super) _ _)
  split
  · exact blind_changeTable _
  · exact blind_throw .circular

theorem blind_build (fuel : Nat) (scope : Classes.Scope) (v : Operand) :
    Blind id (build fuel scope v) (build fuel scope v) := by
  induction fuel generalizing scope v with
  | zero => exact blind_throw _
  | succ fuel ih =>
    unfold build
    cases v.child? with
    | none => exact blind_pure PUnit.unit
    | some x =>
      refine (blind_fetch x).bind fun n => ?_
      rw [Node.unplaced_tag]
      split
      · exact blind_pure PUnit.unit
      · refine (blind_check n).bind fun _ => (blind_operandAt n 0).bind fun name => ?_
        refine (blind_changeTable _).bind fun _ => blind_get.bind fun c => ?_
        change Blind id (ite (c.classes.kindOf scope = .global) _ _)
          (ite (c.classes.kindOf scope = .global) _ _)
        split
        · exact blind_forM (ih scope) n.args
        · exact (blind_operandAt n 2).bind fun body => blind_scanIvars scope body
      · refine (blind_check n).bind fun _ => (blind_operandAt n 0).bind fun function => ?_
        dsimp only [id]
        cases accessors? function with
        | some wanted => exact blind_expandAttributes x n wanted scope
        | none => exact blind_forM (ih scope) n.args
      · refine (blind_check n).bind fun _ => (blind_operandAt n 0).bind fun name => ?_
        exact (blind_openClass _ _ _ _).bind fun _ => ih _ _
      · refine (blind_check n).bind fun _ => (blind_operandAt n 0).bind fun name => ?_
        exact blind_get.bind fun c => (blind_openClass _ _ _ _).bind fun _ => ih _ _
      · exact blind_forM (ih scope) n.args

theorem blind_run (root : Int) : Blind id (run root) (run root) := by
  unfold run
  refine blind_get.bind fun c => ?_
  rw [Context.unplaced_forest, Forest.extent_unplaced]
  exact blind_build _ _ _

end ClassScopes

end Pass

namespace Scope

/-- An event without the place of a complaint. -/
def Event.unplaced : Event → Event
  | .reject d => .reject d.unplaced
  | e => e

theorem malformed?_unplaced (tag : Tag) (args : List (Tree Mark)) :
    Tree.malformed? tag (args.map Tree.unplaced) = Tree.malformed? tag args := by
  have hshape : (args.map Tree.unplaced).map Tree.shape = args.map Tree.shape := by
    rw [List.map_map]
    exact List.map_congr_left fun t _ => t.shape_unplaced
  rw [← Tree.malformed?_shape, hshape, Tree.malformed?_shape]

theorem paramNames_unplaced (t : Tree Mark) : t.unplaced.paramNames = t.paramNames := by
  rw [← Tree.paramNames_shape, Tree.shape_unplaced, Tree.paramNames_shape]

theorem nodeEvents_unplaced (mark : Mark) (tag : Tag) (args : List (Tree Mark))
    (parts : List (List Event)) :
    nodeEvents { mark with pos := Position.unknown } tag (args.map Tree.unplaced)
        (parts.map (List.map Event.unplaced)) =
      (nodeEvents mark tag args parts).map Event.unplaced := by
  have hdefinition : definition (args.map Tree.unplaced) =
      (definition args).map Event.unplaced := by
    unfold definition
    cases args with
    | nil => rfl
    | cons t ts =>
      rw [List.map_cons, List.head?_cons, List.head?_cons, Option.bind_some, Option.bind_some,
        Tree.symbol?_unplaced]
      cases t.symbol? <;> rfl
  have hparams : ((args.map Tree.unplaced).head?.map Tree.paramNames).getD [] =
      (args.head?.map Tree.paramNames).getD [] := by
    cases args with
    | nil => rfl
    | cons t ts => exact paramNames_unplaced t
  have hparts : ∀ parts : List (List Event), (parts.map (List.map Event.unplaced)).flatten =
      parts.flatten.map Event.unplaced := fun parts => List.map_flatten.symm
  unfold nodeEvents
  split
  · rw [hparts, hdefinition, List.map_append]
  · rw [List.eraseIdx_map, hparts]
  · rw [← List.map_drop, hparts]
  · simp only [hparams, ← List.map_drop, hparts, List.map_append, List.map_cons]
    rfl
  · simp only [hparams, ← List.map_drop, hparts, List.map_append, List.map_cons]
    rfl
  · exact hparts parts

theorem events_unplaced (t : Tree Mark) : events t.unplaced = (events t).map Event.unplaced := by
  induction t with
  | leaf a => cases a <;> rfl
  | node mark tag args ih =>
    have heach : (args.map Tree.unplaced).map events =
        (args.map events).map (List.map Event.unplaced) := by
      rw [List.map_map, List.map_map]
      exact List.map_congr_left ih
    rw [Tree.unplaced_node, events_node, events_node, malformed?_unplaced, heach,
      nodeEvents_unplaced]
    split
    · rfl
    · cases Tree.malformed? tag args <;> rfl

theorem run_unplaced (es : List Event) (r : Resolver) : r.run (es.map Event.unplaced) =
    ((r.run es).1, (r.run es).2.map Diagnostic.unplaced) := by
  induction es generalizing r with
  | nil => rfl
  | cons e es ih =>
    cases e with
    | reject d => rfl
    | _ => exact ih _

end Scope

namespace Pass.Environment

open Scope

theorem blind_slotAt (i : Nat) : Blind id (slotAt pos i) (slotAt .unknown i) :=
  blind_node

theorem blind_copyIn (env : List Text) (owner : Node) (key name : Text) :
    Blind id (copyIn env owner key name) (copyIn env owner.unplaced key name) := by
  unfold copyIn
  cases env.idxOf? key with
  | none => exact blind_reject owner _
  | some i => exact (blind_slotAt i).bind fun slot => blind_node

theorem blind_wrap (c : Closed) : Blind id (wrap c) (wrap c) := by
  unfold wrap enclose
  refine Blind.bindIf (blind_update fun _ => rfl) ((blind_fetch c.id).bind fun n => ?_)
  rw [Node.unplaced_args]
  split
  · split
    · refine (blind_ask fun f => f.elems_unplaced _).bind fun stmts =>
        blind_list.bind fun vars => ?_
      exact blind_node.bind fun wrapped => blind_setArgs c.id
    · exact blind_pure PUnit.unit
  · exact blind_pure PUnit.unit

theorem blind_resolve (params : List Text) (stmts : List Operand) :
    Blind id (resolve params stmts) (resolve params stmts) := by
  have htrees : ∀ f : Forest, stmts.mapM f.unplaced.operandTree =
      (stmts.mapM f.operandTree).map (List.map Tree.unplaced) :=
    fun f => Forest.mapM_map f.operandTree_unplaced stmts
  have hevents : ∀ trees : List (Tree Mark), (eventsEach (trees.map Tree.unplaced)).flatten =
      (eventsEach trees).flatten.map Event.unplaced := by
    intro trees
    rw [eventsEach_eq, eventsEach_eq, List.map_map, List.map_flatten, List.map_map]
    exact congrArg List.flatten (List.map_congr_left fun t _ => events_unplaced t)
  unfold resolve
  refine (blind_query htrees).bind fun trees => ?_
  rw [hevents, run_unplaced]
  obtain ⟨r, failure⟩ := (Resolver.start params).run (eventsEach trees).flatten
  refine (blind_forM blind_wrap r.closed).bind fun _ => ?_
  cases failure with
  | none => exact blind_pure r
  | some d => exact blind_throw _

theorem blind_innerKeys (x : Int) (n : Node) (keys : Keys) :
    Blind id (innerKeys x n keys) (innerKeys x n.unplaced keys) := by
  unfold innerKeys
  refine (blind_ask fun f => f.paramNames_unplaced _).bind fun params => ?_
  rw [Node.unplaced_arg]
  cases (n.arg 1).child? with
  | none => exact (blind_pure _).bind fun vars => blind_pure _
  | some b =>
    refine (blind_fetch b).bind fun body => ?_
    rw [Node.unplaced_tag]
    dsimp only
    split
    · refine (blind_operandAt body 0).bind fun vars => ?_
      exact (blind_ask fun f => f.symbols_unplaced _).bind fun vars => blind_pure _
    · exact (blind_pure _).bind fun vars => blind_pure _

theorem blind_toSlots (env : List Text) (fuel : Nat) (keys : Keys) (pos : Position) (v : Operand) :
    Blind id (toSlots env fuel keys pos v) (toSlots env fuel keys .unknown v) := by
  induction fuel generalizing keys pos v with
  | zero => exact blind_throw _
  | succ fuel ih =>
    cases hv : v.view with
    | atom a =>
      simp only [toSlots, hv]
      split
      · split
        · exact blind_slotAt _
        · exact blind_pure v
      · exact blind_pure v
      · next h => cases h
    | child x =>
      rw [toSlots_child_eq hv, toSlots_child_eq hv]
      refine (blind_fetch x).bind fun n => Blind.bind (g := id) ?_ fun _ => blind_pure v
      unfold goThrough keysWithin
      rw [Node.unplaced_tag, Node.unplaced_args]
      split
      · exact blind_pure PUnit.unit
      · split
        · exact blind_throw _
        · refine Blind.bind (g := id) ?_ fun inner => (blind_each (fun a => ?_) _).bind fun args =>
            blind_setArgs x
          · split
            · exact blind_innerKeys x n keys
            · exact blind_pure keys
          · split
            · exact ih inner n.pos a.1
            · exact blind_pure a.1

theorem blind_shareParams (env : List Text) (r : Resolver) (x : Int) :
    Blind id (shareParams env r x) (shareParams env r x) := by
  unfold shareParams
  dsimp only
  split
  · refine (blind_fetch x).bind fun n => ?_
    rw [Node.unplaced_arg]
    cases (n.arg 1).child? with
    | none => exact blind_reject n _
    | some b =>
      refine (blind_fetch b).bind fun body => ?_
      refine Blind.bindIf (blind_reject n _) ((blind_operandAt body 0).bind fun vars => ?_)
      refine (blind_each (fun name => blind_copyIn env n _ name) _).bind fun copies => ?_
      exact blind_renewArgs b
  · exact blind_pure PUnit.unit

/-- A body without the place of its owner. -/
def Body.unplaced (b : Body) : Body := { b with owner := b.owner.unplaced }

theorem blind_renameRest (vs : List Operand) : Blind id (renameRest vs) (renameRest vs) := by
  induction vs with
  | nil => exact blind_pure _
  | cons v vs ih =>
    unfold renameRest
    cases v.child? with
    | none => exact ih
    | some x =>
      refine (blind_fetch x).bind fun n => ?_
      rw [show restName? n.unplaced = restName? n from rfl]
      cases restName? n with
      | some name => exact (blind_setArgs x).bind fun _ => blind_pure name
      | none => exact ih

theorem blind_definitionBody (x : Int) :
    Blind Body.unplaced (definitionBody x) (definitionBody x) := by
  unfold definitionBody
  refine (blind_fetch x).bind fun n => (blind_check n).bind fun _ => ?_
  refine (blind_operandAt n 1).bind fun paramList => ?_
  refine (blind_ask fun f => f.paramNames_unplaced _).bind fun names => ?_
  refine (blind_ask fun f => f.elems_unplaced _).bind fun params => ?_
  refine (blind_renameRest _).bind fun rest => (blind_operandAt n 2).bind fun body => ?_
  exact (blind_ask fun f => f.elems_unplaced _).bind fun stmts => blind_pure (Body.mk n _ _ _ _ _)

theorem blind_rootBody (root : Int) : Blind Body.unplaced (rootBody root) (rootBody root) := by
  unfold rootBody
  refine (blind_fetch root).bind fun n => (blind_twin root n).bind fun moved => ?_
  exact blind_pure (Body.mk n _ _ _ _ _)

theorem blind_prologue (b : Body) (r : Resolver) (env : List Text) :
    Blind id (prologue b r env) (prologue b.unplaced r env) := by
  unfold prologue
  refine blind_get.bind fun c => blind_list.bind fun bytes => blind_node.bind fun call => ?_
  refine blind_node.bind fun assign => blind_node.bind fun allocation => ?_
  exact (blind_each (fun name => blind_copyIn env b.owner name name) _).bind fun _ => blind_pure _

theorem blind_collectRest (b : Body) : Blind id (collectRest b) (collectRest b.unplaced) := by
  unfold collectRest
  change Blind id _ (ite (b.rest.isEmpty = true) _ _)
  split
  · exact blind_pure _
  · refine blind_node.bind fun count => blind_list.bind fun array => ?_
    exact blind_node.bind fun assign => blind_node.bind fun stmt => blind_pure _

theorem blind_withEnvironment (b : Body) (r : Resolver) :
    Blind id (withEnvironment b r) (withEnvironment b.unplaced r) := by
  unfold withEnvironment
  refine blind_get.bind fun c => ?_
  rw [Context.unplaced_forest, Forest.extent_unplaced]
  refine (blind_each (blind_toSlots _ _ [] b.owner.pos) b.stmts).bind fun stmts => ?_
  refine (blind_forM (blind_shareParams _ r) r.closures).bind fun _ => ?_
  exact (blind_prologue b r _).bind fun start => blind_pure _

theorem blind_install (site : Site) (letId : Int) :
    Blind id (install site letId) (install site letId) := by
  unfold install
  cases site with
  | definition x =>
    refine (blind_fetch x).bind fun n => (blind_operandAt n 2).discard.bind fun _ => ?_
    exact blind_setArgs x
  | root x => exact blind_replace x letId

theorem blind_materialize (b : Body) : Blind id (materialize b) (materialize b.unplaced) := by
  unfold materialize
  refine (blind_resolve b.params b.stmts).bind fun r => ?_
  simp only [pure_bind]
  refine Blind.bindElse (blind_withEnvironment b r) fun stmts => ?_
  refine (blind_collectRest b).bind fun rest => blind_list.bind fun vars => ?_
  refine blind_alloc.bind fun wrapped => Blind.bind (blind_update fun _ => rfl) fun _ => ?_
  exact blind_install b.site wrapped

theorem blind_definitions (root : Int) : Blind id (definitions root) (definitions root) := by
  unfold definitions
  refine (blind_ask fun f => f.preorderSkipping_unplaced root _).bind fun ids => ?_
  exact blind_filterM (fun x => (blind_fetch x).bind fun n => blind_pure _) ids

theorem blind_hasOuterClosure (root : Int) :
    Blind id (hasOuterClosure root) (hasOuterClosure root) := by
  unfold hasOuterClosure
  exact (blind_walk root fun _ n => blind_pure _).bind fun finished => blind_pure _

theorem blind_run (root : Int) : Blind id (run root) (run root) := by
  unfold run
  refine (blind_definitions root).bind fun ids => ?_
  refine (blind_forM (fun x => ?_) ids).bind fun _ =>
    (blind_hasOuterClosure root).bind fun outer => ?_
  · exact (blind_definitionBody x).bind blind_materialize
  · cases outer with
    | true => exact (blind_rootBody root).bind blind_materialize
    | false => exact blind_pure PUnit.unit

end Pass.Environment

namespace Pass.Closures

open Environment

theorem blind_leaveByFrame (body : Int) : Blind id (leaveByFrame body) (leaveByFrame body) := by
  unfold leaveByFrame
  refine (blind_walk body fun x n => ?_).discard
  unfold leaving
  rw [Node.unplaced_tag]
  cases n.tag
  case ret => exact Blind.bind (blind_update fun _ => rfl) fun _ => blind_pure _
  all_goals exact blind_pure _

theorem blind_hoist (n : Node) (names : List Text) :
    Blind id (hoist n names) (hoist n.unplaced names) := by
  unfold hoist params
  rw [bind_assoc, bind_assoc]
  refine (blind_each (fun p => blind_list) names).bind fun own => ?_
  simp only [pure_bind]
  refine blind_newLabel.bind fun label => blind_list.bind fun params => ?_
  refine blind_alloc.bind fun function => Blind.bind (blind_modify fun _ => rfl) fun _ => ?_
  exact blind_pure function

theorem blind_lift (x : Int) (n : Node) : Blind id (lift x n) (lift x n.unplaced) := by
  refine (blind_ask fun f => f.paramNames_unplaced _).bind fun names => ?_
  refine (blind_hoist n names).bind fun function => (blind_slotAt 0).bind fun frame => ?_
  refine blind_list.bind fun args => blind_sexpCall.bind fun make => blind_node.bind fun here => ?_
  exact blind_node.bind fun first => blind_node.bind fun second => blind_reshape x

theorem blind_convert (x : Int) (n : Node) : Blind id (convert x n) (convert x n.unplaced) := by
  have hlift := blind_lift x n
  unfold convert
  rw [show n.unplaced.tag = n.tag from rfl, show n.unplaced.arg 1 = n.arg 1 from rfl]
  split
  · cases (n.arg 1).child? with
    | none => exact hlift
    | some body => exact (blind_leaveByFrame body).bind fun _ => hlift
  · exact hlift

theorem blind_visit (x : Int) (n : Node) : Blind id (visit x n) (visit x n.unplaced) := by
  unfold visit
  rw [Node.unplaced_tag]
  split
  · exact blind_pure _
  · exact (blind_check n).bind fun _ => (blind_convert x n).bind fun _ => blind_pure _
  · exact (blind_check n).bind fun _ => (blind_convert x n).bind fun _ => blind_pure _
  · exact blind_pure _

end Pass.Closures

theorem Pass.blind (p : Pass) (root : Int) : Blind id (p.run root) (p.run root) := by
  cases p with
  | classes => exact ClassScopes.blind_run root
  | destruct => exact (blind_walk root Destruct.blind_visit).discard
  | concat => exact (blind_walk root Concat.blind_visit).discard
  | range => exact (blind_walk root Range.blind_visit).discard
  | strings => exact (blind_walk root (Hoist.blind_visit .strings)).discard
  | ints => exact (blind_walk root (Hoist.blind_visit .ints)).discard
  | operators => exact (blind_walk root Operators.blind_visit).discard
  | yield => exact (blind_walk root Yield.blind_visit).discard
  | env => exact Environment.blind_run root
  | lambda => exact (blind_walk root Closures.blind_visit).discard
  | validate => exact (blind_walk root fun _ => Validate.blind_visit).discard

namespace PipelineError

/-- An error without places. -/
def unplaced : PipelineError → PipelineError
  | inPass pass e => .inPass pass e.unplaced
  | e => e

end PipelineError

namespace Pipeline

/-- An outcome of the passes without places. -/
def outcomeUnplaced : EStateM.Result PipelineError Context Unit →
    EStateM.Result PipelineError Context Unit
  | .ok u c => .ok u c.unplaced
  | .error e c => .error e.unplaced c.unplaced

theorem forM_unplaced (root : Int) (passes : List Pass) (c : Context) :
    passes.forM (runPass root) c.unplaced = outcomeUnplaced (passes.forM (runPass root) c) := by
  induction passes generalizing c with
  | nil => rfl
  | cons p passes ih =>
    change EStateM.bind (runPass root p) _ c.unplaced =
      outcomeUnplaced (EStateM.bind (runPass root p) _ c)
    unfold EStateM.bind runPass
    rw [p.blind root c]
    cases p.run root c with
    | ok u d => exact ih d
    | error e d => rfl

/-- A run of the passes goes the same way on a state without places. -/
theorem run_unplaced (root : Int) (c : Context) :
    run root c.unplaced = outcomeUnplaced (run root c) := by
  change EStateM.bind (checkNames c.options.disabled)
      (fun _ => (enabled c.options).forM (runPass root)) c.unplaced =
    outcomeUnplaced (EStateM.bind (checkNames c.options.disabled)
      (fun _ => (enabled c.options).forM (runPass root)) c)
  unfold EStateM.bind checkNames
  cases unknown? c.options.disabled with
  | some name => rfl
  | none => exact forM_unplaced root _ c

end Pipeline

end Lowering
