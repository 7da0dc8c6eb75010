import Lowering.Context
import Lowering.Scope.Resolver

namespace Lowering.Pass.Environment

open PassM Scope

def envName : Text := "__env__"
def tmpProcName : Text := "__tmp_proc"
def closureName : Text := "__closure__"
def stackframeName : Text := "__stackframe__"
def splatName : Text := "__splat"

/-- The keys of an environment in the order of its slots: the frame of the caller, the captured
variables, the closure. -/
def slots (captures : List Text) : List Text :=
  (stackframeName :: captures ++ [closureName]).foldl Names.add []

/-- `(index __env__ i)` -/
def slotAt (pos : Position) (i : Nat) : PassM Operand :=
  node .index pos [.sym envName, .int (Int64.ofNat i)]

/-- `(assign (index __env__ <slot of key>) name)`, for the node `owner`. -/
def copyIn (env : List Text) (owner : Node) (key name : Text) : PassM Operand := do
  match env.idxOf? key with
  | none => reject owner (.noSlot key)
  | some i =>
    let slot ← slotAt owner.pos i
    node .assign owner.pos [slot, .sym name]

/-- Puts the statements of a closure into a `let` of its variables. -/
def enclose (c : Closed) : PassM Unit := do
  let n ← fetch c.id
  match n.args with
  | params :: body :: rest =>
    if !body.isNil then
      let stmts ← query (·.elems body)
      let vars ← list n.pos (c.vars.map .sym)
      let wrapped ← node .letIn n.pos (vars :: stmts)
      setArgs c.id (params :: wrapped :: rest)
  | _ => pure ()

/-- Notes which parameters a closure has to share, and encloses its statements. -/
def wrap (c : Closed) : PassM Unit := do
  if c.exports ≠ [] then update c.id (·.annotate "exports" (.names (some c.exports)))
  enclose c

/-- Resolves the variables of a body. The closures that are left before a malformed node is met are
wrapped all the same. -/
def resolve (params : List Text) (stmts : List Operand) : PassM Resolver := do
  let trees ← query fun f => stmts.mapM f.operandTree
  let (r, failure) := (Resolver.start params).run (eventsEach trees).flatten
  r.closed.forM wrap
  match failure with
  | some d => throw (.rejected d)
  | none => return r

/-- What the names that closures around a place bind mean there, innermost first: a key of the
environment, or nothing but themselves. -/
abbrev Keys := List (Text × Option Text)

def keyOf (keys : Keys) (name : Text) : Option Text :=
  match keys.lookup name with
  | some key => key
  | none => some name

/-- The names that a closure binds: its variables and its parameters, of which those that are
shared have a key. -/
def innerKeys (id : Int) (n : Node) (keys : Keys) : PassM Keys := do
  let exported := n.notes.namesAt "exports"
  let params ← query (·.paramNames (n.arg 0))
  let vars ← match (n.arg 1).child? with
    | none => pure []
    | some b => do
      let body ← fetch b
      if body.tag = .letIn then
        let vars ← operandAt body 0
        query (·.symbols vars)
      else pure []
  return vars.map (·, none) ++
    params.map (fun p => (p, if exported.contains p then some (exportKey p id) else none)) ++ keys

/-- Replaces the captured names in an operand by their slots, down to a depth. -/
def toSlots (env : List Text) : Nat → Keys → Position → Operand → PassM Operand
  | 0, _, _, _ => throw (.fault .endless)
  | fuel + 1, keys, pos, v =>
    match v.view with
    | .atom (.sym name) =>
      match (keyOf keys name).bind (env.idxOf? ·) with
      | some i => slotAt pos i
      | none => return v
    | .atom _ => return v
    | .child id => do
      let n ← fetch id
      match n.tag with
      | .sexp | .defm | .defun => return v
      | .lambda | .proc =>
        match n.args with
        | params :: body :: rest =>
          let inner ← innerKeys id n keys
          let body ← toSlots env fuel inner n.pos body
          setArgs id (params :: body :: rest)
          return v
        | _ => return v
      | .callm =>
        match n.args with
        | receiver :: method :: rest =>
          let receiver ← toSlots env fuel keys n.pos receiver
          let rest ← rest.mapM (toSlots env fuel keys n.pos)
          setArgs id (receiver :: method :: rest)
          return v
        | short => throw (.fault (.missingOperand short.length short.length))
      | .letIn =>
        match n.args with
        | vars :: rest =>
          let rest ← rest.mapM (toSlots env fuel keys n.pos)
          setArgs id (vars :: rest)
          return v
        | [] => throw (.fault (.missingOperand 0 0))
      | _ =>
        let args ← n.args.mapM (toSlots env fuel keys n.pos)
        setArgs id args
        return v

/-- Puts copies of the shared parameters of a closure at the head of its statements. -/
def shareParams (env : List Text) (r : Resolver) (id : Int) : PassM Unit := do
  let exports := r.exportsOf id
  if exports ≠ [] then
    let n ← fetch id
    match (n.arg 1).child? with
    | none => reject n (.exportsWithoutBody exports)
    | some b =>
      let body ← fetch b
      if body.tag ≠ .letIn then reject n (.exportsWithoutBody exports)
      let vars ← operandAt body 0
      let copies ← exports.mapM fun name => copyIn env n (exportKey name id) name
      renewArgs b (vars :: copies ++ body.args.drop 1)

inductive Site where
  | definition (id : Int)
  | root (id : Int)
deriving DecidableEq, Repr

structure Body where
  owner : Node
  site : Site
  params : List Text := []
  /-- The name of the parameter that takes the remaining arguments, empty if there is none. -/
  rest : Text := Text.empty
  fixed : Nat := 0
  stmts : List Operand

def Site.isRoot : Site → Bool
  | root _ => true
  | definition _ => false

/-- The name of a parameter written as `(name ... rest)`. -/
def restName? (n : Node) : Option Text :=
  match n.args with
  | first :: second :: more =>
    if ((second :: more).getLast?).any (·.is "rest") then first.symbol? else none
  | _ => none

/-- Renames a parameter for the remaining arguments, if one of the given operands is one; its own
name, or empty. -/
def renameRest : List Operand → PassM Text
  | [] => return Text.empty
  | v :: others =>
    match v.child? with
    | none => renameRest others
    | some id => do
      let n ← fetch id
      match restName? n with
      | some name =>
        setArgs id (.sym splatName :: n.args.drop 1)
        return name
      | none => renameRest others

/-- The body of a definition. A parameter for the remaining arguments is one of the last two. -/
def definitionBody (id : Int) : PassM Body := do
  let n ← fetch id
  check n
  let paramList ← operandAt n 1
  let names ← query (·.paramNames paramList)
  let params ← query (·.elems paramList)
  let rest ← renameRest (params.reverse.take 2)
  let body ← operandAt n 2
  let stmts ← query (·.elems body)
  let fixed := (params.filter fun p => !p.isNode).length
  return { owner := n, site := .definition id, params := names, rest, fixed, stmts }

/-- The body of the statements outside every function. The root moves to a fresh node, so that it
can become the `let`. -/
def rootBody (root : Int) : PassM Body := do
  let n ← fetch root
  let moved ← twin root n
  return { owner := n, site := .root root, stmts := [.ref moved] }

/-- The statements that set an environment up. -/
def prologue (b : Body) (r : Resolver) (env : List Text) : PassM (List Operand) := do
  let pos := b.owner.pos
  let size := Int64.ofNat env.length * (← get).options.wordSize
  let bytes ← list pos [.int size]
  let call ← node .call pos [.sym "malloc", bytes]
  let assign ← node .assign pos [.sym envName, call]
  let allocation ← node .sexp pos [assign]
  let copied := env.filter fun name =>
    r.capturedParams.contains name || (name = closureName && !b.site.isRoot)
  let copies ← copied.mapM fun name => copyIn env b.owner name name
  return allocation :: copies

/-- The statement that makes an array of the remaining arguments. -/
def collectRest (b : Body) : PassM (List Operand) := do
  if b.rest.isEmpty then return []
  let pos := b.owner.pos
  let count ← node .sub pos [.sym "numargs", .int (Int64.ofNat b.fixed)]
  let array ← list pos [.sym "__splat_to_Array", .sym splatName, count]
  let assign ← node .assign pos [.sym b.rest, array]
  return [← node .sexp pos [assign]]

def withEnvironment (b : Body) (r : Resolver) : PassM (List Operand) := do
  let env := slots r.captures
  let depth := (← get).forest.extent
  let stmts ← b.stmts.mapM (toSlots env depth [] b.owner.pos)
  r.closures.forM (shareParams env r)
  let start ← prologue b r env
  return start ++ if stmts.isEmpty then [.sym "nil"] else stmts

def install (site : Site) (letId : Int) : PassM Unit :=
  match site with
  | .definition id => do
    let n ← fetch id
    discard <| operandAt n 2
    setArgs id (n.args.set 2 (.ref letId))
  | .root id => replace id letId

/-- The names that the `let` of a body declares. -/
def declared (b : Body) (r : Scope.Resolver) : List Text :=
  r.locals ++ [envName, tmpProcName] ++ if b.rest.isEmpty then [] else [b.rest]

/-- Puts the `let` of a body around its statements, and into its place. -/
def putLet (b : Body) (r : Scope.Resolver) (stmts : List Operand) : PassM Unit := do
  let rest ← collectRest b
  let vars ← list b.owner.pos ((declared b r).map .sym)
  let wrapped ← alloc .letIn b.owner.pos (vars :: rest ++ stmts)
  let used := r.byFrequency
  update wrapped (·.annotate "varfreq" (.names (if used.isEmpty then none else some used)))
  install b.site wrapped

/-- Gives a body its environment and its `let`. -/
def materialize (b : Body) : PassM Unit := do
  let r ← resolve b.params b.stmts
  let stmts ← if r.captures.isEmpty && r.closures.isEmpty then pure b.stmts
    else withEnvironment b r
  putLet b r stmts

/-- The definitions outside lowered code, in the order of a walk. -/
def definitions (root : Int) : PassM (List Int) := do
  let ids ← query (·.preorderSkipping root fun tag => tag = .sexp)
  ids.filterM fun id => return (← fetch id).tag ∈ [Tag.defm, Tag.defun]

/-- Whether a closure stands outside every definition. -/
def hasOuterClosure (root : Int) : PassM Bool := do
  return !(← walk root fun _ n => return match n.tag with
    | .sexp | .defm | .defun => .skip
    | .lambda | .proc => .stop
    | _ => .descend)

def run (root : Int) : PassM Unit := do
  (← definitions root).forM fun id => do materialize (← definitionBody id)
  if ← hasOuterClosure root then materialize (← rootBody root)

end Lowering.Pass.Environment
