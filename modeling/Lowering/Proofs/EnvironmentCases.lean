import Lowering.Pass.Environment
import Lowering.Proofs.Coverage
import Lowering.Proofs.Occurrences

namespace Lowering

/-- Whether operand `i` of a node is a place where variables may stand. -/
def Tag.reads (tag : Tag) (i : Nat) : Bool :=
  match tag with
  | sexp | defm | defun => false
  | lambda | proc => i = 1
  | callm => i ≠ 1
  | letIn => i ≠ 0
  | _ => true

/-- How many operands a node is taken to have. -/
def Tag.least : Tag → Nat
  | callm => 2
  | letIn => 1
  | _ => 0

namespace Pass.Environment

open Forest PassM Scope

variable {c c' : Context} {id : Int} {n : Node} {v w : Operand} {u : Unit}

/-- The node that stands for a slot. -/
def slotNode (pos : Position) (i : Nat) : Node :=
  { tag := .index, args := [.sym envName, .int (Int64.ofNat i)], pos }

theorem slotAt_ok : slotAt pos i c = .ok v c' ↔
    v = .ref ((c.forest.size : Int) + 1) ∧ c' = c.add (slotNode pos i) := node_ok

theorem copyIn_ok {env : List Text} {key name : Text} : copyIn env n key name c = .ok v c' ↔
    ∃ i, env.idxOf? key = some i ∧ ∃ slot d, slotAt n.pos i c = .ok slot d ∧
      node .assign n.pos [slot, .sym name] d = .ok v c' := by
  unfold copyIn
  cases env.idxOf? key with
  | none => simp [reject_ok]
  | some i => simp [bind_ok]

/-- The note of a closure about the parameters it shares. -/
def exportsNoted (cl : Closed) (c d : Context) : Prop :=
  cl.exports = [] ∧ d = c ∨ cl.exports ≠ [] ∧ ∃ n, c.forest.get? cl.id = some n ∧
    d = c.put cl.id (n.annotate "exports" (.names (some cl.exports)))

theorem wrap_eq (cl : Closed) : cl.exports = [] ∧ wrap cl = enclose cl ∨ cl.exports ≠ [] ∧
    wrap cl = (update cl.id (·.annotate "exports" (.names (some cl.exports))) >>=
      fun _ => enclose cl) := by
  by_cases he : cl.exports = []
  · exact .inl ⟨he, if_neg (by simpa using he)⟩
  · exact .inr ⟨he, if_pos he⟩

theorem wrap_ok (h : wrap cl c = .ok u c') :
    ∃ d n, exportsNoted cl c d ∧ d.forest.get? cl.id = some n ∧
      ((∀ params body rest, n.args = params :: body :: rest → body.isNil = true) ∧ c' = d ∨
        ∃ params body rest stmts vars d1 wrapped d2, n.args = params :: body :: rest ∧
          body.isNil = false ∧ d.forest.elems body = .ok stmts ∧
          list n.pos (cl.vars.map .sym) d = .ok vars d1 ∧
          node .letIn n.pos (vars :: stmts) d1 = .ok wrapped d2 ∧
          setArgs cl.id (params :: wrapped :: rest) d2 = .ok ⟨⟩ c') := by
  obtain ⟨d, hd, h⟩ : ∃ d, exportsNoted cl c d ∧ enclose cl d = .ok u c' := by
    obtain ⟨he, heq⟩ | ⟨he, heq⟩ := wrap_eq cl <;> rw [heq] at h
    · exact ⟨c, .inl ⟨he, rfl⟩, h⟩
    · obtain ⟨_, d, hd, h⟩ := bind_ok.mp h
      exact ⟨d, .inr ⟨he, update_ok.mp hd⟩, h⟩
  obtain ⟨n, hn, h⟩ := fetch_bind_ok.mp h
  refine ⟨d, n, hd, hn, ?_⟩
  rcases hargs : n.args with _ | ⟨params, _ | ⟨body, rest⟩⟩
  · rw [hargs] at h
    obtain ⟨-, rfl⟩ := pure_ok.mp h
    exact .inl ⟨by simp, rfl⟩
  · rw [hargs] at h
    obtain ⟨-, rfl⟩ := pure_ok.mp h
    exact .inl ⟨by simp, rfl⟩
  · simp only [hargs] at h
    cases hb : body.isNil with
    | true =>
      simp only [hb, Bool.not_true, Bool.false_eq_true, if_false] at h
      obtain ⟨-, rfl⟩ := pure_ok.mp h
      exact .inl ⟨by simp [hb], rfl⟩
    | false =>
      simp only [hb, Bool.not_false, if_true] at h
      obtain ⟨stmts, helems, h⟩ := query_bind_ok.mp h
      obtain ⟨vars, d1, hvars, h⟩ := bind_ok.mp h
      obtain ⟨wrapped, d2, hlet, h⟩ := bind_ok.mp h
      exact .inr ⟨params, body, rest, stmts, vars, d1, wrapped, d2, rfl, hb, helems, hvars, hlet, h⟩

/-- The variables that the `let` of a body declares. -/
def letVars (f : Forest) (body : Operand) : Except Fault (List Text) :=
  match body.child? with
  | none => .ok []
  | some b => do
    let n ← f.get b
    if n.tag = .letIn then f.symbols (n.arg 0) else .ok []

theorem innerKeys_ok {keys inner : Keys} (h : innerKeys id n keys c = .ok inner c') :
    c' = c ∧ ∃ params vars, c.forest.paramNames (n.arg 0) = .ok params ∧
      letVars c.forest (n.arg 1) = .ok vars ∧
      inner = vars.map (·, none) ++ params.map (fun p =>
        (p, if (n.notes.namesAt "exports").contains p then some (exportKey p id) else none)) ++
        keys := by
  unfold innerKeys at h
  obtain ⟨params, hparams, h⟩ := query_bind_ok.mp h
  unfold letVars
  cases hb : (n.arg 1).child? with
  | none =>
    simp only [hb, pure_bind] at h
    obtain ⟨rfl, rfl⟩ := pure_ok.mp h
    exact ⟨rfl, params, [], hparams, rfl, rfl⟩
  | some b =>
    simp only [hb] at h
    obtain ⟨body, hbody, h⟩ := fetch_bind_ok.mp h
    have hget : c.forest.get b = .ok body := get_eq_ok.mpr hbody
    by_cases hl : body.tag = .letIn
    · rw [if_pos hl] at h
      obtain ⟨-, h⟩ := operandAt_bind_ok.mp h
      obtain ⟨vars, hsyms, h⟩ := query_bind_ok.mp h
      obtain ⟨rfl, rfl⟩ := pure_ok.mp h
      exact ⟨rfl, params, vars, hparams, by simp [hget, bind, Except.bind, hl, hsyms], rfl⟩
    · rw [if_neg hl, pure_bind] at h
      obtain ⟨rfl, rfl⟩ := pure_ok.mp h
      exact ⟨rfl, params, [], hparams, by simp [hget, bind, Except.bind, hl], rfl⟩

/-- The keys in force below a node. -/
def keysWithin (id : Int) (n : Node) (keys : Keys) : PassM Keys :=
  if n.tag.isClosure then innerKeys id n keys else pure keys

/-- Goes through the operands of a node, unless it is lowered code, a function of its own or a
closure without a body. -/
def goThrough (env : List Text) (k : Nat) (keys : Keys) (id : Int) (n : Node) : PassM Unit :=
  if n.tag.isSealed = true ∨ n.tag.isClosure = true ∧ n.args.length < 2 then pure ⟨⟩
  else if n.args.length < n.tag.least
    then throw (.fault (.missingOperand n.args.length n.args.length))
  else do
    let inner ← keysWithin id n keys
    let args ← n.args.zipIdx.mapM fun a =>
      if n.tag.reads a.2 then toSlots env k inner n.pos a.1 else pure a.1
    setArgs id args

theorem mapM_zipIdx_kept (read : Operand → PassM Operand) {reads : Nat → Bool} (vs : List Operand)
    (h : ∀ j, i ≤ j → reads j = false) :
    ((vs.zipIdx i).mapM fun a => if reads a.2 then read a.1 else pure a.1) = pure vs := by
  induction vs generalizing i with
  | nil => rfl
  | cons v vs ih =>
    rw [List.zipIdx_cons, List.mapM_cons, ih fun j hj => h j (by omega)]
    simp [h i (Nat.le_refl i)]

theorem mapM_zipIdx_read (read : Operand → PassM Operand) {reads : Nat → Bool} (vs : List Operand)
    (h : ∀ j, i ≤ j → reads j = true) :
    ((vs.zipIdx i).mapM fun a => if reads a.2 then read a.1 else pure a.1) = vs.mapM read := by
  induction vs generalizing i with
  | nil => rfl
  | cons v vs ih =>
    rw [List.zipIdx_cons, List.mapM_cons, List.mapM_cons, ih fun j hj => h j (by omega)]
    simp [h i (Nat.le_refl i)]

/-- A node is gone through in the same way whatever its tag. -/
theorem toSlots_child_eq {env : List Text} {keys : Keys} (hv : v.view = .child id) :
    toSlots env (k + 1) keys pos v = do
      let n ← fetch id
      goThrough env k keys id n
      return v := by
  rw [toSlots]
  simp only [hv]
  refine bind_congr fun n => ?_
  unfold goThrough keysWithin
  have hlen : ∀ rest : List Operand, ¬ rest.length + 1 + 1 < 2 := fun rest => by omega
  cases n.tag
  case sexp | defm | defun => rfl
  case lambda | proc =>
    rcases n.args with _ | ⟨params, _ | ⟨body, rest⟩⟩
    · rfl
    · rfl
    · have hrest := fun read => mapM_zipIdx_kept read rest (i := 2)
        (show ∀ j, 2 ≤ j → Tag.lambda.reads j = false from fun j hj => by simp [Tag.reads]; omega)
      simp only [Tag.reads, decide_eq_true_eq] at hrest
      simp [Tag.isSealed, Tag.isClosure, Tag.least, Tag.reads, hlen, hrest]
  case callm =>
    rcases n.args with _ | ⟨receiver, _ | ⟨method, rest⟩⟩
    · rfl
    · rfl
    · have hrest := fun read => mapM_zipIdx_read read rest (i := 2)
        (show ∀ j, 2 ≤ j → Tag.callm.reads j = true from fun j hj => by simp [Tag.reads]; omega)
      simp [Tag.reads] at hrest
      simp [Tag.isSealed, Tag.isClosure, Tag.least, Tag.reads, hlen, hrest]
  case letIn =>
    rcases n.args with _ | ⟨vars, rest⟩
    · rfl
    · have hrest := fun read => mapM_zipIdx_read read rest (i := 1)
        (show ∀ j, 1 ≤ j → Tag.letIn.reads j = true from fun j hj => by simp [Tag.reads]; omega)
      simp [Tag.reads] at hrest
      simp [Tag.isSealed, Tag.isClosure, Tag.least, Tag.reads, hrest]
  all_goals
    have hall := fun read => mapM_zipIdx_read read n.args (i := 0)
      (show ∀ j, 0 ≤ j → (fun _ => true) j = true from fun _ _ => rfl)
    simp only [if_true] at hall
    simp [Tag.isSealed, Tag.isClosure, Tag.least, Tag.reads, hall]

theorem goThrough_ok {env : List Text} {keys : Keys} (h : goThrough env k keys id n c = .ok u c') :
    (n.tag.isSealed = true ∨ n.tag.isClosure = true ∧ n.args.length < 2) ∧ c' = c ∨
      n.tag.isSealed = false ∧ (n.tag.isClosure = true → 2 ≤ n.args.length) ∧
      n.tag.least ≤ n.args.length ∧ ∃ inner args d,
        keysWithin id n keys c = .ok inner c ∧
        (n.args.zipIdx.mapM fun a =>
          if n.tag.reads a.2 then toSlots env k inner n.pos a.1 else pure a.1) c = .ok args d ∧
        setArgs id args d = .ok u c' := by
  unfold goThrough at h
  split at h
  · next hkept => exact .inl ⟨hkept, (pure_ok.mp h).2.symm⟩
  · next hopen =>
    obtain ⟨hseal, hshort⟩ := not_or.mp hopen
    split at h
    · exact absurd h throw_ok
    · next hleast =>
      obtain ⟨inner, d0, hinner, h⟩ := bind_ok.mp h
      obtain ⟨args, d, hargs, hset⟩ := bind_ok.mp h
      have hsame : d0 = c := by
        unfold keysWithin at hinner
        split at hinner
        · exact (innerKeys_ok hinner).1
        · exact (pure_ok.mp hinner).2.symm
      subst hsame
      refine .inr
        ⟨by simpa using hseal, fun hc => ?_, by omega, inner, args, d, hinner, hargs, hset⟩
      have := not_and.mp hshort hc
      omega

theorem toSlots_zero {env : List Text} : ¬ toSlots env 0 keys pos v c = .ok w c' := throw_ok

theorem toSlots_atom {env : List Text} (hv : v.view = .atom a)
    (h : toSlots env (k + 1) keys pos v c = .ok w c') :
    (∃ name i, a = .sym name ∧ (keyOf keys name).bind (env.idxOf? ·) = some i ∧
      slotAt pos i c = .ok w c') ∨
    (∀ name, a = .sym name → (keyOf keys name).bind (env.idxOf? ·) = none) ∧ w = v ∧ c' = c := by
  rw [toSlots] at h
  cases a with
  | sym name =>
    simp only [hv] at h
    cases hi : (keyOf keys name).bind (env.idxOf? ·) with
    | some i =>
      simp only [hi] at h
      exact .inl ⟨name, i, rfl, hi, h⟩
    | none =>
      simp only [hi] at h
      obtain ⟨rfl, rfl⟩ := pure_ok.mp h
      exact .inr ⟨by rintro _ ⟨⟩; exact hi, rfl, rfl⟩
  | nil | str | int | unknown =>
    simp only [hv] at h
    obtain ⟨rfl, rfl⟩ := pure_ok.mp h
    exact .inr ⟨nofun, rfl, rfl⟩

theorem toSlots_child {env : List Text} (hv : v.view = .child id)
    (h : toSlots env (k + 1) keys pos v c = .ok w c') :
    w = v ∧ ∃ n, c.forest.get? id = some n ∧ goThrough env k keys id n c = .ok ⟨⟩ c' := by
  rw [toSlots_child_eq hv] at h
  obtain ⟨n, hn, h⟩ := fetch_bind_ok.mp h
  obtain ⟨_, hgo, rfl⟩ := bind_pure_ok.mp h
  exact ⟨rfl, n, hn, hgo⟩

theorem shareParams_ok {env : List Text} (h : shareParams env r id c = .ok u c') :
    r.exportsOf id = [] ∧ c' = c ∨ r.exportsOf id ≠ [] ∧ ∃ n b body copies d,
      c.forest.get? id = some n ∧ (n.arg 1).child? = some b ∧ c.forest.get? b = some body ∧
      body.tag = .letIn ∧
      (r.exportsOf id).mapM (fun name => copyIn env n (exportKey name id) name) c = .ok copies d ∧
      renewArgs b (body.args.take 1 ++ copies ++ body.args.drop 1) d = .ok ⟨⟩ c' := by
  unfold shareParams at h
  by_cases he : r.exportsOf id = []
  · simp only [he, ne_eq, not_true_eq_false, if_false] at h
    obtain ⟨-, rfl⟩ := pure_ok.mp h
    exact .inl ⟨he, rfl⟩
  · simp only [ne_eq, he, not_false_eq_true, if_true] at h
    obtain ⟨n, hn, h⟩ := fetch_bind_ok.mp h
    cases hb : (n.arg 1).child? with
    | none =>
      simp only [hb] at h
      exact absurd h reject_ok
    | some b =>
      simp only [hb] at h
      obtain ⟨body, hbody, h⟩ := fetch_bind_ok.mp h
      by_cases ht : body.tag = .letIn
      · simp only [ht, not_true_eq_false, if_false] at h
        obtain ⟨hlen, h⟩ := operandAt_bind_ok.mp h
        obtain ⟨copies, d, hcopies, h⟩ := bind_ok.mp h
        obtain ⟨vars, more, hargs⟩ := List.exists_cons_of_length_pos hlen
        refine .inr ⟨he, n, b, body, copies, d, hn, hb, hbody, ht, hcopies, ?_⟩
        simpa [Node.arg, hargs] using h
      · simp only [ht, not_false_eq_true, if_true] at h
        obtain ⟨_, _, h, -⟩ := bind_ok.mp h
        exact absurd h reject_ok

theorem definitionBody_ok (h : definitionBody id c = .ok b c') :
    ∃ n names params rest stmts, c.forest.get? id = some n ∧ n.malformed? = none ∧
      c.forest.paramNames (n.arg 1) = .ok names ∧ c.forest.elems (n.arg 1) = .ok params ∧
      renameRest (params.reverse.take 2) c = .ok rest c' ∧
      c'.forest.elems (n.arg 2) = .ok stmts ∧
      b = { owner := n, site := .definition id, params := names, rest,
            fixed := (params.filter fun p => !p.isNode).length, stmts } := by
  unfold definitionBody at h
  obtain ⟨n, hn, h⟩ := fetch_bind_ok.mp h
  obtain ⟨hm, h⟩ := check_bind_ok.mp h
  obtain ⟨-, h⟩ := operandAt_bind_ok.mp h
  obtain ⟨names, hnames, h⟩ := query_bind_ok.mp h
  obtain ⟨params, hparams, h⟩ := query_bind_ok.mp h
  obtain ⟨rest, d, hrest, h⟩ := bind_ok.mp h
  obtain ⟨-, h⟩ := operandAt_bind_ok.mp h
  obtain ⟨stmts, hstmts, h⟩ := query_bind_ok.mp h
  obtain ⟨rfl, rfl⟩ := pure_ok.mp h
  exact ⟨n, names, params, rest, stmts, hn, hm, hnames, hparams, hrest, hstmts, rfl⟩

/-- The slots that are filled when the body is entered. -/
def copied (b : Body) (r : Resolver) (env : List Text) : List Text :=
  env.filter fun name => r.capturedParams.contains name || (name = closureName && !b.site.isRoot)

theorem prologue_ok {env : List Text} (h : prologue b r env c = .ok vs c') :
    ∃ bytes d1 call d2 assign d3 allocation d4 copies,
      list b.owner.pos [.int (Int64.ofNat env.length * c.options.wordSize)] c = .ok bytes d1 ∧
      node .call b.owner.pos [.sym "malloc", bytes] d1 = .ok call d2 ∧
      node .assign b.owner.pos [.sym envName, call] d2 = .ok assign d3 ∧
      node .sexp b.owner.pos [assign] d3 = .ok allocation d4 ∧
      (copied b r env).mapM (fun name => copyIn env b.owner name name) d4 = .ok copies c' ∧
      vs = allocation :: copies := by
  simp only [prologue, bind_ok, get_ok, pure_ok] at h
  obtain ⟨_, _, ⟨rfl, rfl⟩, bytes, d1, hb, call, d2, hc, assign, d3, ha, allocation, d4, hs, copies,
    _, hcopies, rfl, rfl⟩ := h
  exact ⟨bytes, d1, call, d2, assign, d3, allocation, d4, copies, hb, hc, ha, hs, hcopies, rfl⟩

theorem collectRest_ok (h : collectRest b c = .ok vs c') :
    b.rest.isEmpty = true ∧ vs = [] ∧ c' = c ∨ b.rest.isEmpty = false ∧
    ∃ count d1 array d2 assign d3 code,
      node .sub b.owner.pos [.sym "numargs", .int (Int64.ofNat b.fixed)] c = .ok count d1 ∧
      list b.owner.pos [.sym "__splat_to_Array", .sym splatName, count] d1 = .ok array d2 ∧
      node .assign b.owner.pos [.sym b.rest, array] d2 = .ok assign d3 ∧
      node .sexp b.owner.pos [assign] d3 = .ok code c' ∧ vs = [code] := by
  unfold collectRest at h
  cases he : b.rest.isEmpty with
  | true =>
    simp only [he, if_true] at h
    obtain ⟨rfl, rfl⟩ := pure_ok.mp h
    exact .inl ⟨rfl, rfl, rfl⟩
  | false =>
    simp only [he, Bool.false_eq_true, if_false, bind_ok, pure_ok] at h
    obtain ⟨count, d1, h1, array, d2, h2, assign, d3, h3, code, _, h4, rfl, rfl⟩ := h
    exact .inr ⟨rfl, count, d1, array, d2, assign, d3, code, h1, h2, h3, h4, rfl⟩

theorem withEnvironment_ok (h : withEnvironment b r c = .ok vs c') : ∃ stmts d1 d2 start,
      b.stmts.mapM (toSlots (slots r.captures) c.forest.extent [] b.owner.pos) c = .ok stmts d1 ∧
      r.closures.forM (shareParams (slots r.captures) r) d1 = .ok ⟨⟩ d2 ∧
      prologue b r (slots r.captures) d2 = .ok start c' ∧
      vs = start ++ if stmts.isEmpty then [.sym "nil"] else stmts := by
  simp only [withEnvironment, bind_ok, get_ok, pure_ok] at h
  obtain ⟨_, _, ⟨rfl, rfl⟩, stmts, d1, hstmts, _, d2, hshare, start, _, hstart, rfl, rfl⟩ := h
  exact ⟨stmts, d1, d2, start, hstmts, hshare, hstart, rfl⟩

/-- What a `let` is annotated with: the names used in it, the most frequent first. -/
def frequencies (r : Resolver) : Notes :=
  ({} : Notes).insert "varfreq"
    (.names (if r.byFrequency.isEmpty then none else some r.byFrequency))

/-- The `let` of a body. -/
def letNode (b : Body) (r : Resolver) (args : List Operand) : Node where
  tag := .letIn
  args := args
  pos := b.owner.pos
  notes := frequencies r

theorem materialize_ok (h : materialize b c = .ok u c') :
    ∃ r d1 stmts d2 rest d3 vars d4, resolve b.params b.stmts c = .ok r d1 ∧
      ((r.captures = [] ∧ r.closures = []) ∧ stmts = b.stmts ∧ d2 = d1 ∨
        ¬ (r.captures = [] ∧ r.closures = []) ∧ withEnvironment b r d1 = .ok stmts d2) ∧
      collectRest b d2 = .ok rest d3 ∧
      list b.owner.pos ((declared b r).map .sym) d3 = .ok vars d4 ∧
      install b.site ((d4.forest.size : Int) + 1)
        (d4.add (letNode b r (vars :: rest ++ stmts))) = .ok ⟨⟩ c' := by
  unfold materialize at h
  obtain ⟨r, d1, hr, h⟩ := bind_ok.mp h
  obtain ⟨stmts, d2, hbody, h⟩ : ∃ stmts d2,
      ((r.captures = [] ∧ r.closures = []) ∧ stmts = b.stmts ∧ d2 = d1 ∨
        ¬ (r.captures = [] ∧ r.closures = []) ∧ withEnvironment b r d1 = .ok stmts d2) ∧
      putLet b r stmts d2 = .ok u c' := by
    by_cases he : r.captures = [] ∧ r.closures = []
    · simp only [he.1, he.2, List.isEmpty_nil, Bool.and_self, if_true] at h
      exact ⟨b.stmts, d1, .inl ⟨he, rfl, rfl⟩, h⟩
    · rw [if_neg (by simpa using he)] at h
      obtain ⟨stmts, d2, hw, h⟩ := bind_ok.mp h
      exact ⟨stmts, d2, .inr ⟨he, hw⟩, h⟩
  obtain ⟨rest, d3, hrest, h⟩ := bind_ok.mp h
  obtain ⟨vars, d4, hvars, h⟩ := bind_ok.mp h
  obtain ⟨wrapped, d5, halloc, h⟩ := bind_ok.mp h
  obtain ⟨rfl, rfl⟩ := alloc_ok.mp halloc
  obtain ⟨_, d6, hnote, h⟩ := bind_ok.mp h
  obtain ⟨n, hn, rfl⟩ := update_ok.mp hnote
  rw [Context.add_forest, get?_push_self] at hn
  cases hn
  refine ⟨r, d1, stmts, d2, rest, d3, vars, d4, hr, hbody, hrest, hvars, ?_⟩
  simp only [Context.put, Context.add, set_push_self] at h
  exact h

theorem install_definition_ok :
    install (.definition id) letId c = .ok u c' ↔ ∃ n, c.forest.get? id = some n ∧
      2 < n.args.length ∧ setArgs id (n.args.set 2 (.ref letId)) c = .ok u c' := by
  simp only [install, bind_ok, fetch_ok, discard_ok, operandAt_ok]
  constructor
  · rintro ⟨n, _, ⟨hn, rfl⟩, _, _, ⟨_, hlen, -, rfl⟩, h⟩
    exact ⟨n, hn, hlen, h⟩
  · rintro ⟨n, hn, hlen, h⟩
    exact ⟨n, _, ⟨hn, rfl⟩, ⟨⟩, _, ⟨_, hlen, rfl, rfl⟩, h⟩

theorem filterM_definitions_ok {all ids acc : List Int} (h : (List.filterAuxM (fun id => do
      return decide ((← fetch id).tag ∈ [Tag.defm, Tag.defun])) all acc : PassM (List Int)) c =
        .ok ids c') : c' = c ∧ (∀ id ∈ all, ∃ n, c.forest.get? id = some n) ∧
      ids = (all.filter fun id => (c.forest.get? id).any
        fun n => n.tag = .defm ∨ n.tag = .defun).reverse ++ acc := by
  induction all generalizing acc with
  | nil =>
    obtain ⟨rfl, rfl⟩ := pure_ok.mp h
    simp
  | cons id all ih =>
    unfold List.filterAuxM at h
    obtain ⟨b, _, hb, h⟩ := bind_ok.mp h
    obtain ⟨n, hn, hb⟩ := fetch_bind_ok.mp hb
    obtain ⟨rfl, rfl⟩ := pure_ok.mp hb
    obtain ⟨rfl, hall, rfl⟩ := ih h
    refine ⟨rfl, List.forall_mem_cons.mpr ⟨⟨n, hn⟩, hall⟩, ?_⟩
    by_cases ht : n.tag = .defm ∨ n.tag = .defun <;> simp [hn, ht]

theorem definitions_ok (h : definitions root c = .ok ids c') :
    c' = c ∧ ∃ all, c.forest.preorderSkipping root (fun tag => tag = .sexp) = .ok all ∧
      ids = all.filter fun id => (c.forest.get? id).any
        fun n => n.tag = .defm ∨ n.tag = .defun := by
  unfold definitions at h
  obtain ⟨all, hall, h⟩ := query_bind_ok.mp h
  obtain ⟨found, hfound, rfl⟩ := bind_pure_ok.mp h
  obtain ⟨rfl, -, rfl⟩ := filterM_definitions_ok hfound
  exact ⟨rfl, all, hall, by simp⟩

end Pass.Environment

end Lowering
