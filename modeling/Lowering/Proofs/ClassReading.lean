import Lowering.Proofs.CallExpansions
import Lowering.Proofs.ClassHistory
import Lowering.Proofs.ClassTrees
import Lowering.Proofs.ReadBack

namespace Lowering

open Forest PassM Classes
open Pass.ClassScopes (Accessors accessors?)
open Classes.Table (History)

/-- Why a reading stops early: a node is refused, or a search does not end. -/
inductive Stop where
  | refused (tag : Tag) (complaint : Complaint)
  | circular

/-- Why a run stops with an error, unless that is a fault. -/
def Stop.ofError? : PassError → Option Stop
  | .rejected d => some (.refused d.tag d.complaint)
  | .circular => some .circular
  | .fault _ => none

theorem Stop.isSome_ofError? (h : ¬ PassError.IsFault e) : ∃ stop, Stop.ofError? e = some stop := by
  cases e with
  | rejected d => exact ⟨_, rfl⟩
  | circular => exact ⟨_, rfl⟩
  | fault f => exact absurd trivial h

/-- What is declared: the changes to the class table in turn, and why there are no more of them if
something is left unread. -/
structure Record where
  changes : List Change := []
  stop : Option Stop := none

/-- The table in the end, and why it has come to no more. -/
def Record.outcome (r : Record) (t : Table) : Table × Option Stop := (t.after r.changes, r.stop)

/-- What is read off a tree, in a scope and with the table as it is then. -/
abbrev Reading := Scope → Table → Record

namespace Reading

/-- Reads nothing. -/
def skip : Reading := fun _ _ => {}

/-- One reading and then another, if the first has not stopped. -/
def andThen (r s : Table → Record) : Table → Record := fun t =>
  match (r t).stop with
  | some _ => r t
  | none =>
    let rest := s (t.after (r t).changes)
    ⟨(r t).changes ++ rest.changes, rest.stop⟩

/-- Readings one after the other in one scope. -/
def inTurn : List Reading → Reading
  | [] => skip
  | r :: rs => fun scope => andThen (r scope) (inTurn rs scope)

/-- A reading if nothing is wrong with a form, and a refusal otherwise. -/
def provided (tag : Tag) (r : Table → Record) : Option Complaint → Table → Record
  | some complaint => fun _ => { stop := some (.refused tag complaint) }
  | none => r

/-- Opens a class, if the search for its superclass ends, and reads what is in it. -/
def opening (kind : Kind) (name : Text) (scope : Scope) (super : Text) (body : Table → Record) :
    Table → Record := fun t =>
  if t.findsSuper (some scope) super then
    andThen (fun _ => { changes := [.opening kind name (some scope) super] }) body t
  else { stop := some .circular }

variable {r s u : Table → Record} {t : Table}

theorem andThen_of_none (h : (r t).stop = none) : andThen r s t =
    ⟨(r t).changes ++ (s (t.after (r t).changes)).changes, (s (t.after (r t).changes)).stop⟩ := by
  rw [andThen, h]

theorem andThen_of_some (h : (r t).stop = some stop) : andThen r s t = r t := by
  rw [andThen, h]

theorem andThen_assoc (r s u : Table → Record) :
    andThen (andThen r s) u = andThen r (andThen s u) := by
  funext t
  cases hr : (r t).stop with
  | some stop => rw [andThen_of_some hr, andThen_of_some (by rw [andThen_of_some hr, hr]),
      andThen_of_some hr]
  | none =>
    rw [andThen_of_none (r := r) (s := andThen s u) hr]
    cases hs : (s (t.after (r t).changes)).stop with
    | some stop =>
      rw [andThen_of_some hs, andThen_of_some (by rw [andThen_of_none hr, hs]), andThen_of_none hr]
    | none =>
      rw [andThen_of_none hs, andThen_of_none (by rw [andThen_of_none hr, hs]), andThen_of_none hr,
        Table.after_append, List.append_assoc]

theorem andThen_skip (r : Table → Record) (scope : Scope) : andThen r (skip scope) = r := by
  funext t
  cases hr : (r t).stop with
  | some stop => rw [andThen_of_some hr]
  | none =>
    rw [andThen_of_none hr, skip, List.append_nil, ← hr]

theorem inTurn_append (rs ss : List Reading) (scope : Scope) :
    inTurn (rs ++ ss) scope = andThen (inTurn rs scope) (inTurn ss scope) := by
  induction rs with
  | nil => rfl
  | cons r rs ih =>
    change andThen (r scope) (inTurn (rs ++ ss) scope) = _
    rw [ih, ← andThen_assoc]
    rfl

/-- What comes of a second reading depends on the table that the first one has left. -/
theorem outcome_andThen (h : (r t).stop = none → (s (t.after (r t).changes)).outcome
      (t.after (r t).changes) = (u (t.after (r t).changes)).outcome (t.after (r t).changes)) :
    (andThen r s t).outcome t = (andThen r u t).outcome t := by
  cases hr : (r t).stop with
  | some stop => rw [andThen_of_some hr, andThen_of_some hr]
  | none =>
    obtain ⟨htable, hstop⟩ := Prod.mk.inj (h hr)
    rw [andThen_of_none hr, andThen_of_none hr, Record.outcome, Record.outcome, Table.after_append,
      Table.after_append, htable, hstop]

/-- A change that the table does not show makes no difference. -/
theorem outcome_of_apply_eq (h : t.apply change = t) :
    (andThen (fun _ => { changes := [change] }) s t).outcome t = (s t).outcome t := by
  change ((t.apply change).after (s (t.apply change)).changes, (s (t.apply change)).stop) = _
  rw [h]
  rfl

/-- Reading in a scope that is there makes a history. -/
def MakesHistory (r : Reading) : Prop :=
  ∀ {scope t}, t.knows scope = true → History t (t.after (r scope t).changes)

theorem history_andThen (hr : History t (t.after (r t).changes))
    (hs : ∀ t', History t t' → History t' (t'.after (s t').changes)) :
    History t (t.after (andThen r s t).changes) := by
  cases hstop : (r t).stop with
  | some stop => rwa [andThen_of_some hstop]
  | none =>
    rw [andThen_of_none hstop, Table.after_append]
    exact hr.trans (hs _ hr)

theorem makesHistory_inTurn (h : ∀ r ∈ rs, MakesHistory r) : (inTurn rs).MakesHistory := by
  induction rs with
  | nil => exact fun _ => .refl
  | cons r rs ih =>
    intro scope t hscope
    refine history_andThen (h r (by simp) hscope) fun t' ht => ?_
    exact ih (fun s hs => h s (by simp [hs])) (ht.knows hscope)

theorem history_opening {body : Reading} (h : body.MakesHistory)
    (hkind : kind = .ofClass ∨ kind = .ofModule) (hscope : t.knows scope = true)
    (name super : Text) :
    History t (t.after (opening kind name scope super (body (.named name)) t).changes) := by
  have hstep := Table.Step.opening hkind hscope name super
  unfold opening
  split
  · exact .head hstep (h Table.knows_enter)
  · exact .refl

end Reading

/-- The changes that note an attribute and the methods that are wanted for it. -/
def Classes.Change.attribute (scope : Scope) (wanted : Accessors) (symbol : Text) : List Change :=
  let name := symbol.dropStart ":"
  [.ivar scope ("@" ++ name)] ++ (if wanted.reader then [.method scope name] else []) ++
    if wanted.writer then [.method scope (name ++ "=")] else []

/-- The class over a module: `Object` if there is one. -/
def Classes.Table.moduleSuper (t : Table) : Text :=
  if (t.find? "Object").isSome then "Object" else Text.empty

namespace Tree

variable {α : Type}

/-- Operand `i`, or nil if there are fewer. -/
def operandAt (args : List (Tree α)) (i : Nat) : Tree α := (args[i]?).getD (.leaf .nil)

/-- The name that operand `i` is, if it is one. -/
def nameAt (args : List (Tree α)) (i : Nat) : Text := (operandAt args i).symbol?.getD Text.empty

/-- The names in a list. -/
def symbols (t : Tree α) : List Text := t.elems.filterMap symbol?

/-- The name of an instance variable: a symbol with one at sign in front. -/
def ivar? (t : Tree α) : Option Text :=
  t.symbol?.filter fun name => name.startsWith "@" && !name.startsWith "@@"

mutual
/-- The instance variables below a node: among its own operands, and then below each of these. -/
def ivars : Tree α → List Text
  | leaf _ => []
  | node _ _ args => args.filterMap ivar? ++ ivarsEach args

def ivarsEach : List (Tree α) → List Text
  | [] => []
  | t :: ts => ivars t ++ ivarsEach ts
end

/-- The methods that a call with these operands defines for attributes. -/
def accessors (args : List (Tree α)) : Option Accessors :=
  (operandAt args 0).symbol?.bind fun name => accessors? (.sym name)

/-- What a node declares whose operands fit its tag, given what each of these declares. -/
def declaring (tag : Tag) (args : List (Tree α)) (parts : List Reading) : Reading := fun scope =>
  match tag with
  | .sexp => Reading.skip scope
  | .defm => Reading.andThen (fun _ => { changes := [.method scope (nameAt args 0)] }) fun t =>
      let body := operandAt args 2
      if t.kindOf scope = .global then Reading.inTurn parts scope t
      else { changes := (body.ivar?.toList ++ body.ivars).map (.ivar scope) }
  | .call =>
    match accessors args with
    | some wanted => fun _ =>
      { changes := (operandAt args 1).symbols.flatMap (Change.attribute scope wanted) }
    | none => Reading.inTurn parts scope
  | .classDef => Reading.opening .ofClass (nameAt args 0) scope (nameAt args 1)
      ((parts[2]?.getD Reading.skip) (.named (nameAt args 0)))
  | .moduleDef => fun t => Reading.opening .ofModule (nameAt args 0) scope t.moduleSuper
      ((parts[1]?.getD Reading.skip) (.named (nameAt args 0))) t
  | _ => Reading.inTurn parts scope

/-- The forms whose operands the pass checks. -/
def isChecked : Tag → Bool
  | .defm | .call | .classDef | .moduleDef => true
  | _ => false

/-- What is wrong with a node, if its operands are checked. -/
def objection? (tag : Tag) (args : List (Tree α)) : Option Complaint :=
  if isChecked tag then malformed? tag args else none

mutual
/-- What is read off a tree. -/
def reading : Tree α → Reading
  | leaf _ => Reading.skip
  | node _ tag args => fun scope =>
    Reading.provided tag (declaring tag args (readingEach args) scope) (objection? tag args)

def readingEach : List (Tree α) → List Reading
  | [] => []
  | t :: ts => reading t :: readingEach ts
end

theorem readingEach_eq (ts : List (Tree α)) : readingEach ts = ts.map reading :=
  eq_map rfl (fun _ _ => rfl) ts

theorem ivarsEach_eq (ts : List (Tree α)) : ivarsEach ts = ts.flatMap ivars :=
  eq_flatMap rfl (fun _ _ => rfl) ts

theorem reading_node : reading (.node mark tag args) scope =
      Reading.provided tag (declaring tag args (args.map reading) scope) (objection? tag args) := by
  rw [← readingEach_eq]
  rfl

open Reading

theorem history_ivars (names : List Text) (t : Table) :
    History t (t.after (names.map (.ivar scope))) := by
  induction names generalizing t with
  | nil => exact .refl
  | cons name names ih => exact .head (.ivar scope name) (ih _)

theorem history_attribute (symbol : Text) (t : Table) :
    History t (t.after (Change.attribute scope wanted symbol)) := by
  have method : ∀ (wants : Bool) (t' : Table) (name : Text), History t t' →
      History t (t'.after (if wants then [.method scope name] else [])) := by
    intro wants t' name h
    cases wants
    · exact h
    · exact h.tail (.method scope name)
  rw [Change.attribute, Table.after_append, Table.after_append]
  exact method _ _ _ (method _ _ _ (.single (.ivar scope _)))

theorem history_attributes (symbols : List Text) (t : Table) :
    History t (t.after (symbols.flatMap (Change.attribute scope wanted))) := by
  induction symbols generalizing t with
  | nil => exact .refl
  | cons symbol symbols ih =>
    rw [List.flatMap_cons, Table.after_append]
    exact (history_attribute symbol t).trans (ih _)

theorem makesHistory_reading (t : Tree α) : (reading t).MakesHistory := by
  induction t with
  | leaf a => exact fun _ => .refl
  | node mark tag args ih =>
    have hparts : ∀ r ∈ args.map reading, Reading.MakesHistory r := by
      intro r hr
      obtain ⟨t, ht, rfl⟩ := List.mem_map.mp hr
      exact ih t ht
    have hpart : ∀ i : Nat, ((args.map reading)[i]?.getD skip).MakesHistory := by
      intro i
      cases hi : (args.map reading)[i]? with
      | none => exact fun _ => .refl
      | some r => exact hparts r (List.mem_of_getElem? hi)
    intro scope t hscope
    rw [reading_node]
    cases objection? tag args with
    | some complaint => exact .refl
    | none =>
      unfold Reading.provided declaring
      split
      · exact .refl
      · have hstep := Table.Step.method (t := t) scope (nameAt args 0)
        refine history_andThen (.single hstep) fun t' ht => ?_
        split
        · exact makesHistory_inTurn hparts (ht.knows hscope)
        · exact history_ivars _ _
      · split
        · exact history_attributes _ _
        · exact makesHistory_inTurn hparts hscope
      · exact history_opening (hpart 2) (.inl rfl) hscope _ _
      · exact history_opening (hpart 1) (.inr rfl) hscope _ _
      · exact makesHistory_inTurn hparts hscope

end Tree

namespace Pass.ClassScopes

variable {α : Type} {U : Int → Prop} {c d : Context} {v : Operand} {vs : List Operand} {n : Node}
variable {t : Tree Mark} {ts args : List (Tree Mark)} {mark : Mark} {tag : Tag} {scope : Scope}

/-- The outcome of a run is what is read, unless the run meets a fault: the changes have been made
to the class table, and the run stops where and why the reading does. -/
def Told (r : Record) (t : Table) : EStateM.Result PassError Context Unit → Prop
  | .ok _ d => r.stop = none ∧ d.classes = t.after r.changes
  | .error e d => ¬ e.IsFault → r.stop = Stop.ofError? e ∧ d.classes = t.after r.changes

/-- A run makes of the class table what a reading makes of it. -/
def Tells (x : PassM Unit) (r : Table → Record) (c : Context) : Prop :=
  Told (r c.classes) c.classes (x c)

section

variable {x : PassM Unit} {r s : Table → Record}

theorem tells_of_quiet (hx : Quiet x) (hr : (r c.classes).stop = none)
    (h : ∀ u d, x c = .ok u d → d.classes = c.classes.after (r c.classes).changes) :
    Tells x r c := by
  unfold Tells
  cases hrun : x c with
  | ok u d => exact ⟨hr, h u d hrun⟩
  | error e d => exact fun he => absurd (hx c e d hrun) he

theorem Tells.congr (h : Tells x r c) (hrs : s c.classes = r c.classes) : Tells x s c := by
  unfold Tells
  rwa [hrs]

theorem Told.andThen {tb : Table} (hr : (r tb).stop = none)
    (h : Told (s (tb.after (r tb).changes)) (tb.after (r tb).changes) result) :
    Told (Reading.andThen r s tb) tb result := by
  rw [Reading.andThen_of_none hr]
  cases result with
  | ok u d => exact ⟨h.1, h.2.trans (Table.after_append ..).symm⟩
  | error e d => exact fun he => ⟨(h he).1, (h he).2.trans (Table.after_append ..).symm⟩

theorem Tells.bind (hx : Tells x r c) (hg : ∀ d, x c = .ok ⟨⟩ d → Tells (g ⟨⟩) s d) :
    Tells (x >>= g) (Reading.andThen r s) c := by
  unfold Tells at hx ⊢
  change Told _ _ (EStateM.bind x g c)
  unfold EStateM.bind
  cases hrun : x c with
  | ok u d =>
    rw [hrun] at hx
    refine Told.andThen hx.1 ?_
    rw [← hx.2]
    exact hg d hrun
  | error e d =>
    rw [hrun] at hx
    intro he
    obtain ⟨stop, hstop⟩ := Stop.isSome_ofError? he
    rw [Reading.andThen_of_some ((hx he).1.trans hstop)]
    exact hx he

theorem tells_after (hy : Quiet y)
    (hg : ∀ a d, y c = .ok a d → d.classes = c.classes ∧ Tells (g a) r d) :
    Tells (y >>= g) r c := by
  unfold Tells
  change Told _ _ (EStateM.bind y g c)
  unfold EStateM.bind
  cases hrun : y c with
  | ok a d =>
    obtain ⟨hclasses, htail⟩ := hg a d hrun
    rw [← hclasses]
    exact htail
  | error e d => exact fun he => absurd (hy c e d hrun) he

theorem tells_operandAt (hg : Tells (g (n.arg i)) r c) : Tells (operandAt n i >>= g) r c :=
  tells_after (quiet_operandAt n i) fun w d h => by
    obtain ⟨-, rfl, rfl⟩ := operandAt_ok.mp h
    exact ⟨rfl, hg⟩

theorem tells_change (change : Change)
    (hg : Tells (g ⟨⟩) s { c with classes := c.classes.apply change }) :
    Tells (changeTable (·.apply change) >>= g)
      (Reading.andThen (fun _ => { changes := [change] }) s) c :=
  Told.andThen (r := fun _ => { changes := [change] }) rfl hg

theorem tells_openClass {name : Text}
    (hg : ∀ d, d.forest = c.forest → d.shared = c.shared → Tells (g ⟨⟩) s d) :
    Tells (openClass kind name scope super >>= g) (Reading.opening kind name scope super s) c := by
  unfold openClass
  rw [bind_assoc]
  refine tells_after quiet_get fun a d hget => ?_
  obtain ⟨rfl, rfl⟩ := get_ok.mp hget
  refine ⟨rfl, ?_⟩
  split
  · rename_i hends
    refine Tells.congr (tells_change (.opening kind name (some scope) super) (hg _ rfl rfl)) ?_
    rw [Reading.opening, if_pos hends]
  · rename_i hends
    intro _
    rw [Reading.opening, if_neg hends]
    exact ⟨rfl, rfl⟩

theorem tells_check (hn : n.malformed? = complaint?.map n.diagnostic)
    (hg : n.malformed? = none → Tells (g ⟨⟩) r c) :
    Tells (check n >>= g) (Reading.provided n.tag r complaint?) c := by
  cases complaint? with
  | none =>
    have hcheck : check n = pure ⟨⟩ := by
      unfold check
      rw [hn]
      rfl
    rw [hcheck]
    exact hg hn
  | some complaint =>
    have hcheck : check n = throw (.rejected (n.diagnostic complaint)) := by
      unfold check
      rw [hn]
      rfl
    rw [hcheck]
    exact fun _ => ⟨rfl, rfl⟩

end

theorem denotes_operandAt (h : List.Forall₂ (Denotes f) n.args args) (i : Nat) :
    Denotes f (n.arg i) (Tree.operandAt args i) := by
  unfold Node.arg Tree.operandAt
  cases hi : n.args[i]? with
  | none =>
    have : args[i]? = none := by
      rw [List.getElem?_eq_none_iff] at hi ⊢
      exact h.length_eq ▸ hi
    rw [this]
    rfl
  | some w =>
    obtain ⟨hlt, rfl⟩ := List.getElem?_eq_some_iff.mp hi
    rw [List.getElem?_eq_getElem (h.length_eq ▸ hlt)]
    exact h.get hlt (h.length_eq ▸ hlt)

theorem malformed?_eq (h : List.Forall₂ (Denotes f) n.args args) :
    n.malformed? = (Tree.malformed? n.tag args).map n.diagnostic := by
  have hsymbol : (fun i => (n.arg i).isSymbol) =
      fun i => ((args[i]?).bind Tree.symbol?).isSome := by
    funext i
    have hsome : (n.arg i).isSymbol = (n.arg i).symbol?.isSome := by
      unfold Operand.symbol?
      split <;> simp_all
    rw [hsome, (denotes_operandAt h i).symbol?, Tree.operandAt]
    cases args[i]? <;> rfl
  unfold Node.malformed? Tree.malformed?
  rw [hsymbol, h.length_eq]

theorem symbols_eq (h : Denotes f v t) : f.symbols v = .ok t.symbols := by
  obtain ⟨vs, hvs, hshow⟩ := h.elems
  have hnames : vs.map Operand.symbol? = t.elems.map Tree.symbol? := by
    rw [← List.forall₂_eq_eq_eq, List.forall₂_map_left_iff, List.forall₂_map_right_iff]
    exact hshow.imp fun _ _ h => h.symbol?
  have hfilter : ∀ {β : Type} (l : List β) (g : β → Option Text),
      l.filterMap g = (l.map g).filterMap id := by
    intro β l g
    rw [List.filterMap_map]
    rfl
  unfold Forest.symbols Tree.symbols
  rw [hvs, Except.map, hfilter vs, hfilter t.elems, hnames]

theorem text_arg (h : List.Forall₂ (Denotes f) n.args args)
    (ht : n.tag = .defm ∨ n.tag = .classDef ∨ n.tag = .moduleDef) (hn : n.malformed? = none) :
    (n.arg 0).text = Tree.nameAt args 0 := by
  have hsymbol : (n.arg 0).isSymbol = true := by
    rw [Node.malformed?, Option.map_eq_none_iff] at hn
    obtain ht | ht | ht := ht <;>
    · simp only [Complaint.ofOperands, ht, Arity.ofTag] at hn
      split at hn
      · cases hn
      · split at hn
        · assumption
        · cases hn
  unfold Tree.nameAt
  rw [← (denotes_operandAt h 0).symbol?, Operand.symbol?, if_pos hsymbol]
  rfl

theorem accessors?_eq (v : Operand) :
    accessors? v = v.symbol?.bind fun name => accessors? (.sym name) := by
  unfold Operand.symbol?
  cases hv : v.isSymbol with
  | false => simp [accessors?, Operand.is, hv]
  | true =>
    have his : ∀ name, v.is name = (Operand.sym v.text).is name := fun name => by
      rw [Operand.is, hv]
      rfl
    simp only [accessors?, his, if_true, Option.bind_some]

theorem ivar?_eq (h : Denotes f v t) : t.ivar? = if isIvar v then some v.text else none := by
  unfold Tree.ivar? isIvar
  rw [← h.symbol?, Operand.symbol?]
  cases v.isSymbol <;> simp [Option.filter]

theorem noteIvar_classes (hv : Denotes d.forest v t) (h : noteIvar scope v d = .ok u c) :
    c.classes = d.classes.after (t.ivar?.toList.map (.ivar scope)) := by
  rw [ivar?_eq hv]
  unfold noteIvar at h
  split at h
  · rename_i hivar
    cases h
    rw [if_pos hivar]
    rfl
  · rename_i hivar
    obtain ⟨-, rfl⟩ := pure_ok.mp h
    rw [if_neg hivar]
    rfl

theorem noteEach_classes (hvs : List.Forall₂ (Denotes d.forest) vs ts)
    (h : vs.forM (noteIvar scope) d = .ok u c) :
    c.classes = d.classes.after ((ts.filterMap Tree.ivar?).map (.ivar scope)) := by
  induction vs generalizing d ts with
  | nil =>
    cases hvs
    obtain ⟨-, rfl⟩ := pure_ok.mp h
    rfl
  | cons v vs ih =>
    obtain ⟨t, ts, hv, hrest, rfl⟩ := List.forall₂_cons_left_iff.mp hvs
    obtain ⟨d1, hhead, htail⟩ := forM_cons_ok.mp h
    have hforest := ((aside_noteIvar scope v).2 hhead).1
    have hfilter : (t :: ts).filterMap Tree.ivar? = t.ivar?.toList ++ ts.filterMap Tree.ivar? := by
      cases hi : t.ivar? <;> simp [hi]
    rw [ih (hforest ▸ hrest) htail, noteIvar_classes hv hhead, hfilter, List.map_append,
      Table.after_append]

theorem aside_scanning (id : Int) (n : Node) : PassM.Aside (scanning scope id n) :=
  (PassM.Aside.forM (aside_noteIvar scope) n.args).bind fun _ => aside_pure _

/-- The instance variables of a tree have been noted. -/
def Scanned (scope : Scope) (c : Context) (t : Tree Mark) (d : Context) (_ : Tree Mark) : Prop :=
  d.classes = c.classes.after (t.ivars.map (.ivar scope))

theorem scanned_each (h : Threads (Scanned scope) c ts d ts') :
    d.classes = c.classes.after ((Tree.ivarsEach ts).map (.ivar scope)) := by
  induction h with
  | nil => rfl
  | cons head _ ih => rw [ih, head, Tree.ivarsEach, List.map_append, Table.after_append]

theorem scanning_rewrites :
    Rewrites (scanning scope) (Scanned scope) fun _ => False where
  leaf _ _ := rfl
  ok {U c v mark tag args n act c1} hh hn h := by
    have hargs := (hh.stored hn).2.2
    obtain ⟨hforest, hshared⟩ := (aside_scanning mark.id n).2 h
    obtain ⟨_, hnotes, rfl⟩ := bind_pure_ok.mp h
    refine ⟨tag, args, (Reworks.refl hh).congr hforest hshared, .inr ⟨rfl, fun _ _ h => h.elim,
      fun c' args' hthreads => ?_⟩⟩
    rw [Scanned, scanned_each hthreads, noteEach_classes hargs.denotes hnotes, Tree.ivars,
      List.map_append, Table.after_append]
  refused hh hn h he := absurd ((aside_scanning _ _).1 _ _ _ h) he

theorem scanIvars_tells (hh : Bears U c [v] [t]) :
    Tells (scanIvars scope v)
      (fun _ => { changes := (t.ivar?.toList ++ t.ivars).map (.ivar scope) }) c := by
  refine tells_of_quiet (aside_scanIvars scope v).1 rfl fun u d h => ?_
  have hv := (List.forall₂_cons.mp hh.denotes).1
  unfold scanIvars at h
  cases hchild : v.child? with
  | none =>
    simp only [hchild] at h
    have hivars : t.ivars = [] := by
      cases t with
      | leaf a => rfl
      | node mark tag args =>
        rw [Operand.view_eq_child.mp (denotes_node.mp hv).1] at hchild
        cases hchild
    rw [noteIvar_classes hv h, hivars, List.append_nil]
  | some id =>
    simp only [hchild] at h
    obtain ⟨b, h⟩ := discard_ok.mp h
    obtain ⟨t', -, hscanned⟩ := (scanning_rewrites.walk hh hchild).1 b d h
    obtain ⟨mark, tag, args, rfl, rfl⟩ := hh.child hchild
    rw [hscanned]
    rfl

theorem defineReader_classes {name : Text} (h : defineReader scope pos name d = .ok v c) :
    c.classes = d.classes.addMethod scope name := by
  obtain ⟨_, c1, htable, h⟩ := bind_ok.mp h
  obtain ⟨params, c2, hparams, h⟩ := bind_ok.mp h
  obtain ⟨body, c3, hbody, h⟩ := bind_ok.mp h
  obtain ⟨-, rfl⟩ := node_ok.mp h
  obtain ⟨-, rfl⟩ := list_ok.mp hbody
  obtain ⟨-, rfl⟩ := list_ok.mp hparams
  cases htable
  rfl

theorem defineWriter_classes {name : Text} (h : defineWriter scope pos name d = .ok v c) :
    c.classes = d.classes.addMethod scope (name ++ "=") := by
  obtain ⟨_, c1, htable, h⟩ := bind_ok.mp h
  obtain ⟨assign, c2, hassign, h⟩ := bind_ok.mp h
  obtain ⟨params, c3, hparams, h⟩ := bind_ok.mp h
  obtain ⟨body, c4, hbody, h⟩ := bind_ok.mp h
  obtain ⟨-, rfl⟩ := node_ok.mp h
  obtain ⟨-, rfl⟩ := list_ok.mp hbody
  obtain ⟨-, rfl⟩ := list_ok.mp hparams
  obtain ⟨-, rfl⟩ := node_ok.mp hassign
  cases htable
  rfl

theorem define_classes (h : define wanted scope pos symbol d = .ok vs c) :
    c.classes = d.classes.after (Change.attribute scope wanted symbol) := by
  obtain ⟨_, c1, htable, h⟩ := bind_ok.mp h
  cases htable
  unfold Change.attribute
  cases hr : wanted.reader <;> cases hw : wanted.writer <;>
    simp only [hr, hw, Bool.false_eq_true, if_true, if_false, pure_bind] at h ⊢
  · obtain ⟨-, rfl⟩ := pure_ok.mp h
    rfl
  · obtain ⟨writer, hwriter, -⟩ := bind_pure_ok.mp h
    exact defineWriter_classes hwriter
  · obtain ⟨reader, hreader, -⟩ := bind_pure_ok.mp h
    exact defineReader_classes hreader
  · obtain ⟨reader, c2, hreader, h⟩ := bind_ok.mp h
    obtain ⟨writer, hwriter, -⟩ := bind_pure_ok.mp h
    rw [defineWriter_classes hwriter, defineReader_classes hreader]
    rfl

theorem defineAll_classes {symbols : List Text}
    (h : symbols.mapM (define wanted scope pos) d = .ok vss c) :
    c.classes = d.classes.after (symbols.flatMap (Change.attribute scope wanted)) := by
  induction symbols generalizing d vss with
  | nil =>
    obtain ⟨-, rfl⟩ := pure_ok.mp h
    rfl
  | cons symbol symbols ih =>
    obtain ⟨vs, d1, vss', hvs, hvss, -⟩ := mapM_cons_ok.mp h
    rw [ih hvss, define_classes hvs, List.flatMap_cons, Table.after_append]

theorem expandAttributes_tells {wanted : Accessors} (hv : Denotes c.forest (n.arg 1) t) (id : Int) :
    Tells (expandAttributes id n wanted scope)
      (fun _ => { changes := t.symbols.flatMap (Change.attribute scope wanted) }) c := by
  have hquiet : Quiet (expandAttributes id n wanted scope) :=
    (quiet_query _).bind fun names =>
      (Quiet.mapM (quiet_define wanted scope n.pos) names).bind fun _ => quiet_reshape _ _ _
  refine tells_of_quiet hquiet rfl fun u d h => ?_
  obtain ⟨names, c1, hnames, h⟩ := bind_ok.mp h
  obtain ⟨hask, rfl⟩ := query_ok.mp hnames
  obtain rfl : t.symbols = names := Except.ok.inj ((symbols_eq hv).symm.trans hask)
  obtain ⟨vss, c2, hdefine, h⟩ := bind_ok.mp h
  obtain ⟨m, -, rfl⟩ := reshape_ok.mp h
  rw [← defineAll_classes hdefine]
  rfl

theorem forM_tells
    (each : ∀ {U c v t}, Bears U c [v] [t] → Tells (build fuel scope v) (t.reading scope) c)
    (hh : Bears U c vs ts) :
    Tells (vs.forM (build fuel scope)) (Reading.inTurn (ts.map Tree.reading) scope) c := by
  induction vs generalizing U c ts with
  | nil =>
    cases hh.denotes
    exact ⟨rfl, rfl⟩
  | cons v vs ih =>
    obtain ⟨t, ts, -, -, rfl⟩ := List.forall₂_cons_left_iff.mp hh.denotes
    refine (each hh.head).bind fun d hd => ?_
    have hkept := retains_build fuel scope hh.head
    unfold Retains at hkept
    rw [hd] at hkept
    obtain ⟨ts', hr⟩ := hkept
    exact ih (hr.tail hh)

theorem build_tells (fuel : Nat) (scope : Scope) (hh : Bears U c [v] [t]) :
    Tells (build fuel scope v) (t.reading scope) c := by
  induction fuel generalizing U c scope v t with
  | zero => exact fun he => absurd trivial he
  | succ fuel ih =>
    unfold build
    cases hx : v.child? with
    | none =>
      have hv := (List.forall₂_cons.mp hh.denotes).1
      cases t with
      | leaf a => exact ⟨rfl, rfl⟩
      | node mark tag args =>
        rw [Operand.view_eq_child.mp (denotes_node.mp hv).1] at hx
        cases hx
    | some id =>
      obtain ⟨mark, tag, args, rfl, rfl⟩ := hh.child hx
      refine tells_after (quiet_fetch _) fun n d hfetch => ?_
      obtain ⟨hn, rfl⟩ := fetch_ok.mp hfetch
      refine ⟨rfl, ?_⟩
      obtain ⟨rfl, -, hargs⟩ := hh.stored hn
      have hfits := malformed?_eq hargs.denotes
      have hobjection : Tree.isChecked n.tag = true →
          n.malformed? = (Tree.objection? n.tag args).map n.diagnostic := by
        intro hchecked
        rw [malformed?_eq hargs.denotes, Tree.objection?, if_pos hchecked]
      have operands : ∀ {d : Context}, d.forest = c.forest → d.shared = c.shared →
          Tells (n.args.forM (build fuel scope)) (Reading.inTurn (args.map Tree.reading) scope) d :=
        fun hf hs => forM_tells (fun h => ih scope h) (hargs.congr hf hs)
      have operand : ∀ {d : Context} (inner : Scope) (i : Nat), d.forest = c.forest →
          d.shared = c.shared → Tells (build fuel inner (n.arg i))
            (((args.map Tree.reading)[i]?.getD Reading.skip) inner) d := by
        intro d inner i hf hs
        have htells := ih inner ((hargs.congr hf hs).arg i).1
        refine htells.congr ?_
        rw [List.getElem?_map]
        cases args[i]? <;> rfl
      rw [Tree.reading_node]
      cases hchecked : Tree.isChecked n.tag with
      | false =>
        have hnone : Tree.objection? n.tag args = none := by simp [Tree.objection?, hchecked]
        rw [hnone]
        change Tells _ (Tree.declaring n.tag args (args.map Tree.reading) scope) c
        cases ht : n.tag <;> simp only [ht, Tree.isChecked, reduceCtorEq] at hchecked ⊢
        case sexp => exact ⟨rfl, rfl⟩
        all_goals exact operands rfl rfl
      | true =>
        have hcheck := hobjection hchecked
        cases ht : n.tag <;> simp only [ht, Tree.isChecked, Bool.false_eq_true] at hchecked ⊢
        all_goals rw [← ht]
        all_goals refine tells_check hcheck fun hn => tells_operandAt ?_
        all_goals rw [ht]
        case defm =>
          rw [text_arg hargs.denotes (.inl ht) hn]
          refine tells_change (.method scope (Tree.nameAt args 0)) ?_
          refine tells_after quiet_get fun a d hget => ?_
          obtain ⟨rfl, rfl⟩ := get_ok.mp hget
          refine ⟨rfl, ?_⟩
          split
          · rename_i hglobal
            exact Tells.congr (operands rfl rfl) (if_pos hglobal)
          · rename_i hnamed
            have hlater :
                Bears U { c with classes := c.classes.addMethod scope (Tree.nameAt args 0) }
                  n.args args := hargs.congr rfl rfl
            exact Tells.congr (tells_operandAt (scanIvars_tells (hlater.arg 2).1)) (if_neg hnamed)
        case call =>
          rw [accessors?_eq, (denotes_operandAt hargs.denotes 0).symbol?]
          change Tells (match Tree.accessors args with
            | some wanted => expandAttributes mark.id n wanted scope
            | none => n.args.forM (build fuel scope)) _ c
          cases haccessors : Tree.accessors args with
          | some wanted =>
            exact (expandAttributes_tells (denotes_operandAt hargs.denotes 1) mark.id).congr
              (by simp only [Tree.declaring, haccessors])
          | none => exact (operands rfl rfl).congr (by simp only [Tree.declaring, haccessors])
        case classDef =>
          rw [text_arg hargs.denotes (.inr (.inl ht)) hn, superName,
            (denotes_operandAt hargs.denotes 1).symbol?]
          exact tells_openClass fun d hf hs => operand (.named (Tree.nameAt args 0)) 2 hf hs
        case moduleDef =>
          rw [text_arg hargs.denotes (.inr (.inr ht)) hn]
          refine tells_after quiet_get fun a d hget => ?_
          obtain ⟨rfl, rfl⟩ := get_ok.mp hget
          exact ⟨rfl, tells_openClass fun d hf hs => operand (.named (Tree.nameAt args 0)) 1 hf hs⟩

end Pass.ClassScopes

end Lowering
