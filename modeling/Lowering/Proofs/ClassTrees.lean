import Lowering.Pass.ClassScopes
import Lowering.Proofs.KeptTrees

namespace Lowering.Pass.ClassScopes

open Forest PassM Classes

variable {U : Int → Prop} {c c1 c' : Context} {v : Operand} {vs : List Operand}
variable {t : Tree Mark} {ts args : List (Tree Mark)} {mark : Mark} {n : Node} {u : Unit}

theorem changeTable_ok (h : changeTable change c = .ok u c') :
    c'.forest = c.forest ∧ c'.shared = c.shared := by
  obtain rfl := modify_ok.mp h
  exact ⟨rfl, rfl⟩

theorem aside_changeTable (change : Table → Table) : PassM.Aside (changeTable change) :=
  ⟨quiet_modify _, changeTable_ok⟩

theorem aside_noteIvar (scope : Scope) (v : Operand) : PassM.Aside (noteIvar scope v) := by
  unfold noteIvar
  split
  · exact aside_changeTable _
  · exact aside_pure _

theorem aside_scanIvars (scope : Scope) (v : Operand) : PassM.Aside (scanIvars scope v) := by
  unfold scanIvars
  split
  · exact aside_noteIvar scope v
  · refine (aside_walk (fun id n => ?_) _).bind fun _ => aside_pure _
    exact (PassM.Aside.forM (aside_noteIvar scope) n.args).bind fun _ => aside_pure _

theorem changeTable_makes (h : changeTable change c = .ok u c') : Makes c [] c' [] [] :=
  (Makes.keep .nil).congr (changeTable_ok h).1 (changeTable_ok h).2

/-- A method that reads a variable is a new tree. -/
theorem defineReader_makes {name : Text} (h : defineReader scope pos name c = .ok v c') :
    ∃ t, Makes c [] c' [v] [t] := by
  obtain ⟨_, c1, htable, h⟩ := bind_ok.mp h
  obtain ⟨params, c2, hparams, h⟩ := bind_ok.mp h
  obtain ⟨body, c3, hbody, h⟩ := bind_ok.mp h
  have hlist := (Makes.keep .nil).list hparams
  have hname := (Makes.sym c2 ("@" ++ name)).list hbody
  exact ⟨_, (changeTable_makes htable).append
    (((Makes.sym c1 name).append (hlist.append hname)).node h)⟩

theorem defineWriter_makes {name : Text} (h : defineWriter scope pos name c = .ok v c') :
    ∃ t, Makes c [] c' [v] [t] := by
  obtain ⟨_, c1, htable, h⟩ := bind_ok.mp h
  obtain ⟨assign, c2, hassign, h⟩ := bind_ok.mp h
  obtain ⟨params, c3, hparams, h⟩ := bind_ok.mp h
  obtain ⟨body, c4, hbody, h⟩ := bind_ok.mp h
  have hstore := ((Makes.sym c1 ("@" ++ name)).append (Makes.sym c1 "value")).node hassign
  have hlist := (Makes.sym c2 "value").list hparams
  -- The assignment is made before the list of parameters that goes before it.
  have hboth := ((hstore.append hlist).swap rfl).nodeOver rfl hbody
  exact ⟨_, (changeTable_makes htable).append
    (((Makes.sym c1 (name ++ "=")).append hboth).node h)⟩

theorem define_makes (h : define wanted scope pos symbol c = .ok vs c') :
    ∃ ts, Makes c [] c' vs ts := by
  obtain ⟨_, c1, htable, h⟩ := bind_ok.mp h
  have htable := changeTable_makes htable
  cases hr : wanted.reader <;> cases hw : wanted.writer <;>
    simp only [hr, hw, Bool.false_eq_true, if_true, if_false, pure_bind] at h
  · obtain ⟨rfl, rfl⟩ := pure_ok.mp h
    exact ⟨[], htable⟩
  · obtain ⟨writer, hwriter, rfl⟩ := bind_pure_ok.mp h
    obtain ⟨t, ht⟩ := defineWriter_makes hwriter
    exact ⟨[t], htable.append ht⟩
  · obtain ⟨reader, hreader, rfl⟩ := bind_pure_ok.mp h
    obtain ⟨t, ht⟩ := defineReader_makes hreader
    exact ⟨[t], htable.append ht⟩
  · obtain ⟨reader, c2, hreader, h⟩ := bind_ok.mp h
    obtain ⟨writer, hwriter, rfl⟩ := bind_pure_ok.mp h
    obtain ⟨t, ht⟩ := defineReader_makes hreader
    obtain ⟨s, hs⟩ := defineWriter_makes hwriter
    exact ⟨[t, s], htable.append (ht.append hs)⟩

/-- The methods for some attributes are new trees. -/
theorem defineAll_makes {symbols : List Text}
    (h : symbols.mapM (define wanted scope pos) c = .ok vss c') :
    ∃ ts, Makes c [] c' vss.flatten ts := by
  induction symbols generalizing c vss with
  | nil =>
    obtain ⟨rfl, rfl⟩ := pure_ok.mp h
    exact ⟨[], .keep .nil⟩
  | cons symbol symbols ih =>
    obtain ⟨vs, d, vss', hvs, hvss, rfl⟩ := mapM_cons_ok.mp h
    obtain ⟨ts, hts⟩ := define_makes hvs
    obtain ⟨us, hus⟩ := ih hvss
    exact ⟨ts ++ us, hts.append hus⟩

theorem quiet_define (wanted : Accessors) (scope : Scope) (pos : Position) (symbol : Text) :
    Quiet (define wanted scope pos symbol) := by
  have hreader : Quiet (defineReader scope pos (symbol.dropStart ":")) :=
    (quiet_modify _).bind fun _ => (quiet_list _ _).bind fun _ => (quiet_list _ _).bind fun _ =>
      quiet_node _ _ _
  have hwriter : Quiet (defineWriter scope pos (symbol.dropStart ":")) :=
    (quiet_modify _).bind fun _ => (quiet_node _ _ _).bind fun _ => (quiet_list _ _).bind fun _ =>
      (quiet_list _ _).bind fun _ => quiet_node _ _ _
  unfold define
  refine (quiet_modify _).bind fun _ => ?_
  cases wanted.reader <;> cases wanted.writer <;>
    simp only [Bool.false_eq_true, if_true, if_false, pure_bind]
  · exact quiet_pure _
  · exact hwriter.bind fun _ => quiet_pure _
  · exact hreader.bind fun _ => quiet_pure _
  · exact hreader.bind fun _ => hwriter.bind fun _ => quiet_pure _

theorem retains_expandAttributes {wanted : Accessors} {scope : Scope} {tag : Tag}
    (hh : Bears U c [v] [.node mark tag args]) :
    Retains U [v] [.node mark tag args] (expandAttributes mark.id n wanted scope) c := by
  unfold expandAttributes
  refine .aside (aside_query _) hh fun names d _ hf hd => ?_
  refine Concludes.bind (P := fun vss e => ∃ ts, Makes d [] e vss.flatten ts)
    ((Quiet.mapM (quiet_define wanted scope n.pos) names).outcome fun _ _ => defineAll_makes)
    fun vss e _ ⟨ts, hts⟩ => ?_
  refine (quiet_reshape _ _ _).outcome fun _ e' hshape => ?_
  obtain ⟨-, -, -, m, -, -, -, hargs⟩ := hd.node
  exact (reshape_reworks hd (hts.reworks hargs (List.nil_subperm)) hshape).kept

theorem retains_openClass {g : Unit → PassM Unit} {name : Text} (hh : Bears U c vs ts)
    (hg : ∀ d, d.forest = c.forest → Bears U d vs ts → Retains U vs ts (g ⟨⟩) d) :
    Retains U vs ts (openClass kind name scope super >>= g) c := by
  unfold openClass
  rw [bind_assoc]
  refine .aside aside_get hh fun _ d _ hf hd => ?_
  split
  · exact .aside (aside_changeTable _) hd fun _ e _ hf' he => hg e (hf'.trans hf) he
  · exact fun _ => hd.kept

/-- Going through a tree for its classes keeps it. -/
theorem retains_build (fuel : Nat) (scope : Scope) (hh : Bears U c [v] [t]) :
    Retains U [v] [t] (build fuel scope v) c := by
  induction fuel generalizing U c scope v t with
  | zero => exact (quiet_throw _).outcome fun _ _ h => absurd h throw_ok
  | succ fuel ih =>
    unfold build
    cases hx : v.child? with
    | none => exact retains_pure hh _
    | some id =>
      obtain ⟨mark, tag, args, rfl, rfl⟩ := hh.child hx
      refine .aside (aside_fetch _) hh fun n d hfetch _ hh => ?_
      obtain ⟨hn, rfl⟩ := fetch_ok.mp hfetch
      have operands : ∀ {d scope}, d.forest = c.forest → Bears U d [v] [.node mark tag args] →
          Retains U [v] [.node mark tag args] (n.args.forM (build fuel scope)) d := by
        intro d scope hf hd
        obtain ⟨-, -, -, m, hm, -, -, hargs⟩ := hd.node
        obtain rfl : n = m := Option.mem_unique hn (hf ▸ hm)
        exact .below hd hm (retains_forM (fun h => ih _ h) hargs)
      have operand : ∀ {d scope}, d.forest = c.forest → Bears U d [v] [.node mark tag args] →
          ∀ i, Retains U [v] [.node mark tag args] (build fuel scope (n.arg i)) d := by
        intro d scope hf hd i
        have hin := hd.inside_arg (hf ▸ hn) i
        exact hin.retains (ih scope hin.bears)
      cases ht : n.tag <;> simp only []
      case sexp => exact retains_pure hh _
      case defm =>
        refine .check hh fun _ => ?_
        refine .aside (aside_operandAt _ _) hh fun name d _ hf hd => ?_
        refine .aside (aside_changeTable _) hd fun _ e _ hf' he => ?_
        refine .aside aside_get he fun _ e' _ hf'' he' => ?_
        have hforest := (hf''.trans hf').trans hf
        split
        · exact operands hforest he'
        · exact ((aside_operandAt n 2).bind fun body => aside_scanIvars scope body).retains he'
      case call =>
        refine .check hh fun _ => ?_
        refine .aside (aside_operandAt _ _) hh fun function d _ hf hd => ?_
        split
        · exact retains_expandAttributes hd
        · exact operands hf hd
      case classDef =>
        refine .check hh fun _ => ?_
        refine .aside (aside_operandAt _ _) hh fun name d _ hf hd => ?_
        exact retains_openClass hd fun e hf' he => operand (hf'.trans hf) he 2
      case moduleDef =>
        refine .check hh fun _ => ?_
        refine .aside (aside_operandAt _ _) hh fun name d _ hf hd => ?_
        refine .aside aside_get hd fun _ e _ hf' he => ?_
        exact retains_openClass he fun e' hf'' he' => operand ((hf''.trans hf').trans hf) he' 1
      all_goals exact operands rfl hh

end Lowering.Pass.ClassScopes
