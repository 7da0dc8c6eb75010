import Lowering.Diagnostic

namespace Lowering

namespace Operand

variable {v : Operand}

theorem view_eq_sym : v.view = .atom (.sym name) ↔ v.isSymbol = true ∧ v.text = name := by
  unfold view isSymbol
  by_cases h : v.kind = 1
  · simp [h]
  · simp only [h, if_false]
    repeat' split
    all_goals simp

theorem view_eq_str {text : Text} :
    v.view = .atom (.str text) ↔ v.isString = true ∧ v.text = text := by
  unfold view isString
  by_cases h : v.kind = 2
  · simp [h]
  · simp only [h, if_false]
    repeat' split
    all_goals simp

theorem view_eq_int : v.view = .atom (.int value) ↔ v.isInt = true ∧ v.number = value := by
  unfold view isInt
  by_cases h : v.kind = 3
  · simp [h]
  · simp only [h, if_false]
    repeat' split
    all_goals simp

theorem view_eq_child {id : Int} : v.view = .child id ↔ v.child? = some id := by
  unfold view child? isNode
  by_cases h : v.kind = 4
  · simp [h]
  · simp only [h, decide_false, Bool.false_eq_true, if_false]
    repeat' split
    all_goals simp

theorem symbol?_eq_some : v.symbol? = some name ↔ v.view = .atom (.sym name) := by
  rw [view_eq_sym, symbol?]
  cases v.isSymbol <;> simp

theorem child?_of_atom (h : v.view = .atom a) : v.child? = none := by
  cases hc : v.child? with
  | none => rfl
  | some id =>
    rw [view_eq_child.mpr hc] at h
    cases h

theorem view_eq_nil : v.view = .atom .nil ↔ v.isNil = true := by
  unfold view isNil
  by_cases h : v.kind = 0
  · simp [h]
  · simp only [h, if_false]
    repeat' split
    all_goals simp

theorem child?_ref (id : Int) : (ref id).child? = some id := rfl

theorem target_of_child? {id : Int} (h : v.child? = some id) : v.target = id := by
  unfold child? at h
  split at h <;> simp_all

end Operand

theorem Arity.admits_iff {a : Arity} :
    a.admits count = true ↔ a.least ≤ count ∧ ∀ most, a.most = some most → count ≤ most := by
  unfold admits
  cases a.most <;> simp

theorem Complaint.admits_of_none (ha : Arity.ofTag tag = some a)
    (h : ofOperands tag count isSymbol = none) : a.admits count = true := by
  unfold ofOperands at h
  rw [ha] at h
  cases hc : a.admits count with
  | false => simp [hc] at h
  | true => rfl

/-- A tag without an operand that has to be a name only counts its operands. -/
theorem Complaint.ofOperands_eq_none (ha : Arity.ofTag tag = some a)
    (ht : tag ∉ [.callm, .defm, .defun, .classDef, .moduleDef]) :
    ofOperands tag count isSymbol = none ↔ a.admits count = true := by
  unfold ofOperands
  rw [ha]
  cases h : a.admits count with
  | false => simp [h]
  | true => cases tag <;> simp_all

/-- Operands that do not fit a tag make a node malformed, and nothing else. -/
theorem Complaint.ofOperands_kind (h : ofOperands tag count isSymbol = some complaint) :
    complaint.kind = .malformed := by
  unfold ofOperands at h
  repeat' split at h
  all_goals cases h
  all_goals rfl

namespace Node

variable {n : Node}

theorem malformed?_kind (h : n.malformed? = some d) : d.complaint.kind = .malformed := by
  obtain ⟨complaint, hc, rfl⟩ := Option.map_eq_some_iff.mp h
  exact Complaint.ofOperands_kind hc

/-- A form whose operands are only counted is well-formed if the count is admitted. -/
theorem malformed?_eq_none (ha : Arity.ofTag n.tag = some a)
    (ht : n.tag ∉ [.callm, .defm, .defun, .classDef, .moduleDef]) :
    n.malformed? = none ↔ a.admits n.args.length = true := by
  rw [malformed?, Option.map_eq_none_iff, Complaint.ofOperands_eq_none ha ht]

theorem malformed?_defined (ht : n.tag = .defm ∨ n.tag = .defun) (h : n.malformed? = none) :
    n.args.length = 3 := by
  have ha : Arity.ofTag n.tag = some (.exactly 3) := by
    obtain ht | ht := ht <;> rw [ht] <;> rfl
  rw [malformed?, Option.map_eq_none_iff] at h
  obtain ⟨hlo, hhi⟩ := Arity.admits_iff.mp (Complaint.admits_of_none ha h)
  exact Nat.le_antisymm (hhi 3 rfl) hlo

theorem malformed?_assign (ht : n.tag = .assign) : n.malformed? = none ↔ n.args.length = 2 := by
  rw [malformed?_eq_none (a := .exactly 2) (by simp [ht, Arity.ofTag]) (by simp [ht]),
    Arity.admits_iff]
  constructor
  · exact fun ⟨hlo, hhi⟩ => Nat.le_antisymm (hhi 2 rfl) hlo
  · intro h
    simp [Arity.exactly, h]

theorem malformed?_call (ht : n.tag = .call) :
    n.malformed? = none ↔ 1 ≤ n.args.length ∧ n.args.length ≤ 3 := by
  rw [malformed?_eq_none (a := .between 1 3) (by simp [ht, Arity.ofTag]) (by simp [ht]),
    Arity.admits_iff]
  simp [Arity.between]

theorem malformed?_closure (ht : n.tag.isClosure = true) :
    n.malformed? = none ↔ n.args.length ≤ 2 := by
  have harity : Arity.ofTag n.tag = some (.between 0 2) := by
    cases h : n.tag <;> simp_all [Tag.isClosure, Arity.ofTag]
  have hother : n.tag ∉ [.callm, .defm, .defun, .classDef, .moduleDef] := by
    intro h
    cases ht' : n.tag <;> simp_all [Tag.isClosure]
  rw [malformed?_eq_none harity hother, Arity.admits_iff]
  simp [Arity.between]

theorem malformed?_concat (ht : n.tag = .concat) : n.malformed? = none ↔ 1 ≤ n.args.length := by
  rw [malformed?_eq_none (a := .atLeast 1) (by simp [ht, Arity.ofTag]) (by simp [ht]),
    Arity.admits_iff]
  simp [Arity.atLeast]

theorem malformed?_operator {o : Operator} (ht : n.tag = .op o) :
    n.malformed? = none ↔ 1 ≤ n.args.length ∧ n.args.length ≤ 2 := by
  rw [malformed?_eq_none (a := .between 1 2) (by simp [ht, Arity.ofTag]) (by simp [ht]),
    Arity.admits_iff]
  simp [Arity.between]

theorem args_operator {o : Operator} (ht : n.tag = .op o) (h : n.malformed? = none) :
    (∃ left, n.args = [left]) ∨ ∃ left right, n.args = [left, right] := by
  obtain ⟨hpos, hle⟩ := (malformed?_operator ht).mp h
  rcases hargs : n.args with _ | ⟨left, _ | ⟨right, _ | ⟨_, _⟩⟩⟩ <;> simp [hargs] at hpos hle ⊢

end Node

end Lowering
