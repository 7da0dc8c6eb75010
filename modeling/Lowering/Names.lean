import Lowering.Text.Basic

namespace Lowering.Names

/-- One more name at the end, unless it is there. -/
def add (names : List Text) (name : Text) : List Text :=
  if names.contains name then names else names ++ [name]

theorem mem_add {names : List Text} {name other : Text} :
    other ∈ add names name ↔ other ∈ names ∨ other = name := by
  unfold add
  split
  · rename_i h
    have hm : name ∈ names := by simpa using h
    constructor
    · exact Or.inl
    · rintro (h | rfl) <;> assumption
  · simp

theorem nodup_add {names : List Text} {name : Text} (h : names.Nodup) : (add names name).Nodup := by
  unfold add
  split
  · exact h
  · rename_i hn
    have hm : name ∉ names := by simpa using hn
    rw [List.nodup_append]
    refine ⟨h, by simp, ?_⟩
    intro a ha b hb
    have hb : b = name := by simpa using hb
    subst hb
    exact fun he => hm (he ▸ ha)

theorem prefix_add (names : List Text) (name : Text) : names <+: add names name := by
  unfold add
  split
  · exact List.prefix_refl names
  · exact List.prefix_append names [name]

theorem prefix_foldl_add (acc names : List Text) : acc <+: names.foldl add acc := by
  induction names generalizing acc with
  | nil => exact List.prefix_refl acc
  | cons name names ih => exact (prefix_add acc name).trans (ih (add acc name))

theorem nodup_foldl_add {acc : List Text} (names : List Text) (h : acc.Nodup) :
    (names.foldl add acc).Nodup := by
  induction names generalizing acc with
  | nil => exact h
  | cons name names ih => exact ih (nodup_add h)

theorem foldl_add_of_nodup {names acc : List Text} (h : (acc ++ names).Nodup) :
    names.foldl add acc = acc ++ names := by
  induction names generalizing acc with
  | nil => simp
  | cons x names ih =>
    have hx : x ∉ acc := fun hx => (List.nodup_append.mp h).2.2 x hx x (by simp) rfl
    rw [List.foldl_cons, add, if_neg (by simpa using hx), ih (by simpa using h)]
    simp

/-- Adding names one after the other keeps the first of each. -/
theorem foldl_add_nil (names : List Text) : names.foldl add [] = names.eraseDups := by
  have hstep : ∀ (rest acc : List Text), rest.foldl add acc =
      acc ++ (rest.filter fun x => !acc.contains x).eraseDups := by
    intro rest
    induction rest with
    | nil => simp
    | cons x rest ih =>
      intro acc
      rw [List.foldl_cons, ih, add]
      by_cases hx : x ∈ acc
      · simp [hx]
      · have hfilter : (rest.filter fun y => !acc.contains y).filter (fun y => !y == x) =
            rest.filter fun y => !(acc ++ [x]).contains y := by
          rw [List.filter_filter]
          congr 1
          funext y
          by_cases hy : y = x <;> simp [hy]
        simp only [List.contains_eq_mem, hx, decide_false, Bool.false_eq_true, if_false,
          List.filter_cons, Bool.not_false, if_true, List.eraseDups_cons, List.append_assoc,
          List.singleton_append] at hfilter ⊢
        rw [hfilter]
  have hall : (names.filter fun x => !([] : List Text).contains x) = names :=
    List.filter_eq_self.mpr (by simp)
  rw [hstep, hall, List.nil_append]

end Lowering.Names
