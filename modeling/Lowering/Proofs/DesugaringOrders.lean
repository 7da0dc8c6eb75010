import Lowering.Proofs.Desugarings

namespace Lowering

open Forest PassM

namespace Tree

variable {bad : Tag → List (Tree Unit) → Prop} {tag : Tag} {es : List (Tree Unit)}

/-- Some node outside lowered code is bad. -/
inductive Flawed (bad : Tag → List (Tree Unit) → Prop) : Tree Unit → Prop where
  | here {tag : Tag} {es : List (Tree Unit)} (isBad : bad tag es) : Flawed bad (.node () tag es)
  | under {tag : Tag} {es : List (Tree Unit)} {e : Tree Unit} (outside : tag ≠ .sexp) (mem : e ∈ es)
      (flawed : Flawed bad e) : Flawed bad (.node () tag es)

@[simp] theorem not_flawed_leaf (a : Atom) : ¬ Flawed bad (.leaf a) := nofun

theorem flawed_node : Flawed bad (.node () tag es) ↔
    bad tag es ∨ tag ≠ .sexp ∧ ∃ e ∈ es, Flawed bad e := by
  constructor
  · rintro (isBad | ⟨outside, mem, flawed⟩)
    · exact .inl isBad
    · exact .inr ⟨outside, _, mem, flawed⟩
  · rintro (isBad | ⟨outside, e, mem, flawed⟩)
    · exact .here isBad
    · exact .under outside mem flawed

theorem refused_iff (h : ∀ tag args, faulty tag args ↔ bad tag (args.map shape)) (t : Tree Mark) :
    t.Refused faulty ↔ Flawed bad t.shape := by
  induction t with
  | leaf a => simp [not_refused_leaf, shape]
  | node mark tag args ih =>
    rw [refused_node, shape_node, flawed_node, h]
    refine or_congr_right (and_congr_right fun _ => ?_)
    simp only [List.mem_map, exists_exists_and_eq_and]
    exact exists_congr fun t => and_congr_right fun ht => ih t ht

end Tree

namespace Pass

variable {p q : Pass} {tag : Tag} {es : List (Tree Unit)} {g : Tree Unit → Tree Unit}
variable {bad : Tag → List (Tree Unit) → Prop}

/-- The pass that expands a form. -/
def owner? : Tag → Option Pass
  | .assign => some destruct
  | .concat => some concat
  | .range => some range
  | .op _ => some operators
  | .yield | .call => some yield
  | _ => none

theorem owner?_inv (h : owner? tag = some p) :
    p = destruct ∧ tag = .assign ∨ p = concat ∧ tag = .concat ∨ p = range ∧ tag = .range ∨
      p = operators ∧ (∃ o, tag = .op o) ∨ p = yield ∧ (tag = .yield ∨ tag = .call) := by
  unfold owner? at h
  split at h <;> cases h <;> simp

/-- A function on trees that leaves alone the forms of a pass and what they are put into. -/
structure Elsewhere (p : Pass) (g : Tree Unit → Tree Unit) : Prop where
  leaf : ∀ a, g (.leaf a) = .leaf a
  node : ∀ {tag}, tag ≠ .sexp → owner? tag = some p ∨ owner? tag = none →
    ∀ es, g (.node () tag es) = .node () tag (es.map g)
  head : ∀ tag es, ∃ tag' es', g (.node () tag es) = .node () tag' es' ∧
    (tag' = .destruct → tag = .destruct)

/-- Where one looks for no form of a pass and nothing that they are put into. -/
def Foreign (p : Pass) (bad : Tag → List (Tree Unit) → Prop) : Prop :=
  ∀ {tag es}, bad tag es → owner? tag ≠ some p ∧ owner? tag ≠ none

/-- What a pass makes of its forms, and which ones it refuses, apart from other passes. -/
structure WorksApart (p : Pass) (make : Tag → List (Tree Unit) → Tree Unit)
    (Faulty : Tag → List (Tree Mark) → Prop) (Bad : Tag → List (Tree Unit) → Prop) : Prop where
  agrees : ∀ tag args, Faulty tag args ↔ Bad tag (args.map Tree.shape)
  owns : ∀ {tag es}, Bad tag es → owner? tag = some p
  plain : ∀ {tag} es, owner? tag ≠ some p → make tag es = .node () tag es
  head : ∀ {tag} es, owner? tag = some p → ∃ tag' es', make tag es = .node () tag' es' ∧
    tag' ≠ .destruct
  keeps : ∀ {g} tag es, Elsewhere p g → (Bad tag (es.map g) ↔ Bad tag es)
  moves : ∀ {g tag} es, Elsewhere p g → owner? tag = some p → g (make tag es) = make tag (es.map g)
  flawed : ∀ {bad tag} es, Foreign p bad → owner? tag = some p →
    (Tree.Flawed bad (make tag es) ↔ ∃ e ∈ es, Tree.Flawed bad e)

theorem Elsewhere.symbol? (h : Elsewhere p g) (e : Tree Unit) : (g e).symbol? = e.symbol? := by
  cases e with
  | leaf a => rw [h.leaf]
  | node u tag es =>
    obtain ⟨tag', es', heq, -⟩ := h.head tag es
    rw [heq]
    rfl

theorem miscounted_map (tag : Tag) (g : Tree α → Tree β) (ts : List (Tree α)) :
    Miscounted tag (ts.map g) ↔ Miscounted tag ts := by
  simp [Miscounted]

theorem Foreign.node (h : Foreign p bad) (hs : tag ≠ .sexp)
    (ht : owner? tag = some p ∨ owner? tag = none) :
    Tree.Flawed bad (.node () tag es) ↔ ∃ e ∈ es, Tree.Flawed bad e := by
  rw [Tree.flawed_node, or_iff_right fun hbad => ?_, and_iff_right hs]
  exact ht.elim (h hbad).1 (h hbad).2

theorem Range.apart : WorksApart range make Faulty Faulty where
  agrees tag args := by simp [Faulty, miscounted_map]
  owns h := by rw [h.1]; rfl
  plain {tag} es h := by
    unfold make
    split
    · exact absurd rfl h
    · rfl
  head {tag} es h := by
    unfold make
    split
    · exact ⟨_, _, rfl, by simp⟩
    · exact ⟨_, _, rfl, by rintro rfl; cases h⟩
  keeps es tag h := by simp [Faulty, miscounted_map]
  moves {g tag} es h ht := by
    obtain rfl : tag = .range := by simpa using owner?_inv ht
    simp [make, h.node, owner?, h.leaf]
  flawed {bad tag} es hbad ht := by
    obtain rfl : tag = .range := by simpa using owner?_inv ht
    simp [make, hbad.node, owner?]

theorem Operators.apart : WorksApart operators make Faulty Faulty where
  agrees tag args := by simp [Faulty, miscounted_map]
  owns {tag es} h := by
    obtain ⟨h, -⟩ := h
    cases tag <;> simp_all [Tag.isOperator, owner?]
  plain {tag} es h := by
    unfold make
    split
    · exact absurd rfl h
    · exact absurd rfl h
    · rfl
  head {tag} es h := by
    unfold make
    split
    · exact ⟨_, _, rfl, by simp⟩
    · exact ⟨_, _, rfl, by simp⟩
    · exact ⟨_, _, rfl, by rintro rfl; cases h⟩
  keeps es tag h := by simp [Faulty, miscounted_map]
  moves {g tag} es h ht := by
    obtain ⟨o, rfl⟩ : ∃ o, tag = .op o := by simpa using owner?_inv ht
    rcases es with _ | ⟨e, _ | ⟨e', _ | ⟨e'', es⟩⟩⟩
    case nil | cons.cons.cons => exact h.node (by simp) (.inl rfl) _
    all_goals simp [make, h.node, owner?, h.leaf]
  flawed {bad tag} es hbad ht := by
    obtain ⟨o, rfl⟩ : ∃ o, tag = .op o := by simpa using owner?_inv ht
    rcases es with _ | ⟨e, _ | ⟨e', _ | ⟨e'', es⟩⟩⟩
    case nil | cons.cons.cons => exact hbad.node (by simp) (.inl rfl)
    all_goals simp [make, hbad.node, owner?]

theorem Yield.apart : WorksApart yield make Faulty Faulty where
  agrees tag args := by simp [Faulty, miscounted_map]
  owns h := by rw [h.1]; rfl
  plain {tag} es h := by
    unfold make
    split <;> first | rfl | exact absurd rfl h
  head {tag} es h := by
    unfold make
    split
    · exact ⟨_, _, rfl, by simp⟩
    · exact ⟨_, _, rfl, by simp⟩
    · split
      · exact ⟨_, _, rfl, by simp⟩
      · exact ⟨_, _, rfl, by simp⟩
    · exact ⟨_, _, rfl, by rintro rfl; cases h⟩
  keeps es tag h := by simp [Faulty, miscounted_map]
  moves {g tag} es h ht := by
    obtain rfl | rfl : tag = .yield ∨ tag = .call := by simpa using owner?_inv ht
    · cases es <;> simp [make, h.node, owner?, h.leaf]
    · cases es with
      | nil => exact h.node (by simp) (.inl rfl) _
      | cons f es =>
        simp only [make, List.map_cons, h.symbol?]
        split
        · simp [h.node, owner?, h.leaf]
        · exact h.node (by simp) (.inl rfl) _
  flawed {bad tag} es hbad ht := by
    obtain rfl | rfl : tag = .yield ∨ tag = .call := by simpa using owner?_inv ht
    · cases es <;> simp [make, hbad.node, owner?]
    · cases es with
      | nil => exact hbad.node (by simp) (.inl rfl)
      | cons f es =>
        simp only [make]
        split
        · rename_i hf
          have : ¬ Tree.Flawed bad f := by
            cases f with
            | leaf a => exact Tree.not_flawed_leaf a
            | node u tag es => cases hf
          simp [hbad.node, owner?, this]
        · exact hbad.node (by simp) (.inl rfl)

theorem Concat.apart : WorksApart concat make Faulty Faulty where
  agrees tag args := by simp [Faulty, miscounted_map]
  owns h := by rw [h.1]; rfl
  plain {tag} es h := by
    unfold make
    split
    · exact absurd rfl h
    · rfl
  head {tag} es h := by
    have hjoin : ∀ (rest : List (Tree Unit)) left, (∃ es, left = .node () .callm es) →
        ∃ es, rest.foldl join left = .node () .callm es := by
      intro rest
      induction rest with
      | nil => exact fun _ hleft => hleft
      | cons e rest ih => exact fun left _ => ih (join left e) ⟨_, rfl⟩
    unfold make
    split
    · rename_i first rest
      obtain ⟨es', heq⟩ := hjoin rest (text first) ⟨_, rfl⟩
      exact ⟨_, es', heq, by simp⟩
    · exact ⟨_, _, rfl, by rintro rfl; cases h⟩
  keeps es tag h := by simp [Faulty, miscounted_map]
  moves {g tag} es h ht := by
    obtain rfl : tag = .concat := by simpa using owner?_inv ht
    cases es with
    | nil => exact h.node (by simp) (.inl rfl) _
    | cons first rest =>
      simp only [make, List.map_cons, List.foldl_map]
      have htext : g (text first) = text (g first) := by simp [text, h.node, owner?, h.leaf]
      rw [← htext]
      refine (List.foldl_hom g fun left part => ?_).symm
      simp [join, text, h.node, owner?, h.leaf]
  flawed {bad tag} es hbad ht := by
    obtain rfl : tag = .concat := by simpa using owner?_inv ht
    cases es with
    | nil => exact hbad.node (by simp) (.inl rfl)
    | cons first rest =>
      have hjoin : ∀ (rest : List (Tree Unit)) left, Tree.Flawed bad (rest.foldl join left) ↔
          Tree.Flawed bad left ∨ ∃ e ∈ rest, Tree.Flawed bad e := by
        intro rest
        induction rest with
        | nil => simp
        | cons e rest ih =>
          intro left
          rw [List.foldl_cons, ih]
          simp [join, text, hbad.node, owner?, or_assoc]
      simp [make, hjoin, text, hbad.node, owner?]

namespace Destruct

/-- Target lists are found again where multiple assignments stay, operand by operand. -/
theorem targetLists_map {α : Type} {g : Tree α → Tree Unit}
    (hd : ∀ mark ts, g (.node mark .destruct ts) = .node () .destruct (ts.map g))
    (ho : ∀ t es, g t = .node () .destruct es → ∃ mark ts, t = .node mark .destruct ts)
    (t : Tree α) : targetLists (g t) = (targetLists t).map (·.map g) := by
  have hother : ∀ t, (∀ mark ts, t ≠ .node mark .destruct ts) →
      targetLists (g t) = (targetLists t).map (·.map g) := by
    intro t hne
    rw [targetLists_plain hne, targetLists_plain fun mark es heq => ?_, List.map_nil]
    obtain ⟨mark', ts, rfl⟩ := ho t es heq
    exact hne mark' ts rfl
  induction t with
  | leaf a => exact hother _ nofun
  | node mark tag args ih =>
    by_cases htag : tag = .destruct
    · subst htag
      rw [hd, targetLists_destruct, targetLists_destruct, List.map_cons, List.flatMap_map,
        List.map_flatMap]
      exact congrArg _ (List.flatMap_congr ih)
    · exact hother _ fun mark' ts heq => htag (by cases heq; rfl)

theorem faulty_map {α : Type} {g : Tree α → Tree Unit}
    (hd : ∀ mark ts, g (.node mark .destruct ts) = .node () .destruct (ts.map g))
    (ho : ∀ t es, g t = .node () .destruct es → ∃ mark ts, t = .node mark .destruct ts) (tag : Tag)
    (ts : List (Tree α)) : Faulty tag (ts.map g) ↔ Faulty tag ts := by
  unfold Faulty
  rw [miscounted_map]
  cases ts with
  | nil => simp
  | cons t ts => simp [targetLists_map hd ho, miscounted_map]

theorem elsewhere_destruct (h : Elsewhere destruct g) :
    (∀ u es, g (.node u .destruct es) = .node () .destruct (es.map g)) ∧
      ∀ e es, g e = .node () .destruct es → ∃ u ts, e = .node u .destruct ts := by
  refine ⟨fun _ => h.node (by simp) (.inr rfl), fun e es heq => ?_⟩
  cases e with
  | leaf a =>
    rw [h.leaf] at heq
    cases heq
  | node u tag ts =>
    obtain ⟨tag', es', hhead, hsame⟩ := h.head tag ts
    rw [hhead] at heq
    cases heq
    exact ⟨u, ts, by rw [hsame rfl]⟩

theorem elsewhere_assignTo (h : Elsewhere destruct g) (target value : Tree Unit) :
    g (assignTo target value) = assignTo (g target) (g value) := by
  obtain ⟨hd, ho⟩ := elsewhere_destruct h
  have hplain : ∀ target value, (∀ u es, target ≠ .node u .destruct es) →
      g (assignTo target value) = assignTo (g target) (g value) := by
    intro target value hne
    rw [assignTo_plain (hne ()), assignTo_plain fun es heq => ?_]
    · simp [h.node, owner?]
    · obtain ⟨u, ts, rfl⟩ := ho target es heq
      exact hne u ts rfl
  induction target generalizing value with
  | leaf a => exact hplain _ _ nofun
  | node u tag args ih =>
    by_cases htag : tag = .destruct
    · subst htag
      have heach : ∀ (args : List (Tree Unit)) i, (∀ t ∈ args, ∀ value,
          g (assignTo t value) = assignTo (g t) (g value)) →
          (assignEach i args).map g = assignEach i (args.map g) := by
        intro args
        induction args with
        | nil => exact fun _ _ => rfl
        | cons t args ihargs =>
          intro i ih
          obtain ⟨hfirst, hrest⟩ := List.forall_mem_cons.mp ih
          have helement : g (element i) = element i := by simp [element, h.node, owner?, h.leaf]
          simp [assignEach, hfirst, helement, ihargs (i + 1) hrest]
      rw [hd]
      simp [assignTo, h.node, owner?, h.leaf, heach args 0 ih]
    · exact hplain _ _ fun u' ts heq => htag (by cases heq; rfl)

theorem flawed_assignTo (h : Foreign destruct bad) (target value : Tree Unit) :
    Tree.Flawed bad (assignTo target value) ↔ Tree.Flawed bad target ∨ Tree.Flawed bad value := by
  have hplain : ∀ target value, (∀ u es, target ≠ .node u .destruct es) →
      (Tree.Flawed bad (assignTo target value) ↔
        Tree.Flawed bad target ∨ Tree.Flawed bad value) := by
    intro target value hne
    rw [assignTo_plain (hne ())]
    simp [h.node, owner?]
  induction target generalizing value with
  | leaf a => exact hplain _ _ nofun
  | node u tag args ih =>
    by_cases htag : tag = .destruct
    · subst htag
      have heach : ∀ (args : List (Tree Unit)) i, (∀ t ∈ args, ∀ value,
          (Tree.Flawed bad (assignTo t value) ↔ Tree.Flawed bad t ∨ Tree.Flawed bad value)) →
          ((∃ e ∈ assignEach i args, Tree.Flawed bad e) ↔ ∃ t ∈ args, Tree.Flawed bad t) := by
        intro args
        induction args with
        | nil => exact fun _ _ => Iff.rfl
        | cons t args ihargs =>
          intro i ih
          obtain ⟨hfirst, hrest⟩ := List.forall_mem_cons.mp ih
          have helement : ¬ Tree.Flawed bad (element i) := by simp [element, h.node, owner?]
          simp only [assignEach, List.exists_mem_cons_iff, hfirst, helement, or_false,
            ihargs (i + 1) hrest]
      simp [assignTo, h.node, owner?, heach args 0 ih, or_comm]
    · exact hplain _ _ fun u' ts heq => htag (by cases heq; rfl)

theorem apart : WorksApart destruct make Faulty Faulty where
  agrees tag args := by
    refine (faulty_map (fun _ _ => Tree.shape_node ..) (fun t es heq => ?_) tag args).symm
    obtain ⟨mark, ts, rfl, -⟩ := Tree.shape_eq_node.mp heq
    exact ⟨mark, ts, rfl⟩
  owns h := by rw [h.1]; rfl
  plain {tag} es h := by
    unfold make
    split
    · exact absurd rfl h
    · rfl
  head {tag} es h := by
    unfold make
    split
    · unfold assignTo
      split
      · exact ⟨_, _, rfl, by simp⟩
      · exact ⟨_, _, rfl, by simp⟩
    · exact ⟨_, _, rfl, by rintro rfl; cases h⟩
  keeps tag es h := faulty_map (elsewhere_destruct h).1 (elsewhere_destruct h).2 tag es
  moves {g tag} es h ht := by
    obtain rfl : tag = .assign := by simpa using owner?_inv ht
    rcases es with _ | ⟨target, _ | ⟨value, _ | ⟨e, es⟩⟩⟩
    case cons.cons.nil => exact elsewhere_assignTo h target value
    all_goals exact h.node (by simp) (.inl rfl) _
  flawed {bad tag} es hbad ht := by
    obtain rfl : tag = .assign := by simpa using owner?_inv ht
    rcases es with _ | ⟨target, _ | ⟨value, _ | ⟨e, es⟩⟩⟩
    case cons.cons.nil => simpa [make] using flawed_assignTo hbad target value
    all_goals exact hbad.node (by simp) (.inl rfl)

end Destruct

theorem worksApart_forms (hp : p.forms? = some forms) :
    ∃ Bad, WorksApart p forms.make forms.Faulty Bad := by
  cases p with
  | destruct =>
    cases hp
    exact ⟨_, Destruct.apart⟩
  | concat =>
    cases hp
    exact ⟨_, Concat.apart⟩
  | range =>
    cases hp
    exact ⟨_, Range.apart⟩
  | operators =>
    cases hp
    exact ⟨_, Operators.apart⟩
  | yield =>
    cases hp
    exact ⟨_, Yield.apart⟩
  | _ => cases hp

section

variable {make make' : Tag → List (Tree Unit) → Tree Unit}
variable {Faulty Faulty' : Tag → List (Tree Mark) → Prop} {Bad Bad' : Tag → List (Tree Unit) → Prop}

/-- A pass does nothing to the forms of another. -/
theorem WorksApart.elsewhere (h : WorksApart q make Faulty Bad) (hpq : p ≠ q) :
    Elsewhere p (Tree.rebuild make) where
  leaf := Tree.rebuild_leaf
  node {tag} hs ht es := by
    rw [Tree.rebuild_node hs, h.plain]
    rcases ht with ht | ht <;> rw [ht]
    · exact fun heq => hpq (Option.some.inj heq)
    · exact nofun
  head tag es := by
    by_cases hs : tag = .sexp
    · subst hs
      exact ⟨.sexp, es, Tree.rebuild_sexp es, by simp⟩
    rw [Tree.rebuild_node hs]
    by_cases ht : owner? tag = some q
    · obtain ⟨tag', es', heq, hne⟩ := h.head (es.map (Tree.rebuild make)) ht
      exact ⟨tag', es', heq, fun hd => absurd hd hne⟩
    · exact ⟨tag, _, h.plain _ ht, id⟩

/-- Two passes that expand forms, one after the other, in either order. -/
theorem WorksApart.rebuild_comm (h : WorksApart p make Faulty Bad)
    (h' : WorksApart q make' Faulty' Bad') (hpq : p ≠ q) (e : Tree Unit) :
    (e.rebuild make).rebuild make' = (e.rebuild make').rebuild make := by
  induction e with
  | leaf a => simp
  | node u tag es ih =>
    by_cases hs : tag = .sexp
    · subst hs
      cases u
      simp only [Tree.rebuild_sexp]
    have hes : (es.map (Tree.rebuild make)).map (Tree.rebuild make') =
        (es.map (Tree.rebuild make')).map (Tree.rebuild make) := by
      simpa using ih
    rw [Tree.rebuild_node hs, Tree.rebuild_node hs]
    by_cases ht : owner? tag = some p
    · rw [h.moves _ (h'.elsewhere hpq) ht, h'.plain _ (by simpa [ht] using hpq),
        Tree.rebuild_node hs, hes]
    by_cases ht' : owner? tag = some q
    · rw [h.plain _ ht, Tree.rebuild_node hs, h'.moves _ (h.elsewhere hpq.symm) ht', hes]
    · rw [h.plain _ ht, h'.plain _ ht', Tree.rebuild_node hs, Tree.rebuild_node hs, h.plain _ ht,
        h'.plain _ ht', hes]

/-- What a pass refuses is not touched by another. -/
theorem WorksApart.flawed_rebuild (h : WorksApart p make Faulty Bad)
    (h' : WorksApart q make' Faulty' Bad')
    (hpq : p ≠ q) (e : Tree Unit) : Tree.Flawed Bad (e.rebuild make') ↔ Tree.Flawed Bad e := by
  induction e with
  | leaf a => simp
  | node u tag es ih =>
    by_cases hs : tag = .sexp
    · subst hs
      rw [Tree.rebuild_sexp]
    have hes : (∃ e ∈ es.map (Tree.rebuild make'), Tree.Flawed Bad e) ↔
        ∃ e ∈ es, Tree.Flawed Bad e := by
      simp only [List.mem_map, exists_exists_and_eq_and]
      exact exists_congr fun e => and_congr_right fun he => ih e he
    rw [Tree.rebuild_node hs, Tree.flawed_node]
    by_cases ht : owner? tag = some q
    · have hforeign : Foreign q Bad := fun hbad => by
        rw [h.owns hbad]
        simpa using hpq
      rw [h'.flawed _ hforeign ht, hes, or_iff_right fun hbad => (hforeign hbad).1 ht,
        and_iff_right hs]
    · rw [h'.plain _ ht, Tree.flawed_node, h.keeps _ _ (h'.elsewhere hpq), hes]

end

/-- What a pass that expands forms makes of a tree; any other makes nothing of it. -/
def expansion (p : Pass) (e : Tree Unit) : Tree Unit :=
  match p.forms? with
  | some forms => e.rebuild forms.make
  | none => e

theorem expansion_comm (p q : Pass) (e : Tree Unit) :
    q.expansion (p.expansion e) = p.expansion (q.expansion e) := by
  by_cases hpq : p = q
  · rw [hpq]
  unfold expansion
  cases hp : p.forms? with
  | none => rfl
  | some forms =>
    cases hq : q.forms? with
    | none => rfl
    | some forms' =>
      obtain ⟨Bad, h⟩ := worksApart_forms hp
      obtain ⟨Bad', h'⟩ := worksApart_forms hq
      exact h.rebuild_comm h' hpq e

/-- A pass refuses a tree. -/
def Refuses (p : Pass) (t : Tree Mark) : Prop :=
  ∃ forms, p.forms? = some forms ∧ t.Refused forms.Faulty

/-- What one pass refuses another neither mends nor makes. -/
theorem refuses_expansion (hpq : p ≠ q) (h : t'.shape = q.expansion t.shape) :
    p.Refuses t' ↔ p.Refuses t := by
  refine exists_congr fun forms => and_congr_right fun hp => ?_
  obtain ⟨Bad, hapart⟩ := worksApart_forms hp
  rw [Tree.refused_iff hapart.agrees, Tree.refused_iff hapart.agrees, h, expansion]
  cases hq : q.forms? with
  | none => exact Iff.rfl
  | some forms' =>
    obtain ⟨Bad', hapart'⟩ := worksApart_forms hq
    exact hapart.flawed_rebuild hapart' hpq t.shape

end Pass

namespace Pipeline

variable {root : Int} {c c' : Context} {U : Int → Prop} {t : Tree Mark} {p : Pass} {ps : List Pass}

/-- One pass that expands forms fails exactly if it refuses the tree, and otherwise expands it. -/
theorem runPass_forms (hp : p.forms? ≠ none) (hc : Ready root c) (hh : Bears U c [.ref root] [t]) :
    ((∃ c', runPass root p c = .ok () c') ↔ ¬ p.Refuses t) ∧
      ∀ c', runPass root p c = .ok () c' → ∃ U t', Bears U c' [.ref root] [t'] ∧
        t'.shape = p.expansion t.shape := by
  obtain ⟨forms, hforms⟩ := Option.ne_none_iff_exists'.mp hp
  obtain ⟨hok, hrefused⟩ := Pass.run_forms hforms hh
  have hsame : p.Refuses t ↔ t.Refused forms.Faulty := by simp [Pass.Refuses, hforms]
  obtain ⟨grade, hgrade, hplain⟩ := hc.orderly.surveyed
  have lands := p.lands hgrade hc.root (hplain root)
  unfold runPass
  cases h : p.run root c with
  | ok u d =>
    obtain ⟨hfine, t', hrework, hshape⟩ := hok u d h
    refine ⟨⟨fun _ => hsame.not.mpr hfine, fun _ => ⟨d, rfl⟩⟩, fun c' heq => ?_⟩
    cases heq
    exact ⟨_, t', hrework.bears, by rw [hshape, Pass.expansion, hforms]⟩
  | error e d =>
    refine ⟨⟨nofun, fun hfine => absurd ?_ hfine⟩, nofun⟩
    obtain ⟨hexcused, -⟩ := lands.error h
    exact hsame.mpr (hrefused e d h hexcused.not_fault)

theorem forM_forms (hps : ∀ p ∈ ps, p.forms? ≠ none) (hd : ps.Nodup) (hc : Ready root c)
    (hh : Bears U c [.ref root] [t]) :
    ((∃ c', ps.forM (runPass root) c = .ok () c') ↔ ∀ p ∈ ps, ¬ p.Refuses t) ∧
      ∀ c', ps.forM (runPass root) c = .ok () c' → ∃ t', c'.forest.tree root = .ok t' ∧
        t'.shape = ps.foldl (fun e p => p.expansion e) t.shape := by
  induction ps generalizing c t U with
  | nil =>
    refine ⟨⟨nofun, fun _ => ⟨c, rfl⟩⟩, fun c' h => ?_⟩
    obtain ⟨-, rfl⟩ := pure_ok.mp h
    obtain ⟨ht, -⟩ := List.forall₂_cons.mp hh.denotes
    exact ⟨t, ht.operandTree (by simpa using hh.nodup), rfl⟩
  | cons p ps ih =>
    obtain ⟨hp, hps⟩ := List.forall_mem_cons.mp hps
    obtain ⟨hnot, hd⟩ := List.nodup_cons.mp hd
    obtain ⟨hiff, hmade⟩ := runPass_forms hp hc hh
    have hnext : ∀ {d}, runPass root p c = .ok () d →
      ∃ t' : Tree Mark, t'.shape = p.expansion t.shape ∧
        ((∃ c', ps.forM (runPass root) d = .ok () c') ↔ ∀ q ∈ ps, ¬ q.Refuses t) ∧
        ∀ c', ps.forM (runPass root) d = .ok () c' → ∃ t'', c'.forest.tree root = .ok t'' ∧
          t''.shape = ps.foldl (fun e p => p.expansion e) t'.shape := by
      intro d hd'
      obtain ⟨U', t', hh', hshape⟩ := hmade d hd'
      have hready : Ready root d := (upright_runPass p).ok hc hd'
      obtain ⟨hrest, hmadeRest⟩ := ih hps hd hready hh'
      refine ⟨t', hshape, hrest.trans (forall₂_congr fun q hq => not_congr ?_), hmadeRest⟩
      exact Pass.refuses_expansion (fun heq : q = p => hnot (heq ▸ hq)) hshape
    constructor
    · simp only [forM_cons_ok, List.forall_mem_cons]
      constructor
      · rintro ⟨c', d, hfirst, hrest⟩
        obtain ⟨-, -, hiffRest, -⟩ := hnext hfirst
        exact ⟨hiff.mp ⟨d, hfirst⟩, hiffRest.mp ⟨c', hrest⟩⟩
      · rintro ⟨hfine, hfineRest⟩
        obtain ⟨d, hfirst⟩ := hiff.mpr hfine
        obtain ⟨-, -, hiffRest, -⟩ := hnext hfirst
        obtain ⟨c', hrest⟩ := hiffRest.mpr hfineRest
        exact ⟨c', d, hfirst, hrest⟩
    · intro c' h
      obtain ⟨d, hfirst, hrest⟩ := forM_cons_ok.mp h
      obtain ⟨t', hshape, -, hmadeRest⟩ := hnext hfirst
      rw [List.foldl_cons, ← hshape]
      exact hmadeRest c' hrest

/-- The passes that do nothing but expand forms. -/
def expanding : List Pass := [.destruct, .concat, .range, .operators, .yield]

/-- On every source the passes that expand forms succeed in any order if they do in one, and leave
the same tree. -/
theorem expanding_commute {file source : Text} {f : Forest} {ps qs : List Pass}
    (hparse : parse file source = .ok (f, root)) (hps : ps.Perm expanding) (hqs : qs.Perm expanding)
    (c : Context) :
    ((∃ c', ps.forM (runPass root) (c.withForest f) = .ok () c') ↔
      ∃ c', qs.forM (runPass root) (c.withForest f) = .ok () c') ∧
    ∀ c1 c2, ps.forM (runPass root) (c.withForest f) = .ok () c1 →
      qs.forM (runPass root) (c.withForest f) = .ok () c2 →
      ∃ t1 t2, c1.forest.tree root = .ok t1 ∧ c2.forest.tree root = .ok t2 ∧
        t1.shape = t2.shape := by
  obtain ⟨t, ht, hd⟩ := parse_tree hparse
  have hh : Bears (· ∈ t.ids) (c.withForest f) [.ref root] [t] := bears_of_denotes rfl ht hd
  have hvalid := valid_of_parse hparse
  have tidy : (c.withForest f).Tidy := ⟨rfl, (parse_grown hparse).ordered.acyclic, hvalid.1⟩
  have hc : Ready root (c.withForest f) := ⟨tidy.orderly, hvalid.2⟩
  have hforms : ∀ p ∈ expanding, p.forms? ≠ none := by simp [expanding, Pass.forms?]
  have hnodup : expanding.Nodup := by decide
  obtain ⟨hiff, hmade⟩ := forM_forms (fun p hp => hforms p (hps.mem_iff.mp hp))
    (hps.nodup_iff.mpr hnodup) hc hh
  obtain ⟨hiff', hmade'⟩ := forM_forms (fun p hp => hforms p (hqs.mem_iff.mp hp))
    (hqs.nodup_iff.mpr hnodup) hc hh
  have hperm := hps.trans hqs.symm
  refine ⟨?_, fun c1 c2 h1 h2 => ?_⟩
  · rw [hiff, hiff']
    exact forall_congr' fun p => by rw [hperm.mem_iff]
  · obtain ⟨t1, ht1, hshape1⟩ := hmade c1 h1
    obtain ⟨t2, ht2, hshape2⟩ := hmade' c2 h2
    refine ⟨t1, t2, ht1, ht2, ?_⟩
    rw [hshape1, hshape2]
    exact hperm.foldl_eq' (fun p _ q _ e => Pass.expansion_comm p q e) t.shape

/-- A multiple assignment of a concatenation over a range and a sum, one of its targets a yield. -/
def mixedForms : Text := "(assign (destruct a (index b (yield 0))) (concat (range 1 2) (+ x 1)))"

theorem expanding_commute_mixedForms : ∃ f root c1 c2 t1 t2,
    parse "t" mixedForms = .ok (f, root) ∧ expanding.reverse.Perm expanding ∧
      expanding.forM (runPass root) ((Context.ofForest f {}).withForest f) = .ok () c1 ∧
      expanding.reverse.forM (runPass root) ((Context.ofForest f {}).withForest f) = .ok () c2 ∧
      c1.forest.tree root = .ok t1 ∧ c2.forest.tree root = .ok t2 ∧ t1.shape = t2.shape := by
  have hrun : testRun "t" mixedForms
      (fun f root => expanding.forM (runPass root) ((Context.ofForest f {}).withForest f))
      (fun _ _ _ => true) = true := by decide +kernel
  obtain ⟨f, root, ⟨⟩, c1, hparse, h1, -⟩ := of_testRun hrun
  have hperm : expanding.reverse.Perm expanding := List.reverse_perm expanding
  obtain ⟨hiff, hsame⟩ := expanding_commute hparse (.refl expanding) hperm (Context.ofForest f {})
  obtain ⟨c2, h2⟩ := hiff.mp ⟨c1, h1⟩
  obtain ⟨t1, t2, ht1, ht2, hshape⟩ := hsame c1 c2 h1 h2
  exact ⟨f, root, c1, c2, t1, t2, hparse, hperm, h1, h2, ht1, ht2, hshape⟩

end Pipeline

end Lowering
