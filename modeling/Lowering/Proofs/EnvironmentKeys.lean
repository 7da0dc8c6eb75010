import Lowering.Pass.Environment
import Lowering.Proofs.Capturing

namespace Lowering

namespace Scope

theorem isSpecial_iff : isSpecial name = true ↔
    name = "nil" ∨ name = "self" ∨ name = "true" ∨ name = "false" ∨
      ∀ b, name.bytes.head? = some b → b < 0x61 := by
  unfold isSpecial
  cases h : name.bytes <;> simp [or_assoc]

/-- A key belongs to the same kind of name as the parameter it is for. -/
theorem isSpecial_exportKey (id : Int) (h : isSpecial name = false) :
    isSpecial (exportKey name id) = false := by
  rw [← Bool.not_eq_true, isSpecial_iff] at h ⊢
  simp only [not_or, not_forall] at h ⊢
  obtain ⟨-, -, -, -, b, hb, hlow⟩ := h
  have hkey := not_sourceName_exportKey name id
  refine ⟨?_, ?_, ?_, ?_, b, ?_, hlow⟩
  · exact fun he => hkey (he ▸ by unfold SourceName; decide)
  · exact fun he => hkey (he ▸ by unfold SourceName; decide)
  · exact fun he => hkey (he ▸ by unfold SourceName; decide)
  · exact fun he => hkey (he ▸ by unfold SourceName; decide)
  · cases hbytes : name.bytes with
    | nil => simp [hbytes] at hb
    | cons a rest => simpa [exportKey, hbytes] using hb

namespace Resolver

variable {r r' : Resolver} {params : List Text} {e : Event}

/-- The keys in an environment differ, no special name is one, and exported parameters have
theirs. -/
structure Keyed (params : List Text) (r : Resolver) : Prop where
  nodup : r.captures.Nodup
  ordinary : ∀ key ∈ r.captures, isSpecial key = false
  frames : ∀ f ∈ r.frames, ∀ id, f.closure = some id → ∀ name ∈ f.exports,
    exportKey name id ∈ r.captures
  closed : ∀ cl ∈ r.closed, ∀ name ∈ cl.exports, exportKey name cl.id ∈ r.captures
  arguments : ∀ name ∈ r.capturedParams, name ∈ r.captures ∧ name ∈ params
  function : ∀ f ∈ r.frames, f.closure = none → f.params = params

theorem keyed_start (params : List Text) : Keyed params (start params) := by
  constructor <;> simp [start]

/-- An event keeps the keys of an environment in order. -/
theorem Keyed.step (h : Keyed params r) (hs : Step r e r') : Keyed params r' where
  nodup := by
    cases hs with
    | captured => exact Names.nodup_add h.nodup
    | kept | defined | entered | left => exact h.nodup
  ordinary key hkey := by
    cases hs with
    | captured ordinary _ _ taken =>
      rcases Names.mem_add.mp hkey with hkey | rfl
      · exact h.ordinary key hkey
      · cases taken with
        | var | argument => exact ordinary
        | param => exact isSpecial_exportKey _ ordinary
    | kept | defined | entered | left => exact h.ordinary key hkey
  frames f' hf' id hid name hn := by
    obtain ⟨f, hf, hturns⟩ | ⟨_, _, _, rfl⟩ := hs.mem_frames hf'
    · rw [hturns.closure] at hid
      have hold : name ∈ f.exports → exportKey name id ∈ r'.captures := fun hn =>
        hs.captures _ (h.frames f hf id hid name hn)
      rcases hturns.exports with heq | ⟨new, heq, hkey⟩
      · exact hold (heq ▸ hn)
      · rcases Names.mem_add.mp (heq ▸ hn) with hn | rfl
        · exact hold hn
        · exact hkey id hid
    · cases hn
  closed cl hcl name hn := by
    obtain hcl | ⟨f, hf, hid, -, hexports⟩ := hs.mem_closed hcl
    · exact hs.captures _ (h.closed cl hcl name hn)
    · exact hs.captures _ (h.frames f hf cl.id hid name (hexports ▸ hn))
  arguments name hn := by
    have hold : name ∈ r.capturedParams → name ∈ r'.captures ∧ name ∈ params := fun hn =>
      ⟨hs.captures _ (h.arguments name hn).1, (h.arguments name hn).2⟩
    cases hs with
    | captured _ found _ taken =>
      cases taken with
      | var | param => exact hold hn
      | argument function mem =>
        rcases Names.mem_add.mp hn with hn | rfl
        · exact hold hn
        · exact ⟨Names.mem_add.mpr (.inr rfl), h.function _ (by simp [found]) function ▸ mem⟩
    | kept | defined | entered | left => exact hold hn
  function f' hf' hnone := by
    obtain ⟨f, hf, hturns⟩ | ⟨_, _, _, rfl⟩ := hs.mem_frames hf'
    · exact hturns.params.trans (h.function f hf (hturns.closure ▸ hnone))
    · cases hnone

theorem Keyed.run (h : Keyed params r) (es : List Event) : Keyed params (r.run es).1 :=
  run_keeps (fun _ _ _ _ hs h => h.step hs) h

theorem Keyed.exportsOf (h : Keyed params r) {id : Int} (hn : name ∈ r.exportsOf id) :
    exportKey name id ∈ r.captures := by
  unfold Resolver.exportsOf at hn
  split at hn
  · rename_i cl hcl
    have hid : cl.id = id := by
      have := List.find?_some hcl
      simp only [decide_eq_true_eq] at this
      exact this.1
    exact hid ▸ h.closed cl (List.mem_reverse.mp (List.mem_of_find?_eq_some hcl)) name hn
  · cases hn

/-- Closures around the place that is read have statements, and so has a closure that exports. -/
structure Full (P : Int → Prop) (r : Resolver) : Prop where
  frames : ∀ f ∈ r.frames, ∀ id, f.closure = some id → P id
  closed : ∀ cl ∈ r.closed, cl.exports ≠ [] → P cl.id

theorem full_start (P : Int → Prop) (params : List Text) : Full P (start params) := by
  constructor <;> simp [start]

theorem Full.step (h : Full P r) (hs : Step r e r') (he : ∀ id ps, e = .enter id ps → P id) :
    Full P r' where
  frames f' hf' id hid := by
    obtain ⟨f, hf, hturns⟩ | ⟨_, ps, rfl, rfl⟩ := hs.mem_frames hf'
    · exact h.frames f hf id (hturns.closure ▸ hid)
    · cases hid
      exact he id ps rfl
  closed cl hcl hne := by
    obtain hcl | ⟨f, hf, hid, -⟩ := hs.mem_closed hcl
    · exact h.closed cl hcl hne
    · exact h.frames f hf cl.id hid

theorem readAll_keeps {I : Resolver → Prop} (h : ∀ t ∈ ts, ∀ r, I r → I (r.read t)) (hr : I r) :
    I (r.readAll ts) := by
  induction ts generalizing r with
  | nil => exact hr
  | cons t ts ih =>
    exact ih (fun s hs => h s (List.mem_cons_of_mem t hs)) (h t (by simp) r hr)

theorem Full.read {P : Int → Prop} (ht : Readable t)
    (hP : ∀ p u id ps, t.at? p = some u → u.closure? = some (id, ps) → u.parts ≠ [] → P id)
    (h : Full P r) : Full P (r.read t) := by
  have parts : ∀ {t : Tree Mark}, (∀ s ∈ t.parts, ∀ {r : Resolver}, (∀ p u id ps, s.at? p = some u →
      u.closure? = some (id, ps) → u.parts ≠ [] → P id) → Full P r → Full P (r.read s)) →
      (∀ p u id ps, t.at? p = some u → u.closure? = some (id, ps) → u.parts ≠ [] → P id) →
      ∀ {r : Resolver}, Full P r → Full P (r.readAll t.parts) := by
    intro t ih hP r
    refine readAll_keeps fun s hs r hr => ih s hs (fun p u id ps hu => ?_) hr
    obtain ⟨i, hi⟩ := List.mem_iff_getElem?.mp hs
    exact hP (i :: p) u id ps (by simp [Tree.at?, hi, hu])
  induction t, ht using Readable.induct generalizing r with
  | sym name => exact h.step (step_spec r (.use name)) nofun
  | closure t id ps ht hc ih =>
    rw [read_closure ht hc]
    by_cases hparts : t.parts = []
    · rw [hparts]
      refine ⟨h.frames, fun c hcl he => ?_⟩
      rcases List.mem_append.mp hcl with hcl | hcl
      · exact h.closed c hcl he
      · obtain rfl := List.mem_singleton.mp hcl
        exact absurd rfl he
    · have hid := hP [] t id ps rfl hc hparts
      have hin : Full P (r.enter id ps) := h.step .entered fun _ _ heq => by cases heq; exact hid
      exact (parts (fun s hs _ => ih s hs) hP hin).step (step_spec _ .leave) nofun
  | other t ht hc hsym ih =>
    rw [read_open ht hc hsym]
    have hall := parts (fun s hs _ => ih s hs) hP h
    cases t.target? with
    | none => exact hall
    | some name => exact hall.step (step_spec _ (.define name)) nofun

end Resolver

end Scope

namespace Pass.Environment

open Scope

theorem special_names : isSpecial envName = true ∧ isSpecial stackframeName = true ∧
    isSpecial closureName = true := by decide

theorem slots_eq {captures : List Text} (hd : captures.Nodup)
    (ho : ∀ key ∈ captures, isSpecial key = false) :
    slots captures = stackframeName :: captures ++ [closureName] := by
  have hno : ∀ {name}, isSpecial name = true → name ∉ captures := by
    intro name hs hm
    rw [ho name hm] at hs
    cases hs
  have hne : stackframeName ≠ closureName := by decide
  rw [slots, Names.foldl_add_of_nodup, List.nil_append]
  have hlast : (captures ++ [closureName]).Nodup :=
    List.nodup_append.mpr ⟨hd, by simp, fun x hx y hy he => hno special_names.2.2 (by simp_all)⟩
  simpa [hne, hno special_names.2.1] using hlast

/-- The slots of an environment: the frame, what is captured, the closure. -/
theorem Keyed.slots {r : Resolver} (h : r.Keyed params) :
    slots r.captures = stackframeName :: r.captures ++ [closureName] :=
  slots_eq h.nodup h.ordinary

/-- Neither the name of the environment itself nor a key for it has a slot. -/
theorem envName_not_mem_slots {r : Resolver} (h : r.Keyed params) :
    envName ∉ slots r.captures ∧ ∀ id, exportKey envName id ∉ slots r.captures := by
  rw [slots_eq h.nodup h.ordinary]
  have hfirst : envName.bytes.head? = some 0x5F := by decide
  have hspecial : ∀ id, isSpecial (exportKey envName id) = true := by
    intro id
    rw [isSpecial_iff]
    refine .inr (.inr (.inr (.inr fun b hb => ?_)))
    rw [exportKey, Text.bytes_append, Text.bytes_append, List.append_assoc, List.head?_append,
      hfirst] at hb
    cases hb
    decide
  have hno : ∀ {name}, isSpecial name = true → name ≠ stackframeName → name ≠ closureName →
      name ∉ stackframeName :: r.captures ++ [closureName] := by
    intro name hs hf hc hm
    have hm : name ∈ r.captures := by simpa [hf, hc] using hm
    rw [h.ordinary name hm] at hs
    cases hs
  have hkey : ∀ {id x}, SourceName x → exportKey envName id ≠ x :=
    fun hx he => not_sourceName_exportKey envName _ (he ▸ hx)
  refine ⟨hno special_names.1 (by decide) (by decide), fun id => hno (hspecial id) ?_ ?_⟩
  · exact hkey (by unfold SourceName; decide)
  · exact hkey (by unfold SourceName; decide)

end Pass.Environment

end Lowering
