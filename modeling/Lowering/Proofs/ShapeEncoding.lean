import Lowering.Proofs.Unfolding
import Lowering.Shape.Encoding

namespace Lowering

theorem BigEndian.encode_inj (hm : m < 256 ^ width) (hn : n < 256 ^ width)
    (h : encode width m = encode width n) : m = n := by
  rw [← decode_encode hm, ← decode_encode hn, h]

/-- A number in front of anything can be told from what follows it. -/
theorem BigEndian.encode_append_inj (hm : m < 256 ^ width) (hn : n < 256 ^ width)
    (h : encode width m ++ r = encode width n ++ s) : m = n ∧ r = s := by
  obtain ⟨he, hr⟩ := List.append_inj h (by simp)
  exact ⟨encode_inj hm hn he, hr⟩

theorem Shape.sized_append_inj (ha : a.length < 256 ^ 4) (hb : b.length < 256 ^ 4)
    (h : sized a ++ r = sized b ++ s) : a = b ∧ r = s := by
  unfold sized at h
  rw [List.append_assoc, List.append_assoc] at h
  obtain ⟨hlen, hrest⟩ := BigEndian.encode_append_inj ha hb h
  obtain ⟨hbytes, hr⟩ := List.append_inj hrest hlen
  exact ⟨Text.ext_bytes hbytes, hr⟩

/-- The length of the text in an atom, if it has one, fits in four bytes. -/
def Atom.Short : Atom → Prop
  | sym text | str text => text.length < 256 ^ 4
  | _ => True

instance (a : Atom) : Decidable a.Short :=
  match a with
  | .sym text | .str text => inferInstanceAs (Decidable (text.length < 256 ^ 4))
  | .nil | .int _ | .unknown _ => inferInstanceAs (Decidable True)

/-- An operand whose text is not too long. -/
def Operand.Short (v : Operand) : Prop :=
  match v.view with
  | .atom a => a.Short
  | .child _ => True

instance (v : Operand) : Decidable v.Short :=
  match h : v.view with
  | .atom a => decidable_of_iff a.Short (by rw [Operand.Short, h])
  | .child _ => isTrue (by rw [Operand.Short, h]; trivial)

/-- The number of operands and the lengths of the texts among them fit in four bytes. -/
def Node.Short (n : Node) : Prop := n.args.length < 256 ^ 4 ∧ ∀ v ∈ n.args, v.Short

instance (n : Node) : Decidable n.Short :=
  inferInstanceAs (Decidable (n.args.length < 256 ^ 4 ∧ ∀ v ∈ n.args, v.Short))

namespace Tree

variable {α β : Type}

/-- A tree that can be read off its encoded form: lengths fit, and a kind without a meaning is none
of those with one. -/
inductive Legible : Tree α → Prop where
  | leaf {a : Atom} (short : a.Short) (kind : ∀ k, a = .unknown k → 4 < k) : Legible (.leaf a)
  | node {mark : α} {tag : Tag} {args : List (Tree α)} (count : args.length < 256 ^ 4)
      (each : ∀ t ∈ args, Legible t) : Legible (.node mark tag args)

theorem shapes_eq (ts : List (Tree α)) : shapes ts = ts.map shape := by
  induction ts with
  | nil => rfl
  | cons t ts ih => rw [shapes, ih, List.map_cons]

theorem payloads_eq (ts : List (Tree α)) :
    payloads ts = ts.flatMap fun t => t.kindByte :: t.payload := by
  induction ts with
  | nil => rfl
  | cons t ts ih => rw [payloads, ih, List.flatMap_cons]

theorem kindByte_shape (t : Tree α) : t.shape.kindByte = t.kindByte := by
  cases t with
  | leaf a => cases a <;> rfl
  | node mark tag args => rfl

theorem payload_shape (t : Tree α) : t.shape.payload = t.payload := by
  induction t with
  | leaf a => cases a <;> rfl
  | node mark tag args ih =>
    have heach : (args.map shape).flatMap (fun t => t.kindByte :: t.payload) =
        args.flatMap fun t => t.kindByte :: t.payload := by
      rw [List.flatMap_map]
      refine List.flatMap_congr fun t ht => ?_
      rw [kindByte_shape, ih t ht]
    rw [shape, payload, payload, shapes_eq, List.length_map, payloads_eq, payloads_eq, heach]

/-- Operands in a row can be told apart if each of them can be told from what follows it. -/
theorem operands_inj {ts : List (Tree α)} {us : List (Tree β)} {r s : List UInt8}
    (each : ∀ t ∈ ts, ∀ u ∈ us, ∀ r s : List UInt8, t.kindByte = u.kindByte →
      t.payload ++ r = u.payload ++ s → t.shape = u.shape ∧ r = s)
    (hlen : ts.length = us.length) (h : payloads ts ++ r = payloads us ++ s) :
    ts.map shape = us.map shape ∧ r = s := by
  induction ts generalizing us with
  | nil =>
    obtain rfl := List.length_eq_zero_iff.mp hlen.symm
    exact ⟨rfl, h⟩
  | cons t ts ih =>
    cases us with
    | nil => simp at hlen
    | cons u us =>
      simp only [payloads, List.cons_append, List.append_assoc, List.cons.injEq] at h
      obtain ⟨hkind, h⟩ := h
      obtain ⟨hfirst, hrest⟩ := each t (by simp) u (by simp) _ _ hkind h
      have hlater : ∀ t' ∈ ts, ∀ u' ∈ us, ∀ r s : List UInt8, t'.kindByte = u'.kindByte →
          t'.payload ++ r = u'.payload ++ s → t'.shape = u'.shape ∧ r = s :=
        fun t' ht' u' hu' => each t' (List.mem_cons_of_mem t ht') u' (List.mem_cons_of_mem u hu')
      obtain ⟨hshapes, hr⟩ := ih hlater (by simpa using hlen) hrest
      exact ⟨by rw [List.map_cons, List.map_cons, hfirst, hshapes], hr⟩

theorem kindByte_leaf (h : (leaf a : Tree α).Legible) : (leaf a : Tree α).kindByte ≠ 4 := by
  cases h with
  | leaf _ kind =>
    cases a with
    | unknown k =>
      intro hk
      have hlt := kind k rfl
      rw [show k = 4 from hk] at hlt
      exact absurd hlt (by decide)
    | nil | sym | str | int => simp [kindByte]

theorem atom_inj (ha : (leaf a : Tree α).Legible) (hb : (leaf b : Tree β).Legible)
    (hk : (leaf a : Tree α).kindByte = (leaf b : Tree β).kindByte)
    (h : (leaf a : Tree α).payload ++ r = (leaf b : Tree β).payload ++ s) : a = b ∧ r = s := by
  cases ha with
  | leaf short kind =>
    cases hb with
    | leaf short' kind' =>
      cases a <;> cases b
      case nil.nil => exact ⟨rfl, h⟩
      case sym.sym =>
        obtain ⟨rfl, hr⟩ := Shape.sized_append_inj short short' h
        exact ⟨rfl, hr⟩
      case str.str =>
        obtain ⟨rfl, hr⟩ := Shape.sized_append_inj short short' h
        exact ⟨rfl, hr⟩
      case int.int i j =>
        obtain ⟨hn, hr⟩ := BigEndian.encode_append_inj i.toUInt64.toNat_lt j.toUInt64.toNat_lt h
        cases i
        cases j
        exact ⟨congrArg (fun w => Atom.int (.ofUInt64 w)) (UInt64.toNat_inj.mp hn), hr⟩
      case unknown.unknown =>
        obtain rfl := hk
        exact ⟨rfl, h⟩
      -- the kinds with a meaning differ, and an unknown kind is none of them
      all_goals grind [kindByte]

/-- The payload of an operand of a known kind can be told from what follows it. -/
theorem payload_inj {t : Tree α} {u : Tree β} {r s : List UInt8} (ht : t.Legible) (hu : u.Legible)
    (hk : t.kindByte = u.kindByte) (h : t.payload ++ r = u.payload ++ s) :
    t.shape = u.shape ∧ r = s := by
  induction ht generalizing u r s with
  | @leaf a short kind =>
    cases u with
    | leaf b =>
      obtain ⟨rfl, hr⟩ := atom_inj (.leaf short kind) hu hk h
      exact ⟨rfl, hr⟩
    | node mark tag args => exact absurd hk (kindByte_leaf (.leaf short kind))
  | @node mark tag args count each ih =>
    cases u with
    | leaf b => exact absurd hk.symm (kindByte_leaf hu)
    | node mark' tag' args' =>
      cases hu with
      | node count' each' =>
        simp only [payload, List.cons_append, List.append_assoc, List.cons.injEq] at h
        obtain ⟨htag, h⟩ := h
        obtain rfl := Tag.byte_injective htag
        obtain ⟨hlen, h⟩ := BigEndian.encode_append_inj count count' h
        obtain ⟨hargs, hr⟩ := operands_inj
          (fun t ht u hu r s => ih t ht (each' u hu)) hlen h
        exact ⟨by rw [shape, shape, shapes_eq, shapes_eq, hargs], hr⟩

end Tree

namespace Forest

open Tree

variable {f g : Forest} {a b : Int} {t u : Tree Mark}

theorem unknown_of_view {v : Operand} (h : v.view = .atom (.unknown k)) : 4 < k := by
  unfold Operand.view at h
  repeat' split at h
  all_goals cases h
  grind

theorem Denotes.kindByte (h : Denotes f (.ref a) t) : t.kindByte = 4 := by
  cases t with
  | leaf a => cases h
  | node mark tag args => rfl

theorem Denotes.legible (h : Denotes f (.ref a) t) (hs : f.AllBelow Node.Short a) : t.Legible := by
  apply h.induct_below (Q := Tree.Legible) ?_ ?_ hs
  · intro n v a hn hv hview
    have hv := hn.2 v hv
    rw [Operand.Short, hview] at hv
    refine .leaf hv fun k hk => ?_
    subst hk
    exact unknown_of_view hview
  · intro n mark args hn hlen hargs
    exact .node (hlen ▸ hn.1) hargs

/-- Nodes below which nothing is missing or lies below itself have an encoded form. Two of them have
the same one exactly if their trees are of the same shape, that is, they agree in everything but
places and numbers of nodes; and none is a proper beginning of the other. -/
theorem encode_eq_iff_shape_eq (ha : f.Unfolds a) (hb : g.Unfolds b)
    (hsa : f.AllBelow Node.Short a) (hsb : g.AllBelow Node.Short b) :
    ∃ t u x y, f.tree a = .ok t ∧ g.tree b = .ok u ∧ f.encode a = .ok x ∧ g.encode b = .ok y ∧
      (x = y ↔ t.shape = u.shape) ∧ (x <+: y → x = y) := by
  obtain ⟨t, ht, hdt⟩ := ha.tree
  obtain ⟨u, hu, hdu⟩ := hb.tree
  have hk : t.kindByte = u.kindByte := by rw [hdt.kindByte, hdu.kindByte]
  have hinj : ∀ r s : List UInt8, t.encode ++ r = u.encode ++ s → t.shape = u.shape ∧ r = s := by
    intro r s h
    apply payload_inj (hdt.legible hsa) (hdu.legible hsb) hk
    simpa [Tree.encode] using h
  refine ⟨t, u, t.encode, u.encode, ht, hu, by simp [encode, ht, Except.map],
    by simp [encode, hu, Except.map], ⟨?_, ?_⟩, ?_⟩
  · intro h
    exact (hinj [] [] (by simpa using h)).1
  · intro h
    rw [Tree.encode, Tree.encode, ← payload_shape t, ← payload_shape u, h]
  · intro h
    obtain ⟨s, hs⟩ := h
    obtain ⟨-, rfl⟩ := hinj s [] (by simpa using hs)
    simpa using hs

/-- The list `(x)`. -/
def listOfX : Node := { tag := .list, args := [.sym "x"], pos := .unknown }

/-- `(do (x) (x))` with two lists. -/
def apart : Forest :=
  ((({} : Forest).push listOfX).push listOfX).push
    { tag := .block, args := [.ref 1, .ref 2], pos := .start "a" }

/-- `(do (x) (x))` with one list that stands in two places. -/
def sharing : Forest :=
  (({} : Forest).push listOfX).push { tag := .block, args := [.ref 1, .ref 1], pos := .unknown }

/-- Sharing makes no difference to the encoded form. -/
theorem encode_eq_iff_shape_eq_sharing :
    (apart.Unfolds 3 ∧ sharing.Unfolds 2 ∧ apart.AllBelow Node.Short 3 ∧
      sharing.AllBelow Node.Short 2) ∧
    ∃ t u x y, apart.tree 3 = .ok t ∧ sharing.tree 2 = .ok u ∧ apart.encode 3 = .ok x ∧
      sharing.encode 2 = .ok y ∧ x = y ∧ t.shape = u.shape := by
  have hone : (({} : Forest).push listOfX).Ordered := grown_empty.ordered.push (by decide)
  have htwo : ((({} : Forest).push listOfX).push listOfX).Ordered := hone.push (by decide)
  have hapart : apart.Unfolds 3 := (htwo.push (by decide)).unfolds rfl
  have hsharing : sharing.Unfolds 2 := (hone.push (by decide)).unfolds rfl
  have hshort : apart.AllBelow Node.Short 3 := allBelow_of_mem (by decide)
  have hshort' : sharing.AllBelow Node.Short 2 := allBelow_of_mem (by decide)
  obtain ⟨t, u, x, y, ht, hu, hx, hy, hiff, -⟩ :=
    encode_eq_iff_shape_eq hapart hsharing hshort hshort'
  have hxy : x = y := by
    have hbytes : apart.encode 3 = sharing.encode 2 := by decide
    rw [hx, hy] at hbytes
    exact Except.ok.inj hbytes
  exact ⟨⟨hapart, hsharing, hshort, hshort'⟩, t, u, x, y, ht, hu, hx, hy, hxy, hiff.mp hxy⟩

end Forest

end Lowering
