namespace Lowering.BigEndian

/-- The last `width` bytes of a number. -/
def encode : Nat → Nat → List UInt8
  | 0, _ => []
  | width + 1, n => encode width (n / 256) ++ [(n % 256).toUInt8]

def decode (bs : List UInt8) : Nat := bs.foldl (fun n b => 256 * n + b.toNat) 0

@[simp] theorem length_encode (width n : Nat) : (encode width n).length = width := by
  induction width generalizing n with
  | zero => rfl
  | succ width ih => simp [encode, ih]

theorem decode_append_singleton (bs : List UInt8) (b : UInt8) :
    decode (bs ++ [b]) = 256 * decode bs + b.toNat := by
  simp [decode]

theorem decode_encode {width n : Nat} (h : n < Nat.pow 256 width) :
    decode (encode width n) = n := by
  induction width generalizing n with
  | zero =>
    have h : n < 1 := h
    rw [Nat.lt_one_iff.mp h]
    rfl
  | succ width ih =>
    have hq : n / 256 < Nat.pow 256 width := by
      have h : n < Nat.pow 256 width * 256 := h
      exact Nat.div_lt_of_lt_mul (by omega)
    rw [encode, decode_append_singleton, ih hq]
    simp
    omega

end Lowering.BigEndian
