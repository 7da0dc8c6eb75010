import Lowering.Text.Basic

namespace Lowering.Utf8

/-- A code point with the bytes that spell it, or a byte that belongs to none. -/
inductive Piece where
  | point (code : Nat) (spelling : List UInt8)
  | stray (byte : UInt8)
deriving DecidableEq, Repr

namespace Piece

def bytes : Piece → List UInt8
  | point _ spelling => spelling
  | stray byte => [byte]

end Piece

def isTail (b : UInt8) : Bool := decide (0x80 ≤ b ∧ b ≤ 0xBF)

/-- Which second bytes may follow a first byte of a sequence of three or four. -/
def secondOk (first second : UInt8) : Bool :=
  if first = 0xE0 then decide (0xA0 ≤ second ∧ second ≤ 0xBF)
  else if first = 0xED then decide (0x80 ≤ second ∧ second ≤ 0x9F)
  else if first = 0xF0 then decide (0x90 ≤ second ∧ second ≤ 0xBF)
  else if first = 0xF4 then decide (0x80 ≤ second ∧ second ≤ 0x8F)
  else isTail second

def low (b : UInt8) : Nat := b.toNat % 0x40

/-- The piece that the byte `a` starts when `rest` follows it. -/
def first (a : UInt8) (rest : List UInt8) : Piece :=
  if a < 0x80 then .point a.toNat [a]
  else if 0xC2 ≤ a ∧ a ≤ 0xDF then
    match rest with
    | b :: _ => if isTail b then .point (a.toNat % 0x20 * 0x40 + low b) [a, b] else .stray a
    | _ => .stray a
  else if 0xE0 ≤ a ∧ a ≤ 0xEF then
    match rest with
    | b :: c :: _ =>
      if secondOk a b && isTail c then
        .point ((a.toNat % 0x10 * 0x40 + low b) * 0x40 + low c) [a, b, c]
      else .stray a
    | _ => .stray a
  else if 0xF0 ≤ a ∧ a ≤ 0xF4 then
    match rest with
    | b :: c :: d :: _ =>
      if secondOk a b && isTail c && isTail d then
        .point (((a.toNat % 0x08 * 0x40 + low b) * 0x40 + low c) * 0x40 + low d) [a, b, c, d]
      else .stray a
    | _ => .stray a
  else .stray a

/-- The pieces of the bytes that remain after `skip` more bytes of the last piece. -/
def piecesFrom : Nat → List UInt8 → List Piece
  | _, [] => []
  | skip + 1, _ :: rest => piecesFrom skip rest
  | 0, a :: rest => first a rest :: piecesFrom ((first a rest).bytes.length - 1) rest

def pieces (bs : List UInt8) : List Piece := piecesFrom 0 bs

def isValid (bs : List UInt8) : Bool :=
  (pieces bs).all fun
    | .point _ _ => true
    | .stray _ => false

def isScalar (code : Nat) : Bool := code < 0xD800 || (0xE000 ≤ code && code ≤ 0x10FFFF)

def encode (code : Nat) : List UInt8 :=
  if code < 0x80 then [code.toUInt8]
  else if code < 0x800 then [(0xC0 + code / 0x40).toUInt8, (0x80 + code % 0x40).toUInt8]
  else if code < 0x10000 then
    [(0xE0 + code / 0x1000).toUInt8, (0x80 + code / 0x40 % 0x40).toUInt8,
      (0x80 + code % 0x40).toUInt8]
  else
    [(0xF0 + code / 0x40000).toUInt8, (0x80 + code / 0x1000 % 0x40).toUInt8,
      (0x80 + code / 0x40 % 0x40).toUInt8, (0x80 + code % 0x40).toUInt8]

/-- The bytes of U+FFFD, which stand in for a stray byte. -/
def replacement : List UInt8 := [0xEF, 0xBF, 0xBD]

/-- Every stray byte gives way to the replacement character. -/
def sanitize (bs : List UInt8) : List UInt8 :=
  (pieces bs).flatMap fun
    | .point _ spelling => spelling
    | .stray _ => replacement

end Lowering.Utf8
