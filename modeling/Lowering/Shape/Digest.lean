namespace Lowering.Digest

def secret : Array UInt8 := #[
  0xb8, 0xfe, 0x6c, 0x39, 0x23, 0xa4, 0x4b, 0xbe, 0x7c, 0x01, 0x81, 0x2c, 0xf7, 0x21, 0xad, 0x1c,
  0xde, 0xd4, 0x6d, 0xe9, 0x83, 0x90, 0x97, 0xdb, 0x72, 0x40, 0xa4, 0xa4, 0xb7, 0xb3, 0x67, 0x1f,
  0xcb, 0x79, 0xe6, 0x4e, 0xcc, 0xc0, 0xe5, 0x78, 0x82, 0x5a, 0xd0, 0x7d, 0xcc, 0xff, 0x72, 0x21,
  0xb8, 0x08, 0x46, 0x74, 0xf7, 0x43, 0x24, 0x8e, 0xe0, 0x35, 0x90, 0xe6, 0x81, 0x3a, 0x26, 0x4c,
  0x3c, 0x28, 0x52, 0xbb, 0x91, 0xc3, 0x00, 0xcb, 0x88, 0xd0, 0x65, 0x8b, 0x1b, 0x53, 0x2e, 0xa3,
  0x71, 0x64, 0x48, 0x97, 0xa2, 0x0d, 0xf9, 0x4e, 0x38, 0x19, 0xef, 0x46, 0xa9, 0xde, 0xac, 0xd8,
  0xa8, 0xfa, 0x76, 0x3f, 0xe3, 0x9c, 0x34, 0x3f, 0xf9, 0xdc, 0xbb, 0xc7, 0xc7, 0x0b, 0x4f, 0x1d,
  0x8a, 0x51, 0xe0, 0x4b, 0xcd, 0xb4, 0x59, 0x31, 0xc8, 0x9f, 0x7e, 0xc9, 0xd9, 0x78, 0x73, 0x64,
  0xea, 0xc5, 0xac, 0x83, 0x34, 0xd3, 0xeb, 0xc3, 0xc5, 0x81, 0xa0, 0xff, 0xfa, 0x13, 0x63, 0xeb,
  0x17, 0x0d, 0xdd, 0x51, 0xb7, 0xf0, 0xda, 0x49, 0xd3, 0x16, 0x55, 0x26, 0x29, 0xd4, 0x68, 0x9e,
  0x2b, 0x16, 0xbe, 0x58, 0x7d, 0x47, 0xa1, 0xfc, 0x8f, 0xf8, 0xb8, 0xd1, 0x7a, 0xd0, 0x31, 0xce,
  0x45, 0xcb, 0x3a, 0x8f, 0x95, 0x16, 0x04, 0x28, 0xaf, 0xd7, 0xfb, 0xca, 0xbb, 0x4b, 0x40, 0x7e]

def prime32a : UInt64 := 0x9E3779B1
def prime32b : UInt64 := 0x85EBCA77
def prime32c : UInt64 := 0xC2B2AE3D
def prime64a : UInt64 := 0x9E3779B185EBCA87
def prime64b : UInt64 := 0xC2B2AE3D27D4EB4F
def prime64c : UInt64 := 0x165667B19E3779F9
def prime64d : UInt64 := 0x85EBCA77C2B2AE63
def prime64e : UInt64 := 0x27D4EB2F165667C5
def primeMixA : UInt64 := 0x165667919E3779F9
def primeMixB : UInt64 := 0x9FB21C651E98DF25

def byteAt (data : Array UInt8) (i : Nat) : UInt64 := ((data[i]?).getD 0).toUInt64

def word32 (data : Array UInt8) (i : Nat) : UInt64 :=
  byteAt data i ||| byteAt data (i + 1) <<< 8 ||| byteAt data (i + 2) <<< 16 |||
    byteAt data (i + 3) <<< 24

def word64 (data : Array UInt8) (i : Nat) : UInt64 :=
  word32 data i ||| word32 data (i + 4) <<< 32

def rotateLeft (x : UInt64) (k : UInt64) : UInt64 := x <<< k ||| x >>> (64 - k)

def swapBytes (x : UInt64) : UInt64 :=
  (List.range 8).foldl (fun y i => y <<< 8 ||| (x >>> (8 * i).toUInt64 &&& 0xFF)) 0

/-- The two halves of a product, combined. -/
def foldProduct (a b : UInt64) : UInt64 :=
  let p := a.toNat * b.toNat
  p.toUInt64 ^^^ (p / 0x10000000000000000).toUInt64

def avalanche (h : UInt64) : UInt64 :=
  let h := (h ^^^ h >>> 37) * primeMixA
  h ^^^ h >>> 32

def avalancheShort (h : UInt64) : UInt64 :=
  let h := (h ^^^ h >>> 33) * prime64b
  let h := (h ^^^ h >>> 29) * prime64c
  h ^^^ h >>> 32

def mix16 (data : Array UInt8) (i : Nat) (s : Nat) : UInt64 :=
  foldProduct (word64 data i ^^^ word64 secret s) (word64 data (i + 8) ^^^ word64 secret (s + 8))

def upTo3 (data : Array UInt8) (len : Nat) : UInt64 :=
  let combined := byteAt data 0 <<< 16 ||| byteAt data (len / 2) <<< 24 |||
    byteAt data (len - 1) ||| len.toUInt64 <<< 8
  avalancheShort (combined ^^^ (word32 secret 0 ^^^ word32 secret 4))

def upTo8 (data : Array UInt8) (len : Nat) : UInt64 :=
  let keyed := (word32 data (len - 4) + word32 data 0 <<< 32) ^^^
    (word64 secret 8 ^^^ word64 secret 16)
  let h := (keyed ^^^ rotateLeft keyed 49 ^^^ rotateLeft keyed 24) * primeMixB
  let h := (h ^^^ (h >>> 35 + len.toUInt64)) * primeMixB
  h ^^^ h >>> 28

def upTo16 (data : Array UInt8) (len : Nat) : UInt64 :=
  let low := word64 data 0 ^^^ (word64 secret 24 ^^^ word64 secret 32)
  let high := word64 data (len - 8) ^^^ (word64 secret 40 ^^^ word64 secret 48)
  avalanche (len.toUInt64 + swapBytes low + high + foldProduct low high)

/-- Pairs of blocks from the two ends inwards, as many as the length needs. -/
def upTo128 (data : Array UInt8) (len : Nat) : UInt64 :=
  let pairs := (len + 31) / 32
  avalanche <| (List.range pairs).foldl
    (fun acc i =>
      acc + mix16 data (16 * i) (32 * i) + mix16 data (len - 16 * (i + 1)) (32 * i + 16))
    (len.toUInt64 * prime64a)

def upTo240 (data : Array UInt8) (len : Nat) : UInt64 :=
  let head := avalanche <| (List.range 8).foldl
    (fun acc i => acc + mix16 data (16 * i) (16 * i)) (len.toUInt64 * prime64a)
  let body := (List.range (len / 16 - 8)).foldl
    (fun acc i => acc + mix16 data (16 * (i + 8)) (16 * i + 3)) head
  avalanche (body + mix16 data (len - 16) 119)

/-- Adds a stripe of 64 bytes to the eight lanes. -/
def accumulate (data : Array UInt8) (lanes : List UInt64) (i s : Nat) : List UInt64 :=
  (List.range 8).map fun k =>
    let key := word64 data (i + 8 * k) ^^^ word64 secret (s + 8 * k)
    let swapped := if k % 2 = 0 then k + 1 else k - 1
    lanes.getD k 0 + word64 data (i + 8 * swapped) + (key &&& (0xFFFFFFFF : UInt64)) * (key >>> 32)

def scramble (lanes : List UInt64) : List UInt64 :=
  (List.range 8).map fun k =>
    let x := lanes.getD k 0
    (x ^^^ x >>> 47 ^^^ word64 secret (128 + 8 * k)) * prime32a

def stripes (data : Array UInt8) (lanes : List UInt64) (base count : Nat) : List UInt64 :=
  (List.range count).foldl (fun acc n => accumulate data acc (base + 64 * n) (8 * n)) lanes

def long (data : Array UInt8) (len : Nat) : UInt64 :=
  let start := [prime32c, prime64a, prime64b, prime64c, prime64d, prime32b, prime64e, prime32a]
  let blocks := (len - 1) / 1024
  let lanes := (List.range blocks).foldl
    (fun acc b => scramble (stripes data acc (1024 * b) 16)) start
  let lanes := stripes data lanes (1024 * blocks) ((len - 1 - 1024 * blocks) / 64)
  let lanes := accumulate data lanes (len - 64) 121
  avalanche <| (List.range 4).foldl
    (fun acc k => acc + foldProduct (lanes.getD (2 * k) 0 ^^^ word64 secret (11 + 16 * k))
      (lanes.getD (2 * k + 1) 0 ^^^ word64 secret (19 + 16 * k)))
    (len.toUInt64 * prime64a)

def ofBytes (bytes : List UInt8) : UInt64 :=
  let data := bytes.toArray
  let len := data.size
  if len = 0 then avalancheShort (word64 secret 56 ^^^ word64 secret 64)
  else if len ≤ 3 then upTo3 data len
  else if len ≤ 8 then upTo8 data len
  else if len ≤ 16 then upTo16 data len
  else if len ≤ 128 then upTo128 data len
  else if len ≤ 240 then upTo240 data len
  else long data len

end Lowering.Digest
