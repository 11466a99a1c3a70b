/-!
The 128-bit XXH3 hash with seed zero and the standard secret.

Inputs fall into six length classes. The short ones mix a few words read from both ends of the
input; inputs above 240 bytes run through eight lanes, in stripes of 64 bytes and blocks of 16
stripes.
-/

namespace Recompile.Xxh3

structure Word128 where
  low : UInt64
  high : UInt64
deriving DecidableEq, Repr, Inhabited

def secret : ByteArray := ⟨#[
  0xb8, 0xfe, 0x6c, 0x39, 0x23, 0xa4, 0x4b, 0xbe, 0x7c, 0x01, 0x81, 0x2c, 0xf7, 0x21, 0xad, 0x1c,
  0xde, 0xd4, 0x6d, 0xe9, 0x83, 0x90, 0x97, 0xdb, 0x72, 0x40, 0xa4, 0xa4, 0xb7, 0xb3, 0x67, 0x1f,
  0xcb, 0x79, 0xe6, 0x4e, 0xcc, 0xc0, 0xe5, 0x78, 0x82, 0x5a, 0xd0, 0x7d, 0xcc, 0xff, 0x72, 0x21,
  0xb8, 0x08, 0x46, 0x74, 0xf7, 0x43, 0x24, 0x8e, 0xe0, 0x35, 0x90, 0xe6, 0x81, 0x3a, 0x26, 0x4c,
  0x3c, 0x28, 0x52, 0xbb, 0x91, 0xc3, 0x00, 0xcb, 0x88, 0xd0, 0x65, 0x8b, 0x1b, 0x53, 0x2e, 0xa3,
  0x71, 0x64, 0x48, 0x97, 0xa2, 0x0d, 0xf9, 0x4e, 0x38, 0x19, 0xef, 0x46, 0xa9, 0xde, 0xac, 0xd8,
  0xa8, 0xfa, 0x76, 0x3f, 0xe3, 0x9c, 0x34, 0x3f, 0xf9, 0xdc, 0xbb, 0xc7, 0xc7, 0x0b, 0x4f, 0x1d,
  0x8a, 0x51, 0xe0, 0x4b, 0xcd, 0xb4, 0x59, 0x31, 0xc8, 0x9f, 0x7e, 0xc9, 0xd9, 0x78, 0x73, 0x64,
  0xea, 0xc5, 0xac, 0x83, 0x34, 0xd3, 0xeb, 0xc3, 0xc5, 0x81, 0xa0, 0xff, 0xfa, 0x13, 0x63, 0xeb,
  0x17, 0x0d, 0xdd, 0x51, 0xb7, 0xf0, 0xda, 0x49, 0xd3, 0x16, 0x55, 0x26, 0x29, 0xd4, 0x68, 0x9e,
  0x2b, 0x16, 0xbe, 0x58, 0x7d, 0x47, 0xa1, 0xfc, 0x8f, 0xf8, 0xb8, 0xd1, 0x7a, 0xd0, 0x31, 0xce,
  0x45, 0xcb, 0x3a, 0x8f, 0x95, 0x16, 0x04, 0x28, 0xaf, 0xd7, 0xfb, 0xca, 0xbb, 0x4b, 0x40, 0x7e]⟩

def prime32_1 : UInt64 := 0x9E3779B1

def prime32_2 : UInt64 := 0x85EBCA77

def prime32_3 : UInt64 := 0xC2B2AE3D

def prime64_1 : UInt64 := 0x9E3779B185EBCA87

def prime64_2 : UInt64 := 0xC2B2AE3D27D4EB4F

def prime64_3 : UInt64 := 0x165667B19E3779F9

def prime64_4 : UInt64 := 0x85EBCA77C2B2AE63

def prime64_5 : UInt64 := 0x27D4EB2F165667C5

def primeMix1 : UInt64 := 0x165667919E3779F9

def primeMix2 : UInt64 := 0x9FB21C651E98DF25

/-- The byte at an offset; zero past the end. -/
def byteAt (bytes : ByteArray) (i : Nat) : UInt64 :=
  if h : i < bytes.size then (bytes[i]).toUInt64 else 0

def word32 (bytes : ByteArray) (i : Nat) : UInt64 :=
  byteAt bytes i ||| (byteAt bytes (i + 1) <<< 8) ||| (byteAt bytes (i + 2) <<< 16) |||
    (byteAt bytes (i + 3) <<< 24)

def word64 (bytes : ByteArray) (i : Nat) : UInt64 :=
  word32 bytes i ||| (word32 bytes (i + 4) <<< 32)

def low32 (x : UInt64) : UInt64 := x &&& 0xFFFFFFFF

def swap32 (x : UInt64) : UInt64 :=
  let mask : UInt64 := 0xFF
  ((x &&& mask) <<< 24) ||| (((x >>> 8) &&& mask) <<< 16) ||| (((x >>> 16) &&& mask) <<< 8) |||
    ((x >>> 24) &&& mask)

def swap64 (x : UInt64) : UInt64 := (swap32 (low32 x) <<< 32) ||| swap32 (x >>> 32)

def rotateLeft32 (x k : UInt64) : UInt64 := low32 ((x <<< k) ||| (x >>> (32 - k)))

def multiply (a b : UInt64) : Word128 :=
  let product := a.toNat * b.toNat
  ⟨UInt64.ofNat product, UInt64.ofNat (product >>> 64)⟩

def foldMultiply (a b : UInt64) : UInt64 :=
  let product := multiply a b
  product.low ^^^ product.high

def shiftXor (x k : UInt64) : UInt64 := x ^^^ (x >>> k)

def avalanche (h : UInt64) : UInt64 := shiftXor (shiftXor h 37 * primeMix1) 32

def strongAvalanche (h : UInt64) : UInt64 :=
  shiftXor (shiftXor (shiftXor h 33 * prime64_2) 29 * prime64_3) 32

def hashEmpty : Word128 :=
  ⟨strongAvalanche (word64 secret 64 ^^^ word64 secret 72),
   strongAvalanche (word64 secret 80 ^^^ word64 secret 88)⟩

/-- Inputs of 1 to 3 bytes. -/
def hashTiny (input : ByteArray) : Word128 :=
  let n := input.size
  let low := (byteAt input 0 <<< 16) ||| (byteAt input (n / 2) <<< 24) |||
    byteAt input (n - 1) ||| (UInt64.ofNat n <<< 8)
  let high := rotateLeft32 (swap32 low) 13
  ⟨strongAvalanche (low ^^^ (word32 secret 0 ^^^ word32 secret 4)),
   strongAvalanche (high ^^^ (word32 secret 8 ^^^ word32 secret 12))⟩

/-- Inputs of 4 to 8 bytes. -/
def hashShort (input : ByteArray) : Word128 :=
  let n := input.size
  let word := word32 input 0 + (word32 input (n - 4) <<< 32)
  let keyed := word ^^^ (word64 secret 16 ^^^ word64 secret 24)
  let product := multiply keyed (prime64_1 + (UInt64.ofNat n <<< 2))
  let high := product.high + (product.low <<< 1)
  let low := product.low ^^^ (high >>> 3)
  ⟨shiftXor (shiftXor low 35 * primeMix2) 28, avalanche high⟩

/-- Inputs of 9 to 16 bytes. -/
def hashMedium (input : ByteArray) : Word128 :=
  let n := input.size
  let first := word64 input 0
  let last := word64 input (n - 8)
  let product := multiply (first ^^^ last ^^^ (word64 secret 32 ^^^ word64 secret 40)) prime64_1
  let low := product.low + (UInt64.ofNat (n - 1) <<< 54)
  let keyed := last ^^^ (word64 secret 48 ^^^ word64 secret 56)
  let high := product.high + (keyed + low32 keyed * (prime32_2 - 1))
  let mixed := multiply (low ^^^ swap64 high) prime64_2
  ⟨avalanche mixed.low, avalanche (mixed.high + high * prime64_2)⟩

def mix16 (input : ByteArray) (i key : Nat) : UInt64 :=
  foldMultiply (word64 input i ^^^ word64 secret key)
    (word64 input (i + 8) ^^^ word64 secret (key + 8))

def mix32 (input : ByteArray) (acc : Word128) (i j key : Nat) : Word128 :=
  ⟨(acc.low + mix16 input i key) ^^^ (word64 input j + word64 input (j + 8)),
   (acc.high + mix16 input j (key + 16)) ^^^ (word64 input i + word64 input (i + 8))⟩

def startMix (n : Nat) : Word128 := ⟨UInt64.ofNat n * prime64_1, 0⟩

def finishMix (n : Nat) (acc : Word128) : Word128 :=
  ⟨avalanche (acc.low + acc.high),
   0 - avalanche (acc.low * prime64_1 + acc.high * prime64_4 + UInt64.ofNat n * prime64_2)⟩

/-- Inputs of 17 to 128 bytes: pairs of parts, from the middle outwards. -/
def hashPairs (input : ByteArray) : Word128 :=
  let n := input.size
  finishMix n <| (List.range ((n - 1) / 32 + 1)).reverse.foldl
    (fun acc k => mix32 input acc (16 * k) (n - 16 * (k + 1)) (32 * k)) (startMix n)

/-- Inputs of 129 to 240 bytes: rounds of 32 bytes, and the last 32 bytes again. -/
def hashRounds (input : ByteArray) : Word128 :=
  let n := input.size
  let head := (List.range 4).foldl
    (fun acc k => mix32 input acc (32 * k) (32 * k + 16) (32 * k)) (startMix n)
  let body := (List.range (n / 32 - 4)).foldl
    (fun acc k => mix32 input acc (32 * (k + 4)) (32 * (k + 4) + 16) (32 * k + 3))
    ⟨avalanche head.low, avalanche head.high⟩
  finishMix n (mix32 input body (n - 16) (n - 32) 103)

/-- The eight accumulators of the long form. -/
abbrev Lanes := Vector UInt64 8

def startLanes : Lanes :=
  #v[prime32_3, prime64_1, prime64_2, prime64_3, prime64_4, prime32_2, prime64_5, prime32_1]

/-- Adds a stripe: each lane takes its neighbour's word and the product of its keyed halves. -/
def addStripe (input : ByteArray) (lanes : Lanes) (i key : Nat) : Lanes :=
  Vector.ofFn fun lane =>
    let neighbour := if lane.val % 2 = 0 then lane.val + 1 else lane.val - 1
    let keyed := word64 input (i + 8 * lane.val) ^^^ word64 secret (key + 8 * lane.val)
    lanes[lane] + word64 input (i + 8 * neighbour) + low32 keyed * (keyed >>> 32)

def addStripes (input : ByteArray) (lanes : Lanes) (start count : Nat) : Lanes :=
  (List.range count).foldl (fun acc k => addStripe input acc (start + 64 * k) (8 * k)) lanes

def scramble (lanes : Lanes) : Lanes :=
  Vector.ofFn fun lane =>
    (shiftXor lanes[lane] 47 ^^^ word64 secret (128 + 8 * lane.val)) * prime32_1

def mergeLanes (lanes : Lanes) (key : Nat) (start : UInt64) : UInt64 :=
  avalanche <| start +
    foldMultiply (lanes[0] ^^^ word64 secret key) (lanes[1] ^^^ word64 secret (key + 8)) +
    foldMultiply (lanes[2] ^^^ word64 secret (key + 16)) (lanes[3] ^^^ word64 secret (key + 24)) +
    foldMultiply (lanes[4] ^^^ word64 secret (key + 32)) (lanes[5] ^^^ word64 secret (key + 40)) +
    foldMultiply (lanes[6] ^^^ word64 secret (key + 48)) (lanes[7] ^^^ word64 secret (key + 56))

/-- Inputs above 240 bytes. -/
def hashLong (input : ByteArray) : Word128 :=
  let n := input.size
  let blocks := (n - 1) / 1024
  let full := (List.range blocks).foldl
    (fun acc k => scramble (addStripes input acc (1024 * k) 16)) startLanes
  let part := addStripes input full (1024 * blocks) ((n - 1 - 1024 * blocks) / 64)
  let lanes := addStripe input part (n - 64) 121
  ⟨mergeLanes lanes 11 (UInt64.ofNat n * prime64_1),
   mergeLanes lanes 117 (~~~(UInt64.ofNat n * prime64_2))⟩

def hash (input : ByteArray) : Word128 :=
  let n := input.size
  if n = 0 then hashEmpty
  else if n ≤ 3 then hashTiny input
  else if n ≤ 8 then hashShort input
  else if n ≤ 16 then hashMedium input
  else if n ≤ 128 then hashPairs input
  else if n ≤ 240 then hashRounds input
  else hashLong input

end Recompile.Xxh3
