import Recompile.Digest.Xxh3

/-!
Content digests, and digests of sequences of parts.

A sequence of parts is hashed as one stream in which every part is preceded by its length as
eight little-endian bytes, so the stream determines the parts.
-/

namespace Recompile

structure Digest where
  low : UInt64
  high : UInt64
deriving DecidableEq, Repr

namespace Digest

instance : Inhabited Digest := ⟨⟨0, 0⟩⟩

/-- The eight bytes of a word, least significant first. -/
def wordBytes (x : UInt64) : List UInt8 :=
  [x.toUInt8, (x >>> 8).toUInt8, (x >>> 16).toUInt8, (x >>> 24).toUInt8,
   (x >>> 32).toUInt8, (x >>> 40).toUInt8, (x >>> 48).toUInt8, (x >>> 56).toUInt8]

def wordOfBytes (bytes : List UInt8) : UInt64 :=
  bytes.foldr (fun b acc => (acc <<< 8) ||| b.toUInt64) 0

def toBytes (d : Digest) : List UInt8 := wordBytes d.low ++ wordBytes d.high

/-- Reads sixteen bytes; no result for any other number of them. -/
def ofBytes? (bytes : List UInt8) : Option Digest :=
  if bytes.length = 16 then
    some ⟨wordOfBytes (bytes.take 8), wordOfBytes (bytes.drop 8)⟩
  else none

def ofData (data : ByteArray) : Digest :=
  let h := Xxh3.hash data
  ⟨h.low, h.high⟩

def ofText (text : String) : Digest := ofData text.toUTF8

def hexDigit (n : Nat) : Char :=
  if n < 10 then Char.ofNat (48 + n) else Char.ofNat (87 + n)

def hexByte (b : UInt8) : List Char := [hexDigit (b.toNat / 16), hexDigit (b.toNat % 16)]

def hex (d : Digest) : String := String.ofList (d.toBytes.flatMap hexByte)

def brief (d : Digest) : String :=
  "ContentHash(" ++ String.ofList ((d.toBytes.take 2).flatMap hexByte) ++ "..)"

/-- The stream that stands for a sequence of parts. -/
def frame (parts : List ByteArray) : ByteArray :=
  parts.foldl (fun stream part =>
    stream ++ ByteArray.mk (wordBytes (UInt64.ofNat part.size)).toArray ++ part) ByteArray.empty

def toData (d : Digest) : ByteArray := ByteArray.mk d.toBytes.toArray

def ofParts (parts : List ByteArray) : Digest := ofData (frame parts)

end Digest

end Recompile
