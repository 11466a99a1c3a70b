import Recompile.Text.Basic

/-!
Texts from bytes: the first fault of a byte sequence that is no UTF-8 text, and the text in which
every faulty stretch is replaced by U+FFFD.
-/

namespace Recompile.Utf8

inductive Fault where
  /-- Bytes at an offset that start no character. -/
  | invalid (index size : Nat)
  /-- The bytes end inside a character. -/
  | incomplete (index : Nat)
deriving DecidableEq, Repr

def Fault.message : Fault → String
  | .invalid index size =>
      "invalid utf-8 sequence of " ++ toString size ++ " bytes from index " ++ toString index
  | .incomplete index => "incomplete utf-8 byte sequence from index " ++ toString index

/-- The outcome of reading one character: its code and the number of bytes after the first, the
number of faulty bytes after the first, or the end of the input inside a character. -/
inductive Step where
  | char (code extra : Nat)
  | invalid (extra : Nat)
  | incomplete
deriving DecidableEq, Repr

/-- The bytes that may follow a first byte, and the number of bytes after it. -/
def shape (b : Nat) : Option (Nat × Nat × Nat) :=
  if 0xC2 ≤ b ∧ b ≤ 0xDF then some (1, 0x80, 0xBF)
  else if b = 0xE0 then some (2, 0xA0, 0xBF)
  else if b = 0xED then some (2, 0x80, 0x9F)
  else if 0xE1 ≤ b ∧ b ≤ 0xEF then some (2, 0x80, 0xBF)
  else if b = 0xF0 then some (3, 0x90, 0xBF)
  else if b = 0xF4 then some (3, 0x80, 0x8F)
  else if 0xF1 ≤ b ∧ b ≤ 0xF3 then some (3, 0x80, 0xBF)
  else none

/-- Reads the bytes after the second one; `seen` of them are read already. -/
def tailStep (code seen : Nat) : Nat → List UInt8 → Step
  | 0, _ => .char code seen
  | _ + 1, [] => .incomplete
  | missing + 1, b :: rest =>
      if 0x80 ≤ b.toNat ∧ b.toNat ≤ 0xBF then
        tailStep (code * 64 + (b.toNat - 0x80)) (seen + 1) missing rest
      else .invalid seen

def step (b : UInt8) (rest : List UInt8) : Step :=
  if b.toNat < 0x80 then .char b.toNat 0
  else match shape b.toNat with
    | none => .invalid 0
    | some (count, low, high) =>
        match rest with
        | [] => .incomplete
        | b₁ :: rest =>
            if low ≤ b₁.toNat ∧ b₁.toNat ≤ high then
              let lead := b.toNat % Nat.pow 2 (6 - count)
              tailStep (lead * 64 + (b₁.toNat - 0x80)) 1 (count - 1) rest
            else .invalid 0

def fault? (index : Nat) : List UInt8 → Option Fault
  | [] => none
  | b :: rest =>
      match step b rest with
      | .char _ extra => fault? (index + 1 + extra) (rest.drop extra)
      | .invalid extra => some (.invalid index (extra + 1))
      | .incomplete => some (.incomplete index)
termination_by bytes => bytes.length
decreasing_by simp only [List.length_drop, List.length_cons]; omega

/-- The text with each faulty stretch replaced by U+FFFD. -/
def lossyChars : List UInt8 → List Char
  | [] => []
  | b :: rest =>
      match step b rest with
      | .char code extra => Char.ofNat code :: lossyChars (rest.drop extra)
      | .invalid extra => '\uFFFD' :: lossyChars (rest.drop extra)
      | .incomplete => ['\uFFFD']
termination_by bytes => bytes.length
decreasing_by all_goals simp only [List.length_drop, List.length_cons]; omega

def lossy (bytes : ByteArray) : String := String.ofList (lossyChars bytes.toList)

def decode (bytes : ByteArray) : Except Fault String :=
  match String.fromUTF8? bytes with
  | some s => .ok s
  | none => .error ((fault? 0 bytes.toList).getD (.incomplete bytes.size))

end Recompile.Utf8
