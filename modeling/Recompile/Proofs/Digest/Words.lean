import Recompile.Proofs.Digest.Bytes
import Recompile.Proofs.Text.Encoded

/-!
The words that a hash reads from its input, as numbers. A word is put together from one byte after the
other, each found from the start of the input; the number is told by a stretch of bytes that is found
once.
-/

namespace Recompile

namespace Xxh3

open Digest (value)

section

variable {bytes : List UInt8} {x y shift : UInt64} {i m n : Nat}

theorem value_take_succ (bytes : List UInt8) (i n : Nat) : value ((bytes.drop i).take (n + 1)) =
    value ((bytes.drop (i + 1)).take n) * 256 + (bytes[i]?.getD 0).toNat := by
  cases hi : bytes[i]? with
  | none =>
    have hlength : bytes.length ≤ i := List.getElem?_eq_none_iff.mp hi
    rw [List.drop_of_length_le hlength, List.drop_of_length_le (Nat.le_succ_of_le hlength),
      List.take_nil, List.take_nil]
    rfl
  | some b =>
    obtain ⟨hlt, rfl⟩ := List.getElem?_eq_some_iff.mp hi
    rw [List.drop_eq_getElem_cons hlt]
    rfl

theorem value_take_add (bytes : List UInt8) (i n m : Nat) : value ((bytes.drop i).take (n + m)) =
    value ((bytes.drop (i + n)).take m) * 256 ^ n + value ((bytes.drop i).take n) := by
  induction n generalizing i with
  | zero => simp [value]
  | succ n ih =>
    have hindex : i + (n + 1) = i + 1 + n := by omega
    rw [Nat.add_right_comm, value_take_succ, ih, value_take_succ, hindex, Nat.pow_succ, Nat.add_mul,
      Nat.mul_assoc, Nat.add_assoc]

theorem value_take_lt (bytes : List UInt8) (i n : Nat) : value ((bytes.drop i).take n) < 256 ^ n := by
  induction n generalizing i with
  | zero => simp [value]
  | succ n ih =>
    have hrest := ih (i + 1)
    have hbyte := (bytes[i]?.getD 0).toNat_lt
    rw [value_take_succ, Nat.pow_succ]
    omega

/-- A number is that of some bytes of an input; past the end these count as zero. -/
def Reads (bytes : List UInt8) (i n : Nat) (x : UInt64) : Prop :=
  x.toNat = value ((bytes.drop i).take n)

theorem reads_byteAt (bytes : List UInt8) (i : Nat) : Reads bytes i 1 (byteAt ⟨⟨bytes⟩⟩ i) := by
  have hbyte : (byteAt ⟨⟨bytes⟩⟩ i).toNat = (bytes[i]?.getD 0).toNat := by
    unfold byteAt
    split
    · rename_i hi
      have hlt : i < bytes.length := hi
      rw [List.getElem?_eq_getElem hlt, Option.getD_some, UInt8.toNat_toUInt64]
      rfl
    · rename_i hi
      have hle : bytes.length ≤ i := Nat.le_of_not_lt hi
      rw [List.getElem?_eq_none hle]
      rfl
  rw [Reads, hbyte, value_take_succ, List.take_zero]
  simp [value]

theorem Reads.or (hx : Reads bytes i n x) (hy : Reads bytes (i + n) m y) (hfits : n + m ≤ 8)
    (hm : 0 < m) (hshift : shift.toNat = 8 * n) : Reads bytes i (n + m) (x ||| y <<< shift) := by
  have hxlt : x.toNat < 2 ^ (8 * n) := by
    rw [Nat.pow_mul, hx]
    exact value_take_lt bytes i n
  have hylt : y.toNat <<< (8 * n) < 2 ^ 64 := by
    have hpow : (256 : Nat) ^ m * 256 ^ n ≤ 256 ^ 8 := by
      rw [← Nat.pow_add, Nat.add_comm]
      exact Nat.pow_le_pow_right (by decide) hfits
    have hlt := value_take_lt bytes (i + n) m
    rw [Nat.shiftLeft_eq, Nat.pow_mul, hy]
    exact Nat.lt_of_lt_of_le (Nat.mul_lt_mul_of_pos_right hlt (Nat.pow_pos (by decide))) hpow
  have hmod : 8 * n % 64 = 8 * n := Nat.mod_eq_of_lt (by omega)
  rw [Reads, UInt64.toNat_or, UInt64.toNat_shiftLeft, hshift, hmod, Nat.mod_eq_of_lt hylt, Nat.or_comm,
    ← Nat.shiftLeft_add_eq_or_of_lt hxlt, Nat.shiftLeft_eq, Nat.pow_mul, hx, hy, value_take_add]

theorem reads_word32 (bytes : List UInt8) (i : Nat) : Reads bytes i 4 (word32 ⟨⟨bytes⟩⟩ i) :=
  have first := (reads_byteAt bytes i).or (reads_byteAt bytes (i + 1)) (by decide) (by decide) rfl
  have second := first.or (reads_byteAt bytes (i + 2)) (by decide) (by decide) rfl
  second.or (reads_byteAt bytes (i + 3)) (by decide) (by decide) rfl

theorem reads_word64 (bytes : List UInt8) (i : Nat) : Reads bytes i 8 (word64 ⟨⟨bytes⟩⟩ i) :=
  (reads_word32 bytes i).or (reads_word32 bytes (i + 4)) (by decide) (by decide) rfl

theorem word64_eq (input : ByteArray) (i : Nat) :
    word64 input i = UInt64.ofNat (value ((input.data.toList.drop i).take 8)) := by
  rw [← reads_word64 input.data.toList i, UInt64.ofNat_toNat]

end

end Xxh3

theorem Digest.ofText_ofList (cs : List Char) :
    ofText (String.ofList cs) = ofData ⟨⟨Text.encoded cs⟩⟩ := by
  have hbytes : (String.ofList cs).toUTF8.data.toList = Text.encoded cs := by
    rw [← String.toList_ofList (l := cs), ← Text.bytes_eq_encoded, String.ofList_toList]
    rfl
  rw [ofText, ← hbytes]

end Recompile
