import Recompile.Digest.Basic

/-!
The bytes of a digest determine it.
-/

namespace Recompile.Digest

theorem toNat_byte (x : UInt64) (k : Nat) (hk : k < 64) :
    (x >>> UInt64.ofNat k).toUInt8.toNat = (x.toNat >>> k) % 256 := by
  have hmod : UInt64.toNat (UInt64.ofNat k) % 64 = k := by
    rw [UInt64.toNat_ofNat']
    omega
  rw [UInt64.toNat_toUInt8, UInt64.toNat_shiftRight, hmod]

theorem wordBytes_injective {x y : UInt64} (h : wordBytes x = wordBytes y) : x = y := by
  have hx := x.toNat_lt
  have hy := y.toNat_lt
  simp only [wordBytes, List.cons.injEq, and_true] at h
  obtain ⟨h0, h1, h2, h3, h4, h5, h6, h7⟩ := h
  have digit : ∀ {k : Nat}, k < 64 → (x >>> UInt64.ofNat k).toUInt8 = (y >>> UInt64.ofNat k).toUInt8 →
      x.toNat / 2 ^ k % 256 = y.toNat / 2 ^ k % 256 := by
    intro k hk heq
    rw [← Nat.shiftRight_eq_div_pow, ← Nat.shiftRight_eq_div_pow, ← toNat_byte x k hk,
      ← toNat_byte y k hk, heq]
  have d0 : x.toNat % 256 = y.toNat % 256 := by
    have := congrArg UInt8.toNat h0
    simpa using this
  have d1 := digit (k := 8) (by omega) h1
  have d2 := digit (k := 16) (by omega) h2
  have d3 := digit (k := 24) (by omega) h3
  have d4 := digit (k := 32) (by omega) h4
  have d5 := digit (k := 40) (by omega) h5
  have d6 := digit (k := 48) (by omega) h6
  have d7 := digit (k := 56) (by omega) h7
  refine UInt64.toNat_inj.mp ?_
  omega

theorem length_wordBytes (x : UInt64) : (wordBytes x).length = 8 := rfl

theorem toBytes_injective {d e : Digest} (h : d.toBytes = e.toBytes) : d = e := by
  obtain ⟨hlow, hhigh⟩ := List.append_inj h (by rw [length_wordBytes, length_wordBytes])
  cases d
  cases e
  rw [Digest.mk.injEq]
  exact ⟨wordBytes_injective hlow, wordBytes_injective hhigh⟩

theorem toData_injective {d e : Digest} (h : d.toData = e.toData) : d = e := by
  unfold toData at h
  rw [ByteArray.mk.injEq] at h
  refine toBytes_injective ?_
  simpa using congrArg Array.toList h

theorem size_toData (d : Digest) : d.toData.size = 16 := rfl

def value (bytes : List UInt8) : Nat := bytes.foldr (fun b n => n * 256 + b.toNat) 0

theorem toNat_wordOfBytes (bytes : List UInt8) (h : bytes.length ≤ 8) :
    (wordOfBytes bytes).toNat = value bytes ∧ value bytes < 1 <<< (8 * bytes.length) := by
  induction bytes with
  | nil => exact ⟨rfl, by decide⟩
  | cons b rest ih =>
    obtain ⟨hvalue, hlt⟩ := ih (Nat.le_of_succ_le h)
    have hb := b.toNat_lt
    have hbound : 1 <<< (8 * rest.length) ≤ 2 ^ 56 := by
      rw [Nat.one_shiftLeft]
      exact Nat.pow_le_pow_right (by decide) (by simp at h; omega)
    have hstep : value (b :: rest) = value rest * 256 + b.toNat := rfl
    refine ⟨?_, ?_⟩
    · show ((wordOfBytes rest <<< 8) ||| b.toUInt64).toNat = _
      rw [UInt64.toNat_or, UInt64.toNat_shiftLeft, hvalue, UInt8.toNat_toUInt64, hstep]
      have hshift : value rest <<< (UInt64.toNat 8 % 64) % 2 ^ 64 = value rest <<< 8 := by
        have height : UInt64.toNat 8 % 64 = 8 := by decide
        rw [height, Nat.shiftLeft_eq]
        exact Nat.mod_eq_of_lt (by omega)
      rw [hshift, ← Nat.shiftLeft_add_eq_or_of_lt (by simpa using hb), Nat.shiftLeft_eq]
    · have hgrow : 1 <<< (8 * (b :: rest).length) = 1 <<< (8 * rest.length) * 256 := by
        rw [Nat.one_shiftLeft, Nat.one_shiftLeft, List.length_cons, Nat.mul_succ, Nat.pow_add]
      rw [hstep, hgrow]
      omega

theorem wordOfBytes_wordBytes (x : UInt64) : wordOfBytes (wordBytes x) = x := by
  refine UInt64.toNat_inj.mp ?_
  rw [(toNat_wordOfBytes (wordBytes x) (Nat.le_refl 8)).1]
  have hx := x.toNat_lt
  have digit : ∀ {k : Nat}, k < 64 →
      (x >>> UInt64.ofNat k).toUInt8.toNat = x.toNat / 2 ^ k % 256 := by
    intro k hk
    rw [toNat_byte x k hk, Nat.shiftRight_eq_div_pow]
  have d0 : x.toUInt8.toNat = x.toNat % 256 := by simp
  have d1 := digit (k := 8) (by omega)
  have d2 := digit (k := 16) (by omega)
  have d3 := digit (k := 24) (by omega)
  have d4 := digit (k := 32) (by omega)
  have d5 := digit (k := 40) (by omega)
  have d6 := digit (k := 48) (by omega)
  have d7 := digit (k := 56) (by omega)
  show ((((((((0 * 256 + (x >>> UInt64.ofNat 56).toUInt8.toNat) * 256 +
    (x >>> UInt64.ofNat 48).toUInt8.toNat) * 256 + (x >>> UInt64.ofNat 40).toUInt8.toNat) * 256 +
    (x >>> UInt64.ofNat 32).toUInt8.toNat) * 256 + (x >>> UInt64.ofNat 24).toUInt8.toNat) * 256 +
    (x >>> UInt64.ofNat 16).toUInt8.toNat) * 256 + (x >>> UInt64.ofNat 8).toUInt8.toNat) * 256 +
    x.toUInt8.toNat) = _
  omega

theorem ofBytes?_toBytes (d : Digest) : ofBytes? d.toBytes = some d := by
  have hlength : d.toBytes.length = 16 := rfl
  have htake : d.toBytes.take 8 = wordBytes d.low := rfl
  have hdrop : d.toBytes.drop 8 = wordBytes d.high := rfl
  unfold ofBytes?
  rw [if_pos hlength, htake, hdrop, wordOfBytes_wordBytes, wordOfBytes_wordBytes]

end Recompile.Digest
