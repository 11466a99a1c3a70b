import Recompile.Proofs.Text.Cuts

/-!
The bytes of a text, each read as the character with its code. A test that does not tell characters
outside the ASCII range apart finds the same on bytes as on characters.
-/

namespace Recompile.Text

/-- The bytes of a character, each as the character with its code. -/
def charOctets (c : Char) : List Char := (String.utf8EncodeChar c).map fun b => Char.ofNat b.toNat

/-- The bytes of a text, each as the character with its code. -/
def octets (cs : List Char) : List Char := cs.flatMap charOctets

@[simp] theorem octets_nil : octets [] = [] := rfl

@[simp] theorem octets_cons (c : Char) (cs : List Char) : octets (c :: cs) = charOctets c ++ octets cs :=
  rfl

@[simp] theorem octets_append (xs ys : List Char) : octets (xs ++ ys) = octets xs ++ octets ys :=
  List.flatMap_append

@[simp] theorem length_charOctets (c : Char) : (charOctets c).length = c.utf8Size := by
  rw [charOctets, List.length_map, String.length_utf8EncodeChar]

@[simp] theorem length_octets (cs : List Char) : (octets cs).length = width cs := by
  induction cs with
  | nil => rfl
  | cons c cs ih => rw [octets_cons, List.length_append, length_charOctets, ih, width_cons]

def isAscii (c : Char) : Bool := c.toNat < 128

theorem utf8Size_of_isAscii {c : Char} (h : isAscii c = true) : c.utf8Size = 1 := by
  have hlt : c.toNat < 128 := by simpa [isAscii] using h
  rw [Char.utf8Size_eq_one_iff, UInt32.le_iff_toNat_le]
  exact Nat.le_of_lt_succ hlt

theorem charOctets_of_isAscii {c : Char} (h : isAscii c = true) : charOctets c = [c] := by
  have hlt : c.toNat < 128 := by simpa [isAscii] using h
  have hval : c.val.toNat ≤ 127 := Nat.le_of_lt_succ hlt
  unfold charOctets String.utf8EncodeChar
  dsimp only
  rw [if_pos hval, List.map_cons, List.map_nil, UInt8.toNat_ofNat',
    Nat.mod_eq_of_lt (show c.val.toNat < 2 ^ 8 by omega)]
  exact congrArg (fun d => [d]) (Char.ofNat_toNat c)

theorem toNat_ofNat_byte (b : UInt8) : (Char.ofNat b.toNat).toNat = b.toNat := by
  have hlt : b.toNat < 256 := b.toNat_lt
  have hvalid : b.toNat.isValidChar := Or.inl (by omega)
  rw [Char.ofNat, dif_pos hvalid]
  rfl

theorem isAscii_charOctets {c o : Char} (h : isAscii c = false) (ho : o ∈ charOctets c) :
    isAscii o = false := by
  have hge : 128 ≤ c.val.toNat := by
    have : ¬ c.toNat < 128 := by simpa [isAscii] using h
    exact Nat.le_of_not_lt this
  obtain ⟨b, hb, rfl⟩ := List.mem_map.mp ho
  have hbyte : 128 ≤ b.toNat := by
    unfold String.utf8EncodeChar at hb
    dsimp only at hb
    rw [if_neg (by omega)] at hb
    split at hb
    · simp only [List.mem_cons, List.not_mem_nil, or_false] at hb
      rcases hb with rfl | rfl <;> rw [UInt8.toNat_ofNat'] <;> omega
    · split at hb
      · simp only [List.mem_cons, List.not_mem_nil, or_false] at hb
        rcases hb with rfl | rfl | rfl <;> rw [UInt8.toNat_ofNat'] <;> omega
      · simp only [List.mem_cons, List.not_mem_nil, or_false] at hb
        rcases hb with rfl | rfl | rfl | rfl <;> rw [UInt8.toNat_ofNat'] <;> omega
  rw [isAscii, toNat_ofNat_byte]
  simpa using hbyte

def Coarse (p : Char → Bool) : Prop :=
  ∀ c d, isAscii c = false → isAscii d = false → p c = p d

theorem Coarse.octet {p : Char → Bool} (h : Coarse p) {c o : Char} (ho : o ∈ charOctets c) :
    p o = p c := by
  cases hc : isAscii c with
  | true =>
    rw [charOctets_of_isAscii hc, List.mem_singleton] at ho
    rw [ho]
  | false => exact h o c (isAscii_charOctets hc ho) hc

theorem charOctets_ne_nil (c : Char) : charOctets c ≠ [] :=
  List.ne_nil_of_length_pos (by rw [length_charOctets]; exact c.utf8Size_pos)

theorem Coarse.length_takeWhile_octets {p : Char → Bool} (h : Coarse p) (cs : List Char) :
    ((octets cs).takeWhile p).length = width (cs.takeWhile p) := by
  induction cs with
  | nil => rfl
  | cons c cs ih =>
    rw [octets_cons]
    cases hc : p c with
    | true =>
      rw [List.takeWhile_append_of_pos fun o ho => (h.octet ho).trans hc, List.length_append, ih,
        List.takeWhile_cons_of_pos hc, length_charOctets, width_cons]
    | false =>
      obtain ⟨o, os, hos⟩ := List.exists_cons_of_ne_nil (charOctets_ne_nil c)
      have ho : p o = false := (h.octet (hos ▸ List.mem_cons_self)).trans hc
      rw [hos, List.cons_append, List.takeWhile_cons_of_neg (by simp [ho]),
        List.takeWhile_cons_of_neg (by simp [hc])]
      rfl

namespace Place

variable {text rest : List Char} {pos : Nat} {c : Char}

theorem octets_eq (h : Place text pos rest) : (octets text).drop pos = octets rest := by
  obtain ⟨before, rfl, rfl⟩ := h
  rw [octets_append, ← length_octets, List.drop_left]

theorem getElem?_octets (h : Place text pos rest) (n : Nat) :
    (octets text)[pos + n]? = (octets rest)[n]? := by
  rw [← h.octets_eq, List.getElem?_drop]

theorem octet (h : Place text pos (c :: rest)) : ∃ o, (octets text)[pos]? = some o ∧
    ∀ p, Coarse p → p o = p c := by
  obtain ⟨o, os, hos⟩ := List.exists_cons_of_ne_nil (charOctets_ne_nil c)
  refine ⟨o, ?_, fun p hp => hp.octet (hos ▸ List.mem_cons_self)⟩
  have hget := h.getElem?_octets 0
  rwa [Nat.add_zero, octets_cons, hos, List.cons_append, List.getElem?_cons_zero] at hget

theorem getElem?_of_isAscii (h : Place text pos (c :: rest)) (hc : isAscii c = true) :
    (octets text)[pos]? = some c := by
  have hget := h.getElem?_octets 0
  rwa [Nat.add_zero, octets_cons, charOctets_of_isAscii hc, List.cons_append, List.getElem?_cons_zero]
    at hget

theorem getElem?_nil (h : Place text pos []) (n : Nat) : (octets text)[pos + n]? = none :=
  h.getElem?_octets n

end Place

/-- Passes over the bytes from a position on that pass a test. -/
def passWhile (test : Char → Bool) (bytes : List Char) : Nat → Nat → Checked Nat
  | 0, _ => .error .unfinished
  | fuel + 1, pos =>
      if pos < bytes.length then do
        if test (← Checked.get bytes pos) then passWhile test bytes fuel (pos + 1) else return pos
      else return pos

theorem passWhile_eq (test : Char → Bool) (bytes : List Char) (fuel : Nat) : ∀ {pos : Nat},
    bytes.length - pos < fuel → passWhile test bytes fuel pos =
      .ok (pos + ((bytes.drop pos).takeWhile test).length) := by
  induction fuel with
  | zero => exact fun hfuel => absurd hfuel (Nat.not_lt_zero _)
  | succ fuel ih =>
    intro pos hfuel
    rw [passWhile]
    split
    · rename_i hlt
      rw [Checked.get_of_eq_some (List.getElem?_eq_getElem hlt), Checked.ok_bind,
        List.drop_eq_getElem_cons hlt]
      cases htest : test bytes[pos] with
      | true =>
        rw [if_pos rfl, ih (by omega), List.takeWhile_cons_of_pos htest, List.length_cons]
        congr 1
        omega
      | false =>
        rw [if_neg (by simp), List.takeWhile_cons_of_neg (by simp [htest])]
        rfl
    · rename_i hle
      rw [List.drop_eq_nil_of_le (by omega)]
      rfl

theorem Place.passWhile {test : Char → Bool} (htest : Coarse test) {text rest : List Char} {pos : Nat}
    (h : Place text pos rest) {fuel : Nat} (hfuel : width rest < fuel) :
    Text.passWhile test (octets text) fuel pos = .ok (pos + width (rest.takeWhile test)) := by
  have hwidth := h.pos_add_width
  rw [passWhile_eq test _ _ (by rw [length_octets]; omega), h.octets_eq,
    htest.length_takeWhile_octets]

end Recompile.Text
