import Recompile.Proofs.Text.Octets
import Recompile.Proofs.Text.Order

/-!
Cuts of a text as cuts of its bytes.
-/

namespace Recompile.Text

def encoded (cs : List Char) : List UInt8 := cs.flatMap String.utf8EncodeChar

theorem bytes_eq_encoded (text : String) : bytes text = encoded text.toList := bytes_eq text

@[simp] theorem encoded_cons (c : Char) (cs : List Char) :
    encoded (c :: cs) = String.utf8EncodeChar c ++ encoded cs := rfl

@[simp] theorem encoded_append (xs ys : List Char) : encoded (xs ++ ys) = encoded xs ++ encoded ys :=
  List.flatMap_append

@[simp] theorem length_encoded (cs : List Char) : (encoded cs).length = width cs := by
  induction cs with
  | nil => rfl
  | cons c cs ih => rw [encoded_cons, List.length_append, String.length_utf8EncodeChar, ih, width_cons]

theorem bytes_injective : Function.Injective bytes := by
  have hle : ∀ {a b : String}, bytes a = bytes b → a ≤ b := fun h =>
    bytes_le_iff.mp (h ▸ List.le_refl _)
  exact fun a b h => le_antisymm (hle h) (hle h.symm)

theorem Place.drop_encoded {text rest : List Char} {pos : Nat} (h : Place text pos rest) :
    (encoded text).drop pos = encoded rest := by
  obtain ⟨before, rfl, rfl⟩ := h
  rw [encoded_append, ← length_encoded, List.drop_left]

theorem encoded_slice? {text mid : List Char} {start stop : Nat}
    (h : slice? text start stop = some mid) :
    encoded mid = ((encoded text).drop start).take (stop - start) := by
  obtain ⟨rfl, rest, hplace⟩ := Place.of_slice? h
  rw [hplace.drop_encoded, encoded_append, Nat.add_sub_cancel_left, ← length_encoded, List.take_left]

theorem encoded_splitAt? {text : List Char} {pos : Nat} {parts : List Char × List Char}
    (h : splitAt? text pos = some parts) : encoded parts.2 = (encoded text).drop pos := by
  obtain ⟨htext, hwidth⟩ := splitAt?_eq_some h
  exact (Place.drop_encoded ⟨parts.1, htext, hwidth.symm⟩).symm

end Recompile.Text
