import Mathlib.Algebra.Group.Nat.Defs
import Recompile.Proofs.Digest.Bytes

/-!
Streams that stand for sequences of parts. A stream starts with the size of the first part, so it tells
that part, unless sizes are the same up to 64 bits only. So a stream tells all its parts, and two
sequences of parts have one digest only if their streams collide under the hash.
-/

namespace Recompile.Digest

def frameBytes (parts : List ByteArray) : List UInt8 :=
  parts.flatMap fun part => wordBytes (UInt64.ofNat part.size) ++ part.data.toList

theorem toList_frame (parts : List ByteArray) : (frame parts).data.toList = frameBytes parts := by
  have hstream : ∀ stream : ByteArray, (parts.foldl (fun stream part =>
      stream ++ ByteArray.mk (wordBytes (UInt64.ofNat part.size)).toArray ++ part) stream).data.toList =
        stream.data.toList ++ frameBytes parts := by
    induction parts with
    | nil => exact fun stream => (List.append_nil _).symm
    | cons part parts ih =>
      intro stream
      rw [List.foldl_cons, ih]
      simp [frameBytes]
  exact (hstream ByteArray.empty).trans (List.nil_append _)

theorem frameBytes_cons (part : ByteArray) (parts : List ByteArray) : frameBytes (part :: parts) =
    wordBytes (UInt64.ofNat part.size) ++ (part.data.toList ++ frameBytes parts) := by
  rw [frameBytes, List.flatMap_cons, List.append_assoc]
  rfl

theorem frameBytes_eq_of_frame {parts parts' : List ByteArray} (h : frame parts = frame parts') :
    frameBytes parts = frameBytes parts' := by
  rw [← toList_frame, ← toList_frame, h]

theorem frameBytes_cons_inj {a b : ByteArray} {as bs : List ByteArray}
    (h : frameBytes (a :: as) = frameBytes (b :: bs))
    (hsize : a.size = b.size ∨ a.size < 2 ^ 64 ∧ b.size < 2 ^ 64) :
    a = b ∧ frameBytes as = frameBytes bs := by
  rw [frameBytes_cons, frameBytes_cons] at h
  obtain ⟨hword, hrest⟩ := List.append_inj h (by rw [length_wordBytes, length_wordBytes])
  have hsame : a.size = b.size := by
    rcases hsize with hsame | ⟨ha, hb⟩
    · exact hsame
    · have hnat := congrArg UInt64.toNat (wordBytes_injective hword)
      rwa [UInt64.toNat_ofNat_of_lt' ha, UInt64.toNat_ofNat_of_lt' hb] at hnat
  obtain ⟨hpart, hparts⟩ := List.append_inj hrest (by simpa using hsame)
  exact ⟨ByteArray.ext (Array.toList_inj.mp hpart), hparts⟩

theorem frameBytes_cons_ne_nil (part : ByteArray) (parts : List ByteArray) :
    frameBytes (part :: parts) ≠ [] := by
  rw [frameBytes_cons]
  exact List.append_ne_nil_of_left_ne_nil (List.cons_ne_nil _ _) _

def Sized (parts : List ByteArray) : Prop := ∀ part ∈ parts, part.size < 2 ^ 64

theorem frameBytes_injective : ∀ {as bs : List ByteArray}, Sized as → Sized bs →
    frameBytes as = frameBytes bs → as = bs
  | [], [], _, _, _ => rfl
  | [], b :: bs, _, _, h => absurd h.symm (frameBytes_cons_ne_nil b bs)
  | a :: as, [], _, _, h => absurd h (frameBytes_cons_ne_nil a as)
  | a :: as, b :: bs, has, hbs, h => by
    obtain ⟨ha, has'⟩ := List.forall_mem_cons.mp has
    obtain ⟨hb, hbs'⟩ := List.forall_mem_cons.mp hbs
    obtain ⟨hpart, hrest⟩ := frameBytes_cons_inj h (.inr ⟨ha, hb⟩)
    rw [hpart, frameBytes_injective has' hbs' hrest]

theorem hash_eq_of_ofData {a b : ByteArray} (h : ofData a = ofData b) : Xxh3.hash a = Xxh3.hash b := by
  rw [ofData, ofData, Digest.mk.injEq] at h
  cases ha : Xxh3.hash a with
  | mk low high =>
    cases hb : Xxh3.hash b with
    | mk low' high' =>
      rw [ha, hb] at h
      rw [Xxh3.Word128.mk.injEq]
      exact h

inductive Part where
  | data (bytes : ByteArray)
  | text (t : String)
  | digest (d : Digest)

def Part.bytes : Part → ByteArray
  | data bytes => bytes
  | text t => t.toUTF8
  | digest d => d.toData

/-- The stream of parts tells their bytes, in whatever form they are given. Two sequences of parts that
differ have one digest only if the hash is the same for two streams that differ. -/
theorem frame_eq_iff {ps qs : List Part} (hps : ∀ p ∈ ps, p.bytes.size < 2 ^ 64)
    (hqs : ∀ q ∈ qs, q.bytes.size < 2 ^ 64) :
    (frame (ps.map Part.bytes) = frame (qs.map Part.bytes) ↔ ps.map Part.bytes = qs.map Part.bytes) ∧
      (ps.map Part.bytes ≠ qs.map Part.bytes →
        ofParts (ps.map Part.bytes) = ofParts (qs.map Part.bytes) →
          frame (ps.map Part.bytes) ≠ frame (qs.map Part.bytes) ∧
            Xxh3.hash (frame (ps.map Part.bytes)) = Xxh3.hash (frame (qs.map Part.bytes))) := by
  have hinjective : frame (ps.map Part.bytes) = frame (qs.map Part.bytes) →
      ps.map Part.bytes = qs.map Part.bytes := fun h =>
    frameBytes_injective (List.forall_mem_map.mpr hps) (List.forall_mem_map.mpr hqs)
      (frameBytes_eq_of_frame h)
  exact ⟨⟨hinjective, congrArg frame⟩, fun hne hdigest =>
    ⟨fun hframe => hne (hinjective hframe), hash_eq_of_ofData hdigest⟩⟩

theorem frame_ne_of_split : frame ([.text "ab", .text "c", .digest ⟨1, 0⟩].map Part.bytes) ≠
    frame ([.text "a", .data "bc".toUTF8, .digest ⟨1, 0⟩].map Part.bytes) := by
  have hsizes : ∀ p ∈ [Part.text "ab", .text "c", .digest ⟨1, 0⟩], p.bytes.size < 2 ^ 64 := by
    simp only [List.forall_mem_cons]
    decide
  have hsizes' : ∀ p ∈ [Part.text "a", .data "bc".toUTF8, .digest ⟨1, 0⟩], p.bytes.size < 2 ^ 64 := by
    simp only [List.forall_mem_cons]
    decide
  exact fun h => absurd ((frame_eq_iff hsizes hsizes').1.mp h) (by decide)

end Recompile.Digest
