import Recompile.Host.Basic
import Recompile.Host.Volume
import Recompile.Proofs.Data.OrdMap
import Recompile.Proofs.Path.Tidy

/-!
What a write to one file leaves as it is, and which paths are read from that file.
-/

namespace Recompile

/-- What a write to a file may change: nothing elsewhere, and it takes no file away. -/
structure FileSystem.AgreeBut {σ : Type} [FileSystem σ] (written : Path) (fs fs' : σ) : Prop where
  read : ∀ p : Path, p.components ≠ written.components → FileSystem.read fs' p = FileSystem.read fs p
  present : ∀ p : Path, p.components ≠ written.components →
    FileSystem.present fs' p = FileSystem.present fs p
  kept : ∀ p : Path, FileSystem.present fs p = true → FileSystem.present fs' p = true
  capacity : FileSystem.capacity fs ≤ FileSystem.capacity fs'

theorem Utf8.decode_toUTF8 (text : String) : decode text.toUTF8 = .ok text := by
  have hvalid : String.fromUTF8? text.toUTF8 = some text := by
    unfold String.fromUTF8?
    rw [dif_pos (by simpa using text.isValidUTF8)]
    rfl
  rw [decode, hvalid]

theorem Volume.read_of_stored {v : Volume} {p : Path} {text : String}
    (hdenied : v.readDenied.contains p = false) (hstored : v.stored? p = some text.toUTF8) :
    FileSystem.read v p = .ok text := by
  simp only [FileSystem.read, Volume.read, hdenied, hstored, Utf8.decode_toUTF8]
  rfl

namespace Host

def Away (h : Host) (file p : Path) : Prop := (h.actual p).components ≠ file.components

theorem Away.congr {h : Host} {file p q : Path} (hpq : p.components = q.components) (hp : h.Away file p) :
    h.Away file q := by
  have hget : h.replacements.get? p = h.replacements.get? q := by
    unfold OrdMap.get? OrdMap.entry?
    congr 2
    funext e
    show (compare p.components e.1.components == .eq) = (compare q.components e.1.components == .eq)
    rw [hpq]
  unfold Away actual at hp ⊢
  rw [← hget]
  cases hfound : h.replacements.get? p with
  | some target => rwa [hfound] at hp
  | none =>
    rw [hfound] at hp
    rwa [Option.getD_none, ← hpq]

end Host

end Recompile
