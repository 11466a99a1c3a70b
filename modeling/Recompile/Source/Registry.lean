import Recompile.Source.Basic

/-!
The registry hands out file identities: paths with the same components share one, and identities
never change.
-/

namespace Recompile

/-- The paths known so far; a path's position is its identity. -/
structure Registry where
  paths : List Path
deriving DecidableEq, Repr

namespace Registry

def empty : Registry := ⟨[]⟩

instance : Inhabited Registry := ⟨empty⟩

def size (r : Registry) : Nat := r.paths.length

def lookup? (r : Registry) (p : Path) : Option FileId := r.paths.findIdx? (p.same ·)

def path? (r : Registry) (id : FileId) : Option Path := r.paths[id]?

/-- The identity of a path, handed out on first sight. -/
def intern (r : Registry) (p : Path) : FileId × Registry :=
  match r.lookup? p with
  | some id => (id, r)
  | none => (r.size, ⟨r.paths ++ [p]⟩)

theorem path?_intern {r : Registry} {id : FileId} {q : Path} (p : Path)
    (h : r.path? id = some q) : (r.intern p).2.path? id = some q := by
  unfold intern
  split
  · exact h
  · obtain ⟨hid, -⟩ := List.getElem?_eq_some_iff.mp h
    simp only [path?] at h ⊢
    rw [List.getElem?_append_left hid]
    exact h

def internAll (r : Registry) (paths : List Path) : Registry :=
  paths.foldl (fun r p => (r.intern p).2) r

theorem path?_internAll {id : FileId} {q : Path} (paths : List Path) :
    ∀ {r : Registry}, r.path? id = some q → (r.internAll paths).path? id = some q := by
  induction paths with
  | nil => exact fun h => h
  | cons p rest ih => exact fun h => ih (path?_intern p h)

end Registry

end Recompile
