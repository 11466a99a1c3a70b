import Recompile.Source.Registry

/-!
Identities: a path that is known keeps its identity in every later registry, and no two identities
stand for the same components.
-/

namespace Recompile.Registry

/-- No two entries have the same components. -/
def Distinct (r : Registry) : Prop := r.paths.Pairwise fun p q => p.components ≠ q.components

def Within (r s : Registry) : Prop := r.paths <+: s.paths

theorem Within.refl (r : Registry) : r.Within r := List.prefix_rfl

theorem Within.trans {r s t : Registry} (h : r.Within s) (h' : s.Within t) : r.Within t :=
  List.IsPrefix.trans h h'

theorem Within.path? {r s : Registry} (h : r.Within s) {id : FileId} {p : Path}
    (hp : r.path? id = some p) : s.path? id = some p := by
  obtain ⟨tail, ht⟩ := h
  obtain ⟨hid, -⟩ := List.getElem?_eq_some_iff.mp hp
  unfold Registry.path? at hp ⊢
  rw [← ht, List.getElem?_append_left hid, hp]

theorem Within.lookup? {r s : Registry} (h : r.Within s) {p : Path} {id : FileId}
    (hp : r.lookup? p = some id) : s.lookup? p = some id := by
  obtain ⟨tail, ht⟩ := h
  unfold Registry.lookup? at hp ⊢
  rw [← ht, List.findIdx?_append, hp]
  rfl

theorem same_iff {p q : Path} : p.same q = true ↔ p.components = q.components := by
  simp [Path.same]

theorem lookup?_congr (r : Registry) {p q : Path} (h : p.components = q.components) :
    r.lookup? p = r.lookup? q := by
  unfold lookup?
  congr 1
  funext x
  simp [Path.same, h]

theorem path?_of_lookup? {r : Registry} {p : Path} {id : FileId} (h : r.lookup? p = some id) :
    ∃ q, r.path? id = some q ∧ q.components = p.components := by
  obtain ⟨hid, hsame, -⟩ := List.findIdx?_eq_some_iff_getElem.mp h
  exact ⟨r.paths[id], List.getElem?_eq_getElem hid, (same_iff.mp hsame).symm⟩

theorem components_eq_of_lookup? {r : Registry} {p q : Path} {id : FileId}
    (hp : r.lookup? p = some id) (hq : r.lookup? q = some id) : p.components = q.components := by
  obtain ⟨x, hx, hxp⟩ := path?_of_lookup? hp
  obtain ⟨y, hy, hyq⟩ := path?_of_lookup? hq
  rw [hx] at hy
  cases hy
  rw [← hxp, hyq]

theorem Distinct.lookup?_of_path? {r : Registry} (hr : r.Distinct) {id : FileId} {q : Path}
    (h : r.path? id = some q) : r.lookup? q = some id := by
  obtain ⟨hid, rfl⟩ := List.getElem?_eq_some_iff.mp h
  refine List.findIdx?_eq_some_iff_getElem.mpr ⟨hid, same_iff.mpr rfl, fun j hj hsame => ?_⟩
  exact (List.pairwise_iff_getElem.mp hr) j id (by omega) hid hj (same_iff.mp hsame).symm

theorem intern_of_lookup? {r : Registry} {p : Path} {id : FileId} (h : r.lookup? p = some id) :
    r.intern p = (id, r) := by
  unfold intern
  rw [h]

theorem within_intern (r : Registry) (p : Path) : r.Within (r.intern p).2 := by
  unfold intern
  split
  · exact .refl r
  · exact List.prefix_append _ _

theorem lookup?_intern (r : Registry) (p : Path) :
    (r.intern p).2.lookup? p = some (r.intern p).1 := by
  cases h : r.lookup? p with
  | some id => simp [intern_of_lookup? h, h]
  | none =>
    have hid : (r.intern p) = (r.size, ⟨r.paths ++ [p]⟩) := by
      unfold intern
      rw [h]
    have hsame : p.same p = true := same_iff.mpr rfl
    unfold lookup? at h
    rw [hid]
    simp [lookup?, List.findIdx?_append, h, hsame, size, List.findIdx?_cons]

theorem Distinct.intern {r : Registry} (h : r.Distinct) (p : Path) : (r.intern p).2.Distinct := by
  unfold Registry.intern
  split
  · exact h
  · rename_i hnone
    refine List.pairwise_append.mpr ⟨h, List.pairwise_singleton _ _, fun q hq x hx hsame => ?_⟩
    rw [List.mem_singleton.mp hx] at hsame
    have := List.findIdx?_eq_none_iff.mp hnone q hq
    simp [same_iff.mpr hsame.symm] at this

theorem within_internAll (paths : List Path) : ∀ r : Registry, r.Within (r.internAll paths) := by
  induction paths with
  | nil => exact Within.refl
  | cons p rest ih => exact fun r => (within_intern r p).trans (ih (r.intern p).2)

theorem Distinct.internAll (paths : List Path) :
    ∀ {r : Registry}, r.Distinct → (r.internAll paths).Distinct := by
  induction paths with
  | nil => exact fun h => h
  | cons p rest ih => exact fun h => ih (h.intern p)

theorem lookup?_internAll {p : Path} {paths : List Path} (h : p ∈ paths) (r : Registry) :
    ∃ id, (r.internAll paths).lookup? p = some id := by
  induction paths generalizing r with
  | nil => cases h
  | cons q rest ih =>
    rcases List.mem_cons.mp h with rfl | h
    · exact ⟨_, (within_internAll rest _).lookup? (lookup?_intern r p)⟩
    · exact ih h (r.intern q).2

theorem Within.intern_fst {r s : Registry} (h : r.Within s) {p : Path}
    (hp : ∃ id, r.lookup? p = some id) : (s.intern p).1 = (r.intern p).1 := by
  obtain ⟨id, hid⟩ := hp
  rw [intern_of_lookup? hid, intern_of_lookup? (h.lookup? hid)]

theorem distinct_empty : empty.Distinct := .nil

end Recompile.Registry
