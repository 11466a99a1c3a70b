import Mathlib.Data.List.Basic
import Recompile.Ledger.BuildInfo
import Recompile.Proofs.Ledger.Affected
import Recompile.Proofs.Source.Registry

/-!
Ledgers all of whose files have paths in a registry. Identities that are handed out later do not
change how such a ledger is written.
-/

namespace Recompile

namespace Registry

def Knows (r : Registry) (id : FileId) : Prop := ∃ p, r.path? id = some p

theorem Knows.mono {r s : Registry} {id : FileId} (h : r.Knows id) (hw : r.Within s) : s.Knows id :=
  h.imp fun _ hp => hw.path? hp

theorem knows_of_lookup? {r : Registry} {p : Path} {id : FileId} (h : r.lookup? p = some id) :
    r.Knows id := (path?_of_lookup? h).imp fun _ hq => hq.1

theorem Within.path?_eq {r s : Registry} (hw : r.Within s) {id : FileId} (h : r.Knows id) :
    s.path? id = r.path? id := by
  obtain ⟨p, hp⟩ := h
  rw [hp, hw.path? hp]

end Registry

namespace Ledger

structure Named (r : Registry) (l : Ledger) : Prop where
  files : ∀ e ∈ l.files.entries, r.Knows e.1 ∧ ∀ id ∈ OrdSet.toList e.2.dependencies, r.Knows id
  pending : ∀ id ∈ OrdSet.toList l.pending, l.files.contains id = true

namespace Named

variable {r s : Registry} {l k : Ledger}

theorem knows_pending (h : l.Named r) {id : FileId} (hid : id ∈ OrdSet.toList l.pending) :
    r.Knows id := by
  obtain ⟨e, he, rfl⟩ := List.mem_map.mp (OrdMap.mem_keys_iff.mpr (h.pending id hid))
  exact (h.files e he).1

theorem mono (h : l.Named r) (hw : r.Within s) : l.Named s where
  files e he := ⟨(h.files e he).1.mono hw, fun id hid => ((h.files e he).2 id hid).mono hw⟩
  pending := h.pending

theorem shrink (h : l.Named r) (hfiles : k.files = l.files)
    (hpending : ∀ id ∈ OrdSet.toList k.pending, id ∈ OrdSet.toList l.pending) : k.Named r where
  files := by
    rw [hfiles]
    exact h.files
  pending id hid := by
    rw [hfiles]
    exact h.pending id (hpending id hid)

end Named

theorem contains_of_mem_pending_update {p : Program} {options : Digest} {prior : Option Ledger}
    {id : FileId} (h : id ∈ OrdSet.toList (update p options prior).1.pending) :
    (update p options prior).1.files.contains id = true := by
  rw [files_update]
  rcases update_cases p options prior with heq | ⟨l, -, -, heq⟩
  · rw [heq] at h
    have hid := (List.mem_filter.mp (OrdSet.mem_toList_ofList.mp h)).1
    exact OrdMap.mem_keys_iff.mp hid
  · rw [heq, OrdSet.mem_toList] at h
    unfold next at h
    dsimp only at h
    rcases OrdSet.mem_addAll.mp h with h | h
    · rw [OrdMap.contains_eq_isSome, OrdMap.get?_filter] at h
      split at h
      · assumption
      · cases h
    · obtain ⟨e, he, rfl⟩ := List.mem_map.mp (List.mem_filter.mp h).1
      exact OrdMap.mem_keys_iff.mp (List.mem_map.mpr ⟨e, (List.mem_filter.mp he).1, rfl⟩)

end Ledger

namespace BuildInfo

open Ledger

variable {r s : Registry} {l : Ledger}

theorem nameOf?_within (hw : r.Within s) (base : Path) {id : FileId} (h : r.Knows id) :
    nameOf? s base id = nameOf? r base id := by
  unfold nameOf?
  rw [hw.path?_eq h]

theorem ofLedger_within (h : l.Named r) (hw : r.Within s) (base : Path) :
    ofLedger l s base = ofLedger l r base := by
  have hname : ∀ {id}, r.Knows id → nameOf? s base id = nameOf? r base id :=
    nameOf?_within hw base
  have hentry : ∀ e ∈ l.files.entries,
      ((nameOf? s base e.1).map fun key => (key, savedFile l (nameOf? s base) e.1 e.2)) =
        (nameOf? r base e.1).map fun key => (key, savedFile l (nameOf? r base) e.1 e.2) := by
    intro e he
    obtain ⟨hid, hdeps⟩ := h.files e he
    have hsaved : savedFile l (nameOf? s base) e.1 e.2 = savedFile l (nameOf? r base) e.1 e.2 := by
      unfold savedFile
      rw [List.filterMap_congr fun id hmem => hname (hdeps id hmem)]
    rw [hname hid, hsaved]
  unfold ofLedger
  dsimp only
  rw [List.filterMap_congr hentry,
    List.filterMap_congr fun id hmem => hname (h.knows_pending hmem)]

theorem registry_identify (base : Path) (names : List String) : ∀ {r : Registry}, r.Distinct →
    r.Within (identify base r names).2 ∧ (identify base r names).2.Distinct := by
  induction names with
  | nil => exact fun h => ⟨.refl _, h⟩
  | cons name rest ih =>
    intro r h
    obtain ⟨hw, hd⟩ := ih (h.intern (base.resolve ⟨name⟩))
    exact ⟨(Registry.within_intern r _).trans hw, hd⟩

theorem registry_restoreFiles (base : Path) (saved : List (String × SavedFile)) :
    ∀ {state : Ledger × Registry}, state.2.Distinct →
      state.2.Within (saved.foldl (restoreFile base) state).2 ∧
        (saved.foldl (restoreFile base) state).2.Distinct := by
  induction saved with
  | nil => exact fun h => ⟨.refl _, h⟩
  | cons e rest ih =>
    intro state h
    obtain ⟨hw, hd⟩ := registry_identify base e.2.dependencies (h.intern (base.resolve ⟨e.1⟩))
    obtain ⟨hw', hd'⟩ := @ih (restoreFile base state e) hd
    exact ⟨((Registry.within_intern state.2 _).trans hw).trans hw', hd'⟩

theorem registry_toLedger (i : BuildInfo) (base : Path) {r : Registry} (h : r.Distinct) :
    r.Within (i.toLedger r base).2 ∧ (i.toLedger r base).2.Distinct := by
  obtain ⟨hw, hd⟩ := @registry_restoreFiles base i.files.entries
    ({ Ledger.empty with options := i.options }, r) h
  obtain ⟨hw', hd'⟩ := registry_identify base i.pending hd
  exact ⟨hw.trans hw', hd'⟩

end BuildInfo

end Recompile
