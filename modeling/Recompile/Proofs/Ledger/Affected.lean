import Recompile.Ledger.Basic
import Recompile.Proofs.Data.Closure
import Recompile.Proofs.Data.OrdMap

/-!
Which files an update of a ledger counts as affected, and what is known of those it does not.
-/

namespace Recompile

theorem OrdMap.Sorted.mem_keys_filter {κ : Type} {α : Type} [Ord κ] [Std.TransOrd κ]
    [Std.LawfulEqOrd κ] {m : OrdMap κ α} (h : m.Sorted) {test : κ → α → Bool} {k : κ} :
    k ∈ (m.filter test).keys ↔ ∃ a, m.get? k = some a ∧ test k a = true := by
  unfold OrdMap.keys OrdMap.filter
  simp only [List.mem_map, List.mem_filter]
  constructor
  · rintro ⟨e, ⟨he, ht⟩, rfl⟩
    exact ⟨e.2, h.get?_of_mem he, ht⟩
  · rintro ⟨a, ha, ht⟩
    exact ⟨(k, a), ⟨OrdMap.get?_mem ha, ht⟩, rfl⟩

namespace Program

theorem mem_importers {p : Program} (h : p.modules.Sorted) {id importer : FileId} {passes : Bool} :
    (importer, passes) ∈ p.importers id ↔
      ∃ m, p.module? importer = some m ∧ id ∈ m.targets ∧ passes = m.passesOn id := by
  unfold importers
  rw [List.mem_filterMap]
  constructor
  · rintro ⟨e, he, hif⟩
    split at hif
    · rename_i hid
      cases hif
      exact ⟨e.2, h.get?_of_mem he, by simpa using hid, rfl⟩
    · cases hif
  · rintro ⟨m, hm, hid, rfl⟩
    exact ⟨(importer, m), OrdMap.get?_mem hm, by simp [hid]⟩

theorem mem_importers_fst {p : Program} (h : p.modules.Sorted) {id importer : FileId} :
    importer ∈ (p.importers id).map (·.1) ↔ ∃ m, p.module? importer = some m ∧ id ∈ m.targets := by
  rw [List.mem_map]
  constructor
  · rintro ⟨⟨i, passes⟩, hi, rfl⟩
    obtain ⟨m, hm, hid, -⟩ := (mem_importers h).mp hi
    exact ⟨m, hm, hid⟩
  · rintro ⟨m, hm, hid⟩
    exact ⟨(importer, m.passesOn id), (mem_importers h).mpr ⟨m, hm, hid, rfl⟩, rfl⟩

theorem closed_passers (p : Program) (resigned : List FileId) :
    Closure.Closed (Ledger.passers p)
      (Closure.closure (Ledger.passers p) p.modules.size resigned) := by
  have hknown : ∀ a, ∀ b ∈ Ledger.passers p a, b ∈ p.modules.keys := by
    intro a b hb
    obtain ⟨x, hx, rfl⟩ := List.mem_map.mp hb
    obtain ⟨e, he, heq⟩ := List.mem_filterMap.mp (List.mem_filter.mp hx).1
    split at heq
    · cases heq
      exact List.mem_map.mpr ⟨e, he, rfl⟩
    · cases heq
  exact Closure.closed_closure_of_targets hknown (by simp [OrdMap.keys, OrdMap.size]) _

end Program

namespace Ledger

theorem get?_records (p : Program) (id : FileId) :
    (records p).get? id = (p.file? id).map (recordOf p) := OrdMap.get?_map _ _ _

theorem sorted_records {p : Program} (h : p.files.Sorted) : (records p).Sorted := h.map _

theorem mem_keys_records {p : Program} (h : p.files.Sorted) {test : FileId → FileRecord → Bool} {id : FileId} :
    id ∈ ((records p).filter test).keys ↔ ∃ f, p.file? id = some f ∧ test id (recordOf p f) = true := by
  rw [(sorted_records h).mem_keys_filter]
  simp only [get?_records, Option.map_eq_some_iff]
  constructor
  · rintro ⟨_, ⟨f, hf, rfl⟩, htest⟩
    exact ⟨f, hf, htest⟩
  · rintro ⟨f, hf, htest⟩
    exact ⟨_, ⟨f, hf, rfl⟩, htest⟩

theorem contains_next {p : Program} {prior : Ledger} {id : FileId} (hfiles : p.files.Sorted) :
    (next p prior).2.contains id = true ↔
      (∃ f, p.file? id = some f ∧ prior.isFresh id (recordOf p f) = true) ∨
      (∃ f, p.file? id = some f ∧ prior.isRelinked id (recordOf p f) = true) ∨
      id ∈ bereft prior (records p) ∨ id ∈ reached p ((records p).filter prior.isResigned).keys := by
  unfold next
  dsimp only
  rw [OrdSet.mem_ofList, List.mem_append, List.mem_append, List.mem_append, mem_keys_records hfiles,
    mem_keys_records hfiles, or_assoc, or_assoc]

/-- A file that an update does not count as affected was known before with the same text and the
same dependencies, and nothing it refers to is resigned. -/
theorem unaffected {p : Program} {prior : Ledger} {id : FileId} {f : SourceFile}
    (hfiles : p.files.Sorted) (hmodules : p.modules.Sorted) (hf : p.file? id = some f)
    (h : (next p prior).2.contains id = false) :
    ∃ old, prior.files.get? id = some old ∧ old.version = f.version ∧
      old.dependencies = (recordOf p f).dependencies ∧
      ∀ m, p.module? id = some m → ∀ target ∈ m.targets, ∀ g, p.file? target = some g →
        ∃ old, prior.files.get? target = some old ∧
          old.signature = (recordOf p g).signature := by
  have hnot := mt (contains_next hfiles).mpr (Bool.not_eq_true _ ▸ h)
  simp only [not_or, not_exists, not_and, Bool.not_eq_true] at hnot
  obtain ⟨hfresh, hlinked, -, hreached⟩ := hnot
  have hfresh := hfresh f hf
  have hlinked := hlinked f hf
  cases hold : prior.files.get? id with
  | none => simp [isFresh, hold] at hfresh
  | some old =>
    have hversion : old.version = (recordOf p f).version := by simpa [isFresh, hold] using hfresh
    refine ⟨old, rfl, hversion,
      by simpa [isRelinked, hold] using hlinked, ?_⟩
    intro m hm target htarget g hg
    have hsigned : prior.isResigned target (recordOf p g) = false := by
      cases htest : prior.isResigned target (recordOf p g) with
      | false => rfl
      | true =>
        have hseed := (mem_keys_records hfiles).mpr ⟨g, hg, htest⟩
        exact absurd (List.mem_flatMap.mpr ⟨target, Closure.subset_closure _ _ hseed,
          (Program.mem_importers_fst hmodules).mpr ⟨m, hm, htarget⟩⟩) hreached
    cases holdt : prior.files.get? target with
    | none => simp [isResigned, holdt] at hsigned
    | some oldt => exact ⟨oldt, rfl, by simpa [isResigned, holdt] using hsigned⟩

theorem contains_first {p : Program} {options : Digest} {id : FileId} :
    (first p options).2.contains id = p.contains id := by
  have h : (first p options).2.contains id = true ↔ p.contains id = true := by
    unfold first
    rw [OrdSet.mem_ofList, OrdMap.mem_keys_iff, OrdMap.contains_iff]
    simp only [get?_records, Option.map_eq_some_iff]
    refine Iff.trans ?_ OrdMap.contains_iff.symm
    constructor
    · rintro ⟨r, f, hf, -⟩
      exact ⟨f, hf⟩
    · rintro ⟨f, hf⟩
      exact ⟨_, f, hf, rfl⟩
  exact Bool.eq_iff_iff.mpr h

@[simp] theorem files_update (p : Program) (options : Digest) (prior : Option Ledger) :
    (update p options prior).1.files = records p := by
  unfold update
  split
  · rfl
  · split <;> rfl

@[simp] theorem options_update (p : Program) (options : Digest) (prior : Option Ledger) :
    (update p options prior).1.options = options := by
  unfold update
  split
  · rfl
  · split
    · rename_i heq
      exact heq
    · rfl

theorem update_cases (p : Program) (options : Digest) (prior : Option Ledger) :
    update p options prior = first p options ∨
      ∃ l, prior = some l ∧ l.options = options ∧ update p options prior = next p l := by
  cases prior with
  | none => exact .inl rfl
  | some l =>
    unfold update
    by_cases h : l.options = options
    · exact .inr ⟨l, rfl, h, if_pos h⟩
    · exact .inl (if_neg h)

theorem pending_first {p : Program} {options : Digest} {id : FileId} (h : p.isScript id = true)
    (hin : p.contains id = true) : (first p options).1.pending.contains id = true := by
  unfold first
  refine OrdSet.mem_ofList.mpr (List.mem_filter.mpr ⟨?_, h⟩)
  obtain ⟨f, hf⟩ := OrdMap.contains_iff.mp hin
  refine OrdMap.mem_keys_iff.mpr (OrdMap.contains_iff.mpr ⟨recordOf p f, ?_⟩)
  rw [get?_records]
  exact congrArg (Option.map (recordOf p)) hf

theorem contains_records_eq (p : Program) (id : FileId) : (records p).contains id = p.contains id := by
  rw [OrdMap.contains_eq_isSome, get?_records, Option.isSome_map, Program.contains, OrdMap.contains_eq_isSome]
  rfl

theorem contains_pending_next (prior : Ledger) {p : Program} (hfiles : p.files.Sorted) {id : FileId} :
    (next p prior).1.pending.contains id = true ↔
      (prior.pending.contains id = true ∧ p.contains id = true) ∨
      (p.isScript id = true ∧ ∃ f, p.file? id = some f ∧ prior.isFresh id (recordOf p f) = true) := by
  unfold next
  dsimp only
  rw [OrdSet.mem_addAll, List.mem_filter, mem_keys_records hfiles, OrdMap.contains_eq_isSome,
    OrdMap.get?_filter, contains_records_eq, OrdMap.contains_eq_isSome prior.pending, and_comm (b := p.isScript id = true)]
  refine or_congr ?_ Iff.rfl
  split
  · rename_i hin
    simp only [hin, and_true]
  · rename_i hout
    simp only [hout, Option.isSome_none, Bool.false_eq_true, and_false]

theorem pending_next (prior : Ledger) {p : Program} (hfiles : p.files.Sorted) {id : FileId}
    {f : SourceFile} (hf : p.file? id = some f) (hscript : p.isScript id = true) :
    (next p prior).1.pending.contains id = true ↔
      prior.pending.contains id = true ∨ prior.isFresh id (recordOf p f) = true := by
  have hin : p.contains id = true := OrdMap.contains_iff.mpr ⟨f, hf⟩
  rw [contains_pending_next prior hfiles]
  simp only [hin, hscript, hf, and_true, true_and, Option.some.injEq, exists_eq_left']

end Ledger

end Recompile
