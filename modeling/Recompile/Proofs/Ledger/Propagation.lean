import Recompile.Host.Volume
import Recompile.Proofs.Ledger.Affected
import Recompile.Proofs.Program.Shadow

/-!
How far a change reaches. Compared with the ledger of the build before it, a program has exactly the
affected files that its texts, its references, the files that are gone and the chains of re-exports make
out, also when modules re-export each other in circles.
-/

namespace Recompile

namespace OrdSet

theorem isEmpty_eq_false_iff {s : OrdSet FileId} : s.isEmpty = false ↔ ∃ id, s.contains id = true := by
  simp only [← mem_toList]
  unfold OrdMap.isEmpty toList OrdMap.keys
  rw [List.isEmpty_eq_false_iff_exists_mem]
  simp

end OrdSet

/-- Files and modules are kept under their identities, and modules are files. -/
structure Program.Indexed (p : Program) : Prop where
  files : p.files.Sorted
  modules : p.modules.Sorted
  id_eq : ∀ {id f}, p.file? id = some f → f.id = id
  contains : ∀ {id m}, p.module? id = some m → p.contains id = true

theorem Program.Built.indexed {σ : Type} [FileSystem σ] {c : BuildContext σ} {s : BuildState} {p : Program}
    {r : Registry} (h : Built c s p r) : p.Indexed where
  files := h.shadows.files_sorted
  modules := h.modules_sorted
  id_eq := h.id_eq
  contains hm := by
    obtain ⟨f, hf, -⟩ := h.module_cases hm
    exact h.contains_of_read hf

theorem Program.indexed_build {σ : Type} [FileSystem σ] {options : Options} {host : Host} {fs : σ} {full : Bool}
    {roots : List Path} {registry : Registry} (hr : registry.Distinct) {p : Program} {r : Registry}
    (h : build options host fs full registry roots = (.ok p, r)) : p.Indexed ∧ r.Distinct := by
  obtain ⟨s, -, -, ⟨e, heq⟩ | ⟨p', r', heq, hbuilt⟩⟩ := build_cases options host fs full roots hr
  · rw [h] at heq
    cases heq
  · rw [h] at heq
    cases heq
    exact ⟨hbuilt.indexed, hbuilt.shadows.distinct⟩

namespace Ledger

/-- Files that a ledger does not know, or knows with another text. -/
inductive Fresh (p : Program) (prior : Ledger) (id : FileId) : Prop where
  | new : p.contains id = true → prior.files.contains id = false → Fresh p prior id
  | changed {f : SourceFile} {old : FileRecord} : p.file? id = some f → prior.files.get? id = some old →
      old.version ≠ f.version → Fresh p prior id

/-- Files of which others may see something else than before: new ones, those with another signature,
and those that pass on the names of such a file. -/
inductive Stirred (p : Program) (prior : Ledger) : FileId → Prop where
  | new {id : FileId} : p.contains id = true → prior.files.contains id = false → Stirred p prior id
  | resigned {id : FileId} {old : FileRecord} : p.contains id = true → prior.files.get? id = some old →
      p.signature? id ≠ some old.signature → Stirred p prior id
  | passed {id importer : FileId} : Stirred p prior id → (importer, true) ∈ p.importers id →
      Stirred p prior importer

/-- Files that a change reaches. -/
inductive Touched (p : Program) (prior : Ledger) (id : FileId) : Prop where
  | fresh : Fresh p prior id → Touched p prior id
  | relinked {old : FileRecord} : prior.files.get? id = some old → old.dependencies ≠ p.dependencies id →
      Touched p prior id
  | bereft {old : FileRecord} {gone : FileId} : prior.files.get? id = some old →
      old.dependencies.contains gone = true → prior.files.contains gone = true →
      p.contains gone = false → Touched p prior id
  | importer {target : FileId} {passes : Bool} : Stirred p prior target →
      (id, passes) ∈ p.importers target → Touched p prior id

variable {p : Program} {prior : Ledger} {id : FileId}

theorem isFresh_iff {f : SourceFile} (hf : p.file? id = some f) :
    prior.isFresh id (recordOf p f) = true ↔ Fresh p prior id := by
  have hin : p.contains id = true := Program.contains_iff_file?.mpr ⟨f, hf⟩
  unfold isFresh
  cases hold : prior.files.get? id with
  | none =>
    have hout : prior.files.contains id = false := by rw [OrdMap.contains_eq_isSome, hold]; rfl
    exact iff_of_true rfl (.new hin hout)
  | some old =>
    dsimp only
    rw [decide_eq_true_eq]
    constructor
    · exact .changed hf hold
    · rintro (⟨-, hout⟩ | ⟨hf', hold', hne⟩)
      · rw [OrdMap.contains_eq_isSome, hold] at hout
        cases hout
      · rw [hf] at hf'
        rw [hold] at hold'
        cases hf'
        cases hold'
        exact hne

theorem fresh_iff : (∃ f, p.file? id = some f ∧ prior.isFresh id (recordOf p f) = true) ↔ Fresh p prior id := by
  constructor
  · rintro ⟨f, hf, htest⟩
    exact (isFresh_iff hf).mp htest
  · intro h
    have hin : ∃ f, p.file? id = some f := by
      cases h with
      | new hin _ => exact Program.contains_iff_file?.mp hin
      | changed hf _ _ => exact ⟨_, hf⟩
    obtain ⟨f, hf⟩ := hin
    exact ⟨f, hf, (isFresh_iff hf).mpr h⟩

theorem signature?_eq (hp : p.Indexed) {f : SourceFile} (hf : p.file? id = some f) :
    p.signature? id = some (recordOf p f).signature := by
  have hsome : ∃ d, p.signature? id = some d := by
    unfold Program.signature?
    split
    · exact ⟨f.version, by rw [hf]; rfl⟩
    · split <;> exact ⟨_, rfl⟩
  obtain ⟨d, hd⟩ := hsome
  rw [recordOf, hp.id_eq hf, hd]
  rfl

theorem records_iff (hp : p.Indexed) {r : FileRecord} : (records p).get? id = some r ↔
    ∃ f, p.file? id = some f ∧ r.version = f.version ∧ p.signature? id = some r.signature ∧
      r.dependencies = p.dependencies id := by
  rw [get?_records, Option.map_eq_some_iff]
  refine exists_congr fun f => and_congr_right fun hf => ?_
  rw [signature?_eq hp hf]
  constructor
  · rintro rfl
    exact ⟨rfl, rfl, by rw [recordOf, hp.id_eq hf]⟩
  · obtain ⟨version, signature, dependencies⟩ := r
    rintro ⟨rfl, hsignature, rfl⟩
    obtain rfl : (recordOf p f).signature = signature := Option.some.inj hsignature
    rw [recordOf, hp.id_eq hf]

theorem isResigned_iff (hp : p.Indexed) {f : SourceFile} (hf : p.file? id = some f) :
    prior.isResigned id (recordOf p f) = true ↔
      prior.files.contains id = false ∨ ∃ old, prior.files.get? id = some old ∧
        p.signature? id ≠ some old.signature := by
  unfold isResigned
  rw [signature?_eq hp hf, OrdMap.contains_eq_isSome]
  cases prior.files.get? id with
  | none => exact iff_of_true rfl (.inl rfl)
  | some old =>
    simp only [decide_eq_true_eq, Option.isSome_some, Bool.true_eq_false, ne_eq, Option.some.injEq, false_or,
      exists_eq_left']
    exact not_congr eq_comm

theorem isRelinked_iff (hp : p.Indexed) {f : SourceFile} (hf : p.file? id = some f) :
    prior.isRelinked id (recordOf p f) = true ↔
      ∃ old, prior.files.get? id = some old ∧ old.dependencies ≠ p.dependencies id := by
  unfold isRelinked
  rw [recordOf, hp.id_eq hf]
  cases prior.files.get? id with
  | none => simp
  | some old => simp

theorem mem_passers {importer : FileId} : importer ∈ passers p id ↔ (importer, true) ∈ p.importers id := by
  unfold passers
  rw [List.mem_map]
  constructor
  · rintro ⟨⟨i, passes⟩, hmem, rfl⟩
    obtain ⟨hmem, rfl⟩ := List.mem_filter.mp hmem
    exact hmem
  · exact fun hmem => ⟨_, List.mem_filter.mpr ⟨hmem, rfl⟩, rfl⟩

/-- The search from the files that are new or resigned finds all files that are stirred, and no other. -/
theorem mem_closure_iff (hp : p.Indexed) :
    id ∈ Closure.closure (passers p) p.modules.size ((records p).filter prior.isResigned).keys ↔
      Stirred p prior id := by
  constructor
  · refine Closure.closure_induction (fun id hid => ?_) fun id hid importer himporter => ?_
    · obtain ⟨f, hf, htest⟩ := (mem_keys_records hp.files).mp hid
      have hin : p.contains id = true := Program.contains_iff_file?.mpr ⟨f, hf⟩
      rcases (isResigned_iff hp hf).mp htest with hnew | ⟨old, hold, hsignature⟩
      · exact .new hin hnew
      · exact .resigned hin hold hsignature
    · exact .passed hid (mem_passers.mp himporter)
  · intro h
    have hseed : ∀ {id}, p.contains id = true → (prior.files.contains id = false ∨
        ∃ old, prior.files.get? id = some old ∧ p.signature? id ≠ some old.signature) →
        id ∈ Closure.closure (passers p) p.modules.size ((records p).filter prior.isResigned).keys := by
      intro id hin hchange
      obtain ⟨f, hf⟩ := Program.contains_iff_file?.mp hin
      exact Closure.subset_closure _ _
        ((mem_keys_records hp.files).mpr ⟨f, hf, (isResigned_iff hp hf).mpr hchange⟩)
    induction h with
    | new hin hnew => exact hseed hin (.inl hnew)
    | resigned hin hold hsignature => exact hseed hin (.inr ⟨_, hold, hsignature⟩)
    | passed _ himporter ih => exact p.closed_passers _ _ ih _ (mem_passers.mpr himporter)

theorem mem_reached (hp : p.Indexed) :
    id ∈ reached p ((records p).filter prior.isResigned).keys ↔
      ∃ target passes, Stirred p prior target ∧ (id, passes) ∈ p.importers target := by
  unfold reached
  rw [List.mem_flatMap]
  constructor
  · rintro ⟨target, htarget, hid⟩
    obtain ⟨⟨_, passes⟩, himporter, rfl⟩ := List.mem_map.mp hid
    exact ⟨target, passes, (mem_closure_iff hp).mp htarget, himporter⟩
  · rintro ⟨target, passes, htarget, himporter⟩
    exact ⟨target, (mem_closure_iff hp).mpr htarget, List.mem_map.mpr ⟨_, himporter, rfl⟩⟩

theorem mem_bereft (hprior : prior.files.Sorted) :
    id ∈ bereft prior (records p) ↔ p.contains id = true ∧ ∃ old gone, prior.files.get? id = some old ∧
      old.dependencies.contains gone = true ∧ prior.files.contains gone = true ∧ p.contains gone = false := by
  unfold bereft
  simp only [List.mem_map, List.mem_filter, Bool.and_eq_true, List.any_eq_true, contains_records_eq,
    Bool.not_eq_true', OrdMap.mem_keys_iff]
  constructor
  · rintro ⟨⟨i, old⟩, ⟨hmem, hin, gone, ⟨hknown, hgone⟩, hdep⟩, rfl⟩
    exact ⟨hin, old, gone, hprior.get?_of_mem hmem, hdep, hknown, hgone⟩
  · rintro ⟨hin, old, gone, hold, hdep, hknown, hgone⟩
    exact ⟨(id, old), ⟨OrdMap.get?_mem hold, hin, gone, ⟨hknown, hgone⟩, hdep⟩, rfl⟩

theorem contains_next_iff (hp : p.Indexed) (hprior : prior.files.Sorted) :
    (next p prior).2.contains id = true ↔ p.contains id = true ∧ Touched p prior id := by
  rw [contains_next hp.files, fresh_iff, mem_bereft hprior, mem_reached hp]
  constructor
  · rintro (h | ⟨f, hf, htest⟩ | ⟨hin, old, gone, hold, hdep, hknown, hgone⟩ | ⟨target, passes, htarget, himporter⟩)
    · obtain ⟨f, hf, -⟩ := fresh_iff.mpr h
      exact ⟨Program.contains_iff_file?.mpr ⟨f, hf⟩, .fresh h⟩
    · obtain ⟨old, hold, hne⟩ := (isRelinked_iff hp hf).mp htest
      exact ⟨Program.contains_iff_file?.mpr ⟨f, hf⟩, .relinked hold hne⟩
    · exact ⟨hin, .bereft hold hdep hknown hgone⟩
    · obtain ⟨m, hm, -, -⟩ := (Program.mem_importers hp.modules).mp himporter
      exact ⟨hp.contains hm, .importer htarget himporter⟩
  · rintro ⟨hin, h⟩
    cases h with
    | fresh h => exact .inl h
    | relinked hold hne =>
      obtain ⟨f, hf⟩ := Program.contains_iff_file?.mp hin
      exact .inr (.inl ⟨f, hf, (isRelinked_iff hp hf).mpr ⟨_, hold, hne⟩⟩)
    | bereft hold hdep hknown hgone => exact .inr (.inr (.inl ⟨hin, _, _, hold, hdep, hknown, hgone⟩))
    | importer htarget himporter => exact .inr (.inr (.inr ⟨_, _, htarget, himporter⟩))

theorem fingerprints_next : (next p prior).1.fingerprints.get? id =
    if p.contains id = true then prior.fingerprints.get? id else none := by
  show (prior.fingerprints.filter fun id _ => (records p).contains id).get? id = _
  rw [OrdMap.get?_filter, contains_records_eq]

theorem dirty_next : (next p prior).1.dirty = true ↔
    prior.dirty = true ∨ (∃ id, (next p prior).2.contains id = true) ∨ records p ≠ prior.files := by
  rw [← OrdSet.isEmpty_eq_false_iff]
  show (prior.dirty || !(next p prior).2.isEmpty || decide (records p ≠ prior.files)) = true ↔ _
  rw [Bool.or_eq_true, Bool.or_eq_true, Bool.not_eq_true', decide_eq_true_eq, or_assoc]

/-- An update records each file as it is. Without a ledger for the same options all files are affected.
After one for the same options these are the files that a change reaches, what is pending stays so while
it is there and the fresh scripts join it, fingerprints are kept with their files, and the ledger is to be
written when it was, when a file is affected, or when other files are recorded. -/
theorem update_affected (hp : p.Indexed) (options : Digest) (known : Option Ledger)
    (hknown : ∀ l, known = some l → l.files.Sorted) :
    let l' := (update p options known).1
    let affected := (update p options known).2
    (∀ id r, l'.files.get? id = some r ↔ ∃ f, p.file? id = some f ∧ r.version = f.version ∧
      p.signature? id = some r.signature ∧ r.dependencies = p.dependencies id) ∧
    ((∀ l, known = some l → l.options ≠ options) → ∀ id, affected.contains id = true ↔ p.contains id = true) ∧
    ∀ l, known = some l → l.options = options →
      (∀ id, affected.contains id = true ↔ p.contains id = true ∧ Touched p l id) ∧
      (∀ id, l'.pending.contains id = true ↔
        (l.pending.contains id = true ∧ p.contains id = true) ∨ (p.isScript id = true ∧ Fresh p l id)) ∧
      (∀ id, l'.fingerprints.get? id = if p.contains id = true then l.fingerprints.get? id else none) ∧
      (l'.dirty = true ↔ l.dirty = true ∨ (∃ id, affected.contains id = true) ∨ l'.files ≠ l.files) := by
  intro l' affected
  refine ⟨fun id r => ?_, fun hother id => ?_, ?_⟩
  · show (update p options known).1.files.get? id = some r ↔ _
    rw [files_update]
    exact records_iff hp
  · rcases update_cases p options known with heq | ⟨l, hl, hoptions, -⟩
    · show (update p options known).2.contains id = true ↔ _
      rw [heq, contains_first]
    · exact absurd hoptions (hother l hl)
  · rintro l rfl hoptions
    have heq : update p options (some l) = next p l := if_pos hoptions
    show (∀ id, (update p options (some l)).2.contains id = true ↔ _) ∧
      (∀ id, (update p options (some l)).1.pending.contains id = true ↔ _) ∧
      (∀ id, (update p options (some l)).1.fingerprints.get? id = _) ∧
      ((update p options (some l)).1.dirty = true ↔ l.dirty = true ∨
        (∃ id, (update p options (some l)).2.contains id = true) ∨ (update p options (some l)).1.files ≠ l.files)
    rw [heq]
    refine ⟨fun id => contains_next_iff hp (hknown l rfl), fun id => ?_, fun id => fingerprints_next, dirty_next⟩
    rw [contains_pending_next l hp.files, fresh_iff]

set_option maxRecDepth 100000

/-- Two modules that re-export each other, and one that refers to a file which is soon gone. -/
def barrels : Volume := .ofTexts [
  (⟨"/main.ts"⟩, "import './a';"), (⟨"/a.ts"⟩, "export * from './b';"),
  (⟨"/b.ts"⟩, "export * from './a';\nexport const x = 1;"), (⟨"/c.ts"⟩, "import './gone';"), (⟨"/gone.ts"⟩, "")]

def barrelsEdited : Volume := .ofTexts [
  (⟨"/main.ts"⟩, "import './a';"), (⟨"/a.ts"⟩, "export * from './b';"),
  (⟨"/b.ts"⟩, "export * from './a';\nexport const y = 1;"), (⟨"/c.ts"⟩, "import './gone';")]

/-- The ledger of a build, when the first file and the last one have not been emitted yet. -/
def halfEmitted (p : Program) : Ledger :=
  { (first p default).1 with pending := OrdSet.ofList [0, 3], dirty := false }

theorem update_affected_barrels :
    let options := Options.ofConfigPath ⟨"/k"⟩
    let host : Host := ⟨OrdMap.empty, .passthrough⟩
    let roots : List Path := [⟨"/main.ts"⟩, ⟨"/c.ts"⟩]
    let before := Program.build options host barrels false Registry.empty roots
    ∃ p q r, before.1 = .ok p ∧
      Program.build options host barrelsEdited false before.2 roots = (.ok q, r) ∧ q.Indexed ∧
      (∀ l, some (halfEmitted p) = some l → l.files.Sorted) ∧
      (∀ id, (update q default (some (halfEmitted p))).2.contains id = true ↔
        q.contains id = true ∧ Touched q (halfEmitted p) id) ∧
      OrdSet.toList (update q default (some (halfEmitted p))).2 = [0, 1, 2, 4] ∧
      OrdSet.toList (update q default (some (halfEmitted p))).1.pending = [0, 4] := by
  intro options host roots before
  have hresult : (before.1.toOption.bind fun p =>
      (Program.build options host barrelsEdited false before.2 roots).1.toOption.map fun q =>
        (OrdSet.toList (update q default (some (halfEmitted p))).2,
          OrdSet.toList (update q default (some (halfEmitted p))).1.pending)) =
      some ([0, 1, 2, 4], [0, 4]) := by decide +kernel
  cases hbefore : before.1 with
  | error e =>
    rw [hbefore] at hresult
    cases hresult
  | ok p =>
    obtain ⟨hp, hr⟩ := Program.indexed_build Registry.distinct_empty (show before = (.ok p, before.2) from
      Prod.ext hbefore rfl)
    rw [hbefore] at hresult
    generalize hafter : Program.build options host barrelsEdited false before.2 roots = after at hresult
    obtain ⟨made, r⟩ := after
    cases made with
    | error e => cases hresult
    | ok q =>
      simp only [Except.toOption, Option.bind_some, Option.map_some, Option.some.injEq, Prod.mk.injEq] at hresult
      obtain ⟨hq, -⟩ := Program.indexed_build hr hafter
      have hsorted : ∀ l, some (halfEmitted p) = some l → l.files.Sorted := by
        rintro _ ⟨⟩
        exact sorted_records hp.files
      obtain ⟨-, -, hnext⟩ := update_affected hq default (some (halfEmitted p)) hsorted
      exact ⟨p, q, r, rfl, rfl, hq, hsorted, (hnext _ rfl rfl).1, hresult.1, hresult.2⟩

end Ledger

end Recompile
