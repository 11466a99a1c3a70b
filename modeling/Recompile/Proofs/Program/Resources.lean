import Recompile.Emit.Script
import Recompile.Proofs.Emit.Script
import Recompile.Proofs.Program.Resolution

/-!
The resources of modules: which files stand behind them, and what of them does not depend on the
files at all.
-/

namespace Recompile

namespace Program

/-- No module stands where a shadow does. -/
def ShadowsApart (p : Program) : Prop :=
  ∀ id ∈ p.origins.keys, p.module? id = none

namespace Built

open BuildState

variable {σ : Type} [FileSystem σ] {c c' : BuildContext σ} {s s' : BuildState} {p p' : Program}
variable {r r' : Registry}

theorem origin_of_read (h : Built c s p r) (hapart : p.ShadowsApart) {id : FileId}
    {f : SourceFile} (hf : s.program.file? id = some f) : p.origins.get? id = none := by
  cases ho : p.origins.get? id with
  | none => rfl
  | some o =>
    obtain ⟨q, text, -, hl⟩ := h.shadows.shadow ho
    obtain ⟨heq, -, hlf, -, -⟩ := h.sound.file_read hf
    have hcomp : f.path.components = (Shadow.path q).components :=
      Registry.components_eq_of_lookup? (h.shadows.within.lookup? hlf) hl
    have hkind : f.kind = .script := by
      rw [heq]
      exact (SourceKind.ofPath_congr hcomp).trans (Shadow.ofPath_path q)
    have hmodule := h.module?_of_file hf (by rw [hkind]; rfl)
    have hkey : id ∈ p.origins.keys := OrdMap.mem_keys_iff.mpr (OrdMap.contains_iff.mpr ⟨o, ho⟩)
    rw [hapart id hkey] at hmodule
    cases hmodule

theorem file?_of_read (h : Built c s p r) (hapart : p.ShadowsApart) {id : FileId}
    {f : SourceFile} (hf : s.program.file? id = some f) : p.file? id = some f := by
  rw [h.file?_eq (h.origin_of_read hapart hf), hf]

theorem resource_file (h : Built c s p r) {id i : FileId} {m : Module} {ref : ResourceRef}
    (hm : p.module? id = some m) (href : ref ∈ m.resources) (hfile : ref.file = some i) :
    ∃ text, s.registry.lookup? ref.path = some i ∧
      s.program.file? i = some (fileAt i ref.path text) := by
  obtain ⟨f, hf, hkind, rfl⟩ := h.module_cases hm
  obtain ⟨ref₁, href₁, rfl⟩ := List.mem_map.mp href
  obtain ⟨ref₀, href₀, rfl⟩ := List.mem_map.mp href₁
  unfold identified at hfile ⊢
  by_cases hcond : (c.full && ref₀.present) = true
  · rw [if_pos hcond] at hfile ⊢
    obtain ⟨hfull, hpres⟩ : c.full = true ∧ ref₀.present = true := by simpa using hcond
    have hlink : ref₀.path ∈ linksOf c f := mem_linksOf.mpr (.inr ⟨hfull, ref₀, href₀, hpres, rfl⟩)
    have hnext : ref₀.path ∈ nextOf c f := by
      unfold nextOf
      rwa [if_pos hkind]
    obtain ⟨j, hj⟩ := h.sound.links_known hf _ hnext
    simp only [Registry.intern_of_lookup? hj] at hfile ⊢
    by_cases hin : s.program.contains j = true
    · simp only [hin, ↓reduceIte, Option.some.injEq] at hfile ⊢
      subst hfile
      obtain ⟨g, hg⟩ := contains_iff_file?.mp hin
      obtain ⟨heq, htidy, hlg, -, -⟩ := h.sound.file_read hg
      have hpath : g.path = ref₀.path := Path.eq_of_components_eq htidy (tidy_linksOf hlink)
        (Registry.components_eq_of_lookup? hlg hj)
      refine ⟨g.text, hj, ?_⟩
      rw [hg, ← hpath, ← heq]
    · simp [hin] at hfile
  · rw [if_neg hcond] at hfile ⊢
    have hnone := (mem_refsOf href₀).2.1
    simp [hnone] at hfile

theorem fileOf?_of_resource (h : Built c s p r) (hapart : p.ShadowsApart) {id i : FileId}
    {m : Module} {ref : ResourceRef} (hm : p.module? id = some m) (href : ref ∈ m.resources)
    (hfile : ref.file = some i) : ∃ text, s.registry.lookup? ref.path = some i ∧
      s.program.file? i = some (fileAt i ref.path text) ∧
      Emit.fileOf? p ref = some (fileAt i ref.path text) := by
  obtain ⟨text, hl, hi⟩ := h.resource_file hm href hfile
  refine ⟨text, hl, hi, ?_⟩
  unfold Emit.fileOf?
  rw [hfile]
  exact h.file?_of_read hapart hi

theorem isNone_file (h : Built c s p r) (hapart : p.ShadowsApart) {id : FileId} {m : Module}
    (hm : p.module? id = some m) :
    ∀ ref ∈ m.resources, ref.file.isNone = (Emit.fileOf? p ref).isNone := by
  intro ref href
  cases hfile : ref.file with
  | none => simp [Emit.fileOf?, hfile]
  | some i =>
    obtain ⟨text, -, -, hfound⟩ := h.fileOf?_of_resource hapart hm href hfile
    rw [hfound]
    rfl

theorem labels_module (h : Built c s p r) {id : FileId} {m : Module} {f : SourceFile}
    (hf : s.program.file? id = some f) (hm : p.module? id = some m) :
    m.resources.map ResourceRef.label = (refsOf c f).map ResourceRef.label := by
  obtain ⟨g, hg, -, rfl⟩ := h.module_cases hm
  rw [hf] at hg
  cases hg
  simp only [settleModule, moduleOf, List.map_map]
  refine List.map_congr_left fun ref _ => ?_
  simp only [Function.comp_apply]
  have hidentified : (identified c s.registry ref).label = ref.label := by
    unfold identified
    split <;> rfl
  rw [← hidentified]
  cases (identified c s.registry ref).file with
  | none => rfl
  | some i => by_cases hin : s.program.contains i = true <;> simp [hin, ResourceRef.label]

end Built

end Program

end Recompile
