import Recompile.Proofs.Emit.Determined
import Recompile.Proofs.Program.Closed
import Recompile.Proofs.Program.Identities

/-!
Builds done again: from other identities, or after a write to a file that no build comes to. They fail
again, or leave the same program, with shadows that are apart when they were before.
-/

namespace Recompile

namespace BuildState

variable {σ : Type} [FileSystem σ] {c : BuildContext σ} {queue : List Path} {Good : Path → Prop}

end BuildState

namespace Shadow

open Registry

end Shadow

namespace Program

open BuildState Registry

namespace Same

variable {R : FileId → FileId → Prop} {p p' : Program}

theorem origin_left (h : Same R p p') {o' : FileId} {f' : SourceFile} (ho : o' ∈ Shadow.origins p')
    (hf' : p'.file? o' = some f') :
    ∃ o f, R o o' ∧ o ∈ Shadow.origins p ∧ p.file? o = some f ∧ f.path = f'.path := by
  obtain ⟨g', m', hg', hkind, hm', hcomponents⟩ := (Shadow.mem_origins h.proper_right.modules).mp ho
  obtain rfl := Option.some.inj (hf'.symm.trans hg')
  obtain ⟨o, hoo⟩ := h.right hf'
  obtain ⟨f, hf, hcontent⟩ := some_rel (hf' ▸ h.file hoo)
  obtain ⟨m, hm, hsame⟩ := some_rel (hm' ▸ h.module hoo)
  obtain ⟨g, hg⟩ := hsame.outline
  refine ⟨o, f, hoo, (Shadow.mem_origins h.proper_left.modules).mpr ⟨f, m, hf, ?_, hm, ?_⟩, hf,
    SourceFile.path_congr hcontent⟩
  · rw [SourceFile.kind_congr hcontent, hkind]
  · intro hnone
    rw [hg] at hcomponents
    simp [Script.Outline.moved, hnone] at hcomponents

theorem own (h : Same R p p') (hR : Relator.BiUnique R) (hown : p.ShadowsOwn) : p'.ShadowsOwn := by
  intro a' ha' b' hb' f' g' hf' hg' hsame
  obtain ⟨a, f, haa, ha, hf, hfpath⟩ := h.origin_left ha' hf'
  obtain ⟨b, g, hbb, hb, hg, hgpath⟩ := h.origin_left hb' hg'
  obtain rfl : a = b := hown a ha b hb f g hf hg (by rw [hfpath, hgpath, hsame])
  exact hR.2 haa hbb

end Same

namespace Built

variable {σ : Type} [FileSystem σ] {c c' : BuildContext σ} {s s' : BuildState} {p p' : Program}
variable {r r' : Registry} {Good : Path → Prop}

end Built

section Again

variable {σ : Type} [FileSystem σ] {c c' : BuildContext σ} {r r' : Registry} {queue : List Path}
variable {Good : Path → Prop}

variable {o : Options} {host : Host} {fs fs' : σ} {full : Bool} {roots : List Path}

end Again

end Program

namespace Stylesheets

variable {σ : Type} [FileSystem σ] {host : Host} {fs : σ}

theorem takeAll_succeeds (old : Stylesheets) (sheets : List Sheet)
    (h : ∀ sheet ∈ sheets, ∃ r, sheet.process host fs = .ok r) :
    ∀ (new : OrdMap StyleKey ProcessedSheet) (count : Nat),
      ∃ entries n, takeAll host fs old new count sheets = .ok (entries, n) := by
  induction sheets with
  | nil => exact fun new count => ⟨new, count, rfl⟩
  | cons sheet rest ih =>
    intro new count
    have hrest := ih fun s hs => h s (by simp [hs])
    obtain ⟨resource, hresource⟩ := h sheet (by simp)
    unfold takeAll
    split
    · exact hrest new count
    · cases old.kept? sheet with
      | some e => exact hrest _ count
      | none =>
        simp only [hresource]
        exact hrest _ _

end Stylesheets

namespace Program.Built

open BuildState

variable {σ : Type} [FileSystem σ] {c : BuildContext σ} {p : Program} {q r : Registry}

theorem process_sheets {roots : List Path} (h : Built c (outcome c r (roots.map Path.normalize)) p q) :
    ∀ sheet ∈ p.sheets, ∃ resource, sheet.process c.host c.fs = .ok resource := by
  intro sheet hsheet
  obtain ⟨id, f, m, hs, huses⟩ := h.mem_sheets.mp hsheet
  cases huses with
  | inline => exact ⟨_, rfl⟩
  | @file ref g href _ hg =>
    obtain ⟨-, hm, -⟩ := Emit.scriptOf?_eq_some.mp hs
    cases hfile : ref.file with
    | none => simp [Emit.fileOf?, hfile] at hg
    | some i =>
      obtain ⟨text, -, hread⟩ := h.resource_file hm href hfile
      have hnormal : ∀ p ∈ roots.map Path.normalize, p.Normal := by
        intro p hp
        obtain ⟨root, -, rfl⟩ := List.mem_map.mp hp
        exact Path.normal_normalize root
      -- a shadow that hides what was read has its path
      have hpath : g.path = ref.path := by
        have hsettled : (settle (outcome c r (roots.map Path.normalize)).program).file? i =
            some (fileAt i ref.path text) := hread
        have hgi : p.file? i = some g := by simpa [Emit.fileOf?, hfile] using hg
        have hfinish := h.finish
        cases hfull : c.full with
        | false =>
          rw [hfull] at hfinish
          rw [(Prod.mk.inj hfinish).1] at hgi
          obtain rfl := Option.some.inj (hsettled.symm.trans hgi)
          rfl
        | true =>
          rw [hfull] at hfinish
          have hkeeps := Shadow.keeps_addAll (ready_settle h.sound hnormal reached_outcome)
          obtain ⟨g', hg', hsame⟩ := hkeeps.stays hsettled
          rw [(Prod.mk.inj hfinish).1] at hgi
          obtain rfl := Option.some.inj (hg'.symm.trans hgi)
          exact hsame
      have hhost : c.host.read c.fs g.path = .ok (some text) := by
        rw [hpath]
        exact (h.sound.file_read hread).2.2.2.2
      simp only [Sheet.process, Host.resource, hhost]
      split <;> exact ⟨_, rfl⟩

theorem refresh_succeeds {roots : List Path} (h : Built c (outcome c r (roots.map Path.normalize)) p q)
    (old : Stylesheets) : ∃ new n, old.refresh p c.host c.fs = .ok (new, n) := by
  obtain ⟨entries, n, htake⟩ := Stylesheets.takeAll_succeeds old p.sheets h.process_sheets
    OrdMap.empty 0
  exact ⟨⟨entries⟩, n, by rw [Stylesheets.refresh, htake]⟩

end Program.Built

end Recompile
