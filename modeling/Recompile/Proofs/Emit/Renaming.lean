import Recompile.Proofs.Emit.Determined
import Recompile.Proofs.Program.Renaming

/-!
Outputs do not depend on identities: programs that differ in the identities of their files only have
the same outputs, and these are made from the same.
-/

namespace Recompile

def Emitted.result (e : Emitted) : Path × String × Option (List Path) := (e.filename, e.contents, e.dependencies)

namespace Emit

variable {g : FileId}

theorem styleEdits_moved (c : Script.Component) (values : List String) :
    styleEdits (c.moved g) values = styleEdits c values := by
  have hvalue : (c.moved g).stylesValue = c.stylesValue.map (Span.moved g) := rfl
  have hproperty : (c.moved g).styleUrlsProperty = c.styleUrlsProperty.map (Span.moved g) := rfl
  have hremoval : (c.moved g).styleUrlsRemoval = c.styleUrlsRemoval.map (Span.moved g) := rfl
  unfold styleEdits
  rw [hvalue, hproperty, hremoval]
  cases c.stylesValue <;> cases c.styleUrlsProperty <;> cases c.styleUrlsRemoval <;> rfl

theorem erasures_moved {m m' : Module} (h : m'.outline = m.outline.moved g) : erasures m' = erasures m := by
  unfold erasures
  rw [h]
  show (m.outline.erased.map (Span.moved g)).map _ = _
  rw [List.map_map]
  rfl

theorem deferTemplate_moved (d : Deferral) (c : Script.Component) :
    deferTemplate d (c.moved g) = deferTemplate d c := by
  have htemplate : (c.moved g).template = c.template.map (Script.TemplateSource.moved g) := rfl
  unfold deferTemplate
  rw [htemplate]
  cases c.template with
  | none => rfl
  | some t => cases t <;> rfl

theorem deferStyles_moved {f f' : SourceFile} (htext : f.text = f'.text) (d : Deferral)
    (c : Script.Component) : deferStyles f' d (c.moved g) = deferStyles f d c := by
  have hurls : (c.moved g).styleUrls = c.styleUrls.map (Script.ResourceUrl.moved g) := rfl
  have hinline : (c.moved g).inlineStyles = c.inlineStyles.map (Script.InlineStyle.moved g) := rfl
  have htexts : ((c.moved g).inlineStyles.mapM fun s => f'.snippet? s.literal.start s.literal.stop) =
      c.inlineStyles.mapM fun s => f.snippet? s.literal.start s.literal.stop := by
    rw [hinline, List.mapM_map]
    unfold SourceFile.snippet?
    rw [htext]
    rfl
  unfold deferStyles
  rw [htexts, hurls]
  simp only [styleEdits_moved, List.isEmpty_map, List.map_map, mapIdx_map]
  rfl

theorem deferAll_moved {f f' : SourceFile} (htext : f.text = f'.text) (components : List Script.Component) :
    ∀ d, deferAll f' d (components.map (Script.Component.moved g)) = deferAll f d components := by
  induction components with
  | nil => exact fun _ => rfl
  | cons c rest ih =>
    intro d
    simp only [List.map_cons, deferAll, deferTemplate_moved, deferStyles_moved htext, ih]

def SameSheet (styles styles' : Stylesheets) (f f' : SourceFile) : Prop :=
  f.content = f'.content ∧ styles.contents? (.file f.id) = styles'.contents? (.file f'.id)

end Emit

theorem Sheet.processed_file_congr {f f' : SourceFile} (h : f.content = f'.content) (styles : StyleProcessor) :
    (Sheet.file f).processed styles = (Sheet.file f').processed styles := by
  simp only [Sheet.processed, SourceFile.path_congr h, SourceFile.text_congr h]

namespace Program.Same

open Emit

variable {R : FileId → FileId → Prop} {p p' : Program} {i j : FileId} {m m' : Module} {f f' : SourceFile}

theorem scriptOf? (h : Same R p p') (hij : R i j) (hs : Emit.scriptOf? p i = some (f, m)) :
    ∃ f' m', Emit.scriptOf? p' j = some (f', m') ∧ f.content = f'.content ∧ Module.Same R m m' := by
  obtain ⟨hf, hm, hkind⟩ := scriptOf?_eq_some.mp hs
  obtain ⟨f', hf', hcontent⟩ := rel_some (hf ▸ h.file hij)
  obtain ⟨m', hm', hsame⟩ := rel_some (hm ▸ h.module hij)
  exact ⟨f', m', scriptOf?_eq_some.mpr ⟨hf', hm', SourceFile.kind_congr hcontent ▸ hkind⟩, hcontent, hsame⟩

theorem resourceParts (h : Same R p p') {a b : ResourceRef} (hab : ResourceRef.Same R a b) :
    Emit.resourceParts p a = Emit.resourceParts p' b := by
  have hpath : a.path = b.path := congrArg (·.2.2) hab.label
  have hfile := h.resource hab
  unfold Emit.resourceParts
  rw [hpath]
  generalize a.file.bind p.file? = x at hfile
  generalize b.file.bind p'.file? = y at hfile
  cases hfile with
  | none => rfl
  | some hfg =>
    dsimp only
    rw [SourceFile.version_congr hfg]

theorem allParts (h : Same R p p') {as bs : List ResourceRef} (hab : List.Forall₂ (ResourceRef.Same R) as bs) :
    as.flatMap (Emit.resourceParts p) = bs.flatMap (Emit.resourceParts p') := by
  induction hab with
  | nil => rfl
  | cons hab _ ih => rw [List.flatMap_cons, List.flatMap_cons, h.resourceParts hab, ih]

theorem fingerprint? (h : Same R p p') (hij : R i j) (options : Digest) :
    Emit.fingerprint? p i options = Emit.fingerprint? p' j options := by
  have hfile := h.file hij
  have hmodule := h.module hij
  unfold Emit.fingerprint?
  generalize p.file? i = x at hfile
  generalize p'.file? j = y at hfile
  generalize p.module? i = u at hmodule
  generalize p'.module? j = v at hmodule
  cases hfile with
  | none => rw [Option.map_none, Option.map_none]
  | some hfg =>
    cases hmodule with
    | none => simp only [Option.map_some, SourceFile.version_congr hfg]
    | some hm =>
      simp only [Option.map_some, SourceFile.version_congr hfg, h.allParts hm.resources]

theorem deferred (h : Same R p p') (hij : R i j) {e : Emitted} (he : Emit.deferred p i = .ok (some e)) :
    ∃ e', Emit.deferred p' j = .ok (some e') ∧ e'.result = e.result := by
  unfold Emit.deferred at he ⊢
  cases hs : Emit.scriptOf? p i with
  | none => rw [hs] at he; cases he
  | some script =>
    obtain ⟨f, m⟩ := script
    obtain ⟨f', m', hs', hcontent, hm⟩ := h.scriptOf? hij hs
    obtain ⟨g, hg⟩ := hm.outline
    have hcomponents : m'.outline.components = m.outline.components.map (Script.Component.moved g) := by
      rw [hg]
      rfl
    rw [hs] at he
    rw [hs']
    dsimp only at he ⊢
    rw [hcomponents, deferAll_moved (SourceFile.text_congr hcontent), erasures_moved hg,
      ← SourceFile.text_congr hcontent, ← SourceFile.path_congr hcontent]
    cases hall : deferAll f ⟨erasures m, []⟩ m.outline.components with
    | error err => rw [hall] at he; cases he
    | ok d =>
      rw [hall] at he
      dsimp only [bind, Except.bind] at he ⊢
      cases happly : Edit.apply f.text (d.edits ++ importEdits d.urls) with
      | error err => rw [happly] at he; cases he
      | ok contents =>
        rw [happly] at he
        cases he
        exact ⟨_, rfl, rfl⟩

theorem inlineTemplate (h : Same R p p') (hm : Module.Same R m m') (component : Nat) (c : Script.Component)
    (g : FileId) : Emit.inlineTemplate p' m' component (c.moved g) = Emit.inlineTemplate p m component c := by
  have htemplate : (c.moved g).template = c.template.map (Script.TemplateSource.moved g) := rfl
  have hfile : Option.Rel (fun f f' : SourceFile => f.content = f'.content)
      ((m.templateRef? component).bind fun r => r.file.bind p.file?)
      ((m'.templateRef? component).bind fun r => r.file.bind p'.file?) := by
    have href := hm.templateRef? component
    generalize m.templateRef? component = x at href
    generalize m'.templateRef? component = y at href
    cases href with
    | none => exact .none
    | some hab => exact h.resource hab
  unfold Emit.inlineTemplate
  rw [htemplate]
  cases c.template with
  | none => rfl
  | some t =>
    cases t with
    | inline => rfl
    | external url literal property =>
      dsimp only [Option.map_some, Script.TemplateSource.moved]
      generalize ((m.templateRef? component).bind fun r => r.file.bind p.file?) = x at hfile
      generalize ((m'.templateRef? component).bind fun r => r.file.bind p'.file?) = y at hfile
      cases hfile with
      | none => rfl
      | some hfg =>
        dsimp only
        rw [SourceFile.text_congr hfg, SourceFile.path_congr hfg]
        rfl

theorem styleRefs (h : Same R p p') (hm : Module.Same R m m') {styles styles' : Stylesheets}
    {processor : StyleProcessor} (hpure : styles.Pure processor p) (hpure' : styles'.Pure processor p')
    (hsheets : ∀ sheet ∈ fileSheets p m, sheet ∈ p.sheets)
    (hsheets' : ∀ sheet ∈ fileSheets p' m', sheet ∈ p'.sheets) (component : Nat) :
    List.Forall₂ (Option.Rel (SameSheet styles styles')) ((m.styleRefs component).map (fileOf? p))
      ((m'.styleRefs component).map (fileOf? p')) := by
  have hcontents : ∀ a ∈ m.resources, ∀ b ∈ m'.resources, a.kind = .style → b.kind = .style →
      ResourceRef.Same R a b → Option.Rel (SameSheet styles styles') (fileOf? p a) (fileOf? p' b) := by
    intro a ha b hb hstyle hstyle' hab
    have hfile := h.resource hab
    unfold fileOf?
    cases hx : a.file.bind p.file? with
    | none =>
      rw [hx] at hfile
      generalize b.file.bind p'.file? = y at hfile
      cases hfile
      exact .none
    | some f =>
      rw [hx] at hfile
      obtain ⟨f', hy, hcontent⟩ := rel_some hfile
      rw [hy]
      refine .some ⟨hcontent, ?_⟩
      have hentry := hpure.2 (.file f) (hsheets _ (mem_fileSheets.mpr ⟨a, ha, hstyle, f, hx, rfl⟩))
      have hentry' := hpure'.2 (.file f') (hsheets' _ (mem_fileSheets.mpr ⟨b, hb, hstyle', f', hy, rfl⟩))
      unfold Stylesheets.contents?
      rw [show StyleKey.file f.id = (Sheet.file f).key from rfl,
        show StyleKey.file f'.id = (Sheet.file f').key from rfl, hentry, hentry',
        Sheet.processed_file_congr hcontent, Option.bind_some, Option.bind_some]
  have hresources := hm.resources
  unfold Module.styleRefs
  generalize m.resources = xs at hresources hcontents
  generalize m'.resources = ys at hresources hcontents
  induction hresources with
  | nil => exact .nil
  | @cons a b xs ys hab hrest ih =>
    have ih := ih fun a ha b hb => hcontents a (by simp [ha]) b (by simp [hb])
    have hlabel := hab.label
    simp only [ResourceRef.label, Prod.mk.injEq] at hlabel
    simp only [List.filter_cons, hlabel.1, hlabel.2.1]
    split
    · rename_i htest
      have hstyle' : b.kind = .style := by simpa using (Bool.and_eq_true_iff.mp htest).2
      exact .cons (hcontents a (by simp) b (by simp) (hlabel.1.trans hstyle') hstyle' hab) ih
    · exact ih

end Program.Same

namespace Program.Built

open Emit

variable {σ : Type} [FileSystem σ] {c c' : BuildContext σ} {s s' : BuildState} {p p' : Program}
variable {r r' : Registry} {R : FileId → FileId → Prop} {i j : FileId}

end Program.Built

end Recompile
