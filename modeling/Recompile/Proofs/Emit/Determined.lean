import Recompile.Proofs.Emit.Stylesheets
import Recompile.Proofs.Program.Resources

/-!
What determines an output over builds. Two programs whose files come from one registry give a script
the same output when its fingerprint is made from the same parts and both have processed their
stylesheets alike.
-/

namespace Recompile

theorem getElem_flatMap_eq {α β γ : Type} {f : α → List γ} {g : β → List γ} {n : Nat}
    (hf : ∀ a, (f a).length = n) (hg : ∀ b, (g b).length = n) :
    ∀ {xs : List α} {ys : List β}, xs.length = ys.length → xs.flatMap f = ys.flatMap g →
      ∀ i (hi : i < xs.length) (hi' : i < ys.length), f xs[i] = g ys[i] := by
  intro xs
  induction xs with
  | nil => exact fun _ _ i hi => absurd hi (Nat.not_lt_zero i)
  | cons x xs ih =>
    intro ys hlength heq i hi hi'
    cases ys with
    | nil => exact absurd hi' (Nat.not_lt_zero i)
    | cons y ys =>
      rw [List.flatMap_cons, List.flatMap_cons] at heq
      obtain ⟨hhead, htail⟩ := List.append_inj heq (by rw [hf, hg])
      cases i with
      | zero => exact hhead
      | succ i => exact ih (by simpa using hlength) htail i _ _

namespace Emit

theorem scriptOf?_eq_some {p : Program} {id : FileId} {f : SourceFile} {m : Module} :
    scriptOf? p id = some (f, m) ↔
      p.file? id = some f ∧ p.module? id = some m ∧ f.kind = .script := by
  unfold scriptOf?
  cases hf : p.file? id with
  | none => simp
  | some g =>
    cases hm : p.module? id with
    | none => simp
    | some k =>
      by_cases hkind : g.kind = .script
      · simp only [Option.bind_eq_bind, Option.bind_some, hkind, ↓reduceIte, Option.some.injEq,
          Prod.mk.injEq]
        constructor
        · rintro ⟨rfl, rfl⟩
          exact ⟨rfl, rfl, hkind⟩
        · rintro ⟨rfl, rfl, -⟩
          exact ⟨rfl, rfl⟩
      · simp only [Option.bind_eq_bind, Option.bind_some, hkind, ↓reduceIte, reduceCtorEq, false_iff,
          Option.some.injEq, not_and]
        rintro rfl - 
        exact hkind

end Emit

namespace Program.Built

open BuildState Emit

variable {σ : Type} [FileSystem σ] {c c' : BuildContext σ} {s s' : BuildState} {p p' : Program}
variable {r r' known : Registry}

theorem read_of_script (h : Built c s p r) {id : FileId} {f : SourceFile}
    (hf : p.file? id = some f) (hkind : f.kind = .script) : s.program.file? id = some f := by
  rcases h.file_cases hf with ⟨-, hread⟩ | ⟨-, hshadow, -⟩
  · exact hread
  · rw [hkind] at hshadow
    cases hshadow

theorem scriptOf?_of_script (h : Built c s p r) {id : FileId} {f : SourceFile}
    (hf : p.file? id = some f) (hkind : f.kind = .script) :
    scriptOf? p id = some (f, settleModule s.program (moduleOf c s.registry f)) :=
  scriptOf?_eq_some.mpr
    ⟨hf, h.module?_of_file (h.read_of_script hf hkind) (by rw [hkind]; rfl), hkind⟩

theorem outline_of_script (h : Built c s p r) {id : FileId} {f : SourceFile} {m : Module}
    (hs : scriptOf? p id = some (f, m)) : m.outline = outlineOf f := by
  obtain ⟨hf, hm, hkind⟩ := scriptOf?_eq_some.mp hs
  have hsome := h.scriptOf?_of_script hf hkind
  rw [hs] at hsome
  cases hsome
  rfl

theorem fileOf?_eq (h : Built c s p r) (h' : Built c' s' p' r') (hapart : p.ShadowsApart)
    (hapart' : p'.ShadowsApart) (hw : s.registry.Within known) (hw' : s'.registry.Within known)
    (htexts : ∀ f ∈ p.members, ∀ g ∈ p'.members, f.version = g.version → f.text = g.text)
    {id : FileId} {m m' : Module} {ref ref' : ResourceRef} (hm : p.module? id = some m)
    (hm' : p'.module? id = some m') (href : ref ∈ m.resources) (href' : ref' ∈ m'.resources)
    (hpath : ref.path = ref'.path)
    (hversion : (fileOf? p ref).map SourceFile.version = (fileOf? p' ref').map SourceFile.version) :
    fileOf? p ref = fileOf? p' ref' := by
  cases hfile : ref.file with
  | none =>
    have hnone : fileOf? p ref = none := by simp [fileOf?, hfile]
    rw [hnone] at hversion ⊢
    cases hfound : fileOf? p' ref' with
    | none => rfl
    | some g => simp [hfound] at hversion
  | some i =>
    obtain ⟨text, hl, hi, hfound⟩ := h.fileOf?_of_resource hapart hm href hfile
    cases hfile' : ref'.file with
    | none =>
      have hnone : fileOf? p' ref' = none := by simp [fileOf?, hfile']
      simp [hfound, hnone] at hversion
    | some i' =>
      obtain ⟨text', hl', hi', hfound'⟩ := h'.fileOf?_of_resource hapart' hm' href' hfile'
      have hii : i = i' := by
        have hknown := hw.lookup? hl
        rw [hpath, hw'.lookup? hl'] at hknown
        exact (Option.some.inj hknown).symm
      subst hii
      rw [hfound, hfound'] at hversion ⊢
      have hsame : text = text' := by
        refine htexts (fileAt i ref.path text) ?_ (fileAt i ref'.path text') ?_
          (by simpa using hversion)
        · rw [h.mem_members]
          exact h.file?_of_read hapart hi
        · rw [h'.mem_members]
          exact h'.file?_of_read hapart' hi'
      rw [hsame, hpath]

theorem views_eq (h : Built c s p r) (h' : Built c' s' p' r') (hapart : p.ShadowsApart)
    (hapart' : p'.ShadowsApart) (hw : s.registry.Within known) (hw' : s'.registry.Within known)
    (htexts : ∀ f ∈ p.members, ∀ g ∈ p'.members, f.version = g.version → f.text = g.text)
    {id : FileId} {f : SourceFile} {m m' : Module} (hs : scriptOf? p id = some (f, m))
    (hs' : scriptOf? p' id = some (f, m'))
    (hparts : m.resources.flatMap (resourceParts p) = m'.resources.flatMap (resourceParts p')) :
    views p m = views p' m' := by
  obtain ⟨hf, hm, hkind⟩ := scriptOf?_eq_some.mp hs
  obtain ⟨hf', hm', -⟩ := scriptOf?_eq_some.mp hs'
  have hlabels : m.resources.map ResourceRef.label = m'.resources.map ResourceRef.label := by
    rw [h.labels_module (h.read_of_script hf hkind) hm,
      h'.labels_module (h'.read_of_script hf' hkind) hm', refsOf_labels c c']
  have hlength : m.resources.length = m'.resources.length := by
    simpa using congrArg List.length hlabels
  have hpair := getElem_flatMap_eq (n := 2) (fun ref => rfl) (fun ref => rfl) hlength hparts
  unfold views
  refine List.ext_getElem (by simpa using hlength) fun i hi hi' => ?_
  simp only [List.length_map] at hi hi'
  simp only [List.getElem_map]
  have hlabel : (m.resources[i]).label = (m'.resources[i]).label := by
    have := congrArg (fun l => l[i]?) hlabels
    simpa [hi, hi'] using this
  obtain ⟨hrk, hrc, hrp⟩ : (m.resources[i]).kind = (m'.resources[i]).kind ∧
      (m.resources[i]).component = (m'.resources[i]).component ∧
      (m.resources[i]).path = (m'.resources[i]).path := by
    simpa [ResourceRef.label] using hlabel
  have hfile : fileOf? p m.resources[i] = fileOf? p' m'.resources[i] :=
    h.fileOf?_eq h' hapart hapart' hw hw' htexts hm hm' (List.getElem_mem hi) (List.getElem_mem hi')
      hrp (resourceParts_eq (hpair i hi hi'))
  rw [hrk, hrc, hfile]

end Program.Built

namespace Program

open Emit

/-- The stylesheets of one script: behind its resources, or in its text. -/
inductive Uses (p : Program) (f : SourceFile) (m : Module) : Sheet → Prop where
  | file {ref : ResourceRef} {g : SourceFile} : ref ∈ m.resources → ref.kind = .style →
      fileOf? p ref = some g → Uses p f m (.file g)
  | inline {component order : Nat} {c : Script.Component} {style : Script.InlineStyle} :
      m.outline.components[component]? = some c → c.inlineStyles[order]? = some style →
      Uses p f m (.inline f component order style.text)

theorem mem_fileSheets {p : Program} {m : Module} {sheet : Sheet} :
    sheet ∈ fileSheets p m ↔ ∃ ref ∈ m.resources, ref.kind = .style ∧
      ∃ g, fileOf? p ref = some g ∧ sheet = .file g := by
  unfold fileSheets fileOf?
  rw [List.mem_filterMap]
  constructor
  · rintro ⟨ref, href, hsheet⟩
    obtain ⟨hmem, hkind⟩ := List.mem_filter.mp href
    obtain ⟨g, hg, rfl⟩ := Option.map_eq_some_iff.mp hsheet
    exact ⟨ref, hmem, by simpa using hkind, g, hg, rfl⟩
  · rintro ⟨ref, hmem, hkind, g, hg, rfl⟩
    exact ⟨ref, List.mem_filter.mpr ⟨hmem, by simpa using hkind⟩, by rw [hg]; rfl⟩

theorem mem_inlineSheets {f : SourceFile} {m : Module} {sheet : Sheet} :
    sheet ∈ inlineSheets f m ↔ ∃ component c order style,
      m.outline.components[component]? = some c ∧ c.inlineStyles[order]? = some style ∧
        sheet = .inline f component order style.text := by
  unfold inlineSheets
  simp only [List.mem_flatten, List.mem_mapIdx]
  constructor
  · rintro ⟨l, ⟨component, hc, rfl⟩, hsheet⟩
    obtain ⟨order, ho, rfl⟩ := List.mem_mapIdx.mp hsheet
    exact ⟨component, _, order, _, List.getElem?_eq_getElem hc, List.getElem?_eq_getElem ho, rfl⟩
  · rintro ⟨component, c, order, style, hc, ho, rfl⟩
    obtain ⟨hlt, rfl⟩ := List.getElem?_eq_some_iff.mp hc
    obtain ⟨horder, rfl⟩ := List.getElem?_eq_some_iff.mp ho
    exact ⟨_, ⟨component, hlt, rfl⟩, List.mem_mapIdx.mpr ⟨order, horder, rfl⟩⟩

namespace Built

open BuildState

variable {σ : Type} [FileSystem σ] {c c' : BuildContext σ} {s s' : BuildState} {p p' : Program}
variable {r r' known : Registry}

theorem mem_sheets (h : Built c s p r) {sheet : Sheet} :
    sheet ∈ p.sheets ↔ ∃ id f m, scriptOf? p id = some (f, m) ∧ p.Uses f m sheet := by
  unfold sheets
  rw [List.mem_flatMap]
  constructor
  · rintro ⟨f, hf, hsheet⟩
    obtain ⟨hmem, hkind⟩ := List.mem_filter.mp hf
    have hfile := h.mem_members.mp hmem
    cases hm : p.module? f.id with
    | none => simp [hm] at hsheet
    | some m =>
      refine ⟨f.id, f, m, scriptOf?_eq_some.mpr ⟨hfile, hm, by simpa using hkind⟩, ?_⟩
      simp only [hm, List.mem_append, mem_fileSheets, mem_inlineSheets] at hsheet
      rcases hsheet with ⟨ref, href, hstyle, g, hg, rfl⟩ | ⟨i, d, j, style, hd, hstyle, rfl⟩
      · exact .file href hstyle hg
      · exact .inline hd hstyle
  · rintro ⟨id, f, m, hs, huses⟩
    obtain ⟨hfile, hm, hkind⟩ := scriptOf?_eq_some.mp hs
    obtain rfl := h.id_eq hfile
    refine ⟨f, List.mem_filter.mpr ⟨h.mem_members.mpr hfile, by simpa using hkind⟩, ?_⟩
    simp only [hm, List.mem_append, mem_fileSheets, mem_inlineSheets]
    cases huses with
    | file href hstyle hg => exact .inl ⟨_, href, hstyle, _, hg, rfl⟩
    | inline hd hstyle => exact .inr ⟨_, _, _, _, hd, hstyle, rfl⟩

theorem read_of_uses (h : Built c s p r) (hapart : p.ShadowsApart) {id : FileId} {f g : SourceFile}
    {m : Module} (hs : scriptOf? p id = some (f, m)) (huses : p.Uses f m (.file g)) :
    s.program.file? g.id = some g := by
  cases huses with
  | file href hstyle hg =>
    rename_i ref
    obtain ⟨-, hm, -⟩ := scriptOf?_eq_some.mp hs
    cases hfile : ref.file with
    | none => simp [fileOf?, hfile] at hg
    | some i =>
      obtain ⟨text, -, hread, hfound⟩ := h.fileOf?_of_resource hapart hm href hfile
      rw [hfound] at hg
      cases hg
      exact hread

theorem isRead_sheets (h : Built c s p r) (hapart : p.ShadowsApart) :
    ∀ sheet ∈ p.sheets, sheet.IsRead c.host c.fs := by
  intro sheet hsheet
  obtain ⟨id, f, m, hs, huses⟩ := h.mem_sheets.mp hsheet
  cases sheet with
  | file g => exact (h.sound.file_read (h.read_of_uses hapart hs huses)).2.2.2.2
  | inline script component order text => trivial

theorem processed_eq (h : Built c s p r) (h' : Built c' s' p' r') (hapart : p.ShadowsApart)
    (hapart' : p'.ShadowsApart) (hw : s.registry.Within known) (hw' : s'.registry.Within known)
    {a b : Sheet} (ha : a ∈ p.sheets) (hb : b ∈ p'.sheets) (hkey : a.key = b.key)
    (htext : a.text = b.text) (styles : StyleProcessor) : a.processed styles = b.processed styles := by
  obtain ⟨i, f, m, hs, huses⟩ := h.mem_sheets.mp ha
  obtain ⟨i', f', m', hs', huses'⟩ := h'.mem_sheets.mp hb
  cases huses with
  | file href hstyle hg =>
    rename_i ref g
    cases huses' with
    | file href' hstyle' hg' =>
      rename_i ref' g'
      have hid : g.id = g'.id := by simpa [Sheet.key] using hkey
      have hread := h.read_of_uses hapart hs (.file href hstyle hg)
      have hread' := h'.read_of_uses hapart' hs' (.file href' hstyle' hg')
      rw [hid] at hread
      rw [h.read_eq h' hw hw' hread hread' htext]
    | inline => cases hkey
  | inline hd hstyle =>
    cases huses' with
    | file => cases hkey
    | inline hd' hstyle' =>
      obtain ⟨hf, -, hkind⟩ := scriptOf?_eq_some.mp hs
      obtain ⟨hf', -, hkind'⟩ := scriptOf?_eq_some.mp hs'
      simp only [Sheet.key, StyleKey.inline.injEq] at hkey
      obtain ⟨hid, -, rfl⟩ := hkey
      have hii : i = i' := by rw [← h.id_eq hf, ← h'.id_eq hf', hid]
      subst hii
      have hpath := h.path_eq h' hw hw' (h.read_of_script hf hkind) (h'.read_of_script hf' hkind')
      simp only [Sheet.text] at htext
      simp only [Sheet.processed, hpath, htext]

theorem sheet_eq (h : Built c s p r) {a b : Sheet} (ha : a ∈ p.sheets) (hb : b ∈ p.sheets)
    (hkey : a.key = b.key) : a = b := by
  obtain ⟨i, f, m, hs, huses⟩ := h.mem_sheets.mp ha
  obtain ⟨i', f', m', hs', huses'⟩ := h.mem_sheets.mp hb
  cases huses with
  | file href hstyle hg =>
    rename_i ref g
    cases huses' with
    | file href' hstyle' hg' =>
      rename_i ref' g'
      have hid : g.id = g'.id := by simpa [Sheet.key] using hkey
      obtain ⟨j, -, hj⟩ := Option.bind_eq_some_iff.mp hg
      obtain ⟨j', -, hj'⟩ := Option.bind_eq_some_iff.mp hg'
      rw [← h.id_eq hj, hid, h.id_eq hj', hj'] at hj
      cases hj
      rfl
    | inline => cases hkey
  | inline hd hstyle =>
    cases huses' with
    | file => cases hkey
    | inline hd' hstyle' =>
      obtain ⟨hf, -, -⟩ := scriptOf?_eq_some.mp hs
      obtain ⟨hf', -, -⟩ := scriptOf?_eq_some.mp hs'
      simp only [Sheet.key, StyleKey.inline.injEq] at hkey
      obtain ⟨hid, rfl, rfl⟩ := hkey
      have hii : i = i' := by rw [← h.id_eq hf, ← h.id_eq hf', hid]
      subst hii
      rw [hs] at hs'
      cases hs'
      rw [hd] at hd'
      cases hd'
      rw [hstyle] at hstyle'
      cases hstyle'
      rfl

theorem pure_refresh (h : Built c s p r) (hapart : p.ShadowsApart) {old new : Stylesheets} {n : Nat}
    (hold : ∀ key e, old.entries.get? key = some e → ∃ (c' : BuildContext σ) (s' : BuildState)
      (p' : Program) (r' : Registry), Built c' s' p' r' ∧ p'.ShadowsApart ∧
        s'.registry.Within s.registry ∧ ∃ b ∈ p'.sheets, b.key = key ∧
          e = ⟨b.version, b.processed c.host.styles⟩ ∧
          ∀ a ∈ p.sheets, a.version = b.version → a.text = b.text)
    (hrefresh : old.refresh p c.host c.fs = .ok (new, n)) : new.Pure c.host.styles p := by
  refine Stylesheets.pure_refresh (h.isRead_sheets hapart) (fun a ha b hb => h.sheet_eq ha hb) ?_
    hrefresh
  intro sheet hsheet e he hversion
  obtain ⟨c', s', p', r', h', hapart', hw', b, hb, hkey, rfl, htell⟩ := hold _ e he
  exact (h.processed_eq h' hapart hapart' (.refl _) hw' hsheet hb hkey.symm
    (htell sheet hsheet hversion.symm) _).symm

theorem inlined_eq (h : Built c s p r) (h' : Built c' s' p' r') (hapart : p.ShadowsApart)
    (hapart' : p'.ShadowsApart) (hw : s.registry.Within known) (hw' : s'.registry.Within known)
    (htexts : ∀ f ∈ p.members, ∀ g ∈ p'.members, f.version = g.version → f.text = g.text)
    {processor : StyleProcessor} {styles styles' : Stylesheets} (hpure : styles.Pure processor p)
    (hpure' : styles'.Pure processor p') {id : FileId} {options options' : Digest}
    (hscript : (scriptOf? p id).isSome = true) (hscript' : (scriptOf? p' id).isSome = true)
    (hparts : fingerprintParts? p id options = fingerprintParts? p' id options') :
    inlined p styles id = inlined p' styles' id := by
  obtain ⟨⟨f, m⟩, hs⟩ := Option.isSome_iff_exists.mp hscript
  obtain ⟨⟨f', m'⟩, hs'⟩ := Option.isSome_iff_exists.mp hscript'
  obtain ⟨hf, hm, hkind⟩ := scriptOf?_eq_some.mp hs
  obtain ⟨hf', hm', hkind'⟩ := scriptOf?_eq_some.mp hs'
  unfold fingerprintParts? at hparts
  simp only [hf, hm, hf', hm', Option.map_some, List.cons_append, List.nil_append,
    Option.some.injEq, List.cons.injEq] at hparts
  obtain ⟨hversion, -, hresources⟩ := hparts
  have hids := h.id_eq hf
  have hids' := h'.id_eq hf'
  have hsame : f = f' := by
    refine h.read_eq h' hw hw' (h.read_of_script hf hkind) (h'.read_of_script hf' hkind') ?_
    refine htexts f (h.mem_members.mpr ?_) f' (h'.mem_members.mpr ?_)
      (Digest.toData_injective hversion)
    · rw [hids]
      exact hf
    · rw [hids']
      exact hf'
  subst hsame
  have houtline : m.outline = m'.outline := by
    rw [h.outline_of_script hs, h'.outline_of_script hs']
  have hviews := h.views_eq h' hapart hapart' hw hw' htexts hs hs' hresources
  have hcontents : ∀ sheet, p.Uses f m sheet → p'.Uses f m' sheet →
      styles.contents? sheet.key = styles'.contents? sheet.key := by
    intro sheet huses huses'
    unfold Stylesheets.contents?
    rw [hpure.2 sheet (h.mem_sheets.mpr ⟨id, f, m, hs, huses⟩),
      hpure'.2 sheet (h'.mem_sheets.mpr ⟨id, f, m', hs', huses'⟩)]
  refine inlined_congr hs hs' houtline hviews (h.isNone_file hapart hm)
    (h'.isNone_file hapart' hm') ?_ ?_
  · intro component d order hd horder
    have hstyle := List.getElem?_eq_getElem horder
    have := hcontents _ (.inline hd hstyle) (.inline (houtline ▸ hd) hstyle)
    rwa [Sheet.key, hids] at this
  · intro ref href hstyle g hg
    have hview : (ref.kind, ref.component, fileOf? p ref) ∈ views p' m' :=
      hviews ▸ List.mem_map.mpr ⟨ref, href, rfl⟩
    obtain ⟨ref', href', heq⟩ := List.mem_map.mp hview
    simp only [Prod.mk.injEq] at heq
    exact hcontents _ (.file href hstyle hg)
      (.file href' (heq.1.trans hstyle) (heq.2.2.trans hg))

theorem deferred_eq (h : Built c s p r) (h' : Built c' s' p' r') {id : FileId} {f : SourceFile}
    (hf : p.file? id = some f) (hf' : p'.file? id = some f) (hkind : f.kind = .script) :
    deferred p id = deferred p' id := by
  have hs := h.scriptOf?_of_script hf hkind
  have hs' := h'.scriptOf?_of_script hf' hkind
  refine deferred_congr hs hs' ?_
  rw [h.outline_of_script hs, h'.outline_of_script hs']

end Built

end Program

end Recompile
