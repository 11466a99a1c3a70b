import Recompile.Emit.Script
import Recompile.Proofs.Digest.Bytes

/-!
What the output of a script depends on: its text and outline, the files behind its resources, and
the new texts of its stylesheets.
-/

namespace Recompile.Emit

def fingerprintParts? (p : Program) (id : FileId) (options : Digest) : Option (List ByteArray) :=
  (p.file? id).map fun f =>
    [f.version.toData, options.toData] ++
      (match p.module? id with
        | none => []
        | some m => m.resources.flatMap (resourceParts p))

theorem fingerprint?_eq (p : Program) (id : FileId) (options : Digest) :
    fingerprint? p id options = (fingerprintParts? p id options).map Digest.ofParts := by
  unfold fingerprint? fingerprintParts?
  rw [Option.map_map]
  rfl

def fileOf? (p : Program) (ref : ResourceRef) : Option SourceFile := ref.file.bind p.file?

def views (p : Program) (m : Module) : List (SourceKind × Nat × Option SourceFile) :=
  m.resources.map fun ref => (ref.kind, ref.component, fileOf? p ref)

variable {p p' : Program} {styles styles' : Stylesheets} {id : FileId} {m m' : Module}

theorem templateRef?_bind (component : Nat) : (m.templateRef? component).bind (fileOf? p) =
    ((views p m).find? fun v => v.2.1 = component && v.1 = .template).bind (·.2.2) := by
  unfold views Module.templateRef?
  rw [List.find?_map, Option.bind_map]
  rfl

theorem styleRefs_views (component : Nat) : (m.styleRefs component).map (fileOf? p) =
    ((views p m).filter fun v => v.2.1 = component && v.1 = .style).map (·.2.2) := by
  unfold views Module.styleRefs
  rw [List.filter_map, List.map_map]
  rfl

theorem inlineTemplate_congr (hviews : views p m = views p' m') (component : Nat)
    (c : Script.Component) : inlineTemplate p m component c = inlineTemplate p' m' component c := by
  have href : (m.templateRef? component).bind (fileOf? p) =
      (m'.templateRef? component).bind (fileOf? p') := by
    rw [templateRef?_bind, templateRef?_bind, hviews]
  unfold fileOf? at href
  unfold inlineTemplate
  rw [href]

def inlineFiles (styles : Stylesheets) (id : FileId) (component : Nat) (c : Script.Component)
    (found : List (Option SourceFile)) : Inlining :=
  if found.any (·.isNone) then ⟨[], []⟩
  else
    let sheets := found.filterMap fun f => f
    let values :=
      (c.inlineStyles.mapIdx fun order style =>
        Json.quoted ((styles.contents? (.inline id component order)).getD style.text)) ++
      sheets.map fun f => Json.quoted ((styles.contents? (.file f.id)).getD f.text)
    ⟨if values.isEmpty then [] else styleEdits c values, sheets.map (·.path)⟩

theorem inlineStyles_eq (styles : Stylesheets) (id : FileId) (component : Nat)
    (c : Script.Component)
    (hfile : ∀ ref ∈ m.resources, ref.file.isNone = (fileOf? p ref).isNone) :
    inlineStyles p styles id m component c =
      inlineFiles styles id component c ((m.styleRefs component).map (fileOf? p)) := by
  have hmissing : ((m.styleRefs component).any fun r => r.file.isNone) =
      ((m.styleRefs component).map (fileOf? p)).any (·.isNone) := by
    rw [List.any_map, Bool.eq_iff_iff, List.any_eq_true, List.any_eq_true]
    have hsub : ∀ r ∈ m.styleRefs component, r ∈ m.resources := fun r hr => (List.mem_filter.mp hr).1
    constructor
    · rintro ⟨r, hr, hnone⟩
      exact ⟨r, hr, by rw [Function.comp_apply, ← hfile r (hsub r hr), hnone]⟩
    · rintro ⟨r, hr, hnone⟩
      exact ⟨r, hr, by rw [hfile r (hsub r hr)]; exact hnone⟩
  have hsheets : ((m.styleRefs component).map (fileOf? p)).filterMap (fun f => f) =
      (m.styleRefs component).filterMap fun r => r.file.bind p.file? := List.filterMap_map
  unfold inlineStyles inlineFiles
  dsimp only
  rw [hmissing, hsheets]

theorem inlineFiles_congr {component : Nat} {c : Script.Component}
    {found : List (Option SourceFile)}
    (hinline : ∀ order, order < c.inlineStyles.length →
      styles.contents? (.inline id component order) = styles'.contents? (.inline id component order))
    (hsheets : ∀ g, some g ∈ found → styles.contents? (.file g.id) = styles'.contents? (.file g.id)) :
    inlineFiles styles id component c found = inlineFiles styles' id component c found := by
  have hvalues : (c.inlineStyles.mapIdx fun order style =>
        Json.quoted ((styles.contents? (.inline id component order)).getD style.text)) =
      c.inlineStyles.mapIdx fun order style =>
        Json.quoted ((styles'.contents? (.inline id component order)).getD style.text) := by
    refine List.mapIdx_eq_mapIdx_iff.mpr fun order horder => ?_
    rw [hinline order horder]
  have hquoted : (found.filterMap fun f => f).map (fun f =>
        Json.quoted ((styles.contents? (.file f.id)).getD f.text)) =
      (found.filterMap fun f => f).map fun f =>
        Json.quoted ((styles'.contents? (.file f.id)).getD f.text) := by
    refine List.map_congr_left fun g hg => ?_
    obtain ⟨found?, hmem, rfl⟩ := List.mem_filterMap.mp hg
    rw [hsheets g hmem]
  unfold inlineFiles
  dsimp only
  rw [hvalues, hquoted]

theorem inlined_congr {f : SourceFile} (hs : scriptOf? p id = some (f, m))
    (hs' : scriptOf? p' id = some (f, m')) (houtline : m.outline = m'.outline)
    (hviews : views p m = views p' m')
    (hfile : ∀ ref ∈ m.resources, ref.file.isNone = (fileOf? p ref).isNone)
    (hfile' : ∀ ref ∈ m'.resources, ref.file.isNone = (fileOf? p' ref).isNone)
    (hinline : ∀ component c order, m.outline.components[component]? = some c →
      order < c.inlineStyles.length → styles.contents? (.inline id component order) =
        styles'.contents? (.inline id component order))
    (hsheets : ∀ ref ∈ m.resources, ref.kind = .style → ∀ g, fileOf? p ref = some g →
      styles.contents? (.file g.id) = styles'.contents? (.file g.id)) :
    inlined p styles id = inlined p' styles' id := by
  have hparts : m.outline.components.mapIdx (inlineComponent p styles id m) =
      m'.outline.components.mapIdx (inlineComponent p' styles' id m') := by
    rw [← houtline]
    refine List.mapIdx_eq_mapIdx_iff.mpr fun component hlt => ?_
    have hfound : (m.styleRefs component).map (fileOf? p) =
        (m'.styleRefs component).map (fileOf? p') := by
      rw [styleRefs_views, styleRefs_views, hviews]
    unfold inlineComponent
    rw [inlineTemplate_congr hviews, inlineStyles_eq styles id component _ hfile,
      inlineStyles_eq styles' id component _ hfile', ← hfound, inlineFiles_congr]
    · exact fun order horder => hinline component _ order (List.getElem?_eq_getElem hlt) horder
    · intro g hg
      obtain ⟨ref, href, hfound⟩ := List.mem_map.mp hg
      obtain ⟨hmem, htest⟩ := List.mem_filter.mp href
      have hkind : ref.kind = .style := by simpa using (Bool.and_eq_true_iff.mp htest).2
      exact hsheets ref hmem hkind g hfound
  have herasures : erasures m = erasures m' := by rw [erasures, erasures, houtline]
  unfold inlined
  rw [hs, hs']
  simp only [hparts, herasures]

theorem deferred_congr {f : SourceFile} (hs : scriptOf? p id = some (f, m))
    (hs' : scriptOf? p' id = some (f, m')) (houtline : m.outline = m'.outline) :
    deferred p id = deferred p' id := by
  have herasures : erasures m = erasures m' := by rw [erasures, erasures, houtline]
  unfold deferred
  rw [hs, hs']
  simp only [herasures, houtline]

theorem resourceParts_eq {ref ref' : ResourceRef}
    (h : resourceParts p ref = resourceParts p' ref') :
    (fileOf? p ref).map SourceFile.version = (fileOf? p' ref').map SourceFile.version := by
  have hsize : ∀ d : Digest, d.toData ≠ "<missing>".toUTF8 := by
    intro d hd
    have hbytes := congrArg ByteArray.size hd
    rw [Digest.size_toData] at hbytes
    revert hbytes
    decide
  unfold resourceParts at h
  simp only [List.cons.injEq, and_true] at h
  have hdata := h.2
  unfold fileOf?
  cases hf : ref.file.bind p.file? with
  | none =>
    cases hf' : ref'.file.bind p'.file? with
    | none => rfl
    | some g' =>
      simp only [hf, hf'] at hdata
      exact absurd hdata.symm (hsize _)
  | some g =>
    cases hf' : ref'.file.bind p'.file? with
    | none =>
      simp only [hf, hf'] at hdata
      exact absurd hdata (hsize _)
    | some g' =>
      simp only [hf, hf'] at hdata
      simp only [Option.map_some]
      rw [Digest.toData_injective hdata]

end Recompile.Emit
