import Recompile.Program.Build
import Recompile.Proofs.Path.Tidy
import Recompile.Proofs.Source.Registry

/-!
What a file refers to. A specifier stands for the first of a list of paths that is present, and the
list does not depend on the files; so two builds whose choices are present in each other choose
alike.
-/

namespace Recompile

theorem find?_eq_of_hits {α : Type} {P Q : α → Bool} {xs : List α}
    (hP : ∀ a, xs.find? P = some a → Q a = true) (hQ : ∀ a, xs.find? Q = some a → P a = true) :
    xs.find? P = xs.find? Q := by
  induction xs with
  | nil => rfl
  | cons x rest ih =>
    by_cases hp : P x = true
    · have hq : Q x = true := hP x (List.find?_cons_of_pos hp)
      rw [List.find?_cons_of_pos hp, List.find?_cons_of_pos hq]
    · have hq : ¬ Q x = true := fun hq => hp (hQ x (List.find?_cons_of_pos hq))
      simp only [List.find?_cons_of_neg hp, List.find?_cons_of_neg hq] at hP hQ ⊢
      exact ih hP hQ

namespace Specifier

variable {σ : Type} [FileSystem σ]

def alternatives? (o : Options) (dir : Path) (specifier : String) : Option (List Path) :=
  if isRelative specifier then some (candidates (dir.resolve ⟨specifier⟩))
  else (aliasTargets? o.paths specifier).map fun targets =>
    targets.flatMap fun t => candidates (o.moduleRoot.resolve ⟨t⟩)

def Found.ofFirst : Option Path → Found
  | some path => .file path
  | none => .unresolved

theorem find_eq (o : Options) (h : Host) (fs : σ) (dir : Path) (specifier : String) :
    find o h fs dir specifier =
      match alternatives? o dir specifier with
      | none => .external
      | some paths => Found.ofFirst (paths.find? (h.present fs)) := by
  unfold find alternatives?
  by_cases hrel : isRelative specifier = true
  · simp only [if_pos hrel, firstPresent?]
    cases (candidates (dir.resolve ⟨specifier⟩)).find? (h.present fs) <;> rfl
  · simp only [if_neg hrel]
    cases aliasTargets? o.paths specifier with
    | none => rfl
    | some targets =>
      simp only [Option.map_some, List.find?_flatMap, firstPresent?]
      cases targets.findSome? fun t =>
        (candidates (o.moduleRoot.resolve ⟨t⟩)).find? (h.present fs) <;> rfl

theorem tidy_alternatives {o : Options} {dir : Path} {specifier : String} {paths : List Path}
    (h : alternatives? o dir specifier = some paths) : ∀ p ∈ paths, Path.Tidy p.text.toList := by
  intro p hp
  unfold alternatives? at h
  split at h
  · cases h
    exact Path.tidy_candidates (Path.tidy_resolve _ _) p hp
  · obtain ⟨targets, -, rfl⟩ := Option.map_eq_some_iff.mp h
    obtain ⟨t, -, hp⟩ := List.mem_flatMap.mp hp
    exact Path.tidy_candidates (Path.tidy_resolve _ _) p hp

theorem find_eq_file {o : Options} {h : Host} {fs : σ} {dir : Path} {specifier : String}
    {p : Path} (hf : find o h fs dir specifier = .file p) :
    ∃ paths, alternatives? o dir specifier = some paths ∧ paths.find? (h.present fs) = some p := by
  rw [find_eq] at hf
  cases ha : alternatives? o dir specifier with
  | none => simp [ha] at hf
  | some paths =>
    simp only [ha] at hf
    cases hp : paths.find? (h.present fs) with
    | none => simp [hp, Found.ofFirst] at hf
    | some q =>
      simp only [hp, Found.ofFirst, Found.file.injEq] at hf
      exact ⟨paths, rfl, hf ▸ hp⟩

theorem tidy_of_find {o : Options} {h : Host} {fs : σ} {dir : Path} {specifier : String}
    {p : Path} (hf : find o h fs dir specifier = .file p) : Path.Tidy p.text.toList := by
  obtain ⟨paths, ha, hp⟩ := find_eq_file hf
  exact tidy_alternatives ha p (List.mem_of_find?_eq_some hp)

theorem present_of_find {o : Options} {h : Host} {fs : σ} {dir : Path} {specifier : String}
    {p : Path} (hf : find o h fs dir specifier = .file p) : h.present fs p = true := by
  obtain ⟨paths, -, hp⟩ := find_eq_file hf
  exact List.find?_some hp

theorem find_congr {o : Options} {h h' : Host} {fs fs' : σ} {dir : Path} {specifier : String}
    (hto : ∀ p, find o h fs dir specifier = .file p → h'.present fs' p = true)
    (hfrom : ∀ p, find o h' fs' dir specifier = .file p → h.present fs p = true) :
    find o h fs dir specifier = find o h' fs' dir specifier := by
  rw [find_eq] at hto hfrom ⊢
  rw [find_eq]
  cases ha : alternatives? o dir specifier with
  | none => rfl
  | some paths =>
    simp only [ha] at hto hfrom ⊢
    rw [find?_eq_of_hits (P := h.present fs) (Q := h'.present fs')]
    · intro p hp
      exact hto p (by rw [hp]; rfl)
    · intro p hp
      exact hfrom p (by rw [hp]; rfl)

end Specifier

def ResourceRef.label (ref : ResourceRef) : SourceKind × Nat × Path :=
  (ref.kind, ref.component, ref.path)

namespace BuildState

def outlineOf (f : SourceFile) : Script.Outline := Script.analyze f.id (Script.scan f.id f.text)

variable {σ : Type} [FileSystem σ] (c : BuildContext σ)

def foundOf (f : SourceFile) : List Specifier.Found :=
  (outlineOf f).specifiers.map fun x => Specifier.find c.options c.host c.fs f.path.dirname x.1

def refsOf (f : SourceFile) : List ResourceRef := resourceRefs c f.path.dirname (outlineOf f)

def linksOf (f : SourceFile) : List Path :=
  (foundOf c f).filterMap Specifier.Found.path? ++
    (if c.full then (refsOf c f).filter (·.present) else []).map (·.path)

def identified (r : Registry) (ref : ResourceRef) : ResourceRef :=
  if c.full && ref.present then { ref with file := some (r.intern ref.path).1 } else ref

def moduleOf (r : Registry) (f : SourceFile) : Module :=
  ⟨outlineOf f, Script.faults (Script.scan f.id f.text), (foundOf c f).map (resolution r),
    (refsOf c f).map (identified c r)⟩

theorem addModule_eq (s : BuildState) (f : SourceFile) :
    addModule c s f =
      ({ s with
          registry := s.registry.internAll (linksOf c f)
          program := { s.program with
            files := s.program.files.add f
            modules := s.program.modules.insert f.id
              (moduleOf c (s.registry.internAll (linksOf c f)) f) } }, linksOf c f) := rfl

variable {c}

theorem mem_linksOf {f : SourceFile} {p : Path} :
    p ∈ linksOf c f ↔ Specifier.Found.file p ∈ foundOf c f ∨
      (c.full = true ∧ ∃ ref ∈ refsOf c f, ref.present = true ∧ ref.path = p) := by
  have hpath : ∀ x : Specifier.Found, x.path? = some p ↔ x = .file p := by
    intro x
    cases x <;> simp [Specifier.Found.path?]
  unfold linksOf
  rw [List.mem_append, List.mem_filterMap]
  constructor
  · rintro (⟨x, hx, hp⟩ | hp)
    · rw [(hpath x).mp hp] at hx
      exact .inl hx
    · by_cases hfull : c.full = true
      · simp only [if_pos hfull, List.mem_map, List.mem_filter] at hp
        obtain ⟨ref, ⟨href, hpres⟩, rfl⟩ := hp
        exact .inr ⟨hfull, ref, href, hpres, rfl⟩
      · simp [if_neg hfull] at hp
  · rintro (hx | ⟨hfull, ref, href, hpres, rfl⟩)
    · exact .inl ⟨_, hx, rfl⟩
    · refine .inr ?_
      rw [if_pos hfull]
      exact List.mem_map.mpr ⟨ref, List.mem_filter.mpr ⟨href, hpres⟩, rfl⟩

theorem mem_foundOf {f : SourceFile} {x : Specifier.Found} :
    x ∈ foundOf c f ↔ ∃ spec ∈ (outlineOf f).specifiers,
      Specifier.find c.options c.host c.fs f.path.dirname spec.1 = x := List.mem_map

theorem mem_refsOf {f : SourceFile} {ref : ResourceRef} (h : ref ∈ refsOf c f) :
    ref.present = c.host.present c.fs ref.path ∧ ref.file = none ∧
      ref.path = f.path.dirname.resolve ⟨ref.url⟩ := by
  unfold refsOf resourceRefs at h
  obtain ⟨refs, hrefs, href⟩ := List.mem_flatten.mp h
  obtain ⟨i, hi, rfl⟩ := List.mem_mapIdx.mp hrefs
  obtain ⟨u, -, rfl⟩ := List.mem_map.mp href
  exact ⟨rfl, rfl, rfl⟩

theorem refsOf_labels (c c' : BuildContext σ) (f : SourceFile) :
    (refsOf c f).map ResourceRef.label = (refsOf c' f).map ResourceRef.label := by
  unfold refsOf resourceRefs
  rw [List.map_flatten, List.map_flatten]
  congr 1
  refine List.ext_getElem (by simp) fun i hi hi' => ?_
  simp [ResourceRef.label]

theorem tidy_linksOf {f : SourceFile} {p : Path} (h : p ∈ linksOf c f) :
    Path.Tidy p.text.toList := by
  rcases mem_linksOf.mp h with h | ⟨-, ref, href, -, rfl⟩
  · obtain ⟨spec, -, hspec⟩ := mem_foundOf.mp h
    exact Specifier.tidy_of_find hspec
  · rw [(mem_refsOf href).2.2]
    exact Path.tidy_resolve _ _

theorem present_linksOf {f : SourceFile} {p : Path} (h : p ∈ linksOf c f) :
    c.host.present c.fs p = true := by
  rcases mem_linksOf.mp h with h | ⟨-, ref, href, hpres, rfl⟩
  · obtain ⟨spec, -, hspec⟩ := mem_foundOf.mp h
    exact Specifier.present_of_find hspec
  · rw [← (mem_refsOf href).1, hpres]

theorem moduleOf_within {r r' : Registry} (h : r.Within r') {f : SourceFile}
    (hknown : ∀ p ∈ linksOf c f, ∃ id, r.lookup? p = some id) :
    moduleOf c r' f = moduleOf c r f := by
  unfold moduleOf
  congr 1
  · refine List.map_congr_left fun x hx => ?_
    cases x with
    | file p =>
      have hp : p ∈ linksOf c f := mem_linksOf.mpr (.inl hx)
      simp only [resolution, h.intern_fst (hknown p hp)]
    | external => rfl
    | unresolved => rfl
  · refine List.map_congr_left fun ref href => ?_
    unfold identified
    by_cases hcond : (c.full && ref.present) = true
    · obtain ⟨hfull, hpres⟩ : c.full = true ∧ ref.present = true := by simpa using hcond
      have hp : ref.path ∈ linksOf c f := mem_linksOf.mpr (.inr ⟨hfull, ref, href, hpres, rfl⟩)
      rw [if_pos hcond, if_pos hcond, h.intern_fst (hknown _ hp)]
    · rw [if_neg hcond, if_neg hcond]

end BuildState

end Recompile
