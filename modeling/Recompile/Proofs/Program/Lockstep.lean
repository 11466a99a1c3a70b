import Mathlib.Data.List.Forall2
import Recompile.Proofs.Host.Elsewhere
import Recompile.Proofs.Program.Resolution
import Recompile.Proofs.Script.Places

/-!
Builds of the same files with other identities. Which paths are visited, and whether the build fails,
does not depend on the identities that were handed out before.
-/

namespace Recompile

def ResourceRef.status (ref : ResourceRef) : (SourceKind × Nat × Path) × Bool := (ref.label, ref.present)

namespace BuildState

variable {σ : Type} [FileSystem σ] {c c' : BuildContext σ} {s s' : BuildState} {Good : Path → Prop}

theorem outlineOf_fileAt (i j : FileId) (p : Path) (text : String) :
    outlineOf (fileAt j p text) = (outlineOf (fileAt i p text)).moved j := Script.analyze_moved i j text

theorem foundOf_fileAt (c : BuildContext σ) (i j : FileId) (p : Path) (text : String) :
    foundOf c (fileAt i p text) = foundOf c (fileAt j p text) := by
  have hnames : (outlineOf (fileAt j p text)).specifiers.map (·.1) =
      (outlineOf (fileAt i p text)).specifiers.map (·.1) := by
    rw [outlineOf_fileAt i j, Script.Outline.moved_specifiers]
  have hmap : ∀ k, foundOf c (fileAt k p text) = ((outlineOf (fileAt k p text)).specifiers.map (·.1)).map
      (Specifier.find c.options c.host c.fs p.dirname) := by
    intro k
    rw [List.map_map, foundOf]
    simp only [Function.comp_def, fileAt]
  rw [hmap, hmap, hnames]

theorem urls_moved (g : FileId) (component : Script.Component) :
    urls (component.moved g) = (urls component).map fun u => (u.1, u.2.1, u.2.2.moved g) := by
  have hstyles : ((component.moved g).styleUrls.map fun u => (SourceKind.style, u.url, u.literal)) =
      (component.styleUrls.map fun u => (SourceKind.style, u.url, u.literal)).map
        fun u => (u.1, u.2.1, u.2.2.moved g) := by
    show (component.styleUrls.map (Script.ResourceUrl.moved g)).map _ = _
    rw [List.map_map, List.map_map]
    rfl
  unfold urls
  rw [List.map_append, ← hstyles]
  congr 1
  have htemplate : (component.moved g).template = component.template.map (Script.TemplateSource.moved g) := rfl
  rw [htemplate]
  cases component.template with
  | none => rfl
  | some t => cases t <;> rfl

theorem resourceRefs_moved (c : BuildContext σ) (dir : Path) (g : FileId) (o : Script.Outline) :
    resourceRefs c dir (o.moved g) =
      (resourceRefs c dir o).map fun ref => { ref with literal := ref.literal.moved g } := by
  have hmoved : (o.moved g).components = o.components.map (Script.Component.moved g) := rfl
  unfold resourceRefs
  rw [hmoved, mapIdx_map, List.map_flatten]
  congr 1
  refine List.mapIdx_eq_iff.mpr fun index => ?_
  rw [List.getElem?_map, List.getElem?_mapIdx, Option.map_map]
  refine congrArg (Option.map · o.components[index]?) (funext fun component => ?_)
  simp only [Function.comp_apply, urls_moved, List.map_map]
  rfl

theorem status_refsOf (c : BuildContext σ) (i j : FileId) (p : Path) (text : String) :
    (refsOf c (fileAt i p text)).map ResourceRef.status =
      (refsOf c (fileAt j p text)).map ResourceRef.status := by
  unfold refsOf
  rw [outlineOf_fileAt i j, resourceRefs_moved, List.map_map]
  rfl

theorem nextOf_congr {i j : FileId} {p : Path} {text : String} (hfull : c.full = c'.full)
    (hfound : foundOf c (fileAt i p text) = foundOf c' (fileAt j p text))
    (hstatus : c.full = true → (refsOf c (fileAt i p text)).map ResourceRef.status =
      (refsOf c' (fileAt j p text)).map ResourceRef.status) :
    nextOf c (fileAt i p text) = nextOf c' (fileAt j p text) := by
  have hrefs : ∀ {k : BuildContext σ} {f : SourceFile}, ((refsOf k f).filter (·.present)).map (·.path) =
      (((refsOf k f).map ResourceRef.status).filter (·.2)).map (·.1.2.2) := by
    intro k f
    rw [List.filter_map, List.map_map]
    rfl
  by_cases hkind : (SourceKind.ofPath p).isModule = true
  · rw [nextOf_eq_linksOf hkind, nextOf_eq_linksOf hkind]
    unfold linksOf
    rw [hfound, ← hfull]
    cases hc : c.full with
    | false => rfl
    | true =>
      simp only [if_true]
      rw [hrefs, hrefs, hstatus hc]
  · rw [nextOf_eq_nil hkind, nextOf_eq_nil hkind]

theorem nextOf_fileAt (c : BuildContext σ) (i j : FileId) (p : Path) (text : String) :
    nextOf c (fileAt i p text) = nextOf c (fileAt j p text) :=
  nextOf_congr rfl (foundOf_fileAt c i j p text) fun _ => status_refsOf c i j p text

/-- Two builds read the same at good paths, and follow the same links there as long as these lead to
good paths. -/
structure Alongside (Good : Path → Prop) (c c' : BuildContext σ) : Prop where
  full : c.full = c'.full
  congr : ∀ {p q : Path}, p.components = q.components → Good p → Good q
  read : ∀ {p}, Good p → c.host.read c.fs p = c'.host.read c'.fs p
  links : ∀ {p text} i j, Good p → (∀ q ∈ linksOf c' (fileAt j p text), Good q) →
    foundOf c (fileAt i p text) = foundOf c' (fileAt j p text) ∧
      (c.full = true → (refsOf c (fileAt i p text)).map ResourceRef.status =
        (refsOf c' (fileAt j p text)).map ResourceRef.status)

theorem Alongside.nextOf (h : Alongside Good c c') {p : Path} (hp : Good p) {text : String} (i j : FileId)
    (hgood : ∀ q ∈ nextOf c' (fileAt j p text), Good q) :
    nextOf c (fileAt i p text) = nextOf c' (fileAt j p text) := by
  by_cases hkind : (SourceKind.ofPath p).isModule = true
  · rw [nextOf_eq_linksOf hkind] at hgood
    obtain ⟨hfound, hstatus⟩ := h.links i j hp hgood
    exact nextOf_congr h.full hfound hstatus
  · rw [nextOf_eq_nil hkind, nextOf_eq_nil hkind]

def Stays (Good : Path → Prop) (c : BuildContext σ) (s : BuildState) : Prop :=
  ∀ {p text}, Path.Tidy p.text.toList → s.visited.contains p = true → c.host.read c.fs p = .ok (some text) →
    ∀ id, ∀ q ∈ nextOf c (fileAt id p text), Good q

/-- Two builds have come equally far, and have visited good paths only. -/
structure Beside (Good : Path → Prop) (s s' : BuildState) : Prop where
  visited : s.visited = s'.visited
  fault : s.fault = s'.fault
  good : ∀ {p}, s'.visited.contains p = true → Good p

theorem visited_visit (c : BuildContext σ) (s : BuildState) (p q : Path)
    (h : s.visited.contains q = true) : (visit c s p).1.visited.contains q = true := by
  rcases visit_cases c s p with ⟨-, heq⟩ | ⟨-, -, ⟨fault, missing, -, heq⟩ | ⟨text, roots, -, heq⟩⟩
  · rw [heq]
    exact h
  · rw [heq]
    exact contains_visit.mpr (.inr h)
  · rw [heq]
    exact contains_visit.mpr (.inr h)

theorem visited_round (c : BuildContext σ) (q : Path) (queue : List Path) : ∀ {s : BuildState},
    s.visited.contains q = true → (round c s queue).1.visited.contains q = true := by
  induction queue with
  | nil => exact fun h => h
  | cons p rest ih => exact fun h => ih (visited_visit c _ p q h)

theorem visited_rounds (c : BuildContext σ) (q : Path) (fuel : Nat) : ∀ {s : BuildState} {queue : List Path},
    s.visited.contains q = true → (rounds c fuel s queue).visited.contains q = true := by
  induction fuel with
  | zero =>
    intro s queue h
    cases queue <;> exact h
  | succ fuel ih =>
    intro s queue h
    cases queue with
    | nil => exact h
    | cons p rest => exact ih (visited_round c q (p :: rest) h)

end BuildState

namespace BuildState

open Program.Built

variable {σ : Type} [FileSystem σ]

theorem alongside_elsewhere {file : Path} {fs fs' : σ} (h : FileSystem.AgreeBut file fs fs') (o : Options)
    (host : Host) (full : Bool) (roots : OrdSet Path) :
    Alongside (host.Away file) ⟨o, host, fs, full, roots⟩ ⟨o, host, fs', full, roots⟩ where
  full := rfl
  congr := Host.Away.congr
  read hp := by
    simp only [Host.read]
    rw [h.read _ hp]
  links {p text} i j hp hgood := by
    have hfrom : ∀ q ∈ linksOf ⟨o, host, fs', full, roots⟩ (fileAt j p text), host.present fs q = true := by
      intro q hq
      rw [← present_linksOf hq]
      exact (h.present _ (hgood q hq)).symm
    have hto : ∀ q ∈ linksOf ⟨o, host, fs, full, roots⟩ (fileAt j p text), host.present fs' q = true :=
      fun q hq => h.kept _ (present_linksOf hq)
    refine ⟨?_, fun hfull => ?_⟩
    · rw [foundOf_fileAt _ i j]
      exact foundOf_congr rfl hto hfrom
    · rw [status_refsOf _ i j]
      exact congrArg _ (refsOf_congr hfull hfull hto hfrom)

end BuildState

end Recompile
