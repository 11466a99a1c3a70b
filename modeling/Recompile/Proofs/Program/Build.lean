import Recompile.Proofs.Data.OrdMap
import Recompile.Proofs.Program.Links

/-!
What a build leaves. Its files are those visited paths that can be read, each with the module of
its text, and all that they refer to has been visited.
-/

namespace Recompile

namespace BuildState

variable {σ : Type} [FileSystem σ] {c : BuildContext σ}

def fileAt (id : FileId) (p : Path) (text : String) : SourceFile := ⟨id, p, text, .ofPath p⟩

-- A lemma, since unification compares kinds by what the file name comes to.
theorem fileAt_kind (id : FileId) (p : Path) (text : String) : (fileAt id p text).kind = .ofPath p := by
  rw [fileAt]

def withFile (c : BuildContext σ) (p : Program) (roots : List FileId) (r : Registry)
    (f : SourceFile) : Program :=
  { p with
    files := p.files.add f
    modules := if f.kind.isModule then p.modules.insert f.id (moduleOf c r f) else p.modules
    roots := roots }

def nextOf (c : BuildContext σ) (f : SourceFile) : List Path :=
  if f.kind.isModule then linksOf c f else []

theorem nextOf_eq_linksOf {id : FileId} {p : Path} {text : String}
    (h : (SourceKind.ofPath p).isModule = true) : nextOf c (fileAt id p text) = linksOf c (fileAt id p text) := by
  rw [nextOf, fileAt_kind, if_pos h]

theorem nextOf_eq_nil {id : FileId} {p : Path} {text : String}
    (h : ¬ (SourceKind.ofPath p).isModule = true) : nextOf c (fileAt id p text) = [] := by
  rw [nextOf, fileAt_kind, if_neg h]

theorem tidy_nextOf {f : SourceFile} {q : Path} (h : q ∈ nextOf c f) : Path.Tidy q.text.toList := by
  unfold nextOf at h
  split at h
  · exact tidy_linksOf h
  · cases h

def rootsWith (c : BuildContext σ) (roots : List FileId) (id : FileId) (p : Path) : List FileId :=
  if c.roots.contains p then roots ++ [id] else roots

theorem addFile_eq (c : BuildContext σ) (s : BuildState) (p : Path) (text : String) :
    addFile c s p text =
      let f := fileAt (s.registry.intern p).1 p text
      let r := (s.registry.intern p).2.internAll (nextOf c f)
      (⟨r, withFile c s.program (rootsWith c s.program.roots f.id p) r f, s.visited, s.fault⟩,
        nextOf c f) := by
  unfold addFile
  simp only [withFile, nextOf, fileAt]
  by_cases h : (SourceKind.ofPath p).isModule = true
  · simp only [h, ↓reduceIte, addModule_eq]
    rfl
  · simp only [h, ↓reduceIte, Bool.false_eq_true]
    rfl

/-- What holds of a build at every moment. -/
structure Sound (c : BuildContext σ) (s : BuildState) : Prop where
  distinct : s.registry.Distinct
  files_sorted : s.program.files.Sorted
  modules_sorted : s.program.modules.Sorted
  origins_empty : s.program.origins = OrdMap.empty
  file_read : ∀ {id f}, s.program.file? id = some f →
    f = fileAt id f.path f.text ∧ Path.Tidy f.path.text.toList ∧
      s.registry.lookup? f.path = some id ∧ s.visited.contains f.path = true ∧
      c.host.read c.fs f.path = .ok (some f.text)
  read_file : ∀ {p text}, s.visited.contains p = true → Path.Tidy p.text.toList →
    c.host.read c.fs p = .ok (some text) →
      ∃ id, s.registry.lookup? p = some id ∧ s.program.file? id = some (fileAt id p text)
  module?_eq : ∀ id, s.program.module? id =
    ((s.program.file? id).filter fun f => f.kind.isModule).map (moduleOf c s.registry)
  links_known : ∀ {id f}, s.program.file? id = some f → ∀ p ∈ nextOf c f,
    ∃ i, s.registry.lookup? p = some i

/-- All that the files refer to has been visited, but for what is left to do. -/
def Covered (c : BuildContext σ) (s : BuildState) (todo : List Path) : Prop :=
  ∀ id f, s.program.file? id = some f → ∀ p ∈ nextOf c f, s.visited.contains p = true ∨ p ∈ todo

theorem sound_initial {r : Registry} (h : r.Distinct) :
    Sound c ⟨r, Program.empty, OrdMap.empty, none⟩ where
  distinct := h
  files_sorted := OrdMap.sorted_empty
  modules_sorted := OrdMap.sorted_empty
  origins_empty := rfl
  file_read h := by cases h
  read_file h := by cases h
  module?_eq _ := rfl
  links_known h := by cases h

@[simp] theorem file?_withFile (p : Program) (roots : List FileId) (r : Registry)
    (f : SourceFile) (id : FileId) :
    (withFile c p roots r f).file? id = if id = f.id then some f else p.file? id := by
  unfold Program.file? withFile SourceTable.add
  rw [OrdMap.get?_insert]
  simp only [Std.LawfulEqOrd.compare_eq_iff_eq]

theorem module?_withFile (p : Program) (roots : List FileId) (r : Registry)
    (f : SourceFile) (id : FileId) :
    (withFile c p roots r f).module? id =
      if id = f.id ∧ f.kind.isModule = true then some (moduleOf c r f) else p.module? id := by
  unfold Program.module? withFile
  by_cases h : f.kind.isModule = true
  · simp [h, OrdMap.get?_insert]
  · simp [h]

theorem Sound.file?_intern {s : BuildState} (h : Sound c s) {p : Path}
    (htidy : Path.Tidy p.text.toList) (hnew : s.visited.contains p = false) :
    s.program.file? (s.registry.intern p).1 = none := by
  cases hf : s.program.file? (s.registry.intern p).1 with
  | none => rfl
  | some f =>
    obtain ⟨-, hftidy, hlookup, hvisited, -⟩ := h.file_read hf
    have hcomp : f.path.components = p.components :=
      Registry.components_eq_of_lookup? ((Registry.within_intern s.registry p).lookup? hlookup)
        (Registry.lookup?_intern s.registry p)
    rw [Path.eq_of_components_eq hftidy htidy hcomp, hnew] at hvisited
    cases hvisited

theorem contains_visit {v : OrdSet Path} {p q : Path} :
    (OrdSet.add v p).contains q = true ↔ q.components = p.components ∨ v.contains q = true := by
  rw [OrdSet.contains_add, Bool.or_eq_true, beq_iff_eq, Path.compare_eq_iff]

theorem Sound.visited {s : BuildState} (h : Sound c s) {p : Path} (htidy : Path.Tidy p.text.toList)
    (hread : ∀ text, c.host.read c.fs p ≠ .ok (some text)) (fault : Option HostError)
    (missing : List Path) :
    Sound c ⟨s.registry, { s.program with missingRoots := missing }, OrdSet.add s.visited p,
      fault⟩ where
  distinct := h.distinct
  files_sorted := h.files_sorted
  modules_sorted := h.modules_sorted
  origins_empty := h.origins_empty
  file_read hf := by
    obtain ⟨heq, ht, hl, hv, hr⟩ := h.file_read hf
    exact ⟨heq, ht, hl, contains_visit.mpr (.inr hv), hr⟩
  read_file hv ht hr := by
    rcases contains_visit.mp hv with hcomp | hv
    · rw [Path.eq_of_components_eq ht htidy hcomp] at hr
      exact absurd hr (hread _)
    · exact h.read_file hv ht hr
  module?_eq := h.module?_eq
  links_known := h.links_known

theorem Sound.withFile {s : BuildState} (h : Sound c s) {p : Path} {text : String} {id : FileId}
    {r : Registry} (roots : List FileId) (htidy : Path.Tidy p.text.toList)
    (hread : c.host.read c.fs p = .ok (some text)) (hfresh : s.program.file? id = none)
    (hdistinct : r.Distinct) (hwithin : s.registry.Within r) (hlookup : r.lookup? p = some id)
    (hknown : ∀ q ∈ nextOf c (fileAt id p text), ∃ i, r.lookup? q = some i) :
    Sound c ⟨r, withFile c s.program roots r (fileAt id p text),
      OrdSet.add s.visited p, s.fault⟩ where
  distinct := hdistinct
  files_sorted := h.files_sorted.insert _ _
  modules_sorted := by
    simp only [BuildState.withFile]
    split
    · exact h.modules_sorted.insert _ _
    · exact h.modules_sorted
  origins_empty := h.origins_empty
  file_read := by
    intro i g hg
    rw [file?_withFile] at hg
    split at hg
    · rename_i hi
      cases hg
      subst hi
      exact ⟨rfl, htidy, hlookup, contains_visit.mpr (.inl rfl), hread⟩
    · obtain ⟨heq, ht, hl, hv, hr⟩ := h.file_read hg
      exact ⟨heq, ht, hwithin.lookup? hl, contains_visit.mpr (.inr hv), hr⟩
  read_file := by
    intro q text' hv ht hr
    rcases contains_visit.mp hv with hcomp | hv
    · obtain rfl := Path.eq_of_components_eq ht htidy hcomp
      rw [hread] at hr
      cases hr
      exact ⟨id, hlookup, by simp [fileAt]⟩
    · obtain ⟨i, hl, hf⟩ := h.read_file hv ht hr
      have hne : i ≠ id := by
        rintro rfl
        rw [hfresh] at hf
        cases hf
      refine ⟨i, hwithin.lookup? hl, ?_⟩
      rw [file?_withFile, if_neg (show i ≠ (fileAt id p text).id from hne)]
      exact hf
  module?_eq := by
    intro i
    have hold := h.module?_eq i
    rw [module?_withFile, file?_withFile]
    by_cases hi : i = id
    · subst hi
      rw [hfresh] at hold
      rw [if_pos (show i = (fileAt i p text).id from rfl)]
      by_cases hm : (fileAt i p text).kind.isModule = true
      · rw [if_pos ⟨rfl, hm⟩]
        simp [Option.filter_some, hm]
      · rw [if_neg (fun h => hm h.2)]
        simpa [Option.filter_some, hm] using hold
    · rw [if_neg (fun h => hi h.1), if_neg (show i ≠ (fileAt id p text).id from hi), hold]
      cases hg : s.program.file? i with
      | none => rfl
      | some g =>
        by_cases hm : g.kind.isModule = true
        · have hlinks : ∀ q ∈ linksOf c g, ∃ j, s.registry.lookup? q = some j := by
            simpa [nextOf, hm] using h.links_known hg
          simp [Option.filter_some, hm, moduleOf_within hwithin hlinks]
        · simp [Option.filter_some, hm]
  links_known := by
    intro i g hg q hq
    rw [file?_withFile] at hg
    split at hg
    · cases hg
      exact hknown q hq
    · obtain ⟨j, hj⟩ := h.links_known hg q hq
      exact ⟨j, hwithin.lookup? hj⟩

theorem visit_cases (c : BuildContext σ) (s : BuildState) (p : Path) :
    ((s.fault.isSome = true ∨ s.visited.contains p = true) ∧ visit c s p = (s, [])) ∨
    (s.fault = none ∧ s.visited.contains p = false ∧
      ((∃ fault missing, (∀ text, c.host.read c.fs p ≠ .ok (some text)) ∧
          visit c s p = (⟨s.registry, { s.program with missingRoots := missing },
            OrdSet.add s.visited p, fault⟩, [])) ∨
        ∃ text roots, c.host.read c.fs p = .ok (some text) ∧
          let f := fileAt (s.registry.intern p).1 p text
          let r := (s.registry.intern p).2.internAll (nextOf c f)
          visit c s p = (⟨r, withFile c s.program roots r f,
            OrdSet.add s.visited p, s.fault⟩, nextOf c f))) := by
  unfold visit
  by_cases hskip : (s.fault.isSome || s.visited.contains p) = true
  · rw [if_pos hskip]
    exact .inl ⟨by simpa using hskip, rfl⟩
  · rw [if_neg hskip]
    obtain ⟨hfault, hnew⟩ : s.fault = none ∧ s.visited.contains p = false := by simpa using hskip
    refine .inr ⟨hfault, hnew, ?_⟩
    cases hread : c.host.read c.fs p with
    | error e => exact .inl ⟨some e, s.program.missingRoots, by simp, rfl⟩
    | ok found =>
      cases found with
      | none =>
        by_cases hroot : c.roots.contains p = true
        · exact .inl ⟨s.fault, s.program.missingRoots ++ [p], by simp, by simp [hroot]⟩
        · exact .inl ⟨s.fault, s.program.missingRoots, by simp, by simp [hroot]⟩
      | some text =>
        exact .inr ⟨text, _, rfl, addFile_eq c { s with visited := OrdSet.add s.visited p } p text⟩

structure Step (c : BuildContext σ) (s : BuildState) (done : List Path)
    (t : BuildState) (next : List Path) : Prop where
  sound : Sound c t
  within : s.registry.Within t.registry
  tidy : ∀ p ∈ next, Path.Tidy p.text.toList
  fault : t.fault = none → s.fault = none
  visited : ∀ p, s.visited.contains p = true → t.visited.contains p = true
  done_visited : t.fault = none → ∀ p ∈ done, t.visited.contains p = true
  covered : ∀ {todo}, Covered c s todo → Covered c t (todo ++ next)

theorem step_visit {s : BuildState} (h : Sound c s) {p : Path} (htidy : Path.Tidy p.text.toList) :
    Step c s [p] (visit c s p).1 (visit c s p).2 := by
  rcases visit_cases c s p with ⟨hskip, heq⟩ | ⟨hfault, hnew, ⟨fault, missing, hread, heq⟩ |
    ⟨text, roots, hread, heq⟩⟩
  · rw [heq]
    refine ⟨h, .refl _, by simp, id, fun _ => id, ?_, ?_⟩
    · intro hnone q hq
      rw [List.mem_singleton.mp hq]
      rcases hskip with hskip | hskip
      · simp only at hnone
        rw [hnone] at hskip
        cases hskip
      · exact hskip
    · intro todo hcov
      simpa using hcov
  · rw [heq]
    refine ⟨h.visited htidy hread fault missing, .refl _, by simp, fun _ => hfault, ?_, ?_, ?_⟩
    · intro q hq
      exact contains_visit.mpr (.inr hq)
    · intro _ q hq
      exact contains_visit.mpr (.inl (by rw [List.mem_singleton.mp hq]))
    · intro todo hcov id f hf q hq
      rcases hcov id f hf q hq with hv | ht
      · exact .inl (contains_visit.mpr (.inr hv))
      · exact .inr (by simpa using ht)
  · rw [heq]
    have hin := Registry.within_intern s.registry p
    have hall := Registry.within_internAll
      (nextOf c (fileAt (s.registry.intern p).1 p text)) (s.registry.intern p).2
    refine ⟨?_, hin.trans hall, ?_, fun _ => hfault, ?_, ?_, ?_⟩
    · exact h.withFile roots htidy hread (h.file?_intern htidy hnew)
        ((h.distinct.intern p).internAll _) (hin.trans hall)
        (hall.lookup? (Registry.lookup?_intern s.registry p))
        (fun q hq => Registry.lookup?_internAll hq _)
    · exact fun q hq => tidy_nextOf hq
    · intro q hq
      exact contains_visit.mpr (.inr hq)
    · intro _ q hq
      exact contains_visit.mpr (.inl (by rw [List.mem_singleton.mp hq]))
    · intro todo hcov id f hf q hq
      rw [file?_withFile] at hf
      split at hf
      · cases hf
        exact .inr (List.mem_append_right _ hq)
      · rcases hcov id f hf q hq with hv | ht
        · exact .inl (contains_visit.mpr (.inr hv))
        · exact .inr (List.mem_append_left _ ht)

theorem Step.refl {s : BuildState} (h : Sound c s) : Step c s [] s [] :=
  ⟨h, .refl _, by simp, id, fun _ => id, by simp, fun hcov => by simpa using hcov⟩

theorem Step.trans {s t u : BuildState} {done done' next next' : List Path}
    (h : Step c s done t next) (h' : Step c t done' u next') :
    Step c s (done ++ done') u (next ++ next') where
  sound := h'.sound
  within := h.within.trans h'.within
  tidy p hp := (List.mem_append.mp hp).elim (h.tidy p) (h'.tidy p)
  fault hu := h.fault (h'.fault hu)
  visited p hp := h'.visited p (h.visited p hp)
  done_visited hu p hp := by
    rcases List.mem_append.mp hp with hp | hp
    · exact h'.visited p (h.done_visited (h'.fault hu) p hp)
    · exact h'.done_visited hu p hp
  covered hcov := by
    have := h'.covered (h.covered hcov)
    rwa [List.append_assoc] at this

theorem step_round {queue : List Path} (htidy : ∀ p ∈ queue, Path.Tidy p.text.toList) :
    ∀ {s : BuildState}, Sound c s → Step c s queue (round c s queue).1 (round c s queue).2 := by
  induction queue with
  | nil => exact fun h => Step.refl h
  | cons p rest ih =>
    intro s h
    have hvisit := step_visit h (htidy p List.mem_cons_self)
    exact hvisit.trans (ih (fun q hq => htidy q (List.mem_cons_of_mem _ hq)) hvisit.sound)

theorem sound_rounds (fuel : Nat) : ∀ {s : BuildState} {queue : List Path}, Sound c s →
    (∀ p ∈ queue, Path.Tidy p.text.toList) →
    Sound c (rounds c fuel s queue) ∧ s.registry.Within (rounds c fuel s queue).registry ∧
      ((rounds c fuel s queue).fault = none → s.fault = none ∧
        (Covered c s queue → Covered c (rounds c fuel s queue) [])) := by
  induction fuel with
  | zero =>
    intro s queue h htidy
    cases queue with
    | nil => exact ⟨h, .refl _, fun hf => ⟨hf, id⟩⟩
    | cons p rest =>
      have hsound : Sound c { s with fault := some (s.fault.getD (exhausted p)) } :=
        ⟨h.distinct, h.files_sorted, h.modules_sorted, h.origins_empty, h.file_read, h.read_file,
          h.module?_eq, h.links_known⟩
      exact ⟨hsound, .refl _, fun hf => by cases hf⟩
  | succ fuel ih =>
    intro s queue h htidy
    cases queue with
    | nil => exact ⟨h, .refl _, fun hf => ⟨hf, id⟩⟩
    | cons p rest =>
      have hstep := step_round htidy h
      obtain ⟨hsound, hwithin, hcov⟩ := ih hstep.sound hstep.tidy
      refine ⟨hsound, hstep.within.trans hwithin, fun hfault => ?_⟩
      obtain ⟨hnone, hlast⟩ := hcov hfault
      refine ⟨hstep.fault hnone, fun hstart => hlast ?_⟩
      intro id f hf q hq
      rcases hstep.covered hstart id f hf q hq with hv | hq
      · exact .inl hv
      · rcases List.mem_append.mp hq with hq | hq
        · exact .inl (hstep.done_visited hnone q hq)
        · exact .inr hq

end BuildState

end Recompile
