import Recompile.Proofs.Ledger.Affected
import Recompile.Proofs.Program.Reachable

/-!
What a program consists of. Its files are the readable paths that the roots lead to, and what its
modules say of each other is what their specifiers and resources stand for among these files.
-/

namespace Recompile

namespace Specifier

theorem alternatives?_eq_none_iff {o : Options} {dir : Path} {specifier : String} :
    alternatives? o dir specifier = none ↔
      isRelative specifier = false ∧ aliasTargets? o.paths specifier = none := by
  unfold alternatives?
  split <;> simp [*]

end Specifier

namespace Program

open BuildState

variable {σ : Type} [FileSystem σ] {c : BuildContext σ} {queue : List Path} {s : BuildState}

def Holds (p : Program) (id : FileId) (q : Path) : Prop := ∃ f, p.file? id = some f ∧ f.path = q

/-- What a specifier of a module in a directory resolves to in a program. -/
def Resolves (c : BuildContext σ) (p : Program) (dir : Path) (specifier : String) : Resolution → Prop
  | .file id => ∃ q, chosen? c dir specifier = some q ∧ p.Holds id q
  | .unresolved => (Specifier.isRelative specifier = true ∨
        ∃ targets, Specifier.aliasTargets? c.options.paths specifier = some targets) ∧
      ∀ q, chosen? c dir specifier = some q → ∀ text, c.host.read c.fs q ≠ .ok (some text)
  | .external => Specifier.isRelative specifier = false ∧
      Specifier.aliasTargets? c.options.paths specifier = none

/-- A program that holds what some paths lead to, and nothing else. -/
structure Closed (c : BuildContext σ) (queue : List Path) (p : Program) : Prop where
  member_iff : ∀ q, (∃ f ∈ p.members, f.path = q) ↔
    Reached c queue q ∧ ∃ text, c.host.read c.fs q = .ok (some text)
  member : ∀ f ∈ p.members, p.file? f.id = some f ∧ f.kind = .ofPath f.path ∧
    c.host.read c.fs f.path = .ok (some f.text)
  once : (p.members.map (·.path)).Nodup
  module_iff : ∀ id, (∃ m, p.module? id = some m) ↔
    ∃ f, p.file? id = some f ∧ f.kind.isModule = true
  outline : ∀ {id f m}, p.file? id = some f → p.module? id = some m →
    m.outline = Script.analyze id (Script.scan id f.text)
  resolution : ∀ {id f m}, p.file? id = some f → p.module? id = some m →
    List.Forall₂ (fun x => p.Resolves c f.path.dirname x.1) m.outline.specifiers m.resolutions
  resource : ∀ {id f m}, p.file? id = some f → p.module? id = some m → ∀ ref ∈ m.resources,
    ref.path = f.path.dirname.resolve ⟨ref.url⟩ ∧ ∀ t, ref.file = some t ↔
      c.full = true ∧ c.host.present c.fs ref.path = true ∧ p.Holds t ref.path
  dependency_iff : ∀ id t, (p.dependencies id).contains t = true ↔ p.contains t = true ∧
    ∃ m, p.module? id = some m ∧
      (.file t ∈ m.resolutions ∨ ∃ ref ∈ m.resources, ref.file = some t)
  importer_iff : ∀ t id, (∃ passes, (id, passes) ∈ p.importers t) ↔
    (p.dependencies id).contains t = true
  importer_once : ∀ t, ((p.importers t).map (·.1)).Nodup
  passes_iff : ∀ {t id passes m}, (id, passes) ∈ p.importers t → p.module? id = some m →
    (∀ ref ∈ m.resources, ref.file ≠ some t) →
      (passes = true ↔ ∃ r ∈ m.reexports, r.2 = .file t)
  root_iff : ∀ id, id ∈ p.roots ↔ ∃ q ∈ queue, p.Holds id q
  missing_iff : ∀ q, q ∈ p.missingRoots ↔ q ∈ queue ∧ c.host.read c.fs q = .ok none
  root_split : ∀ q ∈ queue, (∃ id ∈ p.roots, p.Holds id q) ↔ q ∉ p.missingRoots
  roots_once : p.roots.Nodup ∧ p.missingRoots.Nodup


theorem holds_iff (hs : Sound c s) {q : Path} (hq : Path.Tidy q.text.toList) {id : FileId}
    (hl : s.registry.lookup? q = some id) {t : FileId} :
    s.program.Holds t q ↔ t = id ∧ s.program.contains id = true := by
  constructor
  · rintro ⟨f, hf, rfl⟩
    obtain rfl := Option.some.inj ((hs.file_read hf).2.2.1.symm.trans hl)
    exact ⟨rfl, contains_iff_file?.mpr ⟨f, hf⟩⟩
  · rintro ⟨rfl, hheld⟩
    obtain ⟨f, hf⟩ := contains_iff_file?.mp hheld
    obtain ⟨-, htidy, hlookup, -⟩ := hs.file_read hf
    exact ⟨f, hf, Path.eq_of_components_eq htidy hq (Registry.components_eq_of_lookup? hlookup hl)⟩

theorem contains_iff_read (hs : Sound c s) {q : Path} (hq : Path.Tidy q.text.toList) {id : FileId}
    (hl : s.registry.lookup? q = some id) (hvisited : s.visited.contains q = true) :
    s.program.contains id = true ↔ ∃ text, c.host.read c.fs q = .ok (some text) := by
  constructor
  · intro hheld
    obtain ⟨f, hf, rfl⟩ := (holds_iff hs hq hl).mpr ⟨rfl, hheld⟩
    exact ⟨f.text, (hs.file_read hf).2.2.2.2⟩
  · rintro ⟨text, hread⟩
    obtain ⟨i, hlookup, hf⟩ := hs.read_file hvisited hq hread
    obtain rfl := Option.some.inj (hlookup.symm.trans hl)
    exact contains_iff_file?.mpr ⟨_, hf⟩

theorem known_of_link (hs : Sound c s) (hcovered : Covered c s []) {id : FileId} {f : SourceFile}
    (hf : s.program.file? id = some f) (hkind : f.kind.isModule = true) {q : Path} (hq : q ∈ linksOf c f) :
    Path.Tidy q.text.toList ∧ s.visited.contains q = true ∧ ∃ i, s.registry.lookup? q = some i := by
  have hnext : q ∈ nextOf c f := by rwa [nextOf, if_pos hkind]
  exact ⟨tidy_linksOf hq, (hcovered id f hf q hnext).resolve_right List.not_mem_nil,
    hs.links_known hf q hnext⟩

def settledResolution (p : Program) : Resolution → Resolution
  | .file id => if p.contains id then .file id else .unresolved
  | r => r

def settledResource (p : Program) (ref : ResourceRef) : ResourceRef :=
  match ref.file with
  | some id => if p.contains id then ref else { ref with file := none, present := false }
  | none => ref

theorem settleModule_moduleOf (p : Program) (r : Registry) (f : SourceFile) :
    settleModule p (moduleOf c r f) =
      ⟨outlineOf f, Script.faults (Script.scan f.id f.text),
        (outlineOf f).specifiers.map fun x => settledResolution p
          (resolution r (Specifier.find c.options c.host c.fs f.path.dirname x.1)),
        (refsOf c f).map fun ref => settledResource p (identified c r ref)⟩ := by
  unfold settleModule moduleOf foundOf
  simp only [List.map_map]
  rfl

theorem resolves_settled (hs : Sound c s) (hcovered : Covered c s []) {id : FileId} {f : SourceFile}
    (hf : s.program.file? id = some f) (hkind : f.kind.isModule = true) {x : String × Span}
    (hx : x ∈ (outlineOf f).specifiers) :
    s.program.Resolves c f.path.dirname x.1 (settledResolution s.program
      (resolution s.registry (Specifier.find c.options c.host c.fs f.path.dirname x.1))) := by
  have hfound := (mem_foundOf (c := c)).mpr ⟨x, hx, rfl⟩
  have hchosen := fun q => @find_eq_file_iff σ _ c f.path.dirname q x.1
  have halias : Specifier.alternatives? c.options f.path.dirname x.1 ≠ none →
      Specifier.isRelative x.1 = true ∨
        ∃ targets, Specifier.aliasTargets? c.options.paths x.1 = some targets := by
    intro hsome
    rw [Ne, Specifier.alternatives?_eq_none_iff, not_and_or, Bool.not_eq_false] at hsome
    exact hsome.imp_right Option.ne_none_iff_exists'.mp
  cases hfind : Specifier.find c.options c.host c.fs f.path.dirname x.1 with
  | file q =>
    rw [hfind] at hfound
    obtain ⟨htidy, hvisited, i, hl⟩ := known_of_link hs hcovered hf hkind (mem_linksOf.mpr (.inl hfound))
    rw [BuildState.resolution, Registry.intern_of_lookup? hl, settledResolution]
    split
    · rename_i hheld
      exact ⟨q, (hchosen q).mp hfind, (holds_iff hs htidy hl).mpr ⟨rfl, hheld⟩⟩
    · rename_i hheld
      obtain ⟨paths, hpaths, -⟩ := Specifier.find_eq_file hfind
      refine ⟨halias (by simp [hpaths]), fun q' hq' text hread => hheld ?_⟩
      obtain rfl : q' = q := by
        rw [← hchosen, hfind] at hq'
        exact (Specifier.Found.file.inj hq').symm
      exact (contains_iff_read hs htidy hl hvisited).mpr ⟨text, hread⟩
  | external =>
    rw [Specifier.find_eq] at hfind
    split at hfind
    · rename_i hnone
      exact Specifier.alternatives?_eq_none_iff.mp hnone
    · rename_i paths hpaths
      cases hfirst : paths.find? (c.host.present c.fs) <;> rw [hfirst] at hfind <;> cases hfind
  | unresolved =>
    refine ⟨halias fun hnone => ?_, fun q hq => ?_⟩
    · rw [Specifier.find_eq, hnone] at hfind
      cases hfind
    · rw [← hchosen, hfind] at hq
      cases hq

theorem resource_settled (hs : Sound c s) (hcovered : Covered c s []) {id : FileId} {f : SourceFile}
    (hf : s.program.file? id = some f) (hkind : f.kind.isModule = true) {ref : ResourceRef}
    (href : ref ∈ refsOf c f) :
    (settledResource s.program (identified c s.registry ref)).path = f.path.dirname.resolve ⟨ref.url⟩ ∧
      (settledResource s.program (identified c s.registry ref)).url = ref.url ∧
      ∀ t, (settledResource s.program (identified c s.registry ref)).file = some t ↔
        c.full = true ∧ c.host.present c.fs ref.path = true ∧ s.program.Holds t ref.path := by
  obtain ⟨hpresent, hnone, hpath⟩ := mem_refsOf href
  unfold identified
  by_cases hcond : (c.full && ref.present) = true
  · obtain ⟨hfull, hpres⟩ : c.full = true ∧ ref.present = true := by simpa using hcond
    obtain ⟨htidy, hvisited, i, hl⟩ := known_of_link hs hcovered hf hkind
      (mem_linksOf.mpr (.inr ⟨hfull, ref, href, hpres, rfl⟩))
    rw [if_pos hcond, Registry.intern_of_lookup? hl, settledResource]
    dsimp only
    split
    · rename_i hheld
      refine ⟨hpath, rfl, fun t => ?_⟩
      rw [holds_iff hs htidy hl, ← hpresent]
      simp [hfull, hpres, hheld, eq_comm]
    · rename_i hheld
      refine ⟨hpath, rfl, fun t => ?_⟩
      rw [holds_iff hs htidy hl]
      simp [hheld]
  · rw [if_neg hcond, settledResource, hnone]
    refine ⟨hpath, rfl, fun t => ?_⟩
    rw [hnone, ← hpresent]
    simp only [reduceCtorEq, false_iff]
    rintro ⟨hfull, hpres, -⟩
    exact hcond (by simp [hfull, hpres])

theorem mem_targets_iff {m : Module} {t : FileId} :
    t ∈ m.targets ↔ .file t ∈ m.resolutions ∨ ∃ ref ∈ m.resources, ref.file = some t := by
  have htarget : ∀ r : Resolution, r.target? = some t ↔ r = .file t := by
    intro r
    cases r <;> simp [Resolution.target?]
  unfold Module.targets
  simp [htarget]

theorem dependencies_contains {p : Program} {id t : FileId} :
    (p.dependencies id).contains t = true ↔ ∃ m, p.module? id = some m ∧ t ∈ m.targets := by
  unfold dependencies
  cases p.module? id with
  | none => simp [OrdMap.contains_eq_isSome]
  | some m => simp [OrdSet.mem_ofList]

theorem nodup_importers {p : Program} (h : p.modules.Sorted) (t : FileId) :
    ((p.importers t).map (·.1)).Nodup := by
  rw [List.Nodup, List.pairwise_map, importers, List.pairwise_filterMap]
  have hkeys : p.modules.entries.Pairwise fun a b => a.1 ≠ b.1 := List.pairwise_map.mp h.nodup_keys
  refine hkeys.imp fun {a b} hne x hx y hy => ?_
  split at hx
  · split at hy
    · cases hx
      cases hy
      exact hne
    · cases hy
  · cases hx

theorem passesOn_iff {m : Module} {t : FileId} (h : ∀ ref ∈ m.resources, ref.file ≠ some t) :
    m.passesOn t = true ↔ ∃ r ∈ m.reexports, r.2 = .file t := by
  have htarget : ∀ r : Resolution, r.target? = some t ↔ r = .file t := by
    intro r
    cases r <;> simp [Resolution.target?]
  have hnone : (m.resources.any fun r => decide (r.file = some t)) = false := by simpa using h
  rw [Module.passesOn, hnone, Bool.not_false, Bool.and_true, List.any_eq_true]
  simp only [decide_eq_true_eq, htarget]

theorem mem_members_settle (hs : Sound c s) {f : SourceFile} :
    f ∈ (settle s.program).members ↔ s.program.file? f.id = some f := by
  have hsorted : (settle s.program).files.Sorted := hs.files_sorted
  rw [members, hsorted.mem_values]
  constructor
  · rintro ⟨id, hf⟩
    have hf : s.program.file? id = some f := hf
    have hid : f.id = id := congrArg SourceFile.id (hs.file_read hf).1
    rwa [hid]
  · exact fun hf => ⟨f.id, hf⟩

theorem module?_settle_iff (hs : Sound c s) {id : FileId} {m : Module} :
    (settle s.program).module? id = some m ↔ ∃ f, s.program.file? id = some f ∧
      f.kind.isModule = true ∧ settleModule s.program (moduleOf c s.registry f) = m := by
  rw [module?_settle, hs.module?_eq, Option.map_map, Option.map_eq_some_iff]
  simp only [Option.filter_eq_some_iff, and_assoc, Function.comp_apply]

theorem root_or_missing (hs : Sound c s) (ht : Traced c queue s) (hqueue : StartsFrom c queue)
    (hfault : s.fault = none) {q : Path} (hq : q ∈ queue) (hvisited : s.visited.contains q = true) :
    (∃ id ∈ s.program.roots, s.program.Holds id q) ↔ q ∉ s.program.missingRoots := by
  constructor
  · rintro ⟨id, -, f, hf, rfl⟩ hmissing
    have hnone := (ht.missing_iff.mp hmissing).2.2
    rw [(hs.file_read hf).2.2.2.2] at hnone
    cases hnone
  · intro hnot
    cases hread : c.host.read c.fs q with
    | error e => exact absurd hread (ht.unfailing hfault (hqueue.tidy q hq) hvisited e)
    | ok found =>
      cases found with
      | none => exact absurd (ht.missing_iff.mpr ⟨hq, hvisited, hread⟩) hnot
      | some text =>
        obtain ⟨id, -, hf⟩ := hs.read_file hvisited (hqueue.tidy q hq) hread
        exact ⟨id, ht.root_iff.mpr ⟨_, hf, hq⟩, _, hf, rfl⟩

theorem nodup_paths_settle (hs : Sound c s) : ((settle s.program).members.map (·.path)).Nodup := by
  have hsorted : (settle s.program).files.Sorted := hs.files_sorted
  have hids : (settle s.program).members.Pairwise fun f g => f.id ≠ g.id := by
    refine List.pairwise_map.mpr ((List.pairwise_map.mp hsorted.nodup_keys).imp_of_mem ?_)
    intro a b ha hb hne
    rwa [congrArg SourceFile.id (hs.file_read (hsorted.get?_of_mem ha)).1,
      congrArg SourceFile.id (hs.file_read (hsorted.get?_of_mem hb)).1]
  refine List.pairwise_map.mpr (hids.imp_of_mem fun {f g} hf hg hne hpath => hne ?_)
  have hlf := (hs.file_read ((mem_members_settle hs).mp hf)).2.2.1
  have hlg := (hs.file_read ((mem_members_settle hs).mp hg)).2.2.1
  rw [hpath, hlg] at hlf
  exact (Option.some.inj hlf).symm

theorem closed_settle (hs : Sound c s) (ht : Traced c queue s) (hqueue : StartsFrom c queue)
    (hfault : s.fault = none) (hcovered : Covered c s [])
    (hroots : ∀ p ∈ queue, s.visited.contains p = true) : Closed c queue (settle s.program) where
  member_iff q := by
    constructor
    · rintro ⟨f, hf, rfl⟩
      obtain ⟨-, htidy, -, hvisited, hread⟩ := hs.file_read ((mem_members_settle hs).mp hf)
      exact ⟨ht.reached htidy hvisited, f.text, hread⟩
    · rintro ⟨hq, text, hread⟩
      have hvisited := hq.visited hs hqueue hcovered hroots
      obtain ⟨id, -, hf⟩ := hs.read_file hvisited (hq.tidy hqueue.tidy) hread
      exact ⟨fileAt id q text, (mem_members_settle hs).mpr hf, rfl⟩
  member f hf := by
    have hf := (mem_members_settle hs).mp hf
    obtain ⟨heq, -, -, -, hread⟩ := hs.file_read hf
    have hkind := congrArg SourceFile.kind heq
    rw [fileAt_kind] at hkind
    exact ⟨hf, hkind, hread⟩
  once := nodup_paths_settle hs
  module_iff id := by
    simp only [module?_settle_iff hs, file?_settle]
    constructor
    · rintro ⟨m, f, hf, hkind, -⟩
      exact ⟨f, hf, hkind⟩
    · rintro ⟨f, hf, hkind⟩
      exact ⟨_, f, hf, hkind, rfl⟩
  outline {id f m} hf hm := by
    obtain ⟨g, hg, -, rfl⟩ := (module?_settle_iff hs).mp hm
    obtain rfl := Option.some.inj (hg.symm.trans hf)
    have hid : g.id = id := congrArg SourceFile.id (hs.file_read hg).1
    rw [← hid]
    rfl
  resolution {id f m} hf hm := by
    obtain ⟨g, hg, hkind, rfl⟩ := (module?_settle_iff hs).mp hm
    obtain rfl := Option.some.inj (hg.symm.trans hf)
    rw [settleModule_moduleOf, List.forall₂_map_right_iff, List.forall₂_same]
    exact fun x hx => resolves_settled hs hcovered hg hkind hx
  resource {id f m} hf hm ref href := by
    obtain ⟨g, hg, hkind, rfl⟩ := (module?_settle_iff hs).mp hm
    obtain rfl := Option.some.inj (hg.symm.trans hf)
    rw [settleModule_moduleOf] at href
    obtain ⟨ref₀, href₀, rfl⟩ := List.mem_map.mp href
    obtain ⟨hpath, hurl, hfile⟩ := resource_settled hs hcovered hg hkind href₀
    have hsame : ref₀.path = g.path.dirname.resolve ⟨ref₀.url⟩ := (mem_refsOf href₀).2.2
    rw [hpath, hurl, ← hsame]
    exact ⟨rfl, hfile⟩
  dependency_iff id t := by
    rw [dependencies_contains]
    simp only [← mem_targets_iff]
    refine ⟨fun ⟨m, hm, htarget⟩ => ⟨?_, m, hm, htarget⟩, fun ⟨_, hm⟩ => hm⟩
    obtain ⟨f, -, -, rfl⟩ := (module?_settle_iff hs).mp hm
    exact contains_of_mem_targets_settleModule htarget
  importer_iff t id := by
    have hsorted : (settle s.program).modules.Sorted := hs.modules_sorted.map _
    rw [dependencies_contains]
    simp only [mem_importers hsorted]
    exact ⟨fun ⟨_, m, hm, htarget, _⟩ => ⟨m, hm, htarget⟩,
      fun ⟨m, hm, htarget⟩ => ⟨_, m, hm, htarget, rfl⟩⟩
  importer_once := nodup_importers (hs.modules_sorted.map _)
  passes_iff {t id passes m} hmem hm hnone := by
    have hsorted : (settle s.program).modules.Sorted := hs.modules_sorted.map _
    obtain ⟨m', hm', -, rfl⟩ := (mem_importers hsorted).mp hmem
    obtain rfl := Option.some.inj (hm.symm.trans hm')
    exact passesOn_iff hnone
  root_iff id := by
    refine ht.root_iff.trans ⟨fun ⟨f, hf, hq⟩ => ⟨f.path, hq, f, hf, rfl⟩, ?_⟩
    rintro ⟨q, hq, f, hf, rfl⟩
    exact ⟨f, hf, hq⟩
  missing_iff q := by
    refine ht.missing_iff.trans (and_congr_right fun hq => and_iff_right (hroots q hq))
  root_split q hq := root_or_missing hs ht hqueue hfault hq (hroots q hq)
  roots_once := ⟨ht.roots_nodup, ht.missing_nodup⟩

theorem roots_add (origin : FileId) (state : Program × Registry) :
    (Shadow.add state origin).1.roots = state.1.roots ∧
      (Shadow.add state origin).1.missingRoots = state.1.missingRoots := by
  unfold Shadow.add
  dsimp only
  split <;> exact ⟨rfl, rfl⟩

theorem roots_addAll (origins : List FileId) : ∀ state : Program × Registry,
    (origins.foldl Shadow.add state).1.roots = state.1.roots ∧
      (origins.foldl Shadow.add state).1.missingRoots = state.1.missingRoots := by
  induction origins with
  | nil => exact fun _ => ⟨rfl, rfl⟩
  | cons o rest ih =>
    intro state
    obtain ⟨hroots, hmissing⟩ := ih (Shadow.add state o)
    obtain ⟨hroots', hmissing'⟩ := roots_add o state
    exact ⟨hroots.trans hroots', hmissing.trans hmissing'⟩

theorem Built.roots_eq {p : Program} {r : Registry} (h : Built c s p r) :
    p.roots = s.program.roots ∧ p.missingRoots = s.program.missingRoots := by
  have hp : p = (if c.full then Shadow.addAll (settle s.program) s.registry
      else (settle s.program, s.registry)).1 := congrArg Prod.fst h.finish
  rw [hp]
  split
  · exact roots_addAll _ _
  · exact ⟨rfl, rfl⟩

omit [FileSystem σ] in
theorem startsFrom_roots (options : Options) (host : Host) (fs : σ) (full : Bool) (roots : List Path) :
    StartsFrom ⟨options, host, fs, full, OrdSet.ofList (roots.map Path.normalize)⟩
      (roots.map Path.normalize) where
  roots := rfl
  tidy := tidy_roots roots
  level q hq := by
    obtain ⟨root, -, rfl⟩ := List.mem_map.mp hq
    exact Path.level_normalize root

/-- A build ends with a program exactly when all that its roots lead to can be looked at. But for
the shadows that come last, that program is what the roots lead to. -/
theorem build_closed (options : Options) (host : Host) (fs : σ) (full : Bool) (roots : List Path)
    {registry : Registry} (hr : registry.Distinct) :
    let queue := roots.map Path.normalize
    let c : BuildContext σ := ⟨options, host, fs, full, OrdSet.ofList queue⟩
    (FileSystem.Finite fs →
      ((∃ p r, build options host fs full registry roots = (.ok p, r)) ↔
        ∀ q, Reached c queue q → ∀ e, host.read fs q ≠ .error e)) ∧
    ∀ p r, build options host fs full registry roots = (.ok p, r) → ∃ base known,
      (p, r) = (if full then Shadow.addAll base known else (base, known)) ∧ Closed c queue base ∧
        p.modules = base.modules ∧ p.roots = base.roots ∧ p.missingRoots = base.missingRoots ∧
        ∀ id, base.contains id = true → p.contains id = true := by
  intro queue c
  have hqueue : StartsFrom c queue := startsFrom_roots options host fs full roots
  have hinit : Sound c ⟨registry, empty, OrdMap.empty, none⟩ := sound_initial hr
  have hend : (outcome c registry queue).fault = none →
      Traced c queue (outcome c registry queue) ∧ Covered c (outcome c registry queue) [] ∧
        ∀ q ∈ queue, (outcome c registry queue).visited.contains q = true := by
    intro hfault
    refine ⟨traced_rounds hqueue _ (traced_initial registry) hinit (fun q hq => .root hq) hfault, ?_,
      visited_queue hinit hqueue.tidy hfault⟩
    exact ((sound_rounds _ hinit hqueue.tidy).2.2 hfault).2 fun id f hf => by cases hf
  obtain ⟨-, hsound, hcases⟩ := build_outcome options host fs full roots hr
  refine ⟨fun hfinite => ⟨?_, fun hread => ?_⟩, fun p r hbuild => ?_⟩
  · rintro ⟨p, r, hbuild⟩ q hq e
    rcases hcases with ⟨e', -, heq⟩ | ⟨hfault, -⟩
    · rw [hbuild] at heq
      cases heq
    · obtain ⟨htraced, hcovered, hroots⟩ := hend hfault
      exact htraced.unfailing hfault (hq.tidy hqueue.tidy)
        (hq.visited hsound hqueue hcovered hroots) e
  · have hfault : (outcome c registry queue).fault = none := by
      refine rounds_end hfinite hqueue hread _ (traced_initial registry) hinit
        (fun hf => by cases hf) (fun q hq => ⟨.root hq, hqueue.level q hq⟩) (.inr ?_) rfl
      exact Nat.lt_of_lt_of_le (Nat.lt_succ_self _) (Nat.le_add_left _ _)
    rcases hcases with ⟨e, hsome, -⟩ | ⟨-, p, r, heq, -⟩
    · rw [hfault] at hsome
      cases hsome
    · exact ⟨p, r, heq⟩
  · rcases hcases with ⟨e, -, heq⟩ | ⟨hfault, p', r', heq, hbuilt⟩
    · rw [hbuild] at heq
      cases heq
    · rw [hbuild] at heq
      cases heq
      obtain ⟨htraced, hcovered, hroots⟩ := hend hfault
      refine ⟨_, _, hbuilt.finish, closed_settle hsound htraced hqueue hfault hcovered hroots,
        hbuilt.shadows.modules, hbuilt.roots_eq.1, hbuilt.roots_eq.2, fun id hid => ?_⟩
      obtain ⟨f, hf⟩ := contains_iff_file?.mp hid
      exact hbuilt.contains_of_read hf

set_option maxRecDepth 100000

def circular : Volume := .ofTexts [
  (⟨"/a.ts"⟩, "import './b';\nimport './a';\nimport './c';"), (⟨"/b.ts"⟩, "export * from './a';")]

theorem build_closed_circular :
    let roots : List Path := [⟨"/x/../a.ts"⟩, ⟨"/no.ts"⟩, ⟨"/a.ts"⟩]
    let options := Options.ofConfigPath ⟨"/k"⟩
    let host : Host := ⟨OrdMap.empty, .passthrough⟩
    let queue := roots.map Path.normalize
    let c : BuildContext Volume := ⟨options, host, circular, false, OrdSet.ofList queue⟩
    (∀ q, Reached c queue q → ∀ e, host.read circular q ≠ .error e) ∧
    ∃ p r, build options host circular false Registry.empty roots = (.ok p, r) ∧
      p.members.map (·.path) = [⟨"/a.ts"⟩, ⟨"/b.ts"⟩] ∧ p.roots = [0] ∧ p.missingRoots = [⟨"/no.ts"⟩] ∧
      Closed c queue p := by
  intro roots options host queue c
  have hresult : ((build options host circular false Registry.empty roots).1.toOption.map fun p =>
      (p.members.map (·.path), p.roots, p.missingRoots)) =
        some ([⟨"/a.ts"⟩, ⟨"/b.ts"⟩], [0], [⟨"/no.ts"⟩]) := by decide +kernel
  obtain ⟨hends, hclosed⟩ := build_closed options host circular false roots Registry.distinct_empty
  have hends := hends (Volume.finite circular)
  generalize hbuild : build options host circular false Registry.empty roots = built at hresult
  obtain ⟨made, r⟩ := built
  cases made with
  | error e => cases hresult
  | ok p =>
    simp only [Except.toOption, Option.map_some, Option.some.injEq, Prod.mk.injEq] at hresult
    obtain ⟨base, known, heq, hbase, -⟩ := hclosed p r hbuild
    cases heq
    exact ⟨hends.mp ⟨p, r, hbuild⟩, p, r, rfl, hresult.1, hresult.2.1, hresult.2.2, hbase⟩

end Program

end Recompile
