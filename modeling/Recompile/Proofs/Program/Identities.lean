import Recompile.Host.Disk
import Recompile.Proofs.Path.Normal
import Recompile.Proofs.Program.Placed
import Recompile.Proofs.Program.Reachable

/-!
The paths that a build gives identities to. They are normal, so that a file has one identity however
it is referred to, but for two kinds of paths: the index files of the directory that is written as a
dot, and the shadows of scripts in that directory.
-/

namespace Recompile

namespace Registry

theorem mem_intern {r : Registry} {p q : Path} (h : q ∈ (r.intern p).2.paths) : q ∈ r.paths ∨ q = p := by
  unfold intern at h
  split at h
  · exact .inl h
  · rcases List.mem_append.mp h with h | h
    · exact .inl h
    · exact .inr (List.mem_singleton.mp h)

theorem mem_internAll {q : Path} (paths : List Path) : ∀ {r : Registry},
    q ∈ (r.internAll paths).paths → q ∈ r.paths ∨ q ∈ paths := by
  induction paths with
  | nil => exact .inl
  | cons p rest ih =>
    intro r h
    rcases @ih (r.intern p).2 h with h | h
    · rcases mem_intern h with h | rfl
      · exact .inl h
      · exact .inr List.mem_cons_self
    · exact .inr (List.mem_cons_of_mem _ h)

end Registry

namespace BuildState

variable {σ : Type} [FileSystem σ] {c : BuildContext σ} {queue : List Path}

theorem interned_visit (s : BuildState) {p : Path} (hp : Reached c queue p) :
    (∀ q ∈ (visit c s p).1.registry.paths, q ∈ s.registry.paths ∨ Reached c queue q) ∧
      ∀ q ∈ (visit c s p).2, Reached c queue q := by
  rcases visit_cases c s p with ⟨-, heq⟩ | ⟨-, -, ⟨fault, missing, -, heq⟩ | ⟨text, roots, hread, heq⟩⟩
  · rw [heq]
    exact ⟨fun q hq => .inl hq, fun q hq => (List.not_mem_nil hq).elim⟩
  · rw [heq]
    exact ⟨fun q hq => .inl hq, fun q hq => (List.not_mem_nil hq).elim⟩
  · rw [heq]
    dsimp only
    refine ⟨fun q hq => ?_, fun q hq => hp.next hread hq⟩
    rcases Registry.mem_internAll _ hq with hq | hq
    · rcases Registry.mem_intern hq with hq | rfl
      · exact .inl hq
      · exact .inr hp
    · exact .inr (hp.next hread hq)

theorem interned_round (todo : List Path) : ∀ (s : BuildState), (∀ p ∈ todo, Reached c queue p) →
    (∀ q ∈ (round c s todo).1.registry.paths, q ∈ s.registry.paths ∨ Reached c queue q) ∧
      ∀ q ∈ (round c s todo).2, Reached c queue q := by
  induction todo with
  | nil => exact fun s _ => ⟨fun q hq => .inl hq, fun q hq => (List.not_mem_nil hq).elim⟩
  | cons p rest ih =>
    intro s htodo
    obtain ⟨hfirst, hnext⟩ := interned_visit s (htodo p List.mem_cons_self)
    obtain ⟨hlast, hmore⟩ := ih (visit c s p).1 fun q hq => htodo q (List.mem_cons_of_mem _ hq)
    exact ⟨fun q hq => (hlast q hq).elim (hfirst q) .inr,
      fun q hq => (List.mem_append.mp hq).elim (hnext q) (hmore q)⟩

theorem interned_rounds (fuel : Nat) : ∀ (s : BuildState) (todo : List Path),
    (∀ p ∈ todo, Reached c queue p) → ∀ q ∈ (rounds c fuel s todo).registry.paths,
      q ∈ s.registry.paths ∨ Reached c queue q := by
  induction fuel with
  | zero =>
    intro s todo _ q hq
    cases todo <;> exact .inl hq
  | succ fuel ih =>
    intro s todo htodo q hq
    cases todo with
    | nil => exact .inl hq
    | cons p rest =>
      obtain ⟨hround, hnext⟩ := interned_round (p :: rest) s htodo
      exact (ih _ _ hnext q hq).elim (hround q) .inr

theorem Reached.normal (hqueue : ∀ p ∈ queue, p.Normal) {p : Path} (h : Reached c queue p) :
    p.Normal ∨ p = ⟨"./index.ts"⟩ ∨ p = ⟨"./index.d.ts"⟩ := by
  cases h with
  | root hp => exact .inl (hqueue p hp)
  | refer _ _ _ hrefers =>
    cases hrefers with
    | resource => exact .inl (Path.normal_resolve _ _)
    | specifier hx hchosen =>
      obtain ⟨paths, hpaths, hfirst⟩ := Option.bind_eq_some_iff.mp hchosen
      have hmem := List.mem_of_find?_eq_some hfirst
      unfold Specifier.alternatives? at hpaths
      split at hpaths
      · cases hpaths
        exact Path.normal_candidates (Path.normal_resolve _ _) hmem
      · obtain ⟨targets, -, rfl⟩ := Option.map_eq_some_iff.mp hpaths
        obtain ⟨target, -, htarget⟩ := List.mem_flatMap.mp hmem
        exact Path.normal_candidates (Path.normal_resolve _ _) htarget

theorem dotted_index : (⟨"./index.ts"⟩ : Path).Dotted ∧ (⟨"./index.d.ts"⟩ : Path).Dotted :=
  ⟨⟨"index.ts", by simp [Path.IsName, Path.Solid], rfl⟩,
    ⟨"index.d.ts", by simp [Path.IsName, Path.Solid], rfl⟩⟩

theorem Reached.normal_dirname (hqueue : ∀ p ∈ queue, p.Normal) {p : Path} (h : Reached c queue p) :
    p.dirname.Normal := by
  rcases h.normal hqueue with h | rfl | rfl
  · exact Path.normal_dirname h
  · rw [dotted_index.1.dirname_eq]
    decide
  · rw [dotted_index.2.dirname_eq]
    decide

theorem Reached.rooted (hclosed : c.host.RootClosed c.fs)
    (hroot : c.options.moduleRoot.isAbsolute = true)
    (hqueue : ∀ p ∈ queue, Path.Rooted p.text.toList ∧ Path.Tidy p.text.toList) {p : Path}
    (h : Reached c queue p) : Path.Rooted p.text.toList := by
  induction h with
  | root hp => exact (hqueue _ hp).1
  | @refer p q text hp hread _ hrefers ih =>
    have htidy := hp.tidy fun p hp => (hqueue p hp).2
    have hdir := Path.rooted_dirname ih (hclosed.components_ne htidy hread)
    cases hrefers with
    | resource => exact Path.rooted_resolve hdir _
    | specifier hx hchosen =>
      obtain ⟨paths, hpaths, hfirst⟩ := Option.bind_eq_some_iff.mp hchosen
      have hmem := List.mem_of_find?_eq_some hfirst
      unfold Specifier.alternatives? at hpaths
      split at hpaths
      · cases hpaths
        exact Path.rooted_candidates (Path.rooted_resolve hdir _) q hmem
      · obtain ⟨targets, -, rfl⟩ := Option.map_eq_some_iff.mp hpaths
        obtain ⟨target, -, htarget⟩ := List.mem_flatMap.mp hmem
        exact Path.rooted_candidates (Path.rooted_resolve_absolute hroot _) q htarget

end BuildState

namespace Shadow

/-- Files under their identities, with shadows that are written as the files at their paths are. -/
structure Ready (base : Program) (r : Registry) : Prop where
  lookup? : ∀ {id f}, base.file? id = some f → r.lookup? f.path = some id
  same : ∀ {id id' f f'}, base.file? id = some f → base.file? id' = some f' →
    (path f.path).components = f'.path.components → path f.path = f'.path

/-- While shadows are added, files stay at their paths, and only shadows get identities. -/
structure Keeps (base : Program) (r : Registry) (state : Program × Registry) : Prop where
  within : r.Within state.2
  stays : ∀ {id f}, base.file? id = some f → ∃ g, state.1.file? id = some g ∧ g.path = f.path
  interned : ∀ q ∈ state.2.paths, q ∈ r.paths ∨ ∃ id f, base.file? id = some f ∧ q = path f.path

theorem file?_withShadow (p : Program) (f : SourceFile) (origin id : FileId) :
    Program.file? { p with files := p.files.add f, origins := p.origins.insert f.id origin } id =
      if id = f.id then some f else p.file? id := by
  unfold Program.file? SourceTable.add
  simp only [OrdMap.get?_insert, Std.LawfulEqOrd.compare_eq_iff_eq]

theorem keeps_add {base : Program} {r : Registry} {state : Program × Registry} (hb : Ready base r)
    (h : Keeps base r state) {origin : FileId} {f : SourceFile} (hf : base.file? origin = some f) :
    Keeps base r (add state origin) := by
  obtain ⟨p, registry⟩ := state
  obtain ⟨g, hg, hpath⟩ := h.stays hf
  have hg : p.file? origin = some g := hg
  have hin : r.Within (registry.intern (path f.path)).2 :=
    h.within.trans (Registry.within_intern registry (path f.path))
  have hnew := Registry.lookup?_intern registry (path f.path)
  have hmem := fun q => @Registry.mem_intern registry (path f.path) q
  unfold add
  simp only [hg]
  cases p.module? origin with
  | none => exact h
  | some m =>
    dsimp only
    rw [hpath]
    generalize registry.intern (path f.path) = known at hin hnew hmem ⊢
    refine ⟨hin, fun {id f'} hf' => ?_, fun q hq => ?_⟩
    · rw [file?_withShadow]
      by_cases hid : id = known.1
      · -- the shadow stands at the path of a file
        rw [← hid] at hnew
        rw [if_pos hid]
        have hsame := Registry.components_eq_of_lookup? hnew (hin.lookup? (hb.lookup? hf'))
        refine ⟨_, rfl, ?_⟩
        dsimp only
        exact hb.same hf hf' hsame
      · rw [if_neg hid]
        exact h.stays hf'
    · rcases hmem q hq with hq | hq
      · exact h.interned q hq
      · exact .inr ⟨origin, f, hf, hq⟩

theorem keeps_foldl {base : Program} {r : Registry} (hb : Ready base r) (origins : List FileId)
    (horigins : ∀ o ∈ origins, ∃ f, base.file? o = some f) : ∀ {state : Program × Registry},
      Keeps base r state → Keeps base r (origins.foldl add state) := by
  induction origins with
  | nil => exact fun h => h
  | cons o rest ih =>
    intro state h
    obtain ⟨f, hf⟩ := horigins o List.mem_cons_self
    exact ih (fun o' ho' => horigins o' (List.mem_cons_of_mem _ ho')) (keeps_add hb h hf)

theorem file_of_mem_origins {p : Program} {o : FileId} (h : o ∈ origins p) : ∃ f, p.file? o = some f := by
  obtain ⟨e, he, rfl⟩ := List.mem_map.mp h
  have hscript : p.isScript e.1 = true := (Bool.and_eq_true_iff.mp (List.mem_filter.mp he).2).2
  unfold Program.isScript Program.hasKind at hscript
  split at hscript
  · rename_i f hf
    exact ⟨f, hf⟩
  · cases hscript

theorem keeps_addAll {base : Program} {r : Registry} (hb : Ready base r) :
    Keeps base r (addAll base r) :=
  keeps_foldl hb (origins base) (fun _ => file_of_mem_origins)
    ⟨.refl r, fun hf => ⟨_, hf, rfl⟩, fun _ hq => .inl hq⟩

end Shadow

namespace Program

open BuildState

variable {σ : Type} [FileSystem σ] {c : BuildContext σ} {queue : List Path} {s : BuildState}
variable {p : Program} {r : Registry}

theorem reached_outcome {id : FileId} {f : SourceFile}
    (hf : (outcome c r queue).program.file? id = some f) : Reached c queue f.path :=
  path_rounds (P := Reached c queue) (fun _ hp hread _ hq => hp.next hread hq) _
    (fun hf => by cases hf) (fun _ hq => .root hq) hf

theorem normal_shadow (hqueue : ∀ p ∈ queue, p.Normal) {script : Path} (h : Reached c queue script) :
    (Shadow.path script).Normal ∨ script.dirname = ⟨"."⟩ ∧ (Shadow.path script).Dotted :=
  Path.normal_beside (h.normal_dirname hqueue) (by decide) (by decide)

theorem ready_settle (hs : Sound c s) (hqueue : ∀ p ∈ queue, p.Normal)
    (hreached : ∀ {id f}, s.program.file? id = some f → Reached c queue f.path) :
    Shadow.Ready (settle s.program) s.registry where
  lookup? hf := (hs.file_read hf).2.2.1
  same hf hf' hsame := Path.beside_eq ((hreached hf).normal_dirname hqueue) (by decide) (by decide)
    (hs.file_read hf').2.1 hsame

theorem interned_build (options : Options) (host : Host) (fs : σ) (full : Bool) (roots : List Path)
    {registry : Registry} (hr : registry.Distinct) {q : Path}
    (hq : q ∈ (build options host fs full registry roots).2.paths) :
    let queue := roots.map Path.normalize
    let c : BuildContext σ := ⟨options, host, fs, full, OrdSet.ofList queue⟩
    q ∈ registry.paths ∨ Reached c queue q ∨
      ∃ script text, Reached c queue script ∧ host.read fs script = .ok (some text) ∧
        q = Shadow.path script := by
  intro queue c
  have hnormal : ∀ p ∈ queue, p.Normal := by
    intro p hp
    obtain ⟨root, -, rfl⟩ := List.mem_map.mp hp
    exact Path.normal_normalize root
  have hinterned : ∀ q ∈ (outcome c registry queue).registry.paths, q ∈ registry.paths ∨ Reached c queue q :=
    interned_rounds _ ⟨registry, empty, OrdMap.empty, none⟩ queue fun p hp => .root hp
  obtain ⟨-, hsound, hcases⟩ := build_outcome options host fs full roots hr
  rcases hcases with ⟨e, -, heq⟩ | ⟨-, p, r, heq, hbuilt⟩
  · rw [heq] at hq
    exact (hinterned q hq).imp_right .inl
  · rw [heq] at hq
    have hr' : r = (if full then Shadow.addAll (settle (outcome c registry queue).program)
        (outcome c registry queue).registry else (settle (outcome c registry queue).program,
          (outcome c registry queue).registry)).2 := congrArg Prod.snd hbuilt.finish
    dsimp only at hq
    rw [hr'] at hq
    split at hq
    · have hready := ready_settle hsound hnormal reached_outcome
      rcases (Shadow.keeps_addAll hready).interned q hq with hq | ⟨id, f, hf, hpath⟩
      · exact (hinterned q hq).imp_right .inl
      · exact .inr (.inr ⟨f.path, f.text, reached_outcome hf, (hsound.file_read hf).2.2.2.2, hpath⟩)
    · exact (hinterned q hq).imp_right .inl

theorem rooted_shadow (hclosed : c.host.RootClosed c.fs) (hroot : c.options.moduleRoot.isAbsolute = true)
    (hqueue : ∀ p ∈ queue, Path.Rooted p.text.toList ∧ Path.Tidy p.text.toList) {script q : Path}
    {text : String} (h : Reached c queue script) (hread : c.host.read c.fs script = .ok (some text))
    (hq : q = Shadow.path script) : Path.Rooted q.text.toList := by
  rw [hq, Shadow.path]
  exact Path.rooted_beside (h.rooted hclosed hroot hqueue)
    (hclosed.components_ne (h.tidy fun p hp => (hqueue p hp).2) hread) (by decide) (by decide)

theorem Built.eq_of_normalize_eq (h : Built c s p r) {f g : SourceFile} (hf : f ∈ p.members)
    (hg : g ∈ p.members) (hnormal : f.path.Normal) (hnormal' : g.path.Normal)
    (hsame : f.path.normalize = g.path.normalize) : f = g := by
  have hlookup : ∀ {f}, f ∈ p.members → r.lookup? f.path = some f.id := by
    intro f hf
    have hfile := h.mem_members.mp hf
    rcases h.file_cases hfile with ⟨-, hread⟩ | ⟨-, -, -, -, hl⟩
    · exact h.shadows.within.lookup? (h.sound.file_read hread).2.2.1
    · exact hl
  have hpath : f.path = g.path := hnormal.symm.trans (hsame.trans hnormal')
  have hid : f.id = g.id := Option.some.inj ((hlookup hf).symm.trans (hpath ▸ hlookup hg))
  have hfile := h.mem_members.mp hf
  rw [hid, h.mem_members.mp hg] at hfile
  exact (Option.some.inj hfile).symm

/-- A build gives identities to normal paths, but for the index files of the directory that is
written as a dot and the shadows of scripts there. With absolute roots and aliases there are none of
these, and the way from any directory to a path leads back to it. -/
theorem interned_normal (options : Options) (host : Host) (fs : σ) (full : Bool) (roots : List Path)
    {registry : Registry} (hr : registry.Distinct) :
    let queue := roots.map Path.normalize
    let c : BuildContext σ := ⟨options, host, fs, full, OrdSet.ofList queue⟩
    (∀ q ∈ (build options host fs full registry roots).2.paths, q ∈ registry.paths ∨ q.Normal ∨
      q.Dotted ∧ (q = ⟨"./index.ts"⟩ ∨ q = ⟨"./index.d.ts"⟩ ∨
        ∃ script, Reached c queue script ∧ script.dirname = ⟨"."⟩ ∧ q = Shadow.path script)) ∧
    (options.moduleRoot.isAbsolute = true → (∀ root ∈ roots, root.isAbsolute = true) →
      host.RootClosed fs → ∀ q ∈ (build options host fs full registry roots).2.paths,
        q ∈ registry.paths ∨ q.Normal ∧ ∀ dir : Path, Path.Rooted dir.text.toList →
          dir.resolve ⟨(dir.relative q).toSlash⟩ = q) ∧
    ∀ p r, build options host fs full registry roots = (.ok p, r) →
      ∀ f ∈ p.members, ∀ g ∈ p.members, f.path.Normal → g.path.Normal →
        f.path.normalize = g.path.normalize → f = g := by
  intro queue c
  have hnormal : ∀ p ∈ queue, p.Normal := by
    intro p hp
    obtain ⟨root, -, rfl⟩ := List.mem_map.mp hp
    exact Path.normal_normalize root
  have hplaced : ∀ q ∈ (build options host fs full registry roots).2.paths, q ∈ registry.paths ∨ q.Normal ∨
      q.Dotted ∧ (q = ⟨"./index.ts"⟩ ∨ q = ⟨"./index.d.ts"⟩ ∨
        ∃ script, Reached c queue script ∧ script.dirname = ⟨"."⟩ ∧ q = Shadow.path script) := by
    intro q hq
    rcases interned_build options host fs full roots hr hq with hq | hq | ⟨script, text, hscript, -, hq⟩
    · exact .inl hq
    · rcases hq.normal hnormal with hq | hq | hq
      · exact .inr (.inl hq)
      · exact .inr (.inr ⟨hq ▸ dotted_index.1, .inl hq⟩)
      · exact .inr (.inr ⟨hq ▸ dotted_index.2, .inr (.inl hq)⟩)
    · rcases normal_shadow hnormal hscript with hshadow | ⟨hdir, hshadow⟩
      · exact .inr (.inl (hq ▸ hshadow))
      · exact .inr (.inr ⟨hq ▸ hshadow, .inr (.inr ⟨script, hscript, hdir, hq⟩)⟩)
  refine ⟨hplaced, fun hroot habsolute hclosed q hq => ?_, fun p r hbuild f hf g hg => ?_⟩
  · have hqueue : ∀ p ∈ queue, Path.Rooted p.text.toList ∧ Path.Tidy p.text.toList := by
      intro p hp
      obtain ⟨root, hmem, rfl⟩ := List.mem_map.mp hp
      exact ⟨Path.rooted_normalize (habsolute root hmem), Path.tidy_normalize root⟩
    have hroot : c.options.moduleRoot.isAbsolute = true := hroot
    have hclosed : c.host.RootClosed c.fs := hclosed
    have hrooted : q ∈ registry.paths ∨ Path.Rooted q.text.toList := by
      rcases interned_build options host fs full roots hr hq with hq | hq | ⟨script, text, hscript, hread, hq⟩
      · exact .inl hq
      · exact .inr (hq.rooted hclosed hroot hqueue)
      · exact .inr (rooted_shadow hclosed hroot hqueue hscript hread hq)
    rcases hrooted with hold | hrooted
    · exact .inl hold
    · rcases hplaced q hq with hold | hnormal | ⟨hdotted, -⟩
      · exact .inl hold
      · exact .inr ⟨hnormal, fun dir hdir => Path.resolve_way hdir hrooted hnormal⟩
      · exact absurd hdotted hrooted.not_dotted
  · obtain ⟨-, -, hcases⟩ := build_outcome options host fs full roots hr
    rcases hcases with ⟨e, -, heq⟩ | ⟨-, p', r', heq, hbuilt⟩
    · rw [hbuild] at heq
      cases heq
    · rw [hbuild] at heq
      cases heq
      exact hbuilt.eq_of_normalize_eq hf hg

set_option maxRecDepth 100000

def indexedTwice : Disk := ⟨.file "a.ts" "import '.';\nimport './index';".toUTF8
  (.file "index.ts" "export const x = 1;".toUTF8 .empty), []⟩

theorem interned_normal_indexedTwice :
    let built := build (Options.ofConfigPath ⟨"/kiln.toml"⟩) ⟨OrdMap.empty, .passthrough⟩ indexedTwice true
      Registry.empty [⟨"/a.ts"⟩]
    built.2.paths = [⟨"/a.ts"⟩, ⟨"/index.ts"⟩] ∧ (⟨"/index.ts"⟩ : Path).Normal ∧
      ∀ dir : Path, Path.Rooted dir.text.toList →
        dir.resolve ⟨(dir.relative ⟨"/index.ts"⟩).toSlash⟩ = ⟨"/index.ts"⟩ := by
  intro built
  have hpaths : built.2.paths = [⟨"/a.ts"⟩, ⟨"/index.ts"⟩] := by decide +kernel
  have hclosed : Host.RootClosed ⟨OrdMap.empty, .passthrough⟩ indexedTwice := by
    intro text hread
    have hfault : ((⟨OrdMap.empty, .passthrough⟩ : Host).read indexedTwice ⟨"/"⟩).toOption = none := by
      decide +kernel
    rw [hread] at hfault
    cases hfault
  obtain ⟨-, hnormal, -⟩ := interned_normal (Options.ofConfigPath ⟨"/kiln.toml"⟩)
    ⟨OrdMap.empty, .passthrough⟩ indexedTwice true [⟨"/a.ts"⟩] Registry.distinct_empty
  have hindex := hnormal (by decide) (by simp; decide) hclosed ⟨"/index.ts"⟩ (by rw [hpaths]; simp)
  exact ⟨hpaths, hindex.resolve_left List.not_mem_nil⟩

/-- Read from the working directory, the index is known and taken in twice. -/
theorem index_known_twice :
    let built := build (Options.ofConfigPath ⟨"kiln.toml"⟩) ⟨OrdMap.empty, .passthrough⟩ indexedTwice true
      Registry.empty [⟨"a.ts"⟩]
    built.2.paths = [⟨"a.ts"⟩, ⟨"./index.ts"⟩, ⟨"index.ts"⟩] ∧
      (built.1.toOption.map fun p => p.members.map fun f => (f.id, f.path.normalize)) =
        some [(0, ⟨"a.ts"⟩), (1, ⟨"index.ts"⟩), (2, ⟨"index.ts"⟩)] ∧
      ¬ (⟨"./index.ts"⟩ : Path).Normal := by
  decide +kernel

end Program

end Recompile
