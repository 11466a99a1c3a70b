import Recompile.Proofs.Path.Beside
import Recompile.Proofs.Program.Build

/-!
What settling a program and adding its shadows leave as it was.
-/

namespace Recompile

namespace Shadow

structure Extends (base : Program) (r : Registry) (state : Program × Registry) : Prop where
  modules : state.1.modules = base.modules
  within : r.Within state.2
  distinct : state.2.Distinct
  files_sorted : state.1.files.Sorted
  origins_sorted : state.1.origins.Sorted
  plain : ∀ {id}, state.1.origins.get? id = none → state.1.file? id = base.file? id
  shadow : ∀ {id o}, state.1.origins.get? id = some o → ∃ q text,
    state.1.file? id = some ⟨id, path q, text, .typeCheckShadow⟩ ∧
      state.2.lookup? (path q) = some id

theorem extends_add {base : Program} {r : Registry} {state : Program × Registry}
    (h : Extends base r state) (origin : FileId) : Extends base r (add state origin) := by
  obtain ⟨p, registry⟩ := state
  unfold add
  dsimp only
  split
  · rename_i f m hf hm
    have hin := Registry.within_intern registry (path f.path)
    have hfile : ∀ {text : String} {id : FileId}, Program.file?
        { p with
          files := p.files.add ⟨(registry.intern (path f.path)).1, path f.path, text,
            .typeCheckShadow⟩
          origins := p.origins.insert (registry.intern (path f.path)).1 origin } id =
        if id = (registry.intern (path f.path)).1 then
          some ⟨(registry.intern (path f.path)).1, path f.path, text, .typeCheckShadow⟩
        else p.file? id := by
      intro text id
      unfold Program.file? SourceTable.add
      simp only [OrdMap.get?_insert, Std.LawfulEqOrd.compare_eq_iff_eq]
    refine ⟨h.modules, h.within.trans hin, h.distinct.intern _, h.files_sorted.insert _ _,
      h.origins_sorted.insert _ _, ?_, ?_⟩
    · intro id hid
      simp only [OrdMap.get?_insert, Std.LawfulEqOrd.compare_eq_iff_eq] at hid
      split at hid
      · cases hid
      · rename_i hne
        rw [hfile, if_neg hne]
        exact h.plain hid
    · intro id o hid
      simp only [OrdMap.get?_insert, Std.LawfulEqOrd.compare_eq_iff_eq] at hid
      split at hid
      · rename_i heq
        subst heq
        exact ⟨f.path, _, by rw [hfile, if_pos rfl], Registry.lookup?_intern registry _⟩
      · rename_i hne
        obtain ⟨q, text, hq, hl⟩ := h.shadow hid
        refine ⟨q, text, ?_, hin.lookup? hl⟩
        rw [hfile, if_neg hne]
        exact hq
  · exact h

theorem extends_foldl (base : Program) (r : Registry) (origins : List FileId) :
    ∀ {state : Program × Registry}, Extends base r state →
      Extends base r (origins.foldl add state) := by
  induction origins with
  | nil => exact fun h => h
  | cons o rest ih => exact fun h => ih (extends_add h o)

theorem extends_self {base : Program} {r : Registry} (hfiles : base.files.Sorted)
    (horigins : base.origins = OrdMap.empty) (hr : r.Distinct) : Extends base r (base, r) where
  modules := rfl
  within := .refl r
  distinct := hr
  files_sorted := hfiles
  origins_sorted := horigins ▸ OrdMap.sorted_empty
  plain _ := rfl
  shadow h := by simp [horigins] at h

end Shadow

namespace Program

variable {σ : Type} [FileSystem σ] {c : BuildContext σ}

@[simp] theorem file?_settle (p : Program) (id : FileId) : (settle p).file? id = p.file? id := rfl

@[simp] theorem module?_settle (p : Program) (id : FileId) :
    (settle p).module? id = (p.module? id).map (settleModule p) :=
  OrdMap.get?_map _ _ _

theorem contains_iff_file? {p : Program} {id : FileId} :
    p.contains id = true ↔ ∃ f, p.file? id = some f := OrdMap.contains_iff

/-- What a build ends with: its state at the end, the program, and the registry. -/
structure Built (c : BuildContext σ) (s : BuildState) (p : Program) (r : Registry) : Prop where
  sound : s.Sound c
  fault : s.fault = none
  covered : s.Covered c []
  finish : (p, r) = if c.full then Shadow.addAll (settle s.program) s.registry
    else (settle s.program, s.registry)

def outcome (c : BuildContext σ) (r : Registry) (queue : List Path) : BuildState :=
  BuildState.rounds c (c.host.capacity c.fs + 1) ⟨r, empty, OrdMap.empty, none⟩ queue

theorem tidy_roots (roots : List Path) : ∀ q ∈ roots.map Path.normalize, Path.Tidy q.text.toList := by
  intro q hq
  obtain ⟨root, -, rfl⟩ := List.mem_map.mp hq
  exact Path.tidy_normalize root

def finished (full : Bool) (p : Program) (r : Registry) : Program × Registry :=
  if full then Shadow.addAll (settle p) r else (settle p, r)

def concluded (full : Bool) (s : BuildState) : Except HostError Program × Registry :=
  match s.fault with
  | some e => (.error e, s.registry)
  | none => (.ok (finished full s.program s.registry).1, (finished full s.program s.registry).2)

theorem build_eq (options : Options) (host : Host) (fs : σ) (full : Bool) (registry : Registry)
    (roots : List Path) :
    build options host fs full registry roots =
      concluded full (outcome ⟨options, host, fs, full, OrdSet.ofList (roots.map Path.normalize)⟩
        registry (roots.map Path.normalize)) := rfl

theorem build_outcome (options : Options) (host : Host) (fs : σ) (full : Bool) (roots : List Path)
    {registry : Registry} (hr : registry.Distinct) :
    let c : BuildContext σ := ⟨options, host, fs, full, OrdSet.ofList (roots.map Path.normalize)⟩
    let s := outcome c registry (roots.map Path.normalize)
    registry.Within s.registry ∧ s.Sound c ∧
      ((∃ e, s.fault = some e ∧ build options host fs full registry roots = (.error e, s.registry)) ∨
        s.fault = none ∧ ∃ p r, build options host fs full registry roots = (.ok p, r) ∧ Built c s p r) := by
  intro c s
  obtain ⟨hsound, hwithin, hcov⟩ := BuildState.sound_rounds (c := c) (host.capacity fs + 1)
    (BuildState.sound_initial hr) (tidy_roots roots)
  refine ⟨hwithin, hsound, ?_⟩
  have hbuild : build options host fs full registry roots = concluded full s := rfl
  rw [hbuild, concluded]
  cases hfault : s.fault with
  | some e => exact .inl ⟨e, rfl, rfl⟩
  | none =>
    refine .inr ⟨rfl, _, _, rfl, hsound, hfault, (hcov hfault).2 ?_, rfl⟩
    intro id f hf
    cases hf

theorem build_cases (options : Options) (host : Host) (fs : σ) (full : Bool) (roots : List Path)
    {registry : Registry} (hr : registry.Distinct) :
    ∃ s : BuildState, registry.Within s.registry ∧ s.registry.Distinct ∧
      ((∃ e, build options host fs full registry roots = (.error e, s.registry)) ∨
        ∃ p r, build options host fs full registry roots = (.ok p, r) ∧
          Built ⟨options, host, fs, full, OrdSet.ofList (roots.map Path.normalize)⟩ s p r) := by
  obtain ⟨hwithin, hsound, hcases⟩ := build_outcome options host fs full roots hr
  refine ⟨_, hwithin, hsound.distinct, ?_⟩
  rcases hcases with ⟨e, -, heq⟩ | ⟨-, hbuilt⟩
  · exact .inl ⟨e, heq⟩
  · exact .inr hbuilt

namespace Built

variable {s : BuildState} {p : Program} {r : Registry}

theorem shadows (h : Built c s p r) : Shadow.Extends (settle s.program) s.registry (p, r) := by
  have hself := @Shadow.extends_self (settle s.program) _ h.sound.files_sorted
    h.sound.origins_empty h.sound.distinct
  rw [h.finish]
  split
  · exact Shadow.extends_foldl _ _ _ hself
  · exact hself

theorem file?_eq (h : Built c s p r) {id : FileId} (hplain : p.origins.get? id = none) :
    p.file? id = s.program.file? id := h.shadows.plain hplain

theorem module?_eq (h : Built c s p r) (id : FileId) :
    p.module? id = (s.program.module? id).map (settleModule s.program) := by
  rw [← module?_settle]
  unfold module?
  rw [← h.shadows.modules]

theorem module_cases (h : Built c s p r) {id : FileId} {m : Module} (hm : p.module? id = some m) :
    ∃ f, s.program.file? id = some f ∧ f.kind.isModule = true ∧
      m = settleModule s.program (BuildState.moduleOf c s.registry f) := by
  rw [h.module?_eq, h.sound.module?_eq] at hm
  obtain ⟨m₀, hm₀, rfl⟩ := Option.map_eq_some_iff.mp hm
  obtain ⟨f, hf, rfl⟩ := Option.map_eq_some_iff.mp hm₀
  obtain ⟨hf, hkind⟩ := Option.filter_eq_some_iff.mp hf
  exact ⟨f, hf, hkind, rfl⟩

theorem module?_of_file (h : Built c s p r) {id : FileId} {f : SourceFile}
    (hf : s.program.file? id = some f) (hkind : f.kind.isModule = true) :
    p.module? id = some (settleModule s.program (BuildState.moduleOf c s.registry f)) := by
  rw [h.module?_eq, h.sound.module?_eq, hf]
  simp [Option.filter_some, hkind]

theorem file_cases (h : Built c s p r) {id : FileId} {f : SourceFile} (hf : p.file? id = some f) :
    (p.origins.get? id = none ∧ s.program.file? id = some f) ∨
      ((∃ o, p.origins.get? id = some o) ∧ f.kind = .typeCheckShadow ∧
        SourceKind.ofPath f.path = .script ∧ f.id = id ∧ r.lookup? f.path = some id) := by
  cases ho : p.origins.get? id with
  | none =>
    rw [h.file?_eq ho] at hf
    exact .inl ⟨rfl, hf⟩
  | some o =>
    obtain ⟨q, text, hq, hl⟩ := h.shadows.shadow ho
    obtain rfl := Option.some.inj (hf.symm.trans hq)
    refine .inr ⟨⟨o, rfl⟩, rfl, ?_, rfl, ?_⟩
    · dsimp only
      exact Shadow.ofPath_path q
    · dsimp only at hl ⊢
      exact hl

theorem id_eq (h : Built c s p r) {id : FileId} {f : SourceFile} (hf : p.file? id = some f) :
    f.id = id := by
  rcases h.file_cases hf with ⟨-, hf⟩ | ⟨-, -, -, hid, -⟩
  · rw [(h.sound.file_read hf).1]
    rfl
  · exact hid

theorem mem_members (h : Built c s p r) {f : SourceFile} :
    f ∈ p.members ↔ p.file? f.id = some f := by
  unfold members
  rw [h.shadows.files_sorted.mem_values]
  constructor
  · rintro ⟨id, hf⟩
    rw [h.id_eq hf]
    exact hf
  · exact fun hf => ⟨f.id, hf⟩

theorem nodup_ids (h : Built c s p r) : (p.members.map (·.id)).Nodup := by
  have hkeys : p.members.map (·.id) = p.files.keys := by
    unfold members OrdMap.values OrdMap.keys
    rw [List.map_map]
    refine List.map_congr_left fun e he => ?_
    exact h.id_eq (h.shadows.files_sorted.get?_of_mem he)
  rw [hkeys]
  exact h.shadows.files_sorted.nodup_keys

theorem modules_sorted (h : Built c s p r) : p.modules.Sorted := by
  have hmods : p.modules = (settle s.program).modules := h.shadows.modules
  rw [hmods]
  exact h.sound.modules_sorted.map _

theorem contains_of_read (h : Built c s p r) {id : FileId} {f : SourceFile}
    (hf : s.program.file? id = some f) : p.contains id = true := by
  rw [contains_iff_file?]
  cases ho : p.origins.get? id with
  | none => exact ⟨f, by rw [h.file?_eq ho, hf]⟩
  | some o =>
    obtain ⟨q, text, hq, -⟩ := h.shadows.shadow ho
    exact ⟨_, hq⟩

theorem path_eq {c' : BuildContext σ} {s' : BuildState} {p' : Program} {r' known : Registry}
    (h : Built c s p r) (h' : Built c' s' p' r') (hw : s.registry.Within known)
    (hw' : s'.registry.Within known) {id : FileId} {f f' : SourceFile}
    (hf : s.program.file? id = some f) (hf' : s'.program.file? id = some f') :
    f.path = f'.path := by
  obtain ⟨-, ht, hl, -⟩ := h.sound.file_read hf
  obtain ⟨-, ht', hl', -⟩ := h'.sound.file_read hf'
  exact Path.eq_of_components_eq ht ht'
    (Registry.components_eq_of_lookup? (hw.lookup? hl) (hw'.lookup? hl'))

theorem read_eq {c' : BuildContext σ} {s' : BuildState} {p' : Program} {r' known : Registry}
    (h : Built c s p r) (h' : Built c' s' p' r') (hw : s.registry.Within known)
    (hw' : s'.registry.Within known) {id : FileId} {f f' : SourceFile}
    (hf : s.program.file? id = some f) (hf' : s'.program.file? id = some f')
    (htext : f.text = f'.text) : f = f' := by
  rw [(h.sound.file_read hf).1, (h'.sound.file_read hf').1, htext, h.path_eq h' hw hw' hf hf']

end Built

end Program

end Recompile
