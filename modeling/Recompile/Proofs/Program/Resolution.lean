import Recompile.Proofs.Program.Shadow

/-!
Where presence tells what can be read, everything that a file refers to is part of the program.
Then a file that refers to the same identities in two programs has the same module in both: its
specifiers were resolved alike, although other files may have come or gone.
-/

namespace Recompile

def FileSystem.Truthful {σ : Type} [FileSystem σ] (fs : σ) : Prop :=
  ∀ p : Path, FileSystem.present fs p = true ↔ ∃ text, FileSystem.read fs p = .ok text

theorem Host.present_iff {σ : Type} [FileSystem σ] {fs : σ} (h : FileSystem.Truthful fs)
    (host : Host) (p : Path) :
    host.present fs p = true ↔ ∃ text, host.read fs p = .ok (some text) := by
  unfold Host.present Host.read
  rw [h]
  cases FileSystem.read fs (host.actual p) with
  | ok text => simp
  | error fault => cases fault <;> simp

namespace Program

theorem contains_of_mem_targets_settleModule {p : Program} {m : Module} {id : FileId}
    (h : id ∈ (settleModule p m).targets) : p.contains id = true := by
  unfold Module.targets settleModule at h
  rcases List.mem_append.mp h with h | h
  · obtain ⟨res, hres, hid⟩ := List.mem_filterMap.mp h
    obtain ⟨res₀, -, rfl⟩ := List.mem_map.mp hres
    cases res₀ with
    | file i =>
      by_cases hi : p.contains i = true
      · simp only [hi, ↓reduceIte, Resolution.target?, Option.some.injEq] at hid
        rw [← hid, hi]
      · simp [hi, Resolution.target?] at hid
    | external => cases hid
    | unresolved => cases hid
  · obtain ⟨ref, href, hid⟩ := List.mem_filterMap.mp h
    obtain ⟨ref₀, -, rfl⟩ := List.mem_map.mp href
    cases hfile : ref₀.file with
    | none => simp [hfile] at hid
    | some i =>
      by_cases hi : p.contains i = true
      · simp only [hfile, hi, ↓reduceIte, Option.some.injEq] at hid
        rw [← hid, hi]
      · simp [hfile, hi] at hid

theorem settleModule_eq {p : Program} {m : Module}
    (h : ∀ id ∈ m.targets, p.contains id = true) : settleModule p m = m := by
  obtain ⟨outline, faults, resolutions, resources⟩ := m
  unfold settleModule
  congr 1
  · refine (List.map_congr_left (g := id) fun res hres => ?_).trans (List.map_id _)
    cases res with
    | file i =>
      have hi : p.contains i = true :=
        h i (List.mem_append_left _ (List.mem_filterMap.mpr ⟨_, hres, rfl⟩))
      simp [hi]
    | external => rfl
    | unresolved => rfl
  · refine (List.map_congr_left (g := id) fun ref href => ?_).trans (List.map_id _)
    cases hfile : ref.file with
    | none => simp
    | some i =>
      have hi : p.contains i = true :=
        h i (List.mem_append_right _ (List.mem_filterMap.mpr ⟨ref, href, hfile⟩))
      simp [hi]

namespace Built

open BuildState

variable {σ : Type} [FileSystem σ] {c c' : BuildContext σ} {s s' : BuildState} {p p' : Program}
variable {r r' : Registry}

theorem read_of_link (h : Built c s p r) (ht : FileSystem.Truthful c.fs) {id : FileId}
    {f : SourceFile} (hf : s.program.file? id = some f) (hkind : f.kind.isModule = true) {q : Path}
    (hq : q ∈ linksOf c f) :
    ∃ i text, s.registry.lookup? q = some i ∧ s.program.file? i = some (fileAt i q text) := by
  have hnext : q ∈ nextOf c f := by
    unfold nextOf
    rwa [if_pos hkind]
  have hvisited : s.visited.contains q = true := by
    rcases h.covered id f hf q hnext with hv | hv
    · exact hv
    · cases hv
  obtain ⟨text, hread⟩ := (Host.present_iff ht c.host q).mp (present_linksOf hq)
  obtain ⟨i, hl, hi⟩ := h.sound.read_file hvisited (tidy_linksOf hq) hread
  exact ⟨i, text, hl, hi⟩

theorem mem_targets_moduleOf {reg : Registry} {f : SourceFile} {id : FileId} :
    id ∈ (moduleOf c reg f).targets ↔ ∃ q ∈ linksOf c f, (reg.intern q).1 = id := by
  unfold Module.targets moduleOf
  simp only [List.mem_append, List.mem_filterMap, List.mem_map]
  constructor
  · rintro (⟨res, ⟨x, hx, rfl⟩, hid⟩ | ⟨ref, ⟨ref₀, href, rfl⟩, hid⟩)
    · cases x with
      | file q => exact ⟨q, mem_linksOf.mpr (.inl hx), by simpa [resolution, Resolution.target?] using hid⟩
      | external => cases hid
      | unresolved => cases hid
    · unfold identified at hid
      split at hid
      · rename_i hcond
        obtain ⟨hfull, hpres⟩ : c.full = true ∧ ref₀.present = true := by simpa using hcond
        exact ⟨ref₀.path, mem_linksOf.mpr (.inr ⟨hfull, ref₀, href, hpres, rfl⟩),
          by simpa using hid⟩
      · rw [(mem_refsOf href).2.1] at hid
        cases hid
  · rintro ⟨q, hq, rfl⟩
    rcases mem_linksOf.mp hq with hx | ⟨hfull, ref, href, hpres, rfl⟩
    · exact .inl ⟨_, ⟨_, hx, rfl⟩, rfl⟩
    · exact .inr ⟨_, ⟨ref, href, rfl⟩, by simp [identified, hfull, hpres]⟩

theorem module?_truthful (h : Built c s p r) (ht : FileSystem.Truthful c.fs) {id : FileId}
    {f : SourceFile} (hf : s.program.file? id = some f) (hkind : f.kind.isModule = true) :
    p.module? id = some (moduleOf c s.registry f) := by
  rw [h.module?_of_file hf hkind, settleModule_eq]
  intro i hi
  obtain ⟨q, hq, rfl⟩ := mem_targets_moduleOf.mp hi
  obtain ⟨j, text, hl, hj⟩ := h.read_of_link ht hf hkind hq
  rw [Registry.intern_of_lookup? hl, contains_iff_file?]
  exact ⟨_, hj⟩

theorem present_of_targets (h : Built c s p r) (h' : Built c' s' p' r')
    (ht : FileSystem.Truthful c.fs) (ht' : FileSystem.Truthful c'.fs)
    (hw : s.registry.Within s'.registry ∨ s'.registry.Within s.registry) {id : FileId}
    {f : SourceFile} (hf : s.program.file? id = some f) (hkind : f.kind.isModule = true)
    {m' : Module} (hm' : p'.module? id = some m')
    (htargets : ∀ i ∈ (moduleOf c s.registry f).targets, i ∈ m'.targets) {q : Path}
    (hq : q ∈ linksOf c f) : c'.host.present c'.fs q = true := by
  obtain ⟨i, text, hl, hi⟩ := h.read_of_link ht hf hkind hq
  have hmem : i ∈ m'.targets := by
    refine htargets i (mem_targets_moduleOf.mpr ⟨q, hq, ?_⟩)
    rw [Registry.intern_of_lookup? hl]
  obtain ⟨f', -, -, rfl⟩ := h'.module_cases hm'
  obtain ⟨g, hg⟩ := contains_iff_file?.mp (contains_of_mem_targets_settleModule hmem)
  obtain ⟨-, htidy, hlg, -, hread⟩ := h'.sound.file_read hg
  have hcomp : q.components = g.path.components := by
    rcases hw with hw | hw
    · exact Registry.components_eq_of_lookup? (hw.lookup? hl) hlg
    · exact Registry.components_eq_of_lookup? hl (hw.lookup? hlg)
  rw [Path.eq_of_components_eq (tidy_linksOf hq) htidy hcomp]
  exact (Host.present_iff ht' c'.host _).mpr ⟨g.text, hread⟩

theorem foundOf_congr {f : SourceFile} (hopts : c.options = c'.options)
    (hto : ∀ q ∈ linksOf c f, c'.host.present c'.fs q = true)
    (hfrom : ∀ q ∈ linksOf c' f, c.host.present c.fs q = true) : foundOf c f = foundOf c' f := by
  unfold foundOf
  refine List.map_congr_left fun spec hspec => ?_
  rw [hopts]
  refine Specifier.find_congr (fun q hq => hto q ?_) (fun q hq => hfrom q ?_)
  · exact mem_linksOf.mpr (.inl (mem_foundOf.mpr ⟨spec, hspec, hopts ▸ hq⟩))
  · exact mem_linksOf.mpr (.inl (mem_foundOf.mpr ⟨spec, hspec, hq⟩))

theorem resourceRefs_congr {dir : Path} {o : Script.Outline}
    (h : ∀ ref ∈ resourceRefs c dir o, c'.host.present c'.fs ref.path = ref.present) :
    resourceRefs c dir o = resourceRefs c' dir o := by
  unfold resourceRefs
  congr 1
  refine List.ext_getElem (by simp) fun i hi hi' => ?_
  simp only [List.getElem_mapIdx]
  refine List.map_congr_left fun u hu => ?_
  have hpres := h ⟨u.1, i, u.2.1, u.2.2, dir.resolve ⟨u.2.1⟩, c.host.present c.fs
    (dir.resolve ⟨u.2.1⟩), none⟩ ?_
  · simp only at hpres
    rw [hpres]
  · simp only [List.length_mapIdx] at hi
    exact List.mem_flatten.mpr ⟨_, List.mem_mapIdx.mpr ⟨i, hi, rfl⟩, List.mem_map.mpr ⟨u, hu, rfl⟩⟩

theorem refsOf_congr {f : SourceFile} (hfull : c.full = true) (hfull' : c'.full = true)
    (hto : ∀ q ∈ linksOf c f, c'.host.present c'.fs q = true)
    (hfrom : ∀ q ∈ linksOf c' f, c.host.present c.fs q = true) : refsOf c f = refsOf c' f := by
  refine resourceRefs_congr fun ref href => ?_
  have hpres := (mem_refsOf href).1
  cases hp : c.host.present c.fs ref.path with
  | true =>
    rw [hp] at hpres
    rw [hpres]
    exact hto _ (mem_linksOf.mpr (.inr ⟨hfull, ref, href, hpres, rfl⟩))
  | false =>
    rw [hp] at hpres
    rw [hpres]
    cases hp' : c'.host.present c'.fs ref.path with
    | false => rfl
    | true =>
      have hmem : ref.label ∈ (refsOf c' f).map ResourceRef.label := by
        rw [← refsOf_labels c c']
        exact List.mem_map.mpr ⟨ref, href, rfl⟩
      obtain ⟨ref', href', hlabel⟩ := List.mem_map.mp hmem
      have hpath : ref'.path = ref.path := congrArg (·.2.2) hlabel
      have hpres' : ref'.present = true := by rw [(mem_refsOf href').1, hpath, hp']
      rw [hfrom _ (mem_linksOf.mpr (.inr ⟨hfull', ref', href', hpres', hpath⟩))] at hp
      exact hp

theorem module_stable (h : Built c s p r) (h' : Built c' s' p' r')
    (ht : FileSystem.Truthful c.fs) (ht' : FileSystem.Truthful c'.fs)
    (hw : s.registry.Within s'.registry) (hopts : c.options = c'.options)
    (hfull : c.full = c'.full) {id : FileId} {f : SourceFile}
    (hf : s.program.file? id = some f) (hf' : s'.program.file? id = some f)
    (hdeps : p.dependencies id = p'.dependencies id) {m m' : Module}
    (hm : p.module? id = some m) (hm' : p'.module? id = some m') :
    m.outline = m'.outline ∧ m.resolutions = m'.resolutions ∧ (c.full = true → m = m') := by
  have htargets : ∀ i, i ∈ m.targets ↔ i ∈ m'.targets := by
    intro i
    unfold dependencies at hdeps
    simp only [hm, hm'] at hdeps
    rw [← @OrdSet.mem_ofList _ _ _ _ m.targets, hdeps, OrdSet.mem_ofList]
  have hkind : f.kind.isModule = true := by
    obtain ⟨g, hg, hkind, -⟩ := h.module_cases hm
    rw [hf] at hg
    cases hg
    exact hkind
  have hmof : m = moduleOf c s.registry f := by
    rw [h.module?_truthful ht hf hkind] at hm
    exact (Option.some.inj hm).symm
  have hmof' : m' = moduleOf c' s'.registry f := by
    rw [h'.module?_truthful ht' hf' hkind] at hm'
    exact (Option.some.inj hm').symm
  have hto : ∀ q ∈ linksOf c f, c'.host.present c'.fs q = true := fun q hq =>
    present_of_targets h h' ht ht' (.inl hw) hf hkind hm'
      (fun i hi => (htargets i).mp (hmof ▸ hi)) hq
  have hfrom : ∀ q ∈ linksOf c' f, c.host.present c.fs q = true := fun q hq =>
    present_of_targets h' h ht' ht (.inr hw) hf' hkind hm
      (fun i hi => (htargets i).mpr (hmof' ▸ hi)) hq
  have hfound : foundOf c f = foundOf c' f := foundOf_congr hopts hto hfrom
  have hknown : ∀ q ∈ linksOf c f, ∃ i, s.registry.lookup? q = some i := by
    intro q hq
    obtain ⟨i, -, hl, -⟩ := h.read_of_link ht hf hkind hq
    exact ⟨i, hl⟩
  have hstay : moduleOf c s'.registry f = m := by rw [hmof, moduleOf_within hw hknown]
  refine ⟨by rw [hmof, hmof']; rfl, ?_, ?_⟩
  · rw [← hstay, hmof']
    simp only [moduleOf, hfound]
  · intro hc
    have hrefs : refsOf c f = refsOf c' f := refsOf_congr hc (hfull ▸ hc) hto hfrom
    rw [← hstay, hmof']
    simp only [moduleOf, hfound, hrefs]
    congr 2
    funext ref
    simp only [identified, hfull]

end Built

end Program

end Recompile
