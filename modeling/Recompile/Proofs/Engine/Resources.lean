import Recompile.Proofs.Engine.Coverage
import Recompile.Proofs.Engine.Findings

/-!
The files behind the resources of components. Each is taken in as what its name tells, whatever the
component takes it for. One that has the name of a template or a stylesheet is no module, is not
emitted, and stands for the scripts that use it when it changes; any other is a module of its own.
-/

namespace Recompile

theorem BuildState.kind_refsOf {σ : Type} [FileSystem σ] {c : BuildContext σ} {f : SourceFile}
    {ref : ResourceRef} (h : ref ∈ refsOf c f) : ref.kind = .template ∨ ref.kind = .style := by
  unfold refsOf resourceRefs at h
  obtain ⟨refs, hrefs, href⟩ := List.mem_flatten.mp h
  obtain ⟨i, hi, rfl⟩ := List.mem_mapIdx.mp hrefs
  obtain ⟨u, hu, rfl⟩ := List.mem_map.mp href
  unfold urls at hu
  rcases List.mem_append.mp hu with hu | hu
  · split at hu
    · rw [List.mem_singleton.mp hu]
      exact .inl rfl
    · cases hu
  · obtain ⟨style, -, rfl⟩ := List.mem_map.mp hu
    exact .inr rfl

namespace Program.Built

open BuildState

variable {σ : Type} [FileSystem σ] {c : BuildContext σ} {s : BuildState} {p : Program} {r : Registry}
variable {id i : FileId} {m : Module} {ref : ResourceRef}

theorem kind_resource (h : Built c s p r) (hm : p.module? id = some m) (href : ref ∈ m.resources) :
    ref.kind = .template ∨ ref.kind = .style := by
  obtain ⟨f, hf, -, -⟩ := h.module_cases hm
  have hlabel : ref.label ∈ (refsOf c f).map ResourceRef.label := by
    rw [← h.labels_module hf hm]
    exact List.mem_map_of_mem href
  obtain ⟨ref₀, href₀, heq⟩ := List.mem_map.mp hlabel
  have hkind : ref₀.kind = ref.kind := congrArg Prod.fst heq
  exact hkind ▸ kind_refsOf href₀

theorem resource_cases (h : Built c s p r) (hm : p.module? id = some m) (href : ref ∈ m.resources)
    (hfile : ref.file = some i) : ∃ f, p.file? i = some f ∧ f.path.components = ref.path.components ∧
      (f.kind = .ofPath ref.path ∨
        f.kind = .typeCheckShadow ∧ SourceKind.ofPath ref.path = .script) := by
  obtain ⟨text, hl, hread⟩ := h.resource_file hm href hfile
  obtain ⟨f, hf⟩ := contains_iff_file?.mp (h.contains_of_read hread)
  rcases h.file_cases hf with ⟨-, hplain⟩ | ⟨-, hkind, hscript, -, hl'⟩
  · obtain rfl := Option.some.inj (hread.symm.trans hplain)
    exact ⟨_, hf, rfl, .inl (BuildState.fileAt_kind i ref.path text)⟩
  · have hsame := Registry.components_eq_of_lookup? hl' (h.shadows.within.lookup? hl)
    rw [SourceKind.ofPath_congr hsame] at hscript
    exact ⟨f, hf, hsame, .inr ⟨hkind, hscript⟩⟩

theorem module_resource_iff (h : Built c s p r) (hm : p.module? id = some m) (href : ref ∈ m.resources)
    (hfile : ref.file = some i) :
    (∃ m', p.module? i = some m') ↔ (SourceKind.ofPath ref.path).isModule = true := by
  obtain ⟨text, -, hread⟩ := h.resource_file hm href hfile
  constructor
  · rintro ⟨m', hm'⟩
    obtain ⟨f, hf, hkind, -⟩ := h.module_cases hm'
    obtain rfl := Option.some.inj (hread.symm.trans hf)
    exact hkind
  · exact fun hkind => ⟨_, h.module?_of_file hread hkind⟩

theorem mem_targets_of_resource (href : ref ∈ m.resources) (hfile : ref.file = some i) : i ∈ m.targets :=
  List.mem_append_right _ (List.mem_filterMap.mpr ⟨ref, href, hfile⟩)

end Program.Built

namespace Ledger

variable {p : Program} {options : Digest} {prior : Option Ledger} {id : FileId}

theorem pending_update (h : (update p options prior).1.pending.contains id = true) :
    p.isScript id = true ∨ ∃ l, prior = some l ∧ l.options = options ∧ l.pending.contains id = true := by
  rcases update_cases p options prior with heq | ⟨l, rfl, hoptions, heq⟩
  · rw [heq] at h
    exact .inl (List.mem_filter.mp (OrdSet.mem_ofList.mp h)).2
  · rw [heq] at h
    rcases OrdSet.mem_addAll.mp h with h | h
    · rw [OrdMap.contains_eq_isSome, OrdMap.get?_filter] at h
      split at h
      · exact .inr ⟨l, rfl, hoptions, by rwa [OrdMap.contains_eq_isSome]⟩
      · cases h
    · exact .inl (List.mem_filter.mp h).2

theorem affected_of_changed (hfiles : p.files.Sorted) (hmodules : p.modules.Sorted) {f : SourceFile}
    (hf : p.file? id = some f)
    (hchanged : ∀ l, prior = some l → l.options = options → ∀ old, l.files.get? id = some old →
      old.version ≠ f.version) : (update p options prior).2.contains id = true := by
  rcases update_cases p options prior with heq | ⟨l, rfl, hoptions, heq⟩
  · rw [heq, contains_first]
    exact Program.contains_iff_file?.mpr ⟨f, hf⟩
  · rw [heq]
    cases hin : (next p l).2.contains id with
    | true => rfl
    | false =>
      obtain ⟨old, hold, hversion, -⟩ := unaffected hfiles hmodules hf hin
      exact absurd hversion (hchanged l rfl hoptions old hold)

end Ledger

namespace Engine

variable {p : Program} {id i : FileId}

/-- A change to a template or a stylesheet is reported for all that refer to it. -/
theorem reported_of_resource (hmodules : p.modules.Sorted) {changed : OrdSet FileId}
    (hchanged : changed.contains i = true) {f : SourceFile} (hf : p.file? i = some f)
    (hkind : f.kind.isModule = false) {m : Module} (hm : p.module? id = some m) (hi : i ∈ m.targets) :
    (reported p changed).contains id = true := by
  refine mem_reported.mpr ⟨i, hchanged, ?_⟩
  have himporter := (Program.mem_importers_fst hmodules).mpr ⟨m, hm, hi⟩
  unfold reportedFor
  rw [hf]
  dsimp only
  cases hk : f.kind <;> rw [hk] at hkind
  case template => exact himporter
  case style => exact himporter
  all_goals cases hkind

theorem contains_pathsOf {ids : OrdSet FileId} {f : SourceFile} (hid : ids.contains id = true)
    (hf : p.file? id = some f) : (pathsOf p ids).contains f.path = true := by
  unfold pathsOf OrdSet.ofList
  rw [OrdSet.contains_addAll, Bool.or_eq_true, List.any_eq_true]
  refine .inr ⟨f.path, List.mem_filterMap.mpr ⟨id, OrdSet.mem_toList.mpr hid, ?_⟩, ?_⟩
  · rw [hf]
    rfl
  · simp

end Engine

namespace Snapshot

open Ledger

variable {σ : Type} [FileSystem σ] {c : BuildContext σ} {b : BuildState} {r : Registry} {s : Snapshot}

theorem script_of_emitted {strategy : Strategy} (hbuilt : Program.Built c b s.program r) {es : List Emitted}
    {l : Ledger} (h : s.emitFiles strategy = (.ok es, l)) {e : Emitted} (he : e ∈ es) :
    s.program.isScript e.file = true := by
  cases strategy with
  | jit =>
    obtain ⟨rfl, -⟩ := emitDeferred_ok h
    exact script_of_output (made_of_mem_outputs he)
  | aot =>
    obtain ⟨first, more, rfl, rfl, hrefreshed⟩ := emitInlined_ok h
    rcases List.mem_append.mp he with he | he
    · exact script_of_output (made_of_mem_outputs he)
    · exact ((mem_file_stale hbuilt hrefreshed).mp (List.mem_map_of_mem he)).2.1

end Snapshot

namespace Engine

variable {σ : Type} [FileSystem σ]

/-- The file behind a resource is of the kind that its component takes it for exactly when its name
tells that kind, and it is read as a module exactly when its name tells neither a template nor a
stylesheet. If it is not, it never becomes pending or is emitted, and a start after a change to it
reports the script that uses it. -/
theorem resource_kind_iff {e e' : Engine} (hd : e.registry.Distinct) (fs : σ) (configPath : Path) (host : Host)
    (change : Options → Options) {report : StartReport}
    (h : e.start fs configPath host change = (.ok report, e')) :
    ∃ s, e'.snapshot = some s ∧ ∀ {id i : FileId} {m : Module} {ref : ResourceRef},
      s.program.module? id = some m → ref ∈ m.resources → ref.file = some i →
      ∃ f, s.program.file? i = some f ∧ f.path.components = ref.path.components ∧
        (f.kind = ref.kind ↔ SourceKind.ofPath ref.path = ref.kind) ∧
        ((∃ m', s.program.module? i = some m') ↔ (SourceKind.ofPath ref.path).isModule = true) ∧
        ((SourceKind.ofPath ref.path).isModule = false →
          (s.ledger.pending.contains i = true → ∃ l, (e.priorLedger fs host s.options).1 = some l ∧
            l.options = s.optionsDigest ∧ l.pending.contains i = true) ∧
          (∀ {fs₁ fs₂ : σ} {es e₂}, e'.emit fs₁ = (.ok es, e₂, fs₂) → i ∉ es.map (·.file)) ∧
          ((∀ l, (e.priorLedger fs host s.options).1 = some l → l.options = s.optionsDigest →
              ∀ old, l.files.get? i = some old → old.version ≠ f.version) →
            ∃ g, s.program.file? id = some g ∧ report.affected.contains g.path = true)) := by
  rw [start_eq] at h
  cases hconfig : configAt fs configPath change with
  | error err =>
    rw [hconfig] at h
    cases h
  | ok config =>
    rw [hconfig] at h
    dsimp only at h
    rcases startWith_outcome hd fs host config with ⟨err, r, heq, -⟩ | ⟨t, r, heq, hstart⟩
    · rw [heq] at h
      cases h
    · rw [heq] at h
      cases h
      refine ⟨t, rfl, fun {id i m ref} hm href hfile => ?_⟩
      have hbuilt := hstart.built
      obtain ⟨f, hf, hpath, hkind⟩ := hbuilt.resource_cases hm href hfile
      refine ⟨f, hf, hpath, ?_, hbuilt.module_resource_iff hm href hfile, fun hresource => ?_⟩
      · -- a resource takes its file for neither a script nor a shadow
        rcases hkind with hkind | ⟨hkind, hscript⟩
        · rw [hkind]
        · rw [hkind, hscript]
          rcases hbuilt.kind_resource hm href with hk | hk <;> simp [hk]
      · have hplain : f.kind.isModule = false := by
          rcases hkind with hkind | ⟨-, hscript⟩
          · rwa [hkind]
          · rw [hscript] at hresource
            cases hresource
        -- No file that is no module is a script, so none is ever pending or emitted.
        have hnot : ¬ t.program.isScript i = true := by
          rw [Program.isScript_iff]
          rintro ⟨f', hf', hscript⟩
          obtain rfl := Option.some.inj (hf.symm.trans hf')
          rw [hscript] at hplain
          cases hplain
        rw [hstart.options]
        refine ⟨fun hpending => ?_, fun {fs₁ fs₂ es e₂} hemit hmem => ?_, fun hchanged => ?_⟩
        · rw [hstart.ledger] at hpending
          exact (Ledger.pending_update hpending).resolve_left hnot
        · obtain ⟨l, hes, -⟩ := emit_ok rfl hemit
          obtain ⟨o, ho, rfl⟩ := List.mem_map.mp hmem
          exact hnot (Snapshot.script_of_emitted hbuilt hes ho)
        · obtain ⟨g, hg, -, -⟩ := hbuilt.module_cases hm
          obtain ⟨g, hg⟩ := Program.contains_iff_file?.mp (hbuilt.contains_of_read hg)
          have haffected := Ledger.affected_of_changed hbuilt.shadows.files_sorted hbuilt.modules_sorted
            hf hchanged
          exact ⟨g, hg, contains_pathsOf (reported_of_resource hbuilt.modules_sorted haffected hf hplain hm
            (Program.Built.mem_targets_of_resource href hfile)) hg⟩

set_option maxRecDepth 100000

def withTemplate (url text : String) : Volume := .ofTexts [
  (⟨"/k"⟩, "files=['a.ts']"), (⟨"/a.ts"⟩, "@Component(\x7btemplateUrl:'" ++ url ++ "'\x7d)class A\x7b\x7d"),
  (⟨"/" ++ url⟩, text)]

theorem resource_kind_iff_template :
    ∃ report e' s, (create .aot).start (withTemplate "t.htm" "x") ⟨"/k"⟩ ⟨OrdMap.empty, .passthrough⟩ id =
        (.ok report, e') ∧ e'.snapshot = some s ∧
      (∃ f, s.program.file? 1 = some f ∧ f.kind = .template) ∧ (∀ m, s.program.module? 1 ≠ some m) ∧
      (∀ {fs₁ fs₂ : Volume} {es e₂}, e'.emit fs₁ = (.ok es, e₂, fs₂) → 1 ∉ es.map (·.file)) ∧
      ∃ g, s.program.file? 0 = some g ∧ report.affected.contains g.path = true := by
  have hresult : ((create .aot).start (withTemplate "t.htm" "x") ⟨"/k"⟩ ⟨OrdMap.empty, .passthrough⟩ id).1.toOption.isSome
        = true ∧
      ∀ s ∈ ((create .aot).start (withTemplate "t.htm" "x") ⟨"/k"⟩ ⟨OrdMap.empty, .passthrough⟩ id).2.snapshot,
        s.options.buildInfoPath? = none ∧ ∃ m ∈ s.program.module? 0, ∃ ref ∈ m.resources,
          ref.file = some 1 ∧ ref.kind = .template ∧ ref.path = ⟨"/t.htm"⟩ := by
    decide +kernel
  generalize hstart : (create .aot).start (withTemplate "t.htm" "x") ⟨"/k"⟩ ⟨OrdMap.empty, .passthrough⟩ id =
    answer at hresult
  obtain ⟨_ | report, e'⟩ := answer
  · cases hresult.1
  · obtain ⟨s, hs, hresources⟩ := resource_kind_iff Registry.distinct_empty _ _ _ _ hstart
    obtain ⟨hpath, m, hm, ref, href, hfile, hkind, hrefpath⟩ := hresult.2 s hs
    obtain ⟨f, hf, -, hkinds, hmodule, hplain⟩ := hresources hm href hfile
    rw [hrefpath] at hkinds hmodule hplain
    obtain ⟨-, hemit, hreport⟩ := hplain (by decide)
    refine ⟨report, e', s, rfl, hs, ⟨f, hf, ?_⟩, fun m hm => ?_, hemit, hreport fun l hl => ?_⟩
    · rw [hkinds.mpr (by rw [hkind]; decide), hkind]
    · cases hmodule.mp ⟨m, hm⟩
    · simp [priorLedger, create, hpath] at hl

/-- A template whose name does not end as one is a script of the program: it is pending, it is
emitted, and a change to it is not reported for the script that uses it. -/
theorem template_taken_for_script :
    let fs := withTemplate "t" "x"
    let e := run (create .aot) [.startAt fs]
    (∃ s ∈ e.snapshot, (∃ m ∈ s.program.module? 0, m.resources.map (fun r => (r.kind, r.file)) =
        [(.template, some 1)]) ∧
      (s.program.file? 1).map (·.kind) = some .script ∧ s.ledger.pending.contains 1 = true ∧
      reportedFor s.program 1 = [1]) ∧
    ((e.emit fs).1.toOption.map fun es => es.map fun r => (r.filename, r.contents)) =
      some [(⟨"/a.js"⟩, "@Component(\x7btemplate: \"x\"\x7d)class A\x7b\x7d"), (⟨"/t.js"⟩, "x")] := by
  decide +kernel

end Engine

end Recompile
