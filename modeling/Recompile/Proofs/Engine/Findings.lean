import Recompile.Proofs.Engine.Run
import Recompile.Proofs.Ledger.Affected
import Recompile.Proofs.Program.Checks
import Recompile.Proofs.Program.Resolution

/-!
What an update of findings keeps. A file that is not reported has the same text and the same module
as in the program before, its targets export the same names and its templates have the same texts,
so a check of it gives what it gave before.
-/

namespace Recompile

namespace Findings

theorem get?_insert (c : Findings) (id j : FileId) (found : FileFindings) :
    (c.insert id found).get? j = if j = id then some found else c.get? j := by
  unfold get? insert
  rw [OrdMap.get?_insert]
  simp only [Std.LawfulEqOrd.compare_eq_iff_eq]

theorem get?_retain (c : Findings) (keep : FileId → Bool) (id : FileId) :
    (c.retain keep).get? id = if keep id then c.get? id else none :=
  OrdMap.get?_filter keep c.entries id

def refresh (p : Program) (full strict : Bool) (affected : OrdSet FileId) (c : Findings)
    (f : SourceFile) : Findings :=
  if !affected.contains f.id && (c.get? f.id).isSome then c
  else c.insert f.id (FileFindings.ofFile p full strict f)

theorem get?_refresh_of_ne {p : Program} {full strict : Bool} {affected : OrdSet FileId}
    {c : Findings} {f : SourceFile} {id : FileId} (h : id ≠ f.id) :
    (refresh p full strict affected c f).get? id = c.get? id := by
  unfold refresh
  split
  · rfl
  · rw [get?_insert, if_neg h]

theorem get?_foldl_refresh_of_not_mem {p : Program} {full strict : Bool} {affected : OrdSet FileId}
    {id : FileId} (fs : List SourceFile) : ∀ {c : Findings}, id ∉ fs.map (·.id) →
      (fs.foldl (refresh p full strict affected) c).get? id = c.get? id := by
  induction fs with
  | nil => exact fun _ => rfl
  | cons f rest ih =>
    intro c h
    simp only [List.map_cons, List.mem_cons, not_or] at h
    rw [List.foldl_cons, ih h.2, get?_refresh_of_ne h.1]

theorem get?_refresh_self {p : Program} {full strict : Bool} {affected : OrdSet FileId}
    {c : Findings} {f : SourceFile} :
    (refresh p full strict affected c f).get? f.id =
      if !affected.contains f.id && (c.get? f.id).isSome then c.get? f.id
      else some (FileFindings.ofFile p full strict f) := by
  unfold refresh
  split
  · rfl
  · rw [get?_insert, if_pos rfl]

theorem get?_foldl_refresh {p : Program} {full strict : Bool} {affected : OrdSet FileId}
    {f : SourceFile} (fs : List SourceFile) : ∀ {c : Findings}, (fs.map (·.id)).Nodup → f ∈ fs →
      (fs.foldl (refresh p full strict affected) c).get? f.id =
        if !affected.contains f.id && (c.get? f.id).isSome then c.get? f.id
        else some (FileFindings.ofFile p full strict f) := by
  induction fs with
  | nil => exact fun _ h => by cases h
  | cons g rest ih =>
    intro c hnodup hf
    simp only [List.map_cons, List.nodup_cons] at hnodup
    rw [List.foldl_cons]
    rcases List.mem_cons.mp hf with rfl | hf
    · rw [get?_foldl_refresh_of_not_mem rest hnodup.1, get?_refresh_self]
    · have hne : f.id ≠ g.id := by
        intro heq
        exact hnodup.1 (List.mem_map.mpr ⟨f, hf, heq⟩)
      rw [ih hnodup.2 hf, get?_refresh_of_ne hne]

end Findings

namespace Program

variable {σ : Type} [FileSystem σ] {c : BuildContext σ} {s : BuildState} {p : Program}
variable {r : Registry}

theorem Built.nodup_checked (h : Built c s p r) : (p.checked.map (·.id)).Nodup :=
  h.nodup_ids.sublist (List.filter_sublist.map _)

theorem mem_checked {f : SourceFile} :
    f ∈ p.checked ↔ f ∈ p.members ∧ (f.kind = .script ∨ f.kind = .declaration) := by
  unfold checked
  rw [List.mem_filter]
  simp

end Program

theorem Findings.get?_update {σ : Type} [FileSystem σ] {c : BuildContext σ} {s : BuildState}
    {p : Program} {r : Registry} (h : Program.Built c s p r) (old : Findings) (full strict : Bool)
    (affected : OrdSet FileId) {f : SourceFile} (hf : f ∈ p.checked) :
    (old.update p full strict affected).get? f.id =
      if !affected.contains f.id && (old.get? f.id).isSome then old.get? f.id
      else some (FileFindings.ofFile p full strict f) := by
  have hmem : p.contains f.id = true :=
    Program.contains_iff_file?.mpr ⟨f, h.mem_members.mp (Program.mem_checked.mp hf).1⟩
  refine (get?_foldl_refresh p.checked h.nodup_checked hf).trans ?_
  rw [get?_retain, if_pos hmem]

namespace Engine

theorem mem_reported {p : Program} {changed : OrdSet FileId} {id : FileId} :
    (reported p changed).contains id = true ↔
      ∃ i, changed.contains i = true ∧ id ∈ reportedFor p i := by
  unfold reported
  rw [OrdSet.mem_ofList, List.mem_flatMap]
  simp only [OrdSet.mem_toList]

theorem unchanged_of_not_reported {p : Program} {changed : OrdSet FileId} {id i : FileId}
    (hfor : id ∈ reportedFor p i) (h : (reported p changed).contains id = false) :
    changed.contains i = false := by
  cases hchanged : changed.contains i with
  | false => rfl
  | true =>
    rw [mem_reported.mpr ⟨i, hchanged, hfor⟩] at h
    cases h

theorem mem_reportedFor_self {p : Program} {f : SourceFile} (hf : p.file? f.id = some f)
    (hkind : f.kind = .script ∨ f.kind = .declaration) : f.id ∈ reportedFor p f.id := by
  unfold reportedFor
  rcases hkind with hkind | hkind <;> simp [hf, hkind]

section Kept

/-! Two programs, the second one built after the first, and a ledger that knows the first. -/

variable {σ : Type} [FileSystem σ] {c c' : BuildContext σ} {s s' : BuildState} {p p' : Program}
variable {r r' : Registry} {prior : Ledger}

theorem file_kept (h : Program.Built c s p r) (h' : Program.Built c' s' p' r')
    (hw : s.registry.Within s'.registry) (hprior : prior.files = Ledger.records p)
    (htexts : ∀ f ∈ p.members, ∀ g ∈ p'.members, f.version = g.version → f.text = g.text)
    {id : FileId} {f : SourceFile} (hf : p'.file? id = some f)
    (horigin : p.origins.get? id = none) (horigin' : p'.origins.get? id = none)
    (hsame : (Ledger.next p' prior).2.contains id = false) :
    p.file? id = some f ∧ s.program.file? id = some f ∧ s'.program.file? id = some f := by
  obtain ⟨old, hold, hversion, -, -⟩ :=
    Ledger.unaffected h'.shadows.files_sorted h'.modules_sorted hf hsame
  rw [hprior, Ledger.get?_records] at hold
  obtain ⟨g, hg, rfl⟩ := Option.map_eq_some_iff.mp hold
  have hread' : s'.program.file? id = some f := by rw [← h'.file?_eq horigin', hf]
  have hread : s.program.file? id = some g := by rw [← h.file?_eq horigin, hg]
  have hgf : g = f := by
    have htext : g.text = f.text := by
      refine htexts g (h.mem_members.mpr ?_) f (h'.mem_members.mpr ?_) hversion
      · rw [h.id_eq hg, hg]
      · rw [h'.id_eq hf, hf]
    exact h.read_eq h' hw (.refl _) hread hread' htext
  subst hgf
  exact ⟨hg, hread, hread'⟩

theorem exportedNames_kept (h : Program.Built c s p r) (h' : Program.Built c' s' p' r')
    (hw : s.registry.Within s'.registry) (hprior : prior.files = Ledger.records p)
    (hsignatures : ∀ id ∈ p.modules.keys, id ∈ p'.modules.keys →
      p.signature? id = p'.signature? id → p.exportedNames id = p'.exportedNames id)
    {id target : FileId} {f : SourceFile} {m m' : Module} (hf : p'.file? id = some f)
    (hm : p.module? id = some m) (hm' : p'.module? id = some m')
    (hsame : (Ledger.next p' prior).2.contains id = false) (htarget : target ∈ m.targets)
    (htarget' : target ∈ m'.targets) : p.exportedNames target = p'.exportedNames target := by
  obtain ⟨-, -, -, -, hsigned⟩ :=
    Ledger.unaffected h'.shadows.files_sorted h'.modules_sorted hf hsame
  obtain ⟨b, -, -, rfl⟩ := h.module_cases hm
  obtain ⟨b', -, -, hb'⟩ := h'.module_cases hm'
  obtain ⟨a, ha⟩ := Program.contains_iff_file?.mp
    (Program.contains_of_mem_targets_settleModule htarget)
  obtain ⟨a', ha'⟩ := Program.contains_iff_file?.mp
    (Program.contains_of_mem_targets_settleModule (hb' ▸ htarget'))
  have hkind : a.kind = a'.kind := by
    rw [(h.sound.file_read ha).1, (h'.sound.file_read ha').1]
    simp only [BuildState.fileAt, h.path_eq h' hw (.refl _) ha ha']
  by_cases hmodule : a.kind.isModule = true
  · have hmt := h.module?_of_file ha hmodule
    have hmt' := h'.module?_of_file ha' (hkind ▸ hmodule)
    refine hsignatures target ?_ ?_ ?_
    · exact OrdMap.mem_keys_iff.mpr (OrdMap.contains_iff.mpr ⟨_, hmt⟩)
    · exact OrdMap.mem_keys_iff.mpr (OrdMap.contains_iff.mpr ⟨_, hmt'⟩)
    · obtain ⟨g', hg'⟩ := Program.contains_iff_file?.mp (h'.contains_of_read ha')
      obtain ⟨old, hold, hsig⟩ := hsigned m' hm' target htarget' g' hg'
      rw [hprior, Ledger.get?_records] at hold
      obtain ⟨g, hg, rfl⟩ := Option.map_eq_some_iff.mp hold
      simp only [Ledger.recordOf, h.id_eq hg, h'.id_eq hg'] at hsig
      -- Modules have signatures, so equal options mean equal signatures.
      have hsome : ∀ {q : Program} {mt : Module}, q.module? target = some mt →
          ∃ d, q.signature? target = some d := by
        intro q mt hq
        unfold Program.signature?
        simp only [hq]
        split <;> exact ⟨_, rfl⟩
      obtain ⟨d, hd⟩ := hsome hmt
      obtain ⟨d', hd'⟩ := hsome hmt'
      rw [hd, hd'] at hsig ⊢
      simpa using hsig
  · have hnone : ∀ {q : Program} {t : BuildState} {k : BuildContext σ} {reg : Registry}
        {b : SourceFile}, Program.Built k t q reg → t.program.file? target = some b →
        b.kind.isModule = false → q.module? target = none := by
      intro q t k reg b hq hb hkb
      rw [hq.module?_eq, hq.sound.module?_eq, hb]
      simp [Option.filter_some, hkb]
    rw [Program.exportedNames_of_no_module (hnone h ha (by simpa using hmodule)),
      Program.exportedNames_of_no_module (hnone h' ha' (by simpa [hkind] using hmodule))]

theorem template_file (h : Program.Built c s p r) (ht : FileSystem.Truthful c.fs) {id t : FileId}
    {m : Module} (hm : p.module? id = some m) {ref : ResourceRef} (href : ref ∈ m.resources)
    (hkind : SourceKind.ofPath ref.path = .template) (hfile : ref.file = some t) :
    p.origins.get? t = none ∧ ∃ g, p.file? t = some g ∧ g.kind = .template := by
  obtain ⟨f, hf, hmodule, -⟩ := h.module_cases hm
  rw [h.module?_truthful ht hf hmodule] at hm
  obtain rfl := Option.some.inj hm
  obtain ⟨ref₀, href₀, rfl⟩ := List.mem_map.mp href
  unfold BuildState.identified at hkind hfile
  split at hfile
  · rename_i hcond
    rw [if_pos hcond] at hkind
    obtain ⟨hfull, hpres⟩ : c.full = true ∧ ref₀.present = true := by simpa using hcond
    obtain ⟨i, text, hl, hi⟩ := h.read_of_link ht hf hmodule
      (BuildState.mem_linksOf.mpr (.inr ⟨hfull, ref₀, href₀, hpres, rfl⟩))
    simp only [Registry.intern_of_lookup? hl, Option.some.injEq] at hfile hkind
    subst hfile
    have hplain : p.origins.get? i = none := by
      obtain ⟨g, hg⟩ := Program.contains_iff_file?.mp (h.contains_of_read hi)
      rcases h.file_cases hg with ⟨hnone, -⟩ | ⟨-, -, hscript, -, hlg⟩
      · exact hnone
      · have hcomp := Registry.components_eq_of_lookup? hlg (h.shadows.within.lookup? hl)
        rw [SourceKind.ofPath_congr hcomp, hkind] at hscript
        cases hscript
    rw [← h.file?_eq hplain] at hi
    exact ⟨hplain, BuildState.fileAt i ref₀.path text, hi, hkind⟩
  · rw [(BuildState.mem_refsOf href₀).2.1] at hfile
    cases hfile

theorem template_kept (h : Program.Built c s p r) (h' : Program.Built c' s' p' r')
    (ht : FileSystem.Truthful c.fs) (ht' : FileSystem.Truthful c'.fs)
    (hw : s.registry.Within s'.registry) (hprior : prior.files = Ledger.records p)
    (htexts : ∀ f ∈ p.members, ∀ g ∈ p'.members, f.version = g.version → f.text = g.text)
    {id t : FileId} {m : Module} (hm : p.module? id = some m) (hm' : p'.module? id = some m)
    {ref : ResourceRef} (href : ref ∈ m.resources)
    (hkind : SourceKind.ofPath ref.path = .template) (hfile : ref.file = some t)
    (hsame : (reported p' (Ledger.next p' prior).2).contains id = false) :
    p.file? t = p'.file? t := by
  obtain ⟨horigin, -⟩ := template_file h ht hm href hkind hfile
  obtain ⟨horigin', g, hg, hgkind⟩ := template_file h' ht' hm' href hkind hfile
  have himporter : id ∈ reportedFor p' t := by
    unfold reportedFor
    simp only [hg, hgkind]
    exact (Program.mem_importers_fst h'.modules_sorted).mpr
      ⟨m, hm', Module.mem_targets_of_resource href hfile⟩
  have hunchanged := unchanged_of_not_reported himporter hsame
  obtain ⟨hkept, -, -⟩ := file_kept h h' hw hprior htexts hg horigin horigin' hunchanged
  rw [hkept, hg]

theorem ofFile_kept (h : Program.Built c s p r) (h' : Program.Built c' s' p' r')
    (ht : FileSystem.Truthful c.fs) (ht' : FileSystem.Truthful c'.fs)
    (hw : s.registry.Within s'.registry) (hprior : prior.files = Ledger.records p)
    (hopts : c.options = c'.options) (hfull : c.full = c'.full)
    (htexts : ∀ f ∈ p.members, ∀ g ∈ p'.members, f.version = g.version → f.text = g.text)
    (hsignatures : ∀ id ∈ p.modules.keys, id ∈ p'.modules.keys →
      p.signature? id = p'.signature? id → p.exportedNames id = p'.exportedNames id)
    (htemplates : ∀ m ∈ p'.modules.values, ∀ ref ∈ m.resources, ref.kind = .template →
      SourceKind.ofPath ref.path = .template)
    {f : SourceFile} (hf : f ∈ p'.checked) (horigin : p.origins.get? f.id = none)
    (hsame : (reported p' (Ledger.next p' prior).2).contains f.id = false) (strict : Bool) :
    f ∈ p.checked ∧
      FileFindings.ofFile p c.full strict f = FileFindings.ofFile p' c.full strict f := by
  obtain ⟨hmem, hkind⟩ := Program.mem_checked.mp hf
  have hfile := h'.mem_members.mp hmem
  have horigin' : p'.origins.get? f.id = none := by
    rcases h'.file_cases hfile with ⟨hnone, -⟩ | ⟨-, hshadow, -⟩
    · exact hnone
    · rcases hkind with hkind | hkind <;> rw [hkind] at hshadow <;> cases hshadow
  have hunchanged := unchanged_of_not_reported (mem_reportedFor_self hfile hkind) hsame
  obtain ⟨hold, hread, hread'⟩ :=
    file_kept h h' hw hprior htexts hfile horigin horigin' hunchanged
  refine ⟨Program.mem_checked.mpr ⟨h.mem_members.mpr hold, hkind⟩, ?_⟩
  have hmodule : f.kind.isModule = true := by rcases hkind with hkind | hkind <;> rw [hkind] <;> rfl
  have hm := h.module?_of_file hread hmodule
  have hm' := h'.module?_of_file hread' hmodule
  obtain ⟨old, hrec, -, hdeps, -⟩ :=
    Ledger.unaffected h'.shadows.files_sorted h'.modules_sorted hfile hunchanged
  have hdependencies : p.dependencies f.id = p'.dependencies f.id := by
    rw [hprior, Ledger.get?_records, hold] at hrec
    obtain rfl := Option.some.inj hrec
    exact hdeps
  obtain ⟨houtline, hres, hequal⟩ := h.module_stable h' ht ht' hw hopts hfull hread hread'
    hdependencies hm hm'
  have hhasKind : p.hasKind f.id .declaration = p'.hasKind f.id .declaration := by
    unfold Program.hasKind
    rw [hold, hfile]
  have hnames : ∀ target ∈ (Program.settleModule s.program
      (BuildState.moduleOf c s.registry f)).targets,
      p.exportedNames target = p'.exportedNames target := by
    intro target htarget
    refine exportedNames_kept h h' hw hprior hsignatures hfile hm hm' hunchanged htarget ?_
    have hset : ∀ i, i ∈ OrdSet.toList (p.dependencies f.id) ↔
        i ∈ OrdSet.toList (p'.dependencies f.id) := by
      intro i
      rw [hdependencies]
    simp only [Program.dependencies, hm, hm', OrdSet.mem_toList_ofList] at hset
    exact (hset target).mp htarget
  have hsemantic : Check.semantic p f.id = Check.semantic p' f.id :=
    Check.semantic_congr hm hm' houtline hres hnames hhasKind
  unfold FileFindings.ofFile
  rw [hsemantic]
  congr 1
  by_cases hcond : (c.full && decide (f.kind = .script)) = true
  · rw [if_pos hcond, if_pos hcond]
    have hcfull : c.full = true := by
      cases hc : c.full with
      | true => rfl
      | false => simp [hc] at hcond
    rw [← hequal hcfull] at hm'
    refine Check.templates_congr strict hm hm' fun ref href hrkind t htfile => ?_
    have hvalue := (h'.modules_sorted.mem_values).mpr ⟨_, hm'⟩
    exact template_kept h h' ht ht' hw hprior htexts hm hm' href
      (htemplates _ hvalue ref href hrkind) htfile hsame
  · rw [if_neg hcond, if_neg hcond]

end Kept

end Engine

end Recompile
