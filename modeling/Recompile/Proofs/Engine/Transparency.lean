import Recompile.Host.Volume
import Recompile.Proofs.Engine.Findings
import Recompile.Proofs.Engine.Known

/-!
Findings kept from build to build are those that a check of the current program would give.
-/

namespace Recompile

theorem Volume.truthful {v : Volume} (hphantoms : v.phantoms = OrdMap.empty)
    (hdenied : v.readDenied = OrdMap.empty)
    (htexts : ∀ e ∈ v.files.entries, (Utf8.decode e.2).toOption.isSome = true) :
    FileSystem.Truthful v := by
  intro p
  show (v.phantoms.contains p || v.files.contains p) = true ↔ ∃ text, v.read p = .ok text
  have hfree : OrdMap.entry? (OrdMap.empty : OrdSet Path) p = none := rfl
  unfold Volume.read Volume.stored? OrdMap.get? OrdMap.contains
  rw [hphantoms, hdenied, hfree]
  cases he : v.files.entry? p with
  | none => simp
  | some e =>
    have hsome := htexts e (List.mem_of_find?_eq_some he)
    cases hd : Utf8.decode e.2 with
    | ok text => simp [hd]
    | error fault => simp [hd, Except.toOption] at hsome

namespace Engine

/-- Among some snapshots, digests tell texts and options apart, and signatures of modules tell their
exported names apart. -/
structure DigestsTell (taken : List Snapshot) : Prop where
  texts : ∀ s ∈ taken, ∀ t ∈ taken, ∀ f ∈ s.program.members, ∀ g ∈ t.program.members,
    f.version = g.version → f.text = g.text
  options : ∀ s ∈ taken, ∀ t ∈ taken, s.optionsDigest = t.optionsDigest → s.options = t.options
  signatures : ∀ s ∈ taken, ∀ t ∈ taken, ∀ id ∈ s.program.modules.keys,
    id ∈ t.program.modules.keys → s.program.signature? id = t.program.signature? id →
      s.program.exportedNames id = t.program.exportedNames id

/-- Every template that a component names has the name of a template. -/
def TemplatesNamed (taken : List Snapshot) : Prop :=
  ∀ s ∈ taken, ∀ m ∈ s.program.modules.values, ∀ ref ∈ m.resources, ref.kind = .template →
    SourceKind.ofPath ref.path = .template

theorem DigestsTell.mono {seen taken : List Snapshot} (h : DigestsTell taken) (hsub : seen ⊆ taken) :
    DigestsTell seen where
  texts s hs t ht := h.texts s (hsub hs) t (hsub ht)
  options s hs t ht := h.options s (hsub hs) t (hsub ht)
  signatures s hs t ht := h.signatures s (hsub hs) t (hsub ht)

/-- The findings of a snapshot are those of new checks, but for files that were hidden by a shadow
in one of the snapshots so far. -/
def FindingsCurrent (strategy : Strategy) (seen : List Snapshot) (t : Snapshot) : Prop :=
  ∀ f ∈ t.program.checked, (∀ u ∈ seen, u.program.origins.get? f.id = none) →
    t.findings.get? f.id =
      some (FileFindings.ofFile t.program strategy.isFull t.options.strictTemplates f)

variable {σ : Type} [FileSystem σ]

theorem findingsCurrent_start {strategy : Strategy} {seen : List Snapshot} {e : Engine}
    (h : History (fun (fs : σ) _ => FileSystem.Truthful fs) strategy seen e)
    (hold : ∀ t, e.snapshot = some t → FindingsCurrent strategy seen t) {fs : σ} {host : Host}
    (hfs : FileSystem.Truthful fs) {config : Configuration} {s : BuildState} {t : Snapshot}
    {r : Registry} (hstart : Started e fs host config s t r)
    (htell : DigestsTell (seen ++ [t])) (hnamed : TemplatesNamed (seen ++ [t])) :
    FindingsCurrent strategy (seen ++ [t]) t := by
  intro f hf hnever
  rw [hstart.findings, Findings.get?_update hstart.built _ _ _ _ hf, h.strategy]
  split
  · rename_i hkept
    simp only [Bool.and_eq_true, Bool.not_eq_true'] at hkept
    obtain ⟨hsame, hsome⟩ := hkept
    cases hs : e.snapshot with
    | none => simp [oldFindings, hs, Findings.empty, Findings.get?] at hsome
    | some u =>
      obtain ⟨u₀, hu₀, husame, hfiles, hoptions⟩ := h.current u hs
      have hprogram : u₀.program = u.program := by rw [husame]
      obtain ⟨c, b, reg, hbuilt, hreg, hfull, hcopts, -, htruth⟩ := h.known u₀ hu₀
      rw [hprogram] at hbuilt
      have hprior : e.priorLedger fs host config.options = (some u.ledger, e.registry) := by
        unfold priorLedger
        rw [hs]
      have hw : b.registry.Within s.registry := by
        have hwithin := hstart.within
        rw [hprior] at hwithin
        exact (hbuilt.shadows.within.trans hreg).trans hwithin
      rw [hprior] at hsame
      simp only [Ledger.update] at hsame
      split at hsame
      · rename_i hdigest
        have hopts : u₀.options = t.options := by
          refine htell.options u₀ (by simp [hu₀]) t (by simp) ?_
          rw [← hdigest, hoptions, husame]
        -- The old findings were those of a check in the program before, and a check now gives the
        -- same.
        have hkept := ofFile_kept hbuilt hstart.built htruth hfs hw hfiles
          (by rw [hcopts, hopts, hstart.options]; rfl) (by rw [hfull]; rfl)
          (fun g hg => htell.texts u₀ (by simp [hu₀]) t (by simp) g (hprogram ▸ hg))
          (fun i hi => by
            have := htell.signatures u₀ (by simp [hu₀]) t (by simp) i (hprogram ▸ hi)
            rwa [hprogram] at this)
          (hnamed t (by simp)) hf (hprogram ▸ hnever u₀ (by simp [hu₀])) hsame
          t.options.strictTemplates
        have hentry := hold u hs f hkept.1 fun v hv => hnever v (by simp [hv])
        have huopts : u.options = t.options := by rw [← hopts, husame]
        rw [hfull, h.strategy] at hkept
        show (oldFindings e).get? f.id = _
        unfold oldFindings
        rw [hs]
        simp only
        rw [hentry, huopts, hkept.2]
      · obtain ⟨hmem, hkind⟩ := Program.mem_checked.mp hf
        have hfile := hstart.built.mem_members.mp hmem
        have hunchanged := unchanged_of_not_reported (mem_reportedFor_self hfile hkind) hsame
        rw [Ledger.contains_first, Program.contains_iff_file?.mpr ⟨f, hfile⟩] at hunchanged
        cases hunchanged
  · rfl

theorem findingsCurrent_step {strategy : Strategy} {seen : List Snapshot} {e : Engine}
    (h : History (fun (fs : σ) _ => FileSystem.Truthful fs) strategy seen e)
    (hold : ∀ t, e.snapshot = some t → FindingsCurrent strategy seen t) (call : Call σ)
    (htruth : ∀ fs configPath host change, call = .start fs configPath host change →
      FileSystem.Truthful fs)
    (htell : DigestsTell (seen ++ taken (e, call)))
    (hnamed : TemplatesNamed (seen ++ taken (e, call))) :
    ∀ t, (e.after call).snapshot = some t →
      FindingsCurrent strategy (seen ++ taken (e, call)) t := by
  intro t ht
  cases call with
  | emit fs =>
    have htaken : seen ++ taken (e, Call.emit fs) = seen := List.append_nil _
    rw [htaken]
    simp only [after] at ht
    cases hs : e.snapshot with
    | none =>
      rw [emit_of_none hs, hs] at ht
      cases ht
    | some u =>
      obtain ⟨l, -, heq⟩ := emit_frame hs fs
      rw [heq] at ht
      obtain rfl := Option.some.inj ht
      exact hold u hs
  | start fs configPath host change =>
    simp only [after] at ht
    rcases start_cases h.distinct fs configPath host change with
      ⟨err, r, heq, -, -⟩ | ⟨config, s, u, r, report, heq, -, hstart⟩
    · have htaken : taken (e, Call.start fs configPath host change) = [] := by simp [taken, heq]
      rw [htaken, List.append_nil]
      rw [heq] at ht
      exact hold t ht
    · have htaken : taken (e, Call.start fs configPath host change) = [u] := by simp [taken, heq]
      rw [htaken] at htell hnamed ⊢
      rw [heq] at ht
      obtain rfl := Option.some.inj ht
      exact findingsCurrent_start h hold (htruth fs configPath host change rfl) hstart htell hnamed

/-- The findings kept by an engine are those of new checks. In every run in which presence tells
what can be read, digests tell apart what they are made from and templates are named as such, every
script and declaration of the current program that never stood at the path of a shadow has the
findings that its check gives now. -/
theorem findings_current (strategy : Strategy) (calls : List (Call σ))
    (htruth : ∀ fs configPath host change,
      Call.start fs configPath host change ∈ calls → FileSystem.Truthful fs)
    (htell : DigestsTell (snapshots (create strategy) calls))
    (hnamed : TemplatesNamed (snapshots (create strategy) calls))
    {s : Snapshot} (hs : (run (create strategy) calls).snapshot = some s) {f : SourceFile}
    (hf : f ∈ s.program.members) (hkind : f.kind = .script ∨ f.kind = .declaration)
    (hplain : ∀ t ∈ snapshots (create strategy) calls, t.program.origins.get? f.id = none) :
    s.findings.get? f.id = some ⟨Check.semantic s.program f.id,
      if strategy.isFull && f.kind = .script then
        Check.templates s.program f.id s.options.strictTemplates
      else []⟩ := by
  have hall := run_induction (e := create strategy) (motive := fun calls e =>
    (∀ fs configPath host change,
      Call.start fs configPath host change ∈ calls → FileSystem.Truthful fs) →
    DigestsTell (snapshots (create strategy) calls) →
    TemplatesNamed (snapshots (create strategy) calls) →
    ∀ t, e.snapshot = some t → FindingsCurrent strategy (snapshots (create strategy) calls) t)
    (fun _ _ _ t ht => by cases ht) ?_ calls htruth htell hnamed s hs
  · exact hall f (Program.mem_checked.mpr ⟨hf, hkind⟩) hplain
  · intro done call ih htruth htell hnamed t ht
    have hpast : ∀ fs configPath host change,
        Call.start fs configPath host change ∈ done → FileSystem.Truthful fs :=
      fun fs configPath host change hmem =>
        htruth fs configPath host change (List.mem_append_left _ hmem)
    have hhistory := history_run (P := fun fs _ => FileSystem.Truthful fs) strategy done hpast
    rw [snapshots_append] at htell hnamed ⊢
    have hbefore := ih hpast (htell.mono (List.subset_append_left _ _))
      (fun u hu => hnamed u (List.mem_append_left _ hu))
    refine findingsCurrent_step hhistory hbefore call ?_ htell hnamed t ht
    rintro fs configPath host change rfl
    exact htruth fs configPath host change (by simp)

theorem digestsTell_of_texts {taken : List Snapshot} {texts : List String} {options : Options}
    (h : ∀ s ∈ taken, (∀ f ∈ s.program.members, f.text ∈ texts) ∧ s.options = options ∧
      ∀ id ∈ s.program.modules.keys, s.program.exportedNames id = OrdMap.empty)
    (htexts : ∀ a ∈ texts, ∀ b ∈ texts, Digest.ofText a = Digest.ofText b → a = b) :
    DigestsTell taken where
  texts s hs t ht f hf g hg := htexts _ ((h s hs).1 f hf) _ ((h t ht).1 g hg)
  options s hs t ht _ := by rw [(h s hs).2.1, (h t ht).2.1]
  signatures s hs t ht id hid hid' _ := by rw [(h s hs).2.2 id hid, (h t ht).2.2 id hid']

set_option maxRecDepth 100000

theorem truthful_startAt {v : Volume} (hphantoms : v.phantoms = OrdMap.empty)
    (hdenied : v.readDenied = OrdMap.empty)
    (htexts : ∀ e ∈ v.files.entries, (Utf8.decode e.2).toOption.isSome = true) {fs : Volume}
    {configPath : Path} {host : Host} {change : Options → Options}
    (h : Call.start fs configPath host change = .startAt v) : FileSystem.Truthful fs := by
  rw [(Call.eq_startAt h).1]
  exact Volume.truthful hphantoms hdenied htexts

def importTexts (b : String) : Volume :=
  .ofTexts [(⟨"/k"⟩, "files=['a.ts']"), (⟨"/a.ts"⟩, "import'./b'"), (⟨"/b.ts"⟩, b)]

def editedImport : List (Call Volume) :=
  [.startAt (importTexts ""), .emit (importTexts ""), .startAt (importTexts ";")]

theorem snapshots_editedImport :
    (∀ s ∈ snapshots (create .aot) editedImport,
      ((∀ f ∈ s.program.members, f.text ∈ ["", ";", "import'./b'"]) ∧
        s.options = Options.ofConfigPath ⟨"/k"⟩ ∧
        ∀ id ∈ s.program.modules.keys, s.program.exportedNames id = OrdMap.empty) ∧
      (∀ m ∈ s.program.modules.values, m.resources = []) ∧ s.program.origins = OrdMap.empty) ∧
    ∃ s ∈ (run (create .aot) editedImport).snapshot, ∃ f ∈ s.program.members,
      f.text = "import'./b'" ∧ f.kind = .script := by
  have hplain : ∀ text ∈ ["", ";"], Plain (importTexts text) false [⟨"/a.ts"⟩] := by decide +kernel
  have hempty := hplain "" (by simp)
  have hmark := hplain ";" (by simp)
  rw [editedImport, Call.startAt, Call.startAt,
    hempty.run_cons, run_cons, hmark.run_cons, run_nil,
    hempty.snapshots_cons, snapshots_emit, hmark.snapshots_cons, snapshots_nil]
  decide +kernel

theorem findings_current_editedImport :
    ∃ s, (run (create .aot) editedImport).snapshot = some s ∧ ∃ f ∈ s.program.members,
      f.text = "import'./b'" ∧
      s.findings.get? f.id = some ⟨Check.semantic s.program f.id,
        if Strategy.aot.isFull && f.kind = .script then
          Check.templates s.program f.id s.options.strictTemplates
        else []⟩ := by
  obtain ⟨hall, s, hs, f, hf, htext, hkind⟩ := snapshots_editedImport
  refine ⟨s, hs, f, hf, htext, findings_current .aot editedImport ?_ ?_ ?_ hs hf (.inl hkind) ?_⟩
  · intro fs configPath host change hcall
    simp only [editedImport, List.mem_cons, List.not_mem_nil, or_false, reduceCtorEq,
      false_or] at hcall
    rcases hcall with hcall | hcall
    · exact truthful_startAt rfl rfl (by decide) hcall
    · exact truthful_startAt rfl rfl (by decide) hcall
  · exact digestsTell_of_texts (fun t ht => (hall t ht).1) (by decide)
  · intro t ht m hm ref href
    rw [(hall t ht).2.1 m hm] at href
    cases href
  · intro t ht
    rw [(hall t ht).2.2]
    rfl

def bareScript : String := "import'./\\nimport\"./c\"//'"

def annotatedScript : String := bareScript ++ "@Component(\x7b\x7d)class A\x7b\x7d"

def shadowText : String :=
  "// component A\n//   members: \n//   bindings: <none>\n// import ./\nimport\"./c\"//: \n"

def besideShadow : Volume :=
  .ofTexts [(⟨"/k"⟩, "files=['a.ts','a.typecheck.ts']"), (⟨"/a.ts"⟩, bareScript),
    (⟨"/a.typecheck.ts"⟩, shadowText), (⟨"/c.ts"⟩, ""), (⟨"/\nimport\"./c\".ts"⟩, "")]

def behindShadow : Volume :=
  (besideShadow.put ⟨"/a.ts"⟩ annotatedScript.toUTF8).remove ⟨"/c.ts"⟩

/-- A script at the path where another one gets its shadow. Its text is that of the shadow, and the
module it imports goes while the shadow hides it. -/
def hiddenScript : List (Call Volume) :=
  [.startAt besideShadow, .startAt behindShadow,
    .startAt (behindShadow.put ⟨"/a.ts"⟩ bareScript.toUTF8)]

theorem snapshots_hiddenScript :
    (∀ s ∈ snapshots (create .aot) hiddenScript,
      ((∀ f ∈ s.program.members, f.text ∈ ["", bareScript, annotatedScript, shadowText]) ∧
        s.options = Options.ofConfigPath ⟨"/k"⟩ ∧
        ∀ id ∈ s.program.modules.keys, s.program.exportedNames id = OrdMap.empty) ∧
      ∀ m ∈ s.program.modules.values, m.resources = []) ∧
    ∃ s ∈ (run (create .aot) hiddenScript).snapshot, ∃ f ∈ s.program.members, f.kind = .script ∧
      s.findings.get? f.id ≠ some ⟨Check.semantic s.program f.id,
        Check.templates s.program f.id s.options.strictTemplates⟩ := by
  have hplain : ∀ fs ∈ [besideShadow, behindShadow, behindShadow.put ⟨"/a.ts"⟩ bareScript.toUTF8],
      Plain fs false [⟨"/a.ts"⟩, ⟨"/a.typecheck.ts"⟩] := by decide +kernel
  have hbeside := hplain besideShadow (by simp)
  have hbehind := hplain behindShadow (by simp)
  have hagain := hplain (behindShadow.put ⟨"/a.ts"⟩ bareScript.toUTF8) (by simp)
  rw [hiddenScript, Call.startAt, Call.startAt, Call.startAt,
    hbeside.run_cons, hbehind.run_cons, hagain.run_cons, run_nil,
    hbeside.snapshots_cons, hbehind.snapshots_cons, hagain.snapshots_cons, snapshots_nil]
  decide +kernel

/-- A script that was hidden by a shadow can keep findings that no check gives. -/
theorem findings_stale_behind_shadow :
    (∀ fs configPath host change,
      Call.start fs configPath host change ∈ hiddenScript → FileSystem.Truthful fs) ∧
    DigestsTell (snapshots (create .aot) hiddenScript) ∧
    TemplatesNamed (snapshots (create .aot) hiddenScript) ∧
    ∃ s, (run (create .aot) hiddenScript).snapshot = some s ∧ ∃ f ∈ s.program.members,
      f.kind = .script ∧
      s.findings.get? f.id ≠ some ⟨Check.semantic s.program f.id,
        Check.templates s.program f.id s.options.strictTemplates⟩ := by
  obtain ⟨hall, hstale⟩ := snapshots_hiddenScript
  refine ⟨?_, ?_, ?_, hstale⟩
  · intro fs configPath host change hcall
    simp only [hiddenScript, List.mem_cons, List.not_mem_nil, or_false] at hcall
    rcases hcall with hcall | hcall | hcall
    · exact truthful_startAt rfl rfl (by decide) hcall
    · exact truthful_startAt rfl rfl (by decide) hcall
    · exact truthful_startAt rfl rfl (by decide) hcall
  · exact digestsTell_of_texts (fun t ht => (hall t ht).1) (by decide)
  · intro t ht m hm ref href
    rw [(hall t ht).2 m hm] at href
    cases href

end Engine

end Recompile
