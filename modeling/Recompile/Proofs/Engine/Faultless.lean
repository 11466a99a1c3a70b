import Recompile.Proofs.Engine.Findings
import Recompile.Proofs.Engine.Progress
import Recompile.Proofs.Data.Closure
import Recompile.Proofs.Program.Aliases
import Recompile.Proofs.Program.Rounds
import Recompile.Proofs.Program.Spans
import Recompile.Proofs.Program.StarExports
import Recompile.Proofs.Script.Bytes
import Recompile.Proofs.Script.Outlining
import Recompile.Proofs.Template.Bytes

/-!
No input leads to a fault. Texts are read without one, whatever they hold; every loop over a program
comes to its end; and whatever an engine was asked before, its findings have places, its outputs fit
the texts they are made from, and a start fails only when a file cannot be read.
-/

namespace Recompile

/-- A text that is read without a fault by its bytes: as a script, and as a template. -/
structure Text.Readable (source : String) : Prop where
  scan : ∀ file, Script.scanBytes file source.toList = .ok ((Script.scan file source).map Script.Token.mark)
  outline : ∀ file, ∃ v, Script.View.ofTokens file source.toList (Script.scan file source) = .ok v ∧
    v.outline = .ok (Script.analyze file (Script.scan file source))
  template : Template.Bytes.analyze source.toList = .ok (Template.analyze source)

theorem Text.readable (source : String) : Text.Readable source where
  scan file := Script.scanBytes_eq file source
  outline file := by
    obtain ⟨v, hv, hstream, hfaithful⟩ := (Script.tiles_scan file source).faithful file
    refine ⟨v, hv, ?_⟩
    rw [hfaithful.outline, hstream]
    rfl
  template := Template.Bytes.analyze_eq source

namespace Findings

def Ordered (c : Findings) : Prop :=
  ∀ id found, c.get? id = some found → AllOrdered (found.semantic ++ found.template)

variable {p : Program} {c : Findings}

theorem ordered_ofFile (h : ∀ {id m}, p.module? id = some m → m.Ordered) (full strict : Bool)
    (f : SourceFile) : AllOrdered ((FileFindings.ofFile p full strict f).semantic ++
      (FileFindings.ofFile p full strict f).template) :=
  (Check.ordered_semantic h f.id).append
    (.ite (fun _ => Check.ordered_templates h f.id strict) fun _ => allOrdered_nil)

theorem Ordered.update (hc : c.Ordered) (h : ∀ {id m}, p.module? id = some m → m.Ordered)
    (full strict : Bool) (affected : OrdSet FileId) : (c.update p full strict affected).Ordered := by
  have hretain : (c.retain p.contains).Ordered := by
    intro id found hfound
    rw [get?_retain] at hfound
    split at hfound
    · exact hc id found hfound
    · cases hfound
  have hstep : ∀ {c : Findings} (f : SourceFile), c.Ordered →
      (refresh p full strict affected c f).Ordered := by
    intro c f hc
    unfold refresh
    split
    · exact hc
    · intro id found hfound
      rw [get?_insert] at hfound
      split at hfound
      · cases hfound
        exact ordered_ofFile h full strict f
      · exact hc id found hfound
  have hall : ∀ (fs : List SourceFile) {c : Findings}, c.Ordered →
      (fs.foldl (refresh p full strict affected) c).Ordered := by
    intro fs
    induction fs with
    | nil => exact id
    | cons f fs ih => exact fun hc => ih (hstep f hc)
  exact hall p.checked hretain

end Findings

theorem Project.ordered_overrides (s : Settings) : AllOrdered (overrides s) := by
  have hone : ∀ {P : Prop} [Decidable P] {option : String},
      AllOrdered (if P then [overridden option] else []) := by
    intro P _ option
    refine .ite (fun _ d hd => ?_) fun _ => allOrdered_nil
    rw [List.mem_singleton.mp hd]
    exact Diagnostic.ordered_warning Span.ordered_none
  exact ((hone.append hone).append hone).append hone

theorem Configuration.ordered_parse {content : String} {path : Path} {config : Configuration}
    (h : parse content path = .ok config) : AllOrdered config.warnings := by
  unfold parse at h
  split at h
  · cases h
  · rename_i file _
    cases hcheck : Project.check file with
    | error e =>
      rw [hcheck] at h
      cases h
    | ok files =>
      rw [hcheck] at h
      cases h
      exact Project.ordered_overrides file.settings

namespace Ledger

variable {output : FileId → Except CutError (Option Emitted)}

theorem emitFiles_succeeds (h : ∀ id, ∃ made, output id = .ok made) (ids : List FileId) :
    ∀ l : Ledger, ∃ emitted, (emitFiles output l ids).1 = .ok emitted := by
  induction ids with
  | nil => exact fun _ => ⟨[], rfl⟩
  | cons id rest ih =>
    intro l
    obtain ⟨made, hmade⟩ := h id
    obtain ⟨more, hmore⟩ := ih (l.complete (.file id))
    rw [emitFiles, hmade]
    dsimp only
    rw [hmore]
    exact ⟨_, rfl⟩

theorem emitStale_succeeds (h : ∀ id, ∃ made, output id = .ok made) (fingerprint? : FileId → Option Digest)
    (ids : List FileId) : ∀ l : Ledger, ∃ emitted, (emitStale output fingerprint? l ids).1 = .ok emitted := by
  induction ids with
  | nil => exact fun _ => ⟨[], rfl⟩
  | cons id rest ih =>
    intro l
    rw [emitStale]
    split
    · exact ih l
    · rename_i d _
      split
      · exact ih l
      · obtain ⟨made, hmade⟩ := h id
        obtain ⟨more, hmore⟩ := ih (l.record id d)
        rw [hmade]
        dsimp only
        rw [hmore]
        exact ⟨_, rfl⟩

end Ledger

namespace Snapshot

/-- A snapshot of which nothing that is asked meets a fault. -/
structure Faultless (s : Snapshot) : Prop where
  /-- The names that modules export are collected to the end. -/
  exported : ∀ id, Closure.Closed s.program.starTargets
    (Closure.closure s.program.starTargets s.program.modules.size (s.program.starTargets id))
  /-- The files that a change reaches are collected to the end. -/
  reached : ∀ resigned, Closure.Closed (Ledger.passers s.program)
    (Closure.closure (Ledger.passers s.program) s.program.modules.size resigned)
  /-- Every finding has a message, with places found by the starts of lines. -/
  message : ∀ d ∈ s.diagnostics, ∃ m, Message.atDiagnostic s.program.files d = .ok m ∧
    Message.ofDiagnostic s.program.files d = .ok m
  /-- Every output with its resources written into it is made. -/
  inlined : ∀ id, ∃ made, Emit.inlined s.program s.styles id = .ok made
  /-- Every output that imports its resources is made. -/
  deferred : ∀ id, ∃ made, Emit.deferred s.program id = .ok made

variable {s : Snapshot}

theorem ordered_diagnostics (hwarnings : AllOrdered s.warnings) (hfindings : s.findings.Ordered)
    (hmodules : ∀ {id m}, s.program.module? id = some m → m.Ordered) : AllOrdered s.diagnostics := by
  refine ((hwarnings.append s.options.ordered_diagnostics).append
    (Check.ordered_global _ _ _)).append (allOrdered_flatMap fun f _ => AllOrdered.append ?_ ?_)
  · split
    · rename_i m hm
      exact (hmodules hm).faults
    · exact allOrdered_nil
  · split
    · rename_i found hfound
      exact hfindings f.id found hfound
    · exact allOrdered_nil

theorem Faultless.messages_succeed (h : s.Faultless) : ∃ all, s.messages = .ok all := by
  have hmap : ∀ {ds : List Diagnostic}, (∀ d ∈ ds, d ∈ s.diagnostics) → ∃ found, ds.mapM (fun d =>
      (Message.ofDiagnostic s.program.files d).map fun m => (d.severity, m)) = .ok found := by
    intro ds
    induction ds with
    | nil => exact fun _ => ⟨[], rfl⟩
    | cons d ds ih =>
      intro hsub
      obtain ⟨m, -, hm⟩ := h.message d (hsub d List.mem_cons_self)
      obtain ⟨found, hfound⟩ := ih fun x hx => hsub x (List.mem_cons_of_mem d hx)
      refine ⟨(d.severity, m) :: found, ?_⟩
      rw [List.mapM_cons, hm, hfound]
      rfl
  obtain ⟨found, hfound⟩ := hmap fun d hd => hd
  unfold messages
  rw [hfound]
  exact ⟨_, rfl⟩

theorem Faultless.emitFiles_succeeds (h : s.Faultless) (strategy : Strategy) :
    ∃ emitted, (s.emitFiles strategy).1 = .ok emitted := by
  cases strategy with
  | jit => exact Ledger.emitFiles_succeeds h.deferred _ _
  | aot =>
    show ∃ emitted, s.emitInlined.1 = .ok emitted
    unfold emitInlined
    dsimp only
    obtain ⟨emitted, hemitted⟩ := Ledger.emitFiles_succeeds h.inlined (OrdSet.toList s.ledger.pending) s.ledger
    cases hpending : s.ledger.emitPending (Emit.inlined s.program s.styles) with
    | mk result l =>
      rw [Ledger.emitPending] at hpending
      rw [hpending] at hemitted
      cases hemitted
      dsimp only
      obtain ⟨more, hmore⟩ := Ledger.emitStale_succeeds h.inlined
        (fun id => Emit.fingerprint? s.program id s.optionsDigest)
        ((s.program.members.filter fun f => f.kind = .script &&
          !(emitted.map (·.file)).contains f.id).map (·.id))
        (l.recordAll (fun id => Emit.fingerprint? s.program id s.optionsDigest) (emitted.map (·.file)))
      rw [hmore]
      exact ⟨_, rfl⟩

end Snapshot

namespace Engine

variable {σ : Type} [FileSystem σ]

def Ordered (e : Engine) : Prop :=
  ∀ s, e.snapshot = some s → AllOrdered s.warnings ∧ s.findings.Ordered

theorem ordered_oldFindings {e : Engine} (h : e.Ordered) : e.oldFindings.Ordered := by
  unfold oldFindings
  split
  · rename_i s hs
    exact (h s hs).2
  · intro id found hfound
    cases hfound

theorem warnings_startWith {e e' : Engine} {fs : σ} {host : Host} {config : Configuration}
    {report : StartReport} {t : Snapshot} (h : e.startWith fs host config = (.ok report, e'))
    (ht : e'.snapshot = some t) : t.warnings = config.warnings := by
  unfold startWith at h
  dsimp only at h
  split at h
  · cases h
  · split at h
    · cases h
    · rename_i s affected hsnap
      cases h
      cases ht
      unfold snapshotOf at hsnap
      dsimp only at hsnap
      split at hsnap
      · cases hsnap
      · cases hsnap
        rfl

theorem ordered_configAt {fs : σ} {configPath : Path} {change : Options → Options}
    {config : Configuration} (h : configAt fs configPath change = .ok config) :
    AllOrdered config.warnings := by
  unfold configAt Configuration.load at h
  split at h
  · cases h
  · rename_i content _
    cases hparse : Configuration.parse content configPath with
    | error e =>
      rw [hparse] at h
      cases h
    | ok parsed =>
      rw [hparse] at h
      cases h
      exact show AllOrdered parsed.warnings from Configuration.ordered_parse hparse

theorem ordered_after {e : Engine} (hd : e.registry.Distinct) (h : e.Ordered) (call : Call σ) :
    (e.after call).Ordered := by
  cases call with
  | emit fs =>
    show (e.emit fs).2.1.Ordered
    rcases Option.eq_none_or_eq_some e.snapshot with hs | ⟨s, hs⟩
    · rw [emit_of_none hs]
      exact h
    · obtain ⟨l, -, heq⟩ := emit_frame hs fs
      rw [heq]
      intro t ht
      cases ht
      exact h s hs
  | start fs configPath host change =>
    show (e.start fs configPath host change).2.Ordered
    rcases start_cases hd fs configPath host change with
      ⟨err, r, heq, -, -⟩ | ⟨config, b, t, r, report, heq, hconfig, hstart⟩
    · rw [heq]
      exact h
    · have hwarnings : t.warnings = config.warnings := by
        rw [start_eq, hconfig] at heq
        exact warnings_startWith heq rfl
      rw [heq]
      intro u hu
      cases hu
      refine ⟨hwarnings ▸ ordered_configAt hconfig, ?_⟩
      rw [hstart.findings]
      exact Findings.Ordered.update (ordered_oldFindings h) hstart.built.ordered_module _ _ _

theorem ordered_run (strategy : Strategy) (calls : List (Call σ)) :
    (run (create strategy) calls).Ordered := by
  refine run_induction (motive := fun _ e => e.Ordered) (fun s hs => by cases hs) ?_ calls
  exact fun calls call ih => ordered_after (distinct_run strategy calls) ih call

/-- The snapshot of a run is faultless. -/
theorem faultless_run (strategy : Strategy) (calls : List (Call σ)) {s : Snapshot}
    (hs : (run (create strategy) calls).snapshot = some s) : s.Faultless := by
  have hhistory := history_run (P := fun _ _ => True) strategy calls fun _ _ _ _ _ => trivial
  obtain ⟨t, ht, hsame, -⟩ := hhistory.current s hs
  obtain ⟨c, b, r, hbuilt, -⟩ := hhistory.known t ht
  have hprogram : s.program = t.program := by rw [hsame]
  rw [← hprogram] at hbuilt
  obtain ⟨hwarnings, hfindings⟩ := ordered_run strategy calls s hs
  have hordered := Snapshot.ordered_diagnostics hwarnings hfindings hbuilt.ordered_module
  exact {
    exported := s.program.closed_starTargets
    reached := s.program.closed_passers
    message := fun d hd => Message.atDiagnostic_eq _ (hordered d hd)
    inlined := fun id => Emit.inlined_ok s.styles hbuilt.placed
    deferred := fun id => Emit.deferred_ok hbuilt.placed }

end Engine

theorem Stylesheets.takeAll_error {σ : Type} [FileSystem σ] {host : Host} {fs : σ} {old : Stylesheets}
    {e : HostError} (sheets : List Sheet) : ∀ {new : OrdMap StyleKey ProcessedSheet} {count : Nat},
      takeAll host fs old new count sheets = .error e → ∃ p, host.read fs p = .error e := by
  induction sheets with
  | nil => exact fun h => by cases h
  | cons sheet rest ih =>
    intro new count h
    rw [takeAll] at h
    split at h
    · exact ih h
    · split at h
      · exact ih h
      · split at h
        · rename_i fault hprocess
          cases h
          cases sheet with
          | inline script component order text => cases hprocess
          | file style =>
            rw [Sheet.process, Host.resource] at hprocess
            split at hprocess
            · rename_i fault hread
              cases hprocess
              exact ⟨style.path, hread⟩
            · cases hprocess
            · split at hprocess <;> cases hprocess
        · exact ih h

namespace Engine

variable {σ : Type} [FileSystem σ]

/-- A start comes to its end, and fails only when the project file gives no options or a file
cannot be read. -/
theorem start_error {e : Engine} (hd : e.registry.Distinct) {fs : σ} (hfinite : FileSystem.Finite fs)
    {configPath : Path} {host : Host} {change : Options → Options} {err : EngineError}
    (h : (e.start fs configPath host change).1 = .error err) :
    (∃ fault, configAt fs configPath change = .error fault ∧ err = .config fault) ∨
      ∃ fault p, host.read fs p = .error fault ∧ err = .host fault := by
  rw [start_eq] at h
  cases hconfig : configAt fs configPath change with
  | error fault =>
    rw [hconfig] at h
    cases h
    exact .inl ⟨fault, rfl, rfl⟩
  | ok config =>
    rw [hconfig] at h
    refine .inr ?_
    have hprior := (registry_priorLedger hd fs host config.options).2
    dsimp only at h
    unfold startWith at h
    dsimp only at h
    split at h
    · rename_i fault r hbuild
      cases h
      obtain ⟨p, hp⟩ := Program.build_error hfinite hprior hbuild
      exact ⟨fault, p, hp, rfl⟩
    · split at h
      · rename_i fault hsnap
        cases h
        unfold snapshotOf at hsnap
        dsimp only at hsnap
        split at hsnap
        · rename_i fault' hrefreshed
          cases hsnap
          split at hrefreshed
          · rw [Stylesheets.refresh] at hrefreshed
            split at hrefreshed
            · rename_i fault'' htake
              cases hrefreshed
              obtain ⟨p, hp⟩ := Stylesheets.takeAll_error _ htake
              exact ⟨_, p, hp, rfl⟩
            · cases hrefreshed
          · cases hrefreshed
        · cases hsnap
      · cases h

theorem messages_error (strategy : Strategy) (calls : List (Call σ)) {err : EngineError}
    (h : (run (create strategy) calls).messages = .error err) :
    (run (create strategy) calls).snapshot = none ∧ err = .uninitialized := by
  unfold messages at h
  split at h
  · rename_i hs
    cases h
    exact ⟨hs, rfl⟩
  · rename_i s hs
    obtain ⟨all, hall⟩ := (faultless_run strategy calls hs).messages_succeed
    rw [hall] at h
    cases h

theorem persist_error {s : Snapshot} {registry : Registry} {fs fs' : σ} {fault : HostError}
    (h : s.persist registry fs = (.error fault, fs')) :
    ∃ p text, (Host.write fs p text).1 = .error fault := by
  unfold Snapshot.persist at h
  split at h
  · cases h
  · rename_i path _
    split at h
    · dsimp only at h
      split at h
      · rename_i fault' fs'' hwrite
        cases h
        exact ⟨path, _, congrArg Prod.fst hwrite⟩
      · cases h
    · cases h

theorem emit_error (strategy : Strategy) (calls : List (Call σ)) {fs : σ} {err : EngineError}
    (h : ((run (create strategy) calls).emit fs).1 = .error err) :
    (run (create strategy) calls).snapshot = none ∧ err = .uninitialized ∨
      ∃ fault p text, (Host.write fs p text).1 = .error fault ∧ err = .host fault := by
  rcases Option.eq_none_or_eq_some (run (create strategy) calls).snapshot with hs | ⟨s, hs⟩
  · rw [emit_of_none hs] at h
    cases h
    exact .inl ⟨hs, rfl⟩
  · refine .inr ?_
    obtain ⟨emitted, hemitted⟩ := (faultless_run strategy calls hs).emitFiles_succeeds
      (run (create strategy) calls).strategy
    rw [emit_eq hs, hemitted] at h
    dsimp only at h
    split at h
    · rename_i fault fs' hpersist
      cases h
      obtain ⟨p, text, hwrite⟩ := persist_error hpersist
      exact ⟨fault, p, text, hwrite, rfl⟩
    · cases h

/-- Nothing that is read and nothing that is asked leads to a fault. All texts are read and all
aliases looked up without a step that goes wrong; in the snapshot of a run every loop ends, every
finding has its message and every output is made; and what is asked of the engine next fails only
when there is no snapshot, the project file gives no options, or a file cannot be read or written. -/
theorem meets_no_fault (strategy : Strategy) (calls : List (Call σ)) (fs : σ)
    (hfinite : FileSystem.Finite fs) :
    (∀ source, Text.Readable source) ∧
    (∀ (aliases : OrdMap String (List String)) specifier,
      Specifier.aliasTargetsFrom specifier none aliases.entries =
        .ok (Specifier.aliasTargets? aliases specifier)) ∧
    (∀ s, (run (create strategy) calls).snapshot = some s → s.Faultless) ∧
    (∀ configPath host change err,
      ((run (create strategy) calls).start fs configPath host change).1 = .error err →
        (∃ fault, configAt fs configPath change = .error fault ∧ err = .config fault) ∨
          ∃ fault p, host.read fs p = .error fault ∧ err = .host fault) ∧
    (∀ err, (run (create strategy) calls).messages = .error err →
      (run (create strategy) calls).snapshot = none ∧ err = .uninitialized) ∧
    ∀ err, ((run (create strategy) calls).emit fs).1 = .error err →
      (run (create strategy) calls).snapshot = none ∧ err = .uninitialized ∨
        ∃ fault p text, (Host.write fs p text).1 = .error fault ∧ err = .host fault :=
  ⟨Text.readable, Specifier.aliasTargets_eq, fun _ hs => faultless_run strategy calls hs,
    fun _ _ _ _ h => start_error (distinct_run strategy calls) hfinite h,
    fun _ h => messages_error strategy calls h, fun _ h => emit_error strategy calls h⟩

set_option maxRecDepth 100000

/-- A script that breaks off within the template of a component. -/
def brokenOff : Volume := .ofTexts [(⟨"/k"⟩, "files=['a.ts']"),
  (⟨"/a.ts"⟩, "@Component(\x7btemplate: `<p [a]=\"é")]

theorem meets_no_fault_brokenOff : ∃ s, (run (create .aot) [.startAt brokenOff]).snapshot = some s ∧
    s.diagnostics.length = 3 ∧ s.Faultless ∧
    ∃ emitted, ((run (create .aot) [.startAt brokenOff]).emit brokenOff).1 = .ok emitted := by
  have hresult : ((run (create .aot) [.startAt brokenOff]).snapshot.map (·.diagnostics.length)) =
      some 3 := by decide +kernel
  obtain ⟨s, hs, hlength⟩ := Option.map_eq_some_iff.mp hresult
  obtain ⟨-, -, hfaultless, -, -, hemit⟩ :=
    meets_no_fault .aot [.startAt brokenOff] brokenOff (Volume.finite brokenOff)
  refine ⟨s, hs, hlength, hfaultless s hs, ?_⟩
  cases hmade : ((run (create .aot) [.startAt brokenOff]).emit brokenOff).1 with
  | ok emitted => exact ⟨emitted, rfl⟩
  | error err =>
    rcases hemit err hmade with ⟨hnone, -⟩ | ⟨fault, p, text, hwrite, -⟩
    · rw [hnone] at hs
      cases hs
    · have hok : (Host.write brokenOff p text).1 = .ok () := rfl
      rw [hok] at hwrite
      cases hwrite

end Engine

end Recompile
