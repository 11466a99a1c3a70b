import Recompile.Engine.Emission
import Recompile.Proofs.Ledger.Named
import Recompile.Proofs.Program.Shadow

/-!
Runs of an engine: starts and emissions in any order. Whatever the calls, identities stay, and the
snapshot is that of the last start that did not fail, but for what emissions note in its ledger.
-/

namespace Recompile

/-- What can be asked of an engine, each time with the file system as it is then. -/
inductive Call (σ : Type) where
  | start (fs : σ) (configPath : Path) (host : Host) (change : Options → Options)
  | emit (fs : σ)

def Call.startAt {σ : Type} (fs : σ) : Call σ := .start fs ⟨"/k"⟩ ⟨OrdMap.empty, .passthrough⟩ id

theorem Call.eq_startAt {σ : Type} {fs fs' : σ} {configPath : Path} {host : Host}
    {change : Options → Options} (h : Call.start fs configPath host change = startAt fs') :
    fs = fs' ∧ configPath = ⟨"/k"⟩ ∧ host = ⟨OrdMap.empty, .passthrough⟩ ∧ change = id := by
  cases h
  exact ⟨rfl, rfl, rfl, rfl⟩

namespace Engine

variable {σ : Type} [FileSystem σ]

theorem registry_priorLedger {e : Engine} (h : e.registry.Distinct) (fs : σ) (host : Host)
    (options : Options) :
    e.registry.Within (e.priorLedger fs host options).2 ∧
      (e.priorLedger fs host options).2.Distinct := by
  unfold priorLedger
  split
  · exact ⟨.refl _, h⟩
  · split
    · exact ⟨.refl _, h⟩
    · exact BuildInfo.registry_toLedger _ _ h

def oldFindings (e : Engine) : Findings :=
  match e.snapshot with
  | some s => s.findings
  | none => Findings.empty

def oldStyles (e : Engine) : Stylesheets :=
  match e.snapshot with
  | some s => s.styles
  | none => Stylesheets.empty

def contextOf (e : Engine) (fs : σ) (host : Host) (config : Configuration) : BuildContext σ :=
  ⟨config.options, host, fs, e.strategy.isFull, OrdSet.ofList (config.roots.map Path.normalize)⟩

/-- How a start that does not fail gets from an engine to a snapshot. -/
structure Started (e : Engine) (fs : σ) (host : Host) (config : Configuration) (s : BuildState)
    (t : Snapshot) (r : Registry) : Prop where
  built : Program.Built (contextOf e fs host config) s t.program r
  within : (e.priorLedger fs host config.options).2.Within s.registry
  options : t.options = config.options
  optionsDigest : t.optionsDigest = config.options.fingerprint
  ledger : t.ledger = (Ledger.update t.program t.optionsDigest
    (e.priorLedger fs host config.options).1).1
  findings : t.findings = e.oldFindings.update t.program e.strategy.isFull
    t.options.strictTemplates (reported t.program (Ledger.update t.program t.optionsDigest
      (e.priorLedger fs host config.options).1).2)
  styles : (if e.strategy.isFull then e.oldStyles.refresh t.program host fs
    else .ok (e.oldStyles, 0)).map (·.1) = .ok t.styles

theorem snapshotOf_eq (e : Engine) (fs : σ) (host : Host) (config : Configuration)
    (prior : Option Ledger) (p : Program) :
    e.snapshotOf fs host config prior p =
      (if e.strategy.isFull then e.oldStyles.refresh p host fs else .ok (e.oldStyles, 0)).map fun styles =>
        let updated := Ledger.update p config.options.fingerprint prior
        let affected := reported p updated.2
        (⟨config.options, config.options.fingerprint, config.roots, config.warnings, p, updated.1,
          e.oldFindings.update p e.strategy.isFull config.options.strictTemplates affected, styles.1⟩,
          affected) := by
  unfold snapshotOf
  dsimp only
  split
  · rename_i err hrefresh
    have herror : (if e.strategy.isFull then e.oldStyles.refresh p host fs else .ok (e.oldStyles, 0)) =
        .error err := hrefresh
    rw [herror]
    rfl
  · rename_i styles n hrefresh
    have hok : (if e.strategy.isFull then e.oldStyles.refresh p host fs else .ok (e.oldStyles, 0)) =
        .ok (styles, n) := hrefresh
    rw [hok]
    rfl

theorem snapshotOf_fields {e : Engine} {fs : σ} {host : Host} {config : Configuration}
    {prior : Option Ledger} {p : Program} {t : Snapshot} {affected : OrdSet FileId}
    (h : e.snapshotOf fs host config prior p = .ok (t, affected)) :
    ∃ n, (if e.strategy.isFull then e.oldStyles.refresh p host fs else .ok (e.oldStyles, 0)) =
        .ok (t.styles, n) ∧
      affected = reported p (Ledger.update p config.options.fingerprint prior).2 ∧
      t = ⟨config.options, config.options.fingerprint, config.roots, config.warnings, p,
        (Ledger.update p config.options.fingerprint prior).1,
        e.oldFindings.update p e.strategy.isFull config.options.strictTemplates affected, t.styles⟩ := by
  rw [snapshotOf_eq] at h
  cases hrefresh : (if e.strategy.isFull then e.oldStyles.refresh p host fs else .ok (e.oldStyles, 0)) with
  | error err =>
    rw [hrefresh] at h
    cases h
  | ok result =>
    rw [hrefresh] at h
    cases h
    exact ⟨result.2, rfl, rfl, rfl⟩

theorem snapshotOf_ok {e : Engine} {fs : σ} {host : Host} {config : Configuration}
    {prior : Option Ledger} {p : Program} {t : Snapshot} {affected : OrdSet FileId}
    (h : e.snapshotOf fs host config prior p = .ok (t, affected)) :
    t.program = p ∧ t.options = config.options ∧ t.optionsDigest = config.options.fingerprint ∧
      t.ledger = (Ledger.update p t.optionsDigest prior).1 ∧
      affected = reported p (Ledger.update p t.optionsDigest prior).2 ∧
      t.findings = e.oldFindings.update p e.strategy.isFull t.options.strictTemplates affected ∧
      (if e.strategy.isFull then e.oldStyles.refresh p host fs
        else .ok (e.oldStyles, 0)).map (·.1) = .ok t.styles := by
  obtain ⟨n, hstyles, rfl, ht⟩ := snapshotOf_fields h
  rw [hstyles, ht]
  exact ⟨rfl, rfl, rfl, rfl, rfl, rfl, rfl⟩

def outcomeOf (e : Engine) (fs : σ) (host : Host) (config : Configuration) : BuildState :=
  Program.outcome (contextOf e fs host config) (e.priorLedger fs host config.options).2
    (config.roots.map Path.normalize)

theorem startWith_outcome {e : Engine} (hd : e.registry.Distinct) (fs : σ) (host : Host)
    (config : Configuration) :
    (∃ err r, e.startWith fs host config = (.error err, { e with registry := r }) ∧
      e.registry.Within r ∧ r.Distinct) ∨
    ∃ t r, e.startWith fs host config =
        (.ok ⟨pathsOf t.program (reported t.program (Ledger.update t.program t.optionsDigest
          (e.priorLedger fs host config.options).1).2), t.options, t.program.referenced⟩,
          ⟨e.strategy, r, some t⟩) ∧ Started e fs host config (outcomeOf e fs host config) t r := by
  obtain ⟨hw, hd'⟩ := registry_priorLedger hd fs host config.options
  obtain ⟨hws, hsound, hbuild⟩ := Program.build_outcome config.options host fs e.strategy.isFull
    config.roots hd'
  unfold startWith
  dsimp only
  rcases hbuild with ⟨err, -, hbuild⟩ | ⟨-, p, r, hbuild, hbuilt⟩
  · rw [hbuild]
    exact .inl ⟨_, _, rfl, hw.trans hws, hsound.distinct⟩
  · rw [hbuild]
    dsimp only
    have hwr : e.registry.Within r := (hw.trans hws).trans hbuilt.shadows.within
    cases hsnap : snapshotOf { e with registry := r } fs host config
        (e.priorLedger fs host config.options).1 p with
    | error err => exact .inl ⟨_, _, rfl, hwr, hbuilt.shadows.distinct⟩
    | ok result =>
      obtain ⟨t, affected⟩ := result
      obtain ⟨rfl, ho, hg, hl, ha, hf, hst⟩ := snapshotOf_ok hsnap
      subst ha
      exact .inr ⟨t, r, rfl, hbuilt, hws, ho, hg, hl, hf, hst⟩

def configAt (fs : σ) (configPath : Path) (change : Options → Options) :
    Except ConfigError Configuration :=
  (Configuration.load (fun p => match FileSystem.read fs p with
    | .ok text => .ok text
    | .error fault => .error fault.reason) configPath).map
      fun config => { config with options := change config.options }

theorem start_eq (e : Engine) (fs : σ) (configPath : Path) (host : Host)
    (change : Options → Options) :
    e.start fs configPath host change =
      match configAt fs configPath change with
      | .error err => (.error (.config err), e)
      | .ok config => e.startWith fs host config := by
  unfold start configAt
  dsimp only
  cases Configuration.load (fun p => match FileSystem.read fs p with
    | .ok text => .ok text
    | .error fault => .error fault.reason) configPath <;> rfl

theorem start_outcome {e : Engine} (hd : e.registry.Distinct) (fs : σ) (configPath : Path)
    (host : Host) (change : Options → Options) :
    (∃ err r, e.start fs configPath host change = (.error err, { e with registry := r }) ∧
      e.registry.Within r ∧ r.Distinct) ∨
    ∃ config t r report, e.start fs configPath host change = (.ok report, ⟨e.strategy, r, some t⟩) ∧
      configAt fs configPath change = .ok config ∧
      Started e fs host config (outcomeOf e fs host config) t r := by
  rw [start_eq]
  cases hconfig : configAt fs configPath change with
  | error err => exact .inl ⟨_, e.registry, rfl, .refl _, hd⟩
  | ok config =>
    rcases startWith_outcome hd fs host config with ⟨err, r, heq, hw, hdr⟩ | ⟨t, r, heq, hstart⟩
    · exact .inl ⟨err, r, heq, hw, hdr⟩
    · exact .inr ⟨config, t, r, _, heq, rfl, hstart⟩

theorem start_cases {e : Engine} (hd : e.registry.Distinct) (fs : σ) (configPath : Path)
    (host : Host) (change : Options → Options) :
    (∃ err r, e.start fs configPath host change = (.error err, { e with registry := r }) ∧
      e.registry.Within r ∧ r.Distinct) ∨
    ∃ config s t r report, e.start fs configPath host change = (.ok report, ⟨e.strategy, r, some t⟩) ∧
      configAt fs configPath change = .ok config ∧ Started e fs host config s t r :=
  (start_outcome hd fs configPath host change).imp_right fun ⟨config, t, r, report, h⟩ =>
    ⟨config, _, t, r, report, h⟩

end Engine

namespace Ledger

def Agrees (l k : Ledger) : Prop := l.files = k.files ∧ l.options = k.options

theorem Agrees.refl (l : Ledger) : l.Agrees l := ⟨rfl, rfl⟩

theorem Agrees.trans {l k j : Ledger} (h : l.Agrees k) (h' : k.Agrees j) : l.Agrees j :=
  ⟨h.1.trans h'.1, h.2.trans h'.2⟩

theorem agrees_complete (l : Ledger) (target : EmitTarget) : (l.complete target).Agrees l := by
  cases target with
  | file id =>
    unfold complete
    dsimp only
    split <;> exact ⟨rfl, rfl⟩
  | buildInfo => exact ⟨rfl, rfl⟩

theorem agrees_emitFiles (output : FileId → Except CutError (Option Emitted)) (ids : List FileId) :
    ∀ l : Ledger, (emitFiles output l ids).2.Agrees l := by
  induction ids with
  | nil => exact Agrees.refl
  | cons id rest ih =>
    intro l
    unfold emitFiles
    split
    · exact .refl l
    · exact (ih _).trans (agrees_complete l _)

theorem agrees_recordAll (fingerprint? : FileId → Option Digest) (ids : List FileId) :
    ∀ l : Ledger, (recordAll fingerprint? l ids).Agrees l := by
  induction ids with
  | nil => exact Agrees.refl
  | cons id rest ih =>
    intro l
    refine (ih _).trans ?_
    dsimp only
    split <;> exact ⟨rfl, rfl⟩

theorem agrees_emitStale (output : FileId → Except CutError (Option Emitted))
    (fingerprint? : FileId → Option Digest) (ids : List FileId) :
    ∀ l : Ledger, (emitStale output fingerprint? l ids).2.Agrees l := by
  induction ids with
  | nil => exact Agrees.refl
  | cons id rest ih =>
    intro l
    unfold emitStale
    split
    · exact ih l
    · split
      · exact ih l
      · split
        · exact .refl l
        · exact (ih _).trans ⟨rfl, rfl⟩

end Ledger

theorem Snapshot.agrees_emitFiles (strategy : Strategy) (s : Snapshot) :
    (s.emitFiles strategy).2.Agrees s.ledger := by
  cases strategy with
  | jit => exact Ledger.agrees_emitFiles _ _ _
  | aot =>
    show s.emitInlined.2.Agrees s.ledger
    have hpending : (s.ledger.emitPending (Emit.inlined s.program s.styles)).2.Agrees s.ledger :=
      Ledger.agrees_emitFiles _ _ _
    unfold emitInlined
    dsimp only
    cases h : s.ledger.emitPending (Emit.inlined s.program s.styles) with
    | mk emitted l =>
      rw [h] at hpending
      cases emitted with
      | error e => exact hpending
      | ok emitted =>
        exact ((Ledger.agrees_emitStale _ _ _ _).trans (Ledger.agrees_recordAll _ _ _)).trans hpending

theorem Snapshot.persist_cases {σ : Type} [FileSystem σ] (s : Snapshot) (registry : Registry)
    (fs : σ) :
    (∃ err fs', s.persist registry fs = (.error err, fs')) ∨
      ∃ l fs', l.Agrees s.ledger ∧ s.persist registry fs = (.ok { s with ledger := l }, fs') := by
  unfold persist
  split
  · exact .inr ⟨s.ledger, fs, .refl _, rfl⟩
  · split
    · dsimp only
      split
      · exact .inl ⟨_, _, rfl⟩
      · exact .inr ⟨_, _, Ledger.agrees_complete _ _, rfl⟩
    · exact .inr ⟨s.ledger, fs, .refl _, rfl⟩

namespace Engine

variable {σ : Type} [FileSystem σ]

theorem emit_frame {e : Engine} {s : Snapshot} (hs : e.snapshot = some s) (fs : σ) :
    ∃ l : Ledger, l.Agrees s.ledger ∧
      (e.emit fs).2.1 = { e with snapshot := some { s with ledger := l } } := by
  have hagrees := Snapshot.agrees_emitFiles e.strategy s
  unfold emit
  rw [hs]
  dsimp only
  split
  · exact ⟨_, hagrees, rfl⟩
  · rcases Snapshot.persist_cases { s with ledger := (s.emitFiles e.strategy).2 } e.registry fs with
      ⟨err, fs', heq⟩ | ⟨l, fs', hl, heq⟩
    · rw [heq]
      exact ⟨_, hagrees, rfl⟩
    · rw [heq]
      exact ⟨l, hl.trans hagrees, rfl⟩

theorem emit_of_none {e : Engine} (hs : e.snapshot = none) (fs : σ) :
    e.emit fs = (.error .uninitialized, e, fs) := by
  unfold emit
  rw [hs]

def after (e : Engine) : Call σ → Engine
  | .start fs configPath host change => (e.start fs configPath host change).2
  | .emit fs => (e.emit fs).2.1

def run (e : Engine) (calls : List (Call σ)) : Engine := calls.foldl after e

def moments : Engine → List (Call σ) → List (Engine × Call σ)
  | _, [] => []
  | e, call :: rest => (e, call) :: moments (e.after call) rest

def taken : Engine × Call σ → List Snapshot
  | (e, .start fs configPath host change) =>
      match e.start fs configPath host change with
      | (.ok _, e) => e.snapshot.toList
      | (.error _, _) => []
  | (_, .emit _) => []

def snapshots (e : Engine) (calls : List (Call σ)) : List Snapshot := (moments e calls).flatMap taken

theorem run_append (e : Engine) (calls : List (Call σ)) (call : Call σ) :
    run e (calls ++ [call]) = (run e calls).after call := by
  simp [run, List.foldl_append]

theorem moments_append (calls : List (Call σ)) (call : Call σ) :
    ∀ e : Engine, moments e (calls ++ [call]) = moments e calls ++ [(run e calls, call)] := by
  induction calls with
  | nil => exact fun e => rfl
  | cons first rest ih =>
    intro e
    simp only [List.cons_append, moments, ih]
    rfl

theorem snapshots_append (e : Engine) (calls : List (Call σ)) (call : Call σ) :
    snapshots e (calls ++ [call]) = snapshots e calls ++ taken (run e calls, call) := by
  simp [snapshots, moments_append]

theorem run_induction {motive : List (Call σ) → Engine → Prop} {e : Engine} (start : motive [] e)
    (step : ∀ calls call, motive calls (run e calls) →
      motive (calls ++ [call]) ((run e calls).after call)) :
    ∀ calls, motive calls (run e calls) := by
  have extend : ∀ rest done : List (Call σ), motive done (run e done) →
      motive (done ++ rest) (run e (done ++ rest)) := by
    intro rest
    induction rest with
    | nil => exact fun done h => by simpa using h
    | cons call rest ih =>
      intro done h
      have hnext := step done call h
      rw [← run_append] at hnext
      simpa using ih (done ++ [call]) hnext
  exact fun calls => extend calls [] start

/-- A snapshot whose identities are those of the engine, taken of a file system and through a host
of which something is known. -/
def Known (P : σ → Host → Prop) (e : Engine) (t : Snapshot) : Prop :=
  ∃ (c : BuildContext σ) (s : BuildState) (r : Registry), Program.Built c s t.program r ∧
    r.Within e.registry ∧ c.full = e.strategy.isFull ∧ c.options = t.options ∧
    t.optionsDigest = t.options.fingerprint ∧ P c.fs c.host

/-- What is known of an engine from the snapshots taken so far. -/
structure History (P : σ → Host → Prop) (strategy : Strategy) (taken : List Snapshot)
    (e : Engine) : Prop where
  strategy : e.strategy = strategy
  distinct : e.registry.Distinct
  known : ∀ t ∈ taken, Known P e t
  current : ∀ t, e.snapshot = some t → ∃ t₀ ∈ taken, t = { t₀ with ledger := t.ledger } ∧
    t.ledger.files = Ledger.records t.program ∧ t.ledger.options = t.optionsDigest

theorem Known.mono {P : σ → Host → Prop} {e e' : Engine} {t : Snapshot} (h : Known P e t)
    (hstrategy : e'.strategy = e.strategy) (hw : e.registry.Within e'.registry) : Known P e' t := by
  obtain ⟨c, s, r, hbuilt, hr, hfull, hrest⟩ := h
  exact ⟨c, s, r, hbuilt, hr.trans hw, by rw [hfull, hstrategy], hrest⟩

theorem Started.known {P : σ → Host → Prop} {e : Engine} {fs : σ} {host : Host}
    {config : Configuration} {s : BuildState} {t : Snapshot} {r : Registry}
    (h : Started e fs host config s t r) (hP : P fs host) :
    Known P ⟨e.strategy, r, some t⟩ t :=
  ⟨_, s, r, h.built, .refl r, rfl, h.options.symm, by rw [h.optionsDigest, h.options], hP⟩

theorem history_step {P : σ → Host → Prop} {strategy : Strategy} {seen : List Snapshot} {e : Engine}
    (h : History P strategy seen e) (call : Call σ)
    (hP : ∀ fs configPath host change, call = .start fs configPath host change → P fs host) :
    History P strategy (seen ++ taken (e, call)) (e.after call) := by
  cases call with
  | emit fs =>
    have htaken : seen ++ taken (e, Call.emit fs) = seen := List.append_nil _
    rw [htaken]
    show History P strategy seen (e.emit fs).2.1
    cases hs : e.snapshot with
    | none =>
      rw [emit_of_none hs]
      exact h
    | some t =>
      -- An emission leaves all but the ledger, and of that the files and the options.
      obtain ⟨l, hl, heq⟩ := emit_frame hs fs
      obtain ⟨t₀, ht₀, hsame, hfiles, hoptions⟩ := h.current t hs
      rw [heq]
      refine ⟨h.strategy, h.distinct, h.known, ?_⟩
      intro u hu
      cases hu
      refine ⟨t₀, ht₀, ?_, ?_, ?_⟩
      · rw [hsame]
      · exact hl.1.trans hfiles
      · exact hl.2.trans hoptions
  | start fs configPath host change =>
    rcases start_cases h.distinct fs configPath host change with
      ⟨err, r, heq, hw, hd⟩ | ⟨config, s, t, r, report, heq, -, hstart⟩
    · have htaken : taken (e, Call.start fs configPath host change) = [] := by simp [taken, heq]
      rw [htaken, List.append_nil, after, heq]
      exact ⟨h.strategy, hd, fun t ht => (h.known t ht).mono rfl hw, h.current⟩
    · have htaken : taken (e, Call.start fs configPath host change) = [t] := by simp [taken, heq]
      rw [htaken, after, heq]
      have hw : e.registry.Within r :=
        ((registry_priorLedger h.distinct fs host config.options).1.trans hstart.within).trans
          hstart.built.shadows.within
      refine ⟨h.strategy, hstart.built.shadows.distinct, ?_, ?_⟩
      · intro u hu
        rcases List.mem_append.mp hu with hu | hu
        · exact (h.known u hu).mono rfl hw
        · rw [List.mem_singleton.mp hu]
          exact hstart.known (hP fs configPath host change rfl)
      · intro u hu
        cases hu
        refine ⟨t, by simp, rfl, ?_, ?_⟩
        · rw [hstart.ledger, Ledger.files_update]
        · rw [hstart.ledger, Ledger.options_update]

theorem history_run {P : σ → Host → Prop} (strategy : Strategy) (calls : List (Call σ)) :
    (∀ fs configPath host change, Call.start fs configPath host change ∈ calls → P fs host) →
    History P strategy (snapshots (create strategy) calls) (run (create strategy) calls) := by
  refine run_induction (motive := fun calls e =>
    (∀ fs configPath host change, Call.start fs configPath host change ∈ calls → P fs host) →
      History P strategy (snapshots (create strategy) calls) e) ?_ ?_ calls
  · intro _
    exact ⟨rfl, Registry.distinct_empty, by simp [snapshots, moments], fun t ht => by cases ht⟩
  · intro calls call ih hP
    rw [snapshots_append]
    refine history_step (ih fun fs configPath host change hmem => ?_) call ?_
    · exact hP fs configPath host change (List.mem_append_left _ hmem)
    · rintro fs configPath host change rfl
      exact hP fs configPath host change (by simp)

end Engine

end Recompile
