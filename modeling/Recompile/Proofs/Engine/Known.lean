import Recompile.Proofs.Digest.Words
import Recompile.Proofs.Engine.Run

/-!
Starts on a project file that has been read. Such a start is told by the digest of the options and by
the ledger that it begins with, and a run over known files is followed from one call to the next.
-/

namespace Recompile

theorem eq_ok_of_toOption {ε α : Type} {x : Except ε α} {a : α} (h : x.toOption = some a) : x = .ok a := by
  cases x <;> cases h
  rfl

namespace Engine

open BuildInfo

variable {σ : Type} [FileSystem σ]

theorem priorLedger_of_none {e : Engine} {o : Options} {file : Path} (hs : e.snapshot = none) {fs : σ}
    {host : Host} (hpath : o.buildInfoPath? = some file) :
    e.priorLedger fs host o =
      match load? host fs file with
      | none => (none, e.registry)
      | some i => (some (i.toLedger e.registry o.configDir).1, (i.toLedger e.registry o.configDir).2) := by
  unfold priorLedger
  rw [hs, hpath]
  rfl

def snapshotFrom (e : Engine) (fs : σ) (host : Host) (config : Configuration) (digest : Digest)
    (prior : Option Ledger) (p : Program) : Except HostError (Snapshot × OrdSet FileId) :=
  let (ledger, changed) := Ledger.update p digest prior
  let affected := reported p changed
  let full := e.strategy.isFull
  let refreshed := if full then e.oldStyles.refresh p host fs else .ok (e.oldStyles, 0)
  match refreshed with
  | .error err => .error err
  | .ok (styles, _) =>
      .ok (⟨config.options, digest, config.roots, config.warnings, p, ledger,
        e.oldFindings.update p full config.options.strictTemplates affected, styles⟩, affected)

/-- A start with the digest of its options, and the ledger and the registry to begin with. -/
def startFrom (e : Engine) (fs : σ) (host : Host) (config : Configuration) (digest : Digest)
    (prior : Option Ledger × Registry) : Except EngineError StartReport × Engine :=
  match Program.build config.options host fs e.strategy.isFull prior.2 config.roots with
  | (.error err, registry) => (.error (.host err), { e with registry := registry })
  | (.ok p, registry) =>
      let e := { e with registry := registry }
      match e.snapshotFrom fs host config digest prior.1 p with
      | .error err => (.error (.host err), e)
      | .ok (s, affected) =>
          (.ok ⟨pathsOf p affected, s.options, p.referenced⟩, { e with snapshot := some s })

theorem startWith_eq_startFrom (e : Engine) (fs : σ) (host : Host) (config : Configuration) :
    e.startWith fs host config =
      e.startFrom fs host config config.options.fingerprint
        (e.priorLedger fs host config.options) := rfl

theorem start_known {fs : σ} {configPath : Path} {host : Host} {change : Options → Options}
    {config : Configuration} {digest : Digest}
    (hconfig : (configAt fs configPath change).toOption = some config)
    (hdigest : config.options.fingerprint = digest) (e : Engine) :
    e.start fs configPath host change =
      e.startFrom fs host config digest (e.priorLedger fs host config.options) := by
  rw [start_eq, eq_ok_of_toOption hconfig, ← hdigest]
  exact startWith_eq_startFrom e fs host config

/-- The snapshots that the outcome of a start leaves. -/
def takenFrom : Except EngineError StartReport × Engine → List Snapshot
  | (.ok _, e) => e.snapshot.toList
  | (.error _, _) => []

theorem start_unread {fs : σ} {configPath : Path} {change : Options → Options}
    (h : (configAt fs configPath change).toOption = none) (e : Engine) (host : Host) :
    (e.start fs configPath host change).2 = e ∧ takenFrom (e.start fs configPath host change) = [] := by
  rw [start_eq]
  cases hread : configAt fs configPath change with
  | error err => exact ⟨rfl, rfl⟩
  | ok config =>
    rw [hread] at h
    cases h

section

variable (e : Engine) (fs : σ) (configPath : Path) (host : Host) (change : Options → Options)
  (call : Call σ) (calls : List (Call σ))

-- A run over known calls is rewritten by these, one call after the other: unfolded all at once, it
-- would be computed as a whole at each step.
theorem run_nil : run e ([] : List (Call σ)) = e := rfl

theorem run_cons : run e (call :: calls) = run (e.after call) calls := rfl

theorem moments_nil : moments e ([] : List (Call σ)) = [] := rfl

theorem moments_cons : moments e (call :: calls) = (e, call) :: moments (e.after call) calls := rfl

theorem snapshots_nil : snapshots e ([] : List (Call σ)) = [] := rfl

theorem snapshots_start : snapshots e (.start fs configPath host change :: calls) =
    takenFrom (e.start fs configPath host change) ++
      snapshots (e.start fs configPath host change).2 calls := rfl

theorem snapshots_emit : snapshots e (.emit fs :: calls) = snapshots (e.after (.emit fs)) calls := by
  exact List.nil_append _

theorem after_start :
    e.after (.start fs configPath host change) = (e.start fs configPath host change).2 := rfl

end

/-- The options of a project file that leaves them as they are, but may ask for a kept ledger. -/
def plainOptions (incremental : Bool) : Options :=
  { Options.ofConfigPath ⟨"/k"⟩ with incremental := incremental }

theorem buildInfoPath?_plainOptions :
    (plainOptions true).buildInfoPath? = some ⟨"/k.buildinfo.json"⟩ := by decide

def plainConfig (incremental : Bool) (roots : List Path) : Configuration :=
  ⟨plainOptions incremental, roots, []⟩

def plainDigest : Bool → Digest
  | false => ⟨1469573715665747154, 15479724726951249526⟩
  | true => ⟨7743802913837941835, 10407403519100915023⟩

set_option maxRecDepth 100000 in
theorem fingerprint_plainOptions (incremental : Bool) :
    (plainOptions incremental).fingerprint = plainDigest incremental := by
  rw [Options.fingerprint, Json.compact, Digest.ofText_ofList]
  simp only [Digest.ofData, Xxh3.hash, Xxh3.hashRounds, Xxh3.mix32, Xxh3.mix16, Xxh3.word64_eq]
  cases incremental with
  | false => decide +kernel
  | true => decide +kernel

section

variable {fs : σ} {incremental : Bool} {roots : List Path}

/-- The project file of some files is plain. -/
def Plain (fs : σ) (incremental : Bool) (roots : List Path) : Prop :=
  (configAt fs ⟨"/k"⟩ id).toOption = some (plainConfig incremental roots)

instance (fs : σ) (incremental : Bool) (roots : List Path) : Decidable (Plain fs incremental roots) :=
  inferInstanceAs (Decidable (_ = _))

namespace Plain

theorem configAt_eq (h : Plain fs incremental roots) :
    configAt fs ⟨"/k"⟩ id = .ok (plainConfig incremental roots) :=
  eq_ok_of_toOption h

end Plain

def startPlain (e : Engine) (fs : σ) (host : Host) (incremental : Bool) (roots : List Path) :
    Except EngineError StartReport × Engine :=
  e.startFrom fs host (plainConfig incremental roots) (plainDigest incremental)
    (e.priorLedger fs host (plainOptions incremental))

namespace Plain

theorem start_eq (h : Plain fs incremental roots) (e : Engine) (host : Host) :
    e.start fs ⟨"/k"⟩ host id = e.startPlain fs host incremental roots :=
  start_known h (fingerprint_plainOptions incremental) e

theorem run_cons (h : Plain fs incremental roots) (e : Engine) (host : Host) (calls : List (Call σ)) :
    run e (.start fs ⟨"/k"⟩ host id :: calls) = run (e.startPlain fs host incremental roots).2 calls :=
  congrArg (fun outcome => run outcome.2 calls) (h.start_eq e host)

theorem moments_cons (h : Plain fs incremental roots) (e : Engine) (host : Host)
    (calls : List (Call σ)) :
    moments e (.start fs ⟨"/k"⟩ host id :: calls) = (e, .start fs ⟨"/k"⟩ host id) ::
      moments (e.startPlain fs host incremental roots).2 calls :=
  congrArg (fun outcome : Except EngineError StartReport × Engine =>
    (e, Call.start fs ⟨"/k"⟩ host id) :: moments outcome.2 calls) (h.start_eq e host)

theorem snapshots_cons (h : Plain fs incremental roots) (e : Engine) (host : Host)
    (calls : List (Call σ)) :
    snapshots e (.start fs ⟨"/k"⟩ host id :: calls) =
      takenFrom (e.startPlain fs host incremental roots) ++
        snapshots (e.startPlain fs host incremental roots).2 calls :=
  congrArg (fun outcome => takenFrom outcome ++ snapshots outcome.2 calls) (h.start_eq e host)

end Plain

end

end Engine

end Recompile
