import Recompile.Emit.Script
import Recompile.Engine.Findings
import Recompile.Ledger.BuildInfo
import Recompile.Options.Project
import Recompile.Program.Build

/-!
The engine: it lives across builds, and each start takes a new snapshot of the workspace, seeded
by the one before it. A start that fails keeps the snapshot there was.
-/

namespace Recompile

/-- Whether resources are analysed and written into the output, or left to be imported. -/
inductive Strategy where
  | aot
  | jit
deriving DecidableEq, Repr, Inhabited

namespace Strategy

def name : Strategy → String
  | aot => "aot"
  | jit => "jit"

def isFull : Strategy → Bool
  | aot => true
  | jit => false

end Strategy

inductive EngineError where
  | config (e : ConfigError)
  | host (e : HostError)
  /-- There is no snapshot yet. -/
  | uninitialized
  /-- An edit does not fit the text it is made to. -/
  | misaligned
  /-- A finding is about a span that ends before it starts. -/
  | reversed
deriving DecidableEq, Repr

def EngineError.message : EngineError → String
  | .config e => e.message
  | .host e => e.message
  | .uninitialized => "assertion failed: compilation must be initialized"
  | .misaligned => "an edit does not fit its text"
  | .reversed => "a span ends before it starts"

structure Snapshot where
  options : Options
  optionsDigest : Digest
  roots : List Path
  /-- Warnings about the project file. -/
  warnings : List Diagnostic
  program : Program
  ledger : Ledger
  findings : Findings
  styles : Stylesheets

structure Engine where
  strategy : Strategy
  registry : Registry
  snapshot : Option Snapshot

structure StartReport where
  affected : OrdSet Path
  options : Options
  referenced : OrdSet Path

namespace Engine

def create (strategy : Strategy) : Engine := ⟨strategy, Registry.empty, none⟩

/-- The scripts and declarations that a changed file stands for: itself, the script a shadow was
made for, or those that use a resource. -/
def reportedFor (p : Program) (id : FileId) : List FileId :=
  match p.file? id with
  | none => []
  | some f =>
      match f.kind with
      | .script | .declaration => [id]
      | .typeCheckShadow => (p.origins.get? id).toList
      | .template | .style => (p.importers id).map (·.1)

def reported (p : Program) (changed : OrdSet FileId) : OrdSet FileId :=
  OrdSet.ofList ((OrdSet.toList changed).flatMap (reportedFor p))

def pathsOf (p : Program) (ids : OrdSet FileId) : OrdSet Path :=
  OrdSet.ofList ((OrdSet.toList ids).filterMap fun id => (p.file? id).map (·.path))

variable {σ : Type} [FileSystem σ]

/-- The ledger to start from: that of the snapshot, or else one that was written. -/
def priorLedger (e : Engine) (fs : σ) (host : Host) (options : Options) :
    Option Ledger × Registry :=
  match e.snapshot with
  | some s => (some s.ledger, e.registry)
  | none =>
      match options.buildInfoPath?.bind (BuildInfo.load? host fs) with
      | none => (none, e.registry)
      | some info =>
          let (ledger, registry) := info.toLedger e.registry options.configDir
          (some ledger, registry)

def snapshotOf (e : Engine) (fs : σ) (host : Host) (config : Configuration)
    (prior : Option Ledger) (p : Program) : Except HostError (Snapshot × OrdSet FileId) :=
  let options := config.options
  let digest := options.fingerprint
  let (ledger, changed) := Ledger.update p digest prior
  let affected := reported p changed
  let full := e.strategy.isFull
  let findings := match e.snapshot with
    | some s => s.findings
    | none => Findings.empty
  let styles := match e.snapshot with
    | some s => s.styles
    | none => Stylesheets.empty
  let refreshed := if full then styles.refresh p host fs else .ok (styles, 0)
  match refreshed with
  | .error err => .error err
  | .ok (styles, _) =>
      .ok (⟨options, digest, config.roots, config.warnings, p, ledger,
        findings.update p full options.strictTemplates affected, styles⟩, affected)

def startWith (e : Engine) (fs : σ) (host : Host) (config : Configuration) :
    Except EngineError StartReport × Engine :=
  let (prior, registry) := e.priorLedger fs host config.options
  match Program.build config.options host fs e.strategy.isFull registry config.roots with
  | (.error err, registry) => (.error (.host err), { e with registry := registry })
  | (.ok p, registry) =>
      let e := { e with registry := registry }
      match e.snapshotOf fs host config prior p with
      | .error err => (.error (.host err), e)
      | .ok (s, affected) =>
          (.ok ⟨pathsOf p affected, s.options, p.referenced⟩, { e with snapshot := some s })

/-- Reads the project file at a path, and builds what it asks for. The options it gives can be
changed before they are used. -/
def start (e : Engine) (fs : σ) (configPath : Path) (host : Host)
    (change : Options → Options) : Except EngineError StartReport × Engine :=
  let read := fun p =>
    match FileSystem.read fs p with
    | .ok text => .ok text
    | .error fault => .error fault.reason
  match Configuration.load read configPath with
  | .error err => (.error (.config err), e)
  | .ok config => e.startWith fs host { config with options := change config.options }

end Engine

namespace Snapshot

/-- All findings: about the project file, the options and the roots, then file by file. -/
def diagnostics (s : Snapshot) : List Diagnostic :=
  s.warnings ++ s.options.diagnostics ++ Check.global s.program s.options s.roots ++
    s.program.checked.flatMap fun f =>
      (match s.program.module? f.id with
        | some m => m.faults
        | none => []) ++
      match s.findings.get? f.id with
      | some found => found.semantic ++ found.template
      | none => []

/-- The findings as messages, and those about stylesheets after them. -/
def messages (s : Snapshot) : Except SpanError Collected := do
  let found ← s.diagnostics.mapM fun d =>
    (Message.ofDiagnostic s.program.files d).map fun m => (d.severity, m)
  let all := found.foldl (fun c m => c.add m.1 m.2) Collected.empty
  return all.append s.styles.messages

end Snapshot

namespace Engine

def diagnostics (e : Engine) : Except EngineError (List Diagnostic) :=
  match e.snapshot with
  | none => .error .uninitialized
  | some s => .ok s.diagnostics

def messages (e : Engine) : Except EngineError Collected :=
  match e.snapshot with
  | none => .error .uninitialized
  | some s => s.messages.mapError fun _ => .reversed

/-- The files that stylesheets need beside them. -/
def sideOutputs (e : Engine) : List OutputFile :=
  match e.snapshot with
  | none => []
  | some s => s.styles.outputs

end Engine

end Recompile
