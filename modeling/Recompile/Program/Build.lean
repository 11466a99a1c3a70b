import Recompile.Program.Shadow
import Recompile.Program.Specifier
import Recompile.Script.Analysis
import Recompile.Source.Registry

/-!
Building a program: files are read from the roots on, round by round, and each round follows what
the files of the round before it refer to.

Identities are given out when a file is read, and to what it refers to right after it, so they
stay in the registry when a later read fails.
-/

namespace Recompile

structure BuildContext (σ : Type) where
  options : Options
  host : Host
  fs : σ
  /-- Whether resources and shadows are part of the program. -/
  full : Bool
  roots : OrdSet Path

/-- How far a build has come; one that has failed goes no further. -/
structure BuildState where
  registry : Registry
  program : Program
  visited : OrdSet Path
  fault : Option HostError

namespace BuildState

def urls (c : Script.Component) : List (SourceKind × String × Span) :=
  (match c.template with
    | some (.external url literal _) => [(SourceKind.template, url, literal)]
    | _ => []) ++ c.styleUrls.map fun u => (SourceKind.style, u.url, u.literal)

variable {σ : Type} [FileSystem σ]

def resourceRefs (c : BuildContext σ) (dir : Path) (o : Script.Outline) : List ResourceRef :=
  (o.components.mapIdx fun index component =>
    (urls component).map fun u =>
      let path := dir.resolve ⟨u.2.1⟩
      (⟨u.1, index, u.2.1, u.2.2, path, c.host.present c.fs path, none⟩ : ResourceRef)).flatten

def resolution (r : Registry) : Specifier.Found → Resolution
  | .file path => .file (r.intern path).1
  | .external => .external
  | .unresolved => .unresolved

/-- Takes a module in. The second result lists the paths it refers to. -/
def addModule (c : BuildContext σ) (s : BuildState) (f : SourceFile) : BuildState × List Path :=
  let tokens := Script.scan f.id f.text
  let outline := Script.analyze f.id tokens
  let dir := f.path.dirname
  let found := outline.specifiers.map fun x => Specifier.find c.options c.host c.fs dir x.1
  let refs := resourceRefs c dir outline
  let members := if c.full then refs.filter (·.present) else []
  let next := found.filterMap Specifier.Found.path? ++ members.map (·.path)
  let registry := s.registry.internAll next
  let refs := refs.map fun r =>
    if c.full && r.present then { r with file := some (registry.intern r.path).1 } else r
  let m : Module := ⟨outline, Script.faults tokens, found.map (resolution registry), refs⟩
  ({ s with
      registry := registry
      program := { s.program with
        files := s.program.files.add f
        modules := s.program.modules.insert f.id m } }, next)

def addFile (c : BuildContext σ) (s : BuildState) (p : Path) (text : String) :
    BuildState × List Path :=
  let (id, registry) := s.registry.intern p
  let f : SourceFile := ⟨id, p, text, SourceKind.ofPath p⟩
  let roots := if c.roots.contains p then s.program.roots ++ [id] else s.program.roots
  let s := { s with registry := registry, program := { s.program with roots := roots } }
  if f.kind.isModule then addModule c s f
  else ({ s with program := { s.program with files := s.program.files.add f } }, [])

def visit (c : BuildContext σ) (s : BuildState) (p : Path) : BuildState × List Path :=
  if s.fault.isSome || s.visited.contains p then (s, [])
  else
    let s := { s with visited := OrdSet.add s.visited p }
    match c.host.read c.fs p with
    | .error e => ({ s with fault := some e }, [])
    | .ok none =>
        if c.roots.contains p then
          ({ s with program :=
              { s.program with missingRoots := s.program.missingRoots ++ [p] } }, [])
        else (s, [])
    | .ok (some text) => addFile c s p text

def round (c : BuildContext σ) : BuildState → List Path → BuildState × List Path
  | s, [] => (s, [])
  | s, p :: rest =>
      let (s, next) := visit c s p
      let (s, more) := round c s rest
      (s, next ++ more)

/-- What is left to read when all rounds are over. -/
def exhausted (p : Path) : HostError := ⟨p, "more files than can be read"⟩

/-- Visits paths, then those they refer to, and so on. A build that runs out of rounds fails. -/
def rounds (c : BuildContext σ) : Nat → BuildState → List Path → BuildState
  | _, s, [] => s
  | 0, s, p :: _ => { s with fault := some (s.fault.getD (exhausted p)) }
  | fuel + 1, s, p :: rest =>
      let (s, next) := round c s (p :: rest)
      rounds c fuel s next

end BuildState

namespace Program

/-- References to files that could not be read do not resolve. -/
def settleModule (p : Program) (m : Module) : Module :=
  { m with
    resolutions := m.resolutions.map fun r =>
      match r with
      | .file id => if p.contains id then .file id else .unresolved
      | r => r
    resources := m.resources.map fun r =>
      match r.file with
      | some id => if p.contains id then r else { r with file := none, present := false }
      | none => r }

def settle (p : Program) : Program := { p with modules := p.modules.map fun _ m => settleModule p m }

/-- Builds the program of some roots. A round follows another only when it has read a file for the
first time, so there is one round more than files that can be read, at most. -/
def build {σ : Type} [FileSystem σ] (options : Options) (host : Host) (fs : σ) (full : Bool)
    (registry : Registry) (roots : List Path) : Except HostError Program × Registry :=
  let queue := roots.map Path.normalize
  let c : BuildContext σ := ⟨options, host, fs, full, OrdSet.ofList queue⟩
  let s := BuildState.rounds c (host.capacity fs + 1) ⟨registry, empty, OrdMap.empty, none⟩ queue
  match s.fault with
  | some e => (.error e, s.registry)
  | none =>
      let p := settle s.program
      let (p, registry) := if full then Shadow.addAll p s.registry else (p, s.registry)
      (.ok p, registry)

end Program

end Recompile
