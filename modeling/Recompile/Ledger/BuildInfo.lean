import Recompile.Diagnostic.Wire
import Recompile.Host.Basic
import Recompile.Json.Parser
import Recompile.Json.Printer
import Recompile.Ledger.Basic
import Recompile.Source.Registry

/-!
The written form of a ledger. Files are named by their paths relative to a directory, so it can be
read with other identities than it was written with.
-/

namespace Recompile

structure SavedFile where
  version : Digest
  signature : Digest
  dependencies : List String
  fingerprint : Option Digest
deriving DecidableEq, Repr

structure BuildInfo where
  format : Nat
  options : Digest
  files : OrdMap String SavedFile
  pending : List String
deriving DecidableEq, Repr

namespace SavedFile

def toJson (f : SavedFile) : Json :=
  Json.record ([("version", f.version.toJson), ("signature", f.signature.toJson),
    ("dependencies", Json.texts f.dependencies)] ++
    Json.present "emitFingerprint" Digest.toJson f.fingerprint)

def ofJson? (v : Json) : Option SavedFile := do
  match ← Json.fieldValues [Json.required "version", Json.required "signature",
      Json.defaulted "dependencies" (.array []), Json.defaulted "emitFingerprint" .null] v with
  | [version, signature, dependencies, fingerprint] =>
      return ⟨← Digest.ofJson? version, ← Digest.ofJson? signature,
        ← Json.Read.list Json.Read.text dependencies, ← Json.Read.option Digest.ofJson? fingerprint⟩
  | _ => none

end SavedFile

namespace BuildInfo

/-- The only format that is read. -/
def currentFormat : Nat := 1

def toJson (i : BuildInfo) : Json :=
  Json.record [("format", Json.nat i.format), ("optionsHash", i.options.toJson),
    ("files", Json.record (i.files.entries.map fun e => (e.1, e.2.toJson))),
    ("pendingEmit", Json.texts i.pending)]

def ofJson? (v : Json) : Option BuildInfo := do
  match ← Json.fieldValues [Json.required "format", Json.required "optionsHash",
      Json.required "files", Json.defaulted "pendingEmit" (.array [])] v with
  | [format, options, files, pending] =>
      return ⟨← readU32 format, ← Digest.ofJson? options,
        ← Json.Read.dict SavedFile.ofJson? files, ← Json.Read.list Json.Read.text pending⟩
  | _ => none

def render (i : BuildInfo) : String := i.toJson.pretty

def parse? (text : String) : Option BuildInfo := (Json.parse? text).bind ofJson?

/-- The name of a file: its path from the base directory. -/
def nameOf? (registry : Registry) (base : Path) (id : FileId) : Option String :=
  (registry.path? id).map fun p => (base.relative p).toSlash

def savedFile (l : Ledger) (name : FileId → Option String) (id : FileId) (r : FileRecord) :
    SavedFile :=
  ⟨r.version, r.signature, (OrdSet.toList r.dependencies).filterMap name, l.fingerprints.get? id⟩

def ofLedger (l : Ledger) (registry : Registry) (base : Path) : BuildInfo :=
  let name := nameOf? registry base
  ⟨currentFormat, l.options,
    OrdMap.ofList (l.files.entries.filterMap fun e =>
      (name e.1).map fun key => (key, savedFile l name e.1 e.2)),
    (OrdSet.toList l.pending).filterMap name⟩

def identify (base : Path) : Registry → List String → List FileId × Registry
  | registry, [] => ([], registry)
  | registry, name :: rest =>
      let (id, registry) := registry.intern (base.resolve ⟨name⟩)
      let (ids, registry) := identify base registry rest
      (id :: ids, registry)

def restoreFile (base : Path) (state : Ledger × Registry) (e : String × SavedFile) :
    Ledger × Registry :=
  let (l, registry) := state
  let (id, registry) := registry.intern (base.resolve ⟨e.1⟩)
  let (dependencies, registry) := identify base registry e.2.dependencies
  let l := { l with
    files := l.files.insert id ⟨e.2.version, e.2.signature, OrdSet.ofList dependencies⟩
    fingerprints := match e.2.fingerprint with
      | some fingerprint => l.fingerprints.insert id fingerprint
      | none => l.fingerprints }
  (l, registry)

def toLedger (i : BuildInfo) (registry : Registry) (base : Path) : Ledger × Registry :=
  let (l, registry) := i.files.entries.foldl (restoreFile base)
    ({ Ledger.empty with options := i.options }, registry)
  let (pending, registry) := identify base registry i.pending
  ({ l with pending := OrdSet.ofList pending }, registry)

/-- Reads the ledger at a path; one that cannot be read or has another format does not count. -/
def load? {σ : Type} [FileSystem σ] (h : Host) (fs : σ) (p : Path) : Option BuildInfo :=
  match h.read fs p with
  | .ok (some text) => (parse? text).filter fun i => i.format = currentFormat
  | _ => none

theorem load?_of_read {σ : Type} [FileSystem σ] {h : Host} {fs : σ} {p : Path} {text : String}
    {i : BuildInfo} (hkey : h.replacements.get? p = none) (hread : FileSystem.read fs p = .ok text)
    (hparse : parse? text = some i) (hformat : i.format = currentFormat) :
    load? h fs p = some i := by
  have hactual : h.actual p = p := by rw [Host.actual, hkey, Option.getD_none]
  simp only [load?, Host.read, hactual, hread]
  rw [hparse]
  exact Option.filter_eq_some_iff.mpr ⟨rfl, decide_eq_true hformat⟩

end BuildInfo

end Recompile
