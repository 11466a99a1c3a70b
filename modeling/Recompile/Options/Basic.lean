import Recompile.Diagnostic.Wire
import Recompile.Json.Printer
import Recompile.Path.Normal

/-!
Compiler options, their fingerprint, and checks of their combination.
-/

namespace Recompile

inductive Target where
  | es2020
  | es2022
  | esnext
deriving DecidableEq, Repr, Inhabited

namespace Target

def name : Target → String
  | es2020 => "es2020"
  | es2022 => "es2022"
  | esnext => "esnext"

def ofName? (s : String) : Option Target := [es2020, es2022, esnext].find? fun t => t.name = s

end Target

inductive Annotations where
  | decorators
  | staticFields
deriving DecidableEq, Repr, Inhabited

namespace Annotations

def name : Annotations → String
  | decorators => "decorators"
  | staticFields => "static-fields"

def ofName? (s : String) : Option Annotations :=
  [decorators, staticFields].find? fun a => a.name = s

end Annotations

structure Options where
  configPath : Path
  target : Target
  /-- The directory that aliases are resolved against. -/
  baseUrl : Option Path
  /-- Aliases of module specifiers: the targets of each pattern. -/
  paths : OrdMap String (List String)
  incremental : Bool
  buildInfoFile : Option Path
  strictTemplates : Bool
  declaration : Bool
  outDir : Option Path
  annotations : Annotations
  inlineResources : Bool
deriving DecidableEq, Repr, Inhabited

namespace Options

def ofConfigPath (p : Path) : Options :=
  { configPath := p, target := .es2022, baseUrl := none, paths := OrdMap.empty,
    incremental := false, buildInfoFile := none, strictTemplates := true, declaration := false,
    outDir := none, annotations := .decorators, inlineResources := false }

def configDir (o : Options) : Path := o.configPath.dirname

/-- Where the state between builds is kept, when it is kept at all. -/
def buildInfoPath? (o : Options) : Option Path :=
  if o.incremental then
    match o.buildInfoFile with
    | some p => some p
    | none => some (o.configDir.join ⟨(o.configPath.fileStem?).getD "kiln" ++ ".buildinfo.json"⟩)
  else none

/-- The directory that specifiers other than relative ones are resolved against. -/
def moduleRoot (o : Options) : Path := o.baseUrl.getD o.configDir

def toJson (o : Options) : Json :=
  let path := fun (p : Path) => Json.text p.text
  Json.record [
    ("config_path", path o.configPath),
    ("target", Json.text o.target.name),
    ("base_url", Json.option path o.baseUrl),
    ("paths", Json.record (o.paths.entries.map fun e => (e.1, Json.texts e.2))),
    ("incremental", .bool o.incremental),
    ("build_info_file", Json.option path o.buildInfoFile),
    ("strict_templates", .bool o.strictTemplates),
    ("declaration", .bool o.declaration),
    ("out_dir", Json.option path o.outDir),
    ("annotations", Json.text o.annotations.name),
    ("inline_resources", .bool o.inlineResources)]

def ofJson? (v : Json) : Option Options := do
  let path := fun (v : Json) => (Json.Read.text v).map Path.mk
  match ← Json.fieldValues [Json.required "config_path", Json.required "target",
      Json.nullable "base_url", Json.required "paths", Json.required "incremental",
      Json.nullable "build_info_file", Json.required "strict_templates",
      Json.required "declaration", Json.nullable "out_dir", Json.required "annotations",
      Json.required "inline_resources"] v with
  | [configPath, target, baseUrl, paths, incremental, buildInfoFile, strictTemplates,
      declaration, outDir, annotations, inlineResources] =>
      return { configPath := ← path configPath
               target := ← Json.Read.variant Target.ofName? target
               baseUrl := ← Json.Read.option path baseUrl
               paths := ← Json.Read.dict (Json.Read.list Json.Read.text) paths
               incremental := ← Json.Read.bool incremental
               buildInfoFile := ← Json.Read.option path buildInfoFile
               strictTemplates := ← Json.Read.bool strictTemplates
               declaration := ← Json.Read.bool declaration
               outDir := ← Json.Read.option path outDir
               annotations := ← Json.Read.variant Annotations.ofName? annotations
               inlineResources := ← Json.Read.bool inlineResources }
  | _ => none

/-- The digest of the options, by which a change of options is noticed. -/
def fingerprint (o : Options) : Digest := Digest.ofText o.toJson.compact

def buildInfoWithoutIncremental : Code := ⟨.config, 5074⟩

def invalidPathPattern : Code := ⟨.config, 5061⟩

def stars (pattern : String) : Nat := pattern.toList.count '*'

/-- Combinations of options that cannot be honoured. -/
def diagnostics (o : Options) : List Diagnostic :=
  (if o.buildInfoFile.isSome && !o.incremental then
    [Diagnostic.error buildInfoWithoutIncremental
      "Option 'build_info_file' cannot be specified without specifying option 'incremental'."
      Span.none]
  else []) ++
  (o.paths.keys.filter fun p => 1 < stars p).map fun p =>
    Diagnostic.error invalidPathPattern
      ("Pattern '" ++ p ++ "' can have at most one '*' character.") Span.none

end Options

end Recompile
