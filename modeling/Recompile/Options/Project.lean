import Recompile.Options.Basic
import Recompile.Text.Classes
import Recompile.Toml.Grammar

/-!
Project files: reading, checking, and the options they give.

Some options are fixed. A project file that sets one of them to another value is not refused; the
value is replaced, and a warning says so.
-/

namespace Recompile

inductive ConfigError where
  | unreadable (path : Path) (reason : String)
  | malformed
  | missingField (name : String)
  | invalid (reason : String)
deriving DecidableEq, Repr

def ConfigError.message : ConfigError → String
  | .unreadable path reason => "failed to read configuration " ++ path.text ++ ": " ++ reason
  | .malformed => "failed to parse configuration"
  | .missingField name => "missing required field: " ++ name
  | .invalid reason => "validation error: " ++ reason

namespace Project

structure Settings where
  target : Option Target
  baseUrl : Option String
  paths : OrdMap String (List String)
  incremental : Option Bool
  buildInfoFile : Option String
  strictTemplates : Option Bool
  declaration : Option Bool
  outDir : Option String
  annotations : Option Annotations
  inlineResources : Option Bool
deriving Repr

def Settings.empty : Settings :=
  ⟨none, none, OrdMap.empty, none, none, none, none, none, none, none⟩

structure File where
  files : Option (List String)
  settings : Settings
deriving Repr

open Toml (Node Fields)

def text? : Node → Option String
  | .string s => some s
  | _ => none

def bool? : Node → Option Bool
  | .boolean b => some b
  | _ => none

def texts? : Node → Option (List String)
  | .array items => items.mapM text?
  | _ => none

def isEmptyNode : Node → Bool
  | .array items => items.isEmpty
  | .table _ fields => fields.isEmpty
  | .tables elements => elements.isEmpty
  | _ => false

/-- A name out of a fixed set: a string, or the only key of a table over an empty value. -/
def variant? {α : Type} (named : String → Option α) : Node → Option α
  | .string s => named s
  | .table _ [(s, value)] => if isEmptyNode value then named s else none
  | _ => none

def aliases? : Node → Option (OrdMap String (List String))
  | .table _ fields => do
      let pairs ← fields.mapM fun f => do return (f.1, ← texts? f.2)
      return OrdMap.ofList pairs
  | _ => none

def optional {α : Type} (read : Node → Option α) : Option Node → Option (Option α)
  | none => some none
  | some node => (read node).map some

def settingsOf (get : Nat → String → Option Node) : Option Settings := do
  return { target := ← optional (variant? Target.ofName?) (get 0 "target")
           baseUrl := ← optional text? (get 1 "base_url")
           paths := (← optional aliases? (get 2 "paths")).getD OrdMap.empty
           incremental := ← optional bool? (get 3 "incremental")
           buildInfoFile := ← optional text? (get 4 "build_info_file")
           strictTemplates := ← optional bool? (get 5 "strict_templates")
           declaration := ← optional bool? (get 6 "declaration")
           outDir := ← optional text? (get 7 "out_dir")
           annotations := ← optional (variant? Annotations.ofName?) (get 8 "annotations")
           inlineResources := ← optional bool? (get 9 "inline_resources") }

/-- The compiler section: a table of its fields, or an array that gives all of them in order. A
date counts as a section without fields. -/
def settings? : Node → Option Settings
  | .table _ fields => settingsOf fun _ name => Fields.find? fields name
  | .array items => if 10 ≤ items.length then settingsOf fun i _ => items[i]? else none
  | .datetime _ => some Settings.empty
  | _ => none

/-- Reads a project file; unknown fields are passed over. -/
def ofToml? (fields : Fields) : Option File := do
  let files ← optional texts? (fields.find? "files")
  let settings ← match fields.find? "compiler" with
    | none => some Settings.empty
    | some node => settings? node
  return ⟨files, settings⟩

def isBlankText (s : String) : Bool := (Text.trim s.toList).isEmpty

def checkAliases : List (String × List String) → Except ConfigError Unit
  | [] => .ok ()
  | (pattern, targets) :: rest =>
      if pattern.isEmpty then .error (.invalid "'compiler.paths' keys must not be empty")
      else if targets.isEmpty then
        .error (.invalid
          ("'compiler.paths.\"" ++ pattern ++ "\"' must list at least one target"))
      else checkAliases rest

/-- The files of a project file, once it passes all checks. -/
def check (f : File) : Except ConfigError (List String) := do
  match f.files with
  | none => .error (.missingField "files")
  | some files =>
      if files.any isBlankText then .error (.invalid "'files' entries must not be empty")
      checkAliases f.settings.paths.entries
      if (f.settings.buildInfoFile.map isBlankText).getD false then
        .error (.invalid "'compiler.build_info_file' must not be empty")
      return files

def optionOverridden : Code := ⟨.config, 5110⟩

def overridden (option : String) : Diagnostic :=
  Diagnostic.warning optionOverridden
    ("option '" ++ option ++ "' is not supported and was overridden") Span.none

/-- Warnings for settings that ask for another value than the fixed one. -/
def overrides (s : Settings) : List Diagnostic :=
  (if s.declaration = some true then [overridden "declaration"] else []) ++
  (if s.outDir.isSome then [overridden "out_dir"] else []) ++
  (if s.annotations = some .staticFields then [overridden "annotations"] else []) ++
  (if s.inlineResources = some true then [overridden "inline_resources"] else [])

def optionsOf (s : Settings) (configPath : Path) : Options :=
  let dir := configPath.dirname
  { Options.ofConfigPath configPath with
    target := s.target.getD .es2022
    baseUrl := s.baseUrl.map fun b => dir.resolve ⟨b⟩
    paths := s.paths
    incremental := s.incremental.getD false
    buildInfoFile := s.buildInfoFile.map fun b => dir.resolve ⟨b⟩
    strictTemplates := s.strictTemplates.getD true }

end Project

structure Configuration where
  options : Options
  roots : List Path
  warnings : List Diagnostic
deriving DecidableEq, Repr

namespace Configuration

def parse (content : String) (path : Path) : Except ConfigError Configuration := do
  match (Toml.parse? content).bind Project.ofToml? with
  | none => .error .malformed
  | some file =>
      let files ← Project.check file
      let path := path.normalize
      return { options := Project.optionsOf file.settings path
               roots := files.map fun f => path.dirname.resolve ⟨f⟩
               warnings := Project.overrides file.settings }

/-- Reads the project file at a path through a reader; a failed read gives its reason. -/
def load (read : Path → Except String String) (path : Path) : Except ConfigError Configuration :=
  match read path with
  | .error reason => .error (.unreadable path reason)
  | .ok content => parse content path

end Configuration

end Recompile
