import Recompile.Data.Closure
import Recompile.Diagnostic.Basic
import Recompile.Script.Outline

/-!
Programs: the files of one build, the outlines of its modules, and what their specifiers resolve
to. Dependencies, importers and exported names are read off the modules.
-/

namespace Recompile

inductive Resolution where
  | file (id : FileId)
  /-- A package outside the program. -/
  | external
  /-- A relative or aliased specifier without a file. -/
  | unresolved
deriving DecidableEq, Repr, Inhabited

def Resolution.target? : Resolution → Option FileId
  | file id => some id
  | _ => none

structure ResourceRef where
  kind : SourceKind
  /-- The position of the component in its module. -/
  component : Nat
  url : String
  literal : Span
  path : Path
  present : Bool
  /-- The file, when resources are part of the program. -/
  file : Option FileId
deriving DecidableEq, Repr, Inhabited

structure Module where
  outline : Script.Outline
  faults : List Diagnostic
  /-- One resolution for each specifier of the outline. -/
  resolutions : List Resolution
  resources : List ResourceRef
deriving DecidableEq, Repr

namespace Module

def imports (m : Module) : List (Script.Import × Resolution) :=
  m.outline.imports.zip m.resolutions

def reexports (m : Module) : List (Script.Reexport × Resolution) :=
  m.outline.reexports.zip (m.resolutions.drop m.outline.imports.length)

def starTargets (m : Module) : List FileId :=
  (m.reexports.filter fun r => r.1.names.isNone).filterMap fun r => r.2.target?

def targets (m : Module) : List FileId :=
  m.resolutions.filterMap Resolution.target? ++ m.resources.filterMap (·.file)

/-- Whether names are passed on from a file, and the file is no resource of the module. -/
def passesOn (m : Module) (target : FileId) : Bool :=
  (m.reexports.any fun r => r.2.target? = some target) &&
    !(m.resources.any fun r => r.file = some target)

def templateRef? (m : Module) (component : Nat) : Option ResourceRef :=
  m.resources.find? fun r => r.component = component && r.kind = .template

def styleRefs (m : Module) (component : Nat) : List ResourceRef :=
  m.resources.filter fun r => r.component = component && r.kind = .style

end Module

structure Program where
  files : SourceTable
  modules : OrdMap FileId Module
  /-- The file that each type-check shadow was made for. -/
  origins : OrdMap FileId FileId
  roots : List FileId
  missingRoots : List Path
deriving DecidableEq, Repr

namespace Program

def empty : Program := ⟨OrdMap.empty, OrdMap.empty, OrdMap.empty, [], []⟩

instance : Inhabited Program := ⟨empty⟩

def file? (p : Program) (id : FileId) : Option SourceFile := OrdMap.get? p.files id

def members (p : Program) : List SourceFile := OrdMap.values p.files

def contains (p : Program) (id : FileId) : Bool := OrdMap.contains p.files id

def module? (p : Program) (id : FileId) : Option Module := p.modules.get? id

def hasKind (p : Program) (id : FileId) (kind : SourceKind) : Bool :=
  match p.file? id with
  | some f => f.kind = kind
  | none => false

def isScript (p : Program) (id : FileId) : Bool := p.hasKind id .script

def dependencies (p : Program) (id : FileId) : OrdSet FileId :=
  match p.module? id with
  | none => OrdMap.empty
  | some m => OrdSet.ofList m.targets

/-- The files that refer to a file, each with whether it passes names on from there. -/
def importers (p : Program) (id : FileId) : List (FileId × Bool) :=
  p.modules.entries.filterMap fun e =>
    if e.2.targets.contains id then some (e.1, e.2.passesOn id) else none

def directExports (p : Program) (id : FileId) : List String :=
  match p.module? id with
  | none => []
  | some m => OrdSet.toList m.outline.directExports

def starTargets (p : Program) (id : FileId) : List FileId :=
  match p.module? id with
  | none => []
  | some m => m.starTargets

/-- All names that a module exports: its own, and those of the modules behind its star
re-exports, except their default exports. -/
def exportedNames (p : Program) (id : FileId) : OrdSet String :=
  let behind := Closure.closure p.starTargets p.modules.size (p.starTargets id)
  OrdSet.ofList (p.directExports id ++
    (behind.flatMap p.directExports).filter fun name => name ≠ "default")

/-- The digest of what other files can see of a file: for modules their exports, with the names
behind star re-exports, and for other files their text. -/
def signature? (p : Program) (id : FileId) : Option Digest :=
  match p.module? id with
  | none => (p.file? id).map SourceFile.version
  | some m =>
      if m.outline.reexports.all fun r => r.names.isSome then some m.outline.signature
      else some (Digest.ofParts
        (m.outline.signature.toData :: (OrdSet.toList (p.exportedNames id)).map String.toUTF8))

/-- The paths to watch: all files but shadows, and the resources that are present. -/
def referenced (p : Program) : OrdSet Path :=
  OrdSet.ofList
    ((p.members.filter fun f => f.kind ≠ .typeCheckShadow).map (·.path) ++
      p.modules.values.flatMap fun m => (m.resources.filter (·.present)).map (·.path))

end Program

end Recompile
