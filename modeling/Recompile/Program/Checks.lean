import Recompile.Options.Basic
import Recompile.Program.Shadow

/-!
Checks of a program: its roots, the imports of each module, and the templates of its components.
-/

namespace Recompile.Check

def noInputs : Code := ⟨.config, 18003⟩

def fileNotFound : Code := ⟨.config, 6053⟩

def cannotFindModule : Code := ⟨.semantic, 2307⟩

def noExportedMember : Code := ⟨.semantic, 2305⟩

def unusedImport : Code := ⟨.lint, 6133⟩

def unknownTemplateProperty : Code := ⟨.template, 2339⟩

def missingResource : Code := ⟨.template, 2001⟩

/-- Findings about the roots of a build. -/
def global (p : Program) (o : Options) (roots : List Path) : List Diagnostic :=
  (if roots.isEmpty then
    [Diagnostic.error noInputs
      ("No inputs were found in config file '" ++ o.configPath.text ++ "'.") Span.none]
  else []) ++
  p.missingRoots.map fun r =>
    Diagnostic.error fileNotFound ("File '" ++ r.text ++ "' not found.") Span.none

def unresolved (m : Module) : List Diagnostic :=
  ((m.outline.specifiers.zip m.resolutions).filter fun s => s.2 = .unresolved).map fun s =>
    Diagnostic.error cannotFindModule
      ("Cannot find module '" ++ s.1.1 ++ "' or its corresponding type declarations.") s.1.2

def member (p : Program) (target : FileId) (specifier name : String) (span : Span) :
    List Diagnostic :=
  if name = "*" || (p.exportedNames target).contains name then []
  else if name = "default" then
    [Diagnostic.error noExportedMember
      ("Module '\"" ++ specifier ++ "\"' has no default export.") span]
  else
    [Diagnostic.error noExportedMember
      ("Module '\"" ++ specifier ++ "\"' has no exported member '" ++ name ++ "'.") span]

def importMembers (p : Program) (i : Script.Import × Resolution) : List Diagnostic :=
  match i.2.target? with
  | none => []
  | some target => i.1.bindings.flatMap fun b => member p target i.1.specifier b.imported b.span

def reexportMembers (p : Program) (r : Script.Reexport × Resolution) : List Diagnostic :=
  match r.2.target? with
  | none => []
  | some target =>
      (r.1.names.getD []).flatMap fun n => member p target r.1.specifier n.imported n.span

def unused (m : Module) : List Diagnostic :=
  ((m.outline.imports.flatMap (·.bindings)).filter fun b =>
    !m.outline.references.contains b.name).map fun b =>
      Diagnostic.warning unusedImport
        ("'" ++ b.name ++ "' is declared but its value is never read.") b.span

def semantic (p : Program) (id : FileId) : List Diagnostic :=
  match p.module? id with
  | none => []
  | some m =>
      unresolved m ++ m.imports.flatMap (importMembers p) ++
        m.reexports.flatMap (reexportMembers p) ++ (if p.hasKind id .declaration then [] else unused m)

def missing (m : Module) : List Diagnostic :=
  (m.resources.filter fun r => !r.present).map fun r =>
    let what := if r.kind = .template then "template" else "stylesheet"
    Diagnostic.error missingResource
      ("Could not find " ++ what ++ " file '" ++ r.url ++ "'.") r.literal

/-- Names that a template reads and its component does not have. -/
def unknownNames (p : Program) (id : FileId) (m : Module) (component : Nat)
    (c : Script.Component) : List Diagnostic :=
  match Shadow.template? p id m component c with
  | none => []
  | some (text, file, base) =>
      ((Template.analyze text).componentBindings.filter fun b => !c.members.contains b.name).map
        fun b =>
          let start := base + b.offset
          Diagnostic.error unknownTemplateProperty
            ("Property '" ++ b.name ++ "' does not exist on type '" ++ c.className ++ "'.")
            ⟨file, start, start + Text.width b.name.toList⟩

/-- Findings about the templates of a module; names are checked in strict mode only. -/
def templates (p : Program) (id : FileId) (strict : Bool) : List Diagnostic :=
  match p.module? id with
  | none => []
  | some m =>
      missing m ++
        if strict then (m.outline.components.mapIdx (unknownNames p id m)).flatten else []

end Recompile.Check
