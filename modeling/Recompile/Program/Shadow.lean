import Recompile.Program.Basic
import Recompile.Source.Registry
import Recompile.Template.Fragments

/-!
Type-check shadows: for each script with components a further file, whose text says all that the
check of its templates depends on.
-/

namespace Recompile

namespace Shadow

def path (script : Path) : Path := script.beside ".typecheck.ts"

/-- The text of a component's template and the file and offset that its places refer to. -/
def template? (p : Program) (id : FileId) (m : Module) (component : Nat)
    (c : Script.Component) : Option (String × FileId × Nat) :=
  match c.template with
  | none => none
  | some (.inline text literal) => some (text, id, literal.start + 1)
  | some (.external ..) => do
      let file ← (← m.templateRef? component).file
      let f ← p.file? file
      return (f.text, f.id, 0)

def bindingText (b : Template.Binding) : String := b.name ++ "@" ++ toString b.offset

def componentText (p : Program) (id : FileId) (m : Module) (component : Nat)
    (c : Script.Component) : String :=
  let bindings := match template? p id m component c with
    | none => "<none>"
    | some (text, _) =>
        ", ".intercalate ((Template.analyze text).componentBindings.map bindingText)
  "// component " ++ c.className ++ "\n//   members: " ++ ", ".intercalate c.members ++
    "\n//   bindings: " ++ bindings ++ "\n"

def importText (p : Program) (i : Script.Import × Resolution) : String :=
  match i.2.target? with
  | none => ""
  | some target =>
      "// import " ++ i.1.specifier ++ ": " ++
        ", ".intercalate (OrdSet.toList (p.exportedNames target)) ++ "\n"

def text (p : Program) (id : FileId) (m : Module) : String :=
  String.join (m.outline.components.mapIdx (componentText p id m)) ++
    String.join (m.imports.map (importText p))

def origins (p : Program) : List FileId :=
  (p.modules.entries.filter fun e =>
    !e.2.outline.components.isEmpty && p.isScript e.1).map (·.1)

def add (state : Program × Registry) (origin : FileId) : Program × Registry :=
  let (p, registry) := state
  match p.file? origin, p.module? origin with
  | some f, some m =>
      let (id, registry) := registry.intern (path f.path)
      let shadow : SourceFile := ⟨id, path f.path, text p origin m, .typeCheckShadow⟩
      ({ p with files := p.files.add shadow, origins := p.origins.insert id origin }, registry)
  | _, _ => state

/-- Adds the shadows of all scripts with components, in the order of their identities. -/
def addAll (p : Program) (registry : Registry) : Program × Registry :=
  (origins p).foldl add (p, registry)

end Shadow

end Recompile
