import Recompile.Emit.Splice
import Recompile.Emit.Stylesheets
import Recompile.Json.Printer

/-!
The output of a script: its text without type-only statements, and with the resources of its
components either written into it or left to be imported.
-/

namespace Recompile

structure Emitted where
  file : FileId
  filename : Path
  contents : String
  /-- The resources written into the output, when they are. -/
  dependencies : Option (List Path)
deriving DecidableEq, Repr

namespace Emit

def outputPath (script : Path) : Path := script.beside ".js"

/-- The script and its module; none for files without output. -/
def scriptOf? (p : Program) (id : FileId) : Option (SourceFile × Module) := do
  let f ← p.file? id
  let m ← p.module? id
  if f.kind = .script then some (f, m) else none

def erasures (m : Module) : List Edit := m.outline.erased.map fun s => Edit.replace s ""

def styleEdits (c : Script.Component) (values : List String) : List Edit :=
  let list := "[" ++ ", ".intercalate values ++ "]"
  match c.stylesValue, c.styleUrlsProperty with
  | some value, some _ =>
      Edit.replace value list :: (c.styleUrlsRemoval.map fun r => Edit.replace r "").toList
  | none, some property => [Edit.replace property ("styles: " ++ list)]
  | some value, none => [Edit.replace value list]
  | none, none => []

structure Inlining where
  edits : List Edit
  sources : List Path
deriving DecidableEq, Repr

def inlineTemplate (p : Program) (m : Module) (component : Nat) (c : Script.Component) : Inlining :=
  match c.template with
  | some (.external _ _ property) =>
      match (m.templateRef? component).bind fun r => r.file.bind p.file? with
      | some f => ⟨[Edit.replace property ("template: " ++ Json.quoted f.text)], [f.path]⟩
      | none => ⟨[], []⟩
  | _ => ⟨[], []⟩

/-- Writes the styles of a component into it, unless one of its stylesheets is missing. -/
def inlineStyles (p : Program) (styles : Stylesheets) (id : FileId) (m : Module)
    (component : Nat) (c : Script.Component) : Inlining :=
  let refs := m.styleRefs component
  if refs.any fun r => r.file.isNone then ⟨[], []⟩
  else
    let sheets := refs.filterMap fun r => r.file.bind p.file?
    let values :=
      (c.inlineStyles.mapIdx fun order style =>
        Json.quoted ((styles.contents? (.inline id component order)).getD style.text)) ++
      sheets.map fun f => Json.quoted ((styles.contents? (.file f.id)).getD f.text)
    ⟨if values.isEmpty then [] else styleEdits c values, sheets.map (·.path)⟩

def inlineComponent (p : Program) (styles : Stylesheets) (id : FileId) (m : Module)
    (component : Nat) (c : Script.Component) : Inlining :=
  let template := inlineTemplate p m component c
  let rest := inlineStyles p styles id m component c
  ⟨template.edits ++ rest.edits, template.sources ++ rest.sources⟩

def inlined (p : Program) (styles : Stylesheets) (id : FileId) : Except CutError (Option Emitted) :=
  match scriptOf? p id with
  | none => .ok none
  | some (f, m) => do
      let parts := m.outline.components.mapIdx (inlineComponent p styles id m)
      let contents ← Edit.apply f.text (erasures m ++ parts.flatMap (·.edits))
      return some ⟨id, outputPath f.path, contents, some (parts.flatMap (·.sources))⟩

def resourceName (n : Nat) : String := "__kiln_resource_" ++ toString n ++ "__"

def importLine (n : Nat) (url : String) : String :=
  "import " ++ resourceName n ++ " from " ++ Json.quoted (url ++ "?kiln-resource") ++ ";\n"

structure Deferral where
  edits : List Edit
  urls : List String
deriving DecidableEq, Repr

def deferTemplate (d : Deferral) (c : Script.Component) : Deferral :=
  match c.template with
  | some (.external url _ property) =>
      ⟨d.edits ++ [Edit.replace property ("template: " ++ resourceName d.urls.length)],
        d.urls ++ [url]⟩
  | _ => d

/-- Refers a component to its stylesheets by imports; styles that stand in it stay as they are. -/
def deferStyles (f : SourceFile) (d : Deferral) (c : Script.Component) :
    Except CutError Deferral :=
  if c.styleUrls.isEmpty then .ok d
  else match c.inlineStyles.mapM fun s => f.snippet? s.literal.start s.literal.stop with
    | none => .error .misaligned
    | some texts =>
        let names := c.styleUrls.mapIdx fun n _ => resourceName (d.urls.length + n)
        .ok ⟨d.edits ++ styleEdits c (texts ++ names), d.urls ++ c.styleUrls.map (·.url)⟩

def deferAll (f : SourceFile) : Deferral → List Script.Component → Except CutError Deferral
  | d, [] => .ok d
  | d, c :: rest => do deferAll f (← deferStyles f (deferTemplate d c) c) rest

def importEdits (urls : List String) : List Edit :=
  if urls.isEmpty then [] else [⟨0, 0, String.join (urls.mapIdx importLine)⟩]

def deferred (p : Program) (id : FileId) : Except CutError (Option Emitted) :=
  match scriptOf? p id with
  | none => .ok none
  | some (f, m) => do
      let d ← deferAll f ⟨erasures m, []⟩ m.outline.components
      let contents ← Edit.apply f.text (d.edits ++ importEdits d.urls)
      return some ⟨id, outputPath f.path, contents, none⟩

/-- What a resource adds to the fingerprint of the output it is written into. -/
def resourceParts (p : Program) (r : ResourceRef) : List ByteArray :=
  [r.path.toSlash.toUTF8,
   match r.file.bind p.file? with
   | some f => f.version.toData
   | none => "<missing>".toUTF8]

/-- The digest of all that the output of a script with its resources in it is made from. -/
def fingerprint? (p : Program) (id : FileId) (options : Digest) : Option Digest :=
  (p.file? id).map fun f =>
    Digest.ofParts ([f.version.toData, options.toData] ++
      (match p.module? id with
        | none => []
        | some m => m.resources.flatMap (resourceParts p)))

end Emit

end Recompile
