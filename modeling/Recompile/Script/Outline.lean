import Recompile.Data.OrdMap
import Recompile.Digest.Basic
import Recompile.Source.Basic

/-!
The outline of a module: what it imports and exports, its components, and the spans of its
type-only statements.
-/

namespace Recompile.Script

structure ImportBinding where
  imported : String
  name : String
  span : Span
  typeOnly : Bool
deriving DecidableEq, Repr, Inhabited

structure Import where
  specifier : String
  specifierSpan : Span
  bindings : List ImportBinding
  typeOnly : Bool
  span : Span
deriving DecidableEq, Repr, Inhabited

structure ReexportName where
  imported : String
  exported : String
  span : Span
deriving DecidableEq, Repr, Inhabited

/-- A statement that passes names on; without a list it passes all names on. -/
structure Reexport where
  specifier : String
  specifierSpan : Span
  names : Option (List ReexportName)
  typeOnly : Bool
deriving DecidableEq, Repr, Inhabited

structure Export where
  name : String
  inner : Option String
  span : Span
deriving DecidableEq, Repr, Inhabited

structure DynamicImport where
  specifier : String
  specifierSpan : Span
deriving DecidableEq, Repr, Inhabited

inductive TemplateSource where
  | inline (text : String) (literal : Span)
  | external (url : String) (literal property : Span)
deriving DecidableEq, Repr, Inhabited

structure ResourceUrl where
  url : String
  literal : Span
deriving DecidableEq, Repr, Inhabited

structure InlineStyle where
  text : String
  literal : Span
deriving DecidableEq, Repr, Inhabited

structure Metadata where
  template : Option TemplateSource
  styleUrls : List ResourceUrl
  styleUrlsProperty : Option Span
  /-- What is to be removed to take that property out. -/
  styleUrlsRemoval : Option Span
  inlineStyles : List InlineStyle
  stylesValue : Option Span
deriving DecidableEq, Repr, Inhabited

structure Component extends Metadata where
  className : String
  classSpan : Span
  members : List String
deriving DecidableEq, Repr, Inhabited

structure Outline where
  imports : List Import
  dynamicImports : List DynamicImport
  exports : List Export
  reexports : List Reexport
  components : List Component
  /-- Spans of statements that vanish on emission. -/
  erased : List Span
  /-- Names read anywhere but after a dot. -/
  references : OrdSet String
  /-- The declared surface of each name declared at the top. -/
  surfaces : OrdMap String String
deriving DecidableEq, Repr

namespace Outline

def empty : Outline := ⟨[], [], [], [], [], [], OrdMap.empty, OrdMap.empty⟩

instance : Inhabited Outline := ⟨empty⟩

/-- The specifiers of imports, re-exports and dynamic imports, in that order. -/
def specifiers (o : Outline) : List (String × Span) :=
  o.imports.map (fun i => (i.specifier, i.specifierSpan)) ++
    o.reexports.map (fun r => (r.specifier, r.specifierSpan)) ++
    o.dynamicImports.map (fun d => (d.specifier, d.specifierSpan))

/-- The names the module exports by itself or by naming them in a re-export. -/
def directExports (o : Outline) : OrdSet String :=
  OrdSet.ofList (o.exports.map (·.name) ++
    o.reexports.flatMap fun r => (r.names.getD []).map (·.exported))

/-- The surface of an export: that of the declaration it names, or else that name. -/
def surfaceOf (o : Outline) (e : Export) : String :=
  match e.inner with
  | none => ""
  | some inner => (o.surfaces.get? inner).getD inner

def pairBefore (a b : String × String) : Bool := (compare a.1 b.1).then (compare a.2 b.2) != .gt

def reexportParts (r : Reexport) : List String :=
  r.specifier :: match r.names with
    | none => ["*"]
    | some names => names.flatMap fun n => [n.imported, n.exported]

/-- What the signature consists of: the exports with their surfaces in order, then the
re-exports. -/
def signatureParts (o : Outline) : List String :=
  ((o.exports.map fun e => (e.name, o.surfaceOf e)).mergeSort pairBefore).flatMap
      (fun p => [p.1, p.2]) ++
    o.reexports.flatMap reexportParts

/-- The digest of what other modules can see of this one. -/
def signature (o : Outline) : Digest := Digest.ofParts (o.signatureParts.map String.toUTF8)

end Outline

end Recompile.Script
