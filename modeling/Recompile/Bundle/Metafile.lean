import Recompile.Json.Decode
import Recompile.Json.Parser

/-!
Metafiles: the inputs and outputs of a bundling pass and the imports between them.
-/

namespace Recompile.Bundle

inductive ImportKind where
  | entryPoint
  | importStatement
  | requireCall
  | dynamicImport
  | requireResolve
  | importRule
  | composesFrom
  | urlToken
deriving DecidableEq, Repr, Inhabited

namespace ImportKind

def name : ImportKind → String
  | entryPoint => "entry-point"
  | importStatement => "import-statement"
  | requireCall => "require-call"
  | dynamicImport => "dynamic-import"
  | requireResolve => "require-resolve"
  | importRule => "import-rule"
  | composesFrom => "composes-from"
  | urlToken => "url-token"

def ofName? (s : String) : Option ImportKind :=
  [entryPoint, importStatement, requireCall, dynamicImport, requireResolve, importRule,
    composesFrom, urlToken].find? fun k => k.name = s

def isStatic (k : ImportKind) : Bool := k = importStatement || k = importRule

end ImportKind

/-- An import, by path or, when the target stays outside the bundle, by specifier. -/
structure ImportEdge where
  path : String
  kind : ImportKind
  external : Bool
deriving DecidableEq, Repr, Inhabited

structure InputEntry where
  bytes : Nat
  imports : List ImportEdge
deriving DecidableEq, Repr, Inhabited

structure OutputEntry where
  bytes : Nat
  /-- The input that the output was generated for. -/
  entryPoint : Option String
  imports : List ImportEdge
deriving DecidableEq, Repr, Inhabited

structure Metafile where
  inputs : OrdMap String InputEntry
  outputs : OrdMap String OutputEntry
deriving DecidableEq, Repr, Inhabited

open Json (required defaulted fieldValues)

namespace ImportEdge

def toJson (e : ImportEdge) : Json :=
  Json.record ([("path", Json.text e.path), ("kind", Json.text e.kind.name)] ++
    if e.external then [("external", .bool true)] else [])

def ofJson? (v : Json) : Option ImportEdge := do
  match ← fieldValues [required "path", required "kind", defaulted "external" (.bool false)] v with
  | [path, kind, external] =>
      return ⟨← Json.Read.text path, ← Json.Read.variant ImportKind.ofName? kind,
        ← Json.Read.bool external⟩
  | _ => none

end ImportEdge

def readSize : Json.Reader Nat := Json.Read.natBelow 18446744073709551616

namespace InputEntry

def toJson (e : InputEntry) : Json :=
  Json.record [("bytes", Json.nat e.bytes), ("imports", Json.list ImportEdge.toJson e.imports)]

def ofJson? (v : Json) : Option InputEntry := do
  match ← fieldValues [defaulted "bytes" (Json.nat 0), defaulted "imports" (.array [])] v with
  | [bytes, imports] => return ⟨← readSize bytes, ← Json.Read.list ImportEdge.ofJson? imports⟩
  | _ => none

end InputEntry

namespace OutputEntry

def toJson (e : OutputEntry) : Json :=
  Json.record ([("bytes", Json.nat e.bytes)] ++ Json.present "entryPoint" Json.text e.entryPoint ++
    [("imports", Json.list ImportEdge.toJson e.imports)])

def ofJson? (v : Json) : Option OutputEntry := do
  match ← fieldValues [defaulted "bytes" (Json.nat 0), defaulted "entryPoint" .null,
      defaulted "imports" (.array [])] v with
  | [bytes, entryPoint, imports] =>
      return ⟨← readSize bytes, ← Json.Read.option Json.Read.text entryPoint,
        ← Json.Read.list ImportEdge.ofJson? imports⟩
  | _ => none

end OutputEntry

namespace Metafile

def empty : Metafile := ⟨OrdMap.empty, OrdMap.empty⟩

def toJson (m : Metafile) : Json :=
  Json.record [("inputs", Json.record (m.inputs.entries.map fun e => (e.1, e.2.toJson))),
    ("outputs", Json.record (m.outputs.entries.map fun e => (e.1, e.2.toJson)))]

def ofJson? (v : Json) : Option Metafile := do
  match ← fieldValues [defaulted "inputs" (.object []), defaulted "outputs" (.object [])] v with
  | [inputs, outputs] =>
      return ⟨← Json.Read.dict InputEntry.ofJson? inputs, ← Json.Read.dict OutputEntry.ofJson? outputs⟩
  | _ => none

def parse? (text : String) : Option Metafile := (Json.parse? text).bind ofJson?

def merge (a b : Metafile) : Metafile :=
  ⟨b.inputs.entries.foldl (fun m e => m.insert e.1 e.2) a.inputs,
   b.outputs.entries.foldl (fun m e => m.insert e.1 e.2) a.outputs⟩

end Metafile

end Recompile.Bundle
