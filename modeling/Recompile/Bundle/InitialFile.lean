import Recompile.Json.Decode
import Recompile.Text.Basic

/-!
Records of initial files, the outputs that load with the entry points.
-/

namespace Recompile.Bundle

inductive FileType where
  | script
  | style
deriving DecidableEq, Repr, Inhabited

namespace FileType

def name : FileType → String
  | script => "script"
  | style => "style"

def ofName? (s : String) : Option FileType := [script, style].find? fun t => t.name = s

def ofPath (path : String) : FileType :=
  if Text.endsWith ".css".toList path.toList then style else script

end FileType

structure InitialFile where
  name : Option String
  fileType : FileType
  entrypoint : Bool
  external : Option Bool
deriving DecidableEq, Repr, Inhabited

namespace InitialFile

open Json (required defaulted fieldValues)

def toJson (f : InitialFile) : Json :=
  Json.record (Json.present "name" Json.text f.name ++
    [("type", Json.text f.fileType.name), ("entrypoint", .bool f.entrypoint)] ++
    Json.present "external" Json.bool f.external)

def ofJson? (v : Json) : Option InitialFile := do
  match ← fieldValues [defaulted "name" .null, required "type", required "entrypoint",
      defaulted "external" .null] v with
  | [name, fileType, entrypoint, external] =>
      return ⟨← Json.Read.option Json.Read.text name,
        ← Json.Read.variant FileType.ofName? fileType, ← Json.Read.bool entrypoint,
        ← Json.Read.option Json.Read.bool external⟩
  | _ => none

end InitialFile

abbrev InitialFiles := OrdMap String InitialFile

/-- The files of both; later records win, but an entry point stays one. -/
def mergeInitial (a b : InitialFiles) : InitialFiles :=
  b.entries.foldl (fun m e =>
    let was := ((m.get? e.1).map (·.entrypoint)).getD false
    m.insert e.1 { e.2 with entrypoint := e.2.entrypoint || was }) a

end Recompile.Bundle
