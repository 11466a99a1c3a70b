import Recompile.Diagnostic.Message
import Recompile.Json.Decode

/-!
The JSON form of digests, spans, diagnostics and messages, written and read.
-/

namespace Recompile

open Json (required nullable defaulted fieldValues)

def Digest.toJson (d : Digest) : Json := Json.list (fun b => Json.nat b.toNat) d.toBytes

def Digest.ofJson? (v : Json) : Option Digest := do
  let bytes ← Json.Read.list (Json.Read.natBelow 256) v
  Digest.ofBytes? (bytes.map UInt8.ofNat)

def readU32 : Json.Reader Nat := Json.Read.natBelow 4294967296

namespace Span

def toJson (s : Span) : Json :=
  Json.record [("file", Json.nat s.file), ("start", Json.nat s.start), ("end", Json.nat s.stop)]

def ofJson? (v : Json) : Option Span := do
  match ← fieldValues [required "file", required "start", required "end"] v with
  | [file, start, stop] => return ⟨← readU32 file, ← readU32 start, ← readU32 stop⟩
  | _ => none

end Span

namespace Category

def name : Category → String
  | config => "Config"
  | grammar => "Syntax"
  | semantic => "Semantic"
  | lint => "Lint"
  | template => "Template"

def ofName? (s : String) : Option Category :=
  [config, grammar, semantic, lint, template].find? fun c => c.name = s

def ofJson? : Json.Reader Category := Json.Read.variant ofName?

end Category

namespace Code

def toJson (c : Code) : Json :=
  Json.record [("category", Json.text c.category.name), ("number", Json.nat c.number)]

def ofJson? (v : Json) : Option Code := do
  match ← fieldValues [required "category", required "number"] v with
  | [category, number] =>
      return ⟨← Category.ofJson? category, ← Json.Read.natBelow 65536 number⟩
  | _ => none

end Code

namespace Severity

def ofName? (s : String) : Option Severity := [error, warning].find? fun x => x.display = s

def toJson (s : Severity) : Json := Json.text s.display

def ofJson? : Json.Reader Severity := Json.Read.variant ofName?

end Severity

namespace RelatedSpan

def toJson (r : RelatedSpan) : Json :=
  Json.record [("span", r.span.toJson), ("message", Json.text r.message)]

def ofJson? (v : Json) : Option RelatedSpan := do
  match ← fieldValues [required "span", required "message"] v with
  | [span, message] => return ⟨← Span.ofJson? span, ← Json.Read.text message⟩
  | _ => none

end RelatedSpan

namespace Diagnostic

def toJson (d : Diagnostic) : Json :=
  Json.record [("severity", d.severity.toJson), ("code", d.code.toJson),
    ("message", Json.text d.message), ("primary_span", d.span.toJson),
    ("related", Json.list RelatedSpan.toJson d.related), ("notes", Json.texts d.notes)]

def ofJson? (v : Json) : Option Diagnostic := do
  match ← fieldValues [required "severity", required "code", required "message",
      required "primary_span", required "related", required "notes"] v with
  | [severity, code, message, span, related, notes] =>
      return ⟨← Severity.ofJson? severity, ← Code.ofJson? code, ← Json.Read.text message,
        ← Span.ofJson? span, ← Json.Read.list RelatedSpan.ofJson? related,
        ← Json.Read.list Json.Read.text notes⟩
  | _ => none

end Diagnostic

namespace Location

def toJson (l : Location) : Json :=
  Json.record [("file", Json.text l.file), ("line", Json.nat l.line),
    ("column", Json.nat l.column), ("length", Json.nat l.length),
    ("lineText", Json.text l.lineText)]

def ofJson? (v : Json) : Option Location := do
  match ← fieldValues [required "file", required "line", required "column", required "length",
      required "lineText"] v with
  | [file, line, column, length, lineText] =>
      return ⟨← Json.Read.text file, ← readU32 line, ← readU32 column, ← readU32 length,
        ← Json.Read.text lineText⟩
  | _ => none

end Location

namespace Note

def toJson (n : Note) : Json :=
  Json.record ([("text", Json.text n.text)] ++ Json.present "location" Location.toJson n.location)

def ofJson? (v : Json) : Option Note := do
  match ← fieldValues [required "text", nullable "location"] v with
  | [text, location] =>
      return ⟨← Json.Read.text text, ← Json.Read.option Location.ofJson? location⟩
  | _ => none

end Note

namespace Message

def toJson (m : Message) : Json :=
  Json.record ([("text", Json.text m.text)] ++ Json.present "location" Location.toJson m.location ++
    [("notes", Json.list Note.toJson m.notes)] ++ Json.present "detail" Diagnostic.toJson m.detail)

def ofJson? (v : Json) : Option Message := do
  match ← fieldValues [required "text", nullable "location", defaulted "notes" (.array []),
      nullable "detail"] v with
  | [text, location, notes, detail] =>
      return ⟨← Json.Read.text text, ← Json.Read.option Location.ofJson? location,
        ← Json.Read.list Note.ofJson? notes, ← Json.Read.option Diagnostic.ofJson? detail⟩
  | _ => none

end Message

def Collected.toJson (c : Collected) : Json :=
  Json.record [("errors", Json.list Message.toJson c.errors),
    ("warnings", Json.list Message.toJson c.warnings), ("empty", .bool c.isEmpty)]

end Recompile
