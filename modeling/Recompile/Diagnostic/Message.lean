import Recompile.Diagnostic.Basic

/-!
Messages: findings as they are shown, with the line they are about, and their collection.
-/

namespace Recompile

/-- A place in a file: the line counted from one, the column in bytes from zero. -/
structure Location where
  file : String
  line : Nat
  column : Nat
  length : Nat
  lineText : String
deriving DecidableEq, Repr, Inhabited

structure Note where
  text : String
  location : Option Location
deriving DecidableEq, Repr, Inhabited

structure Message where
  text : String
  location : Option Location
  notes : List Note
  detail : Option Diagnostic
deriving DecidableEq, Repr, Inhabited

def Message.plain (text : String) : Message := ⟨text, none, [], none⟩

inductive SpanError where
  | reversed
deriving DecidableEq, Repr

/-- The place of a span of a known size in a file. The length stays within the line. -/
def Location.inFile (f : SourceFile) (start size : Nat) : Location :=
  let (line, column) := f.lineColumn start
  let lineText := f.lineText line
  ⟨f.path.toSlash, line, column - 1, min size (Text.width lineText.toList - (column - 1)),
    lineText⟩

/-- The place of a span; there is none when its file is not in the table. -/
def Location.ofSpan (t : SourceTable) (span : Span) : Except SpanError (Option Location) :=
  match OrdMap.get? t span.file with
  | none => .ok none
  | some f =>
      match span.size? with
      | some size => .ok (some (Location.inFile f span.start size))
      | none => .error .reversed

def Note.ofRelated (t : SourceTable) (r : RelatedSpan) : Except SpanError Note :=
  (Location.ofSpan t r.span).map (Note.mk r.message)

/-- The message of a finding: related spans become notes with places, and plain notes follow. -/
def Message.ofDiagnostic (t : SourceTable) (d : Diagnostic) : Except SpanError Message := do
  let location ← Location.ofSpan t d.span
  let related ← d.related.mapM (Note.ofRelated t)
  return ⟨d.code.display ++ ": " ++ d.message, location,
    related ++ d.notes.map (fun n => ⟨n, none⟩), some d⟩

structure Collected where
  errors : List Message
  warnings : List Message
deriving DecidableEq, Repr, Inhabited

namespace Collected

def empty : Collected := ⟨[], []⟩

def isEmpty (c : Collected) : Bool := c.errors.isEmpty && c.warnings.isEmpty

def add (c : Collected) (severity : Severity) (m : Message) : Collected :=
  match severity with
  | .error => { c with errors := c.errors ++ [m] }
  | .warning => { c with warnings := c.warnings ++ [m] }

def append (c d : Collected) : Collected := ⟨c.errors ++ d.errors, c.warnings ++ d.warnings⟩

end Collected

/-- A collection that is emptied when it is taken, and remembers whether it ever held an error. -/
structure Sink where
  held : Collected
  failed : Bool
deriving DecidableEq, Repr, Inhabited

namespace Sink

def empty : Sink := ⟨Collected.empty, false⟩

def report (s : Sink) (severity : Severity) (m : Message) : Sink :=
  ⟨s.held.add severity m, s.failed || severity = .error⟩

def take (s : Sink) : Collected × Sink := (s.held, { s with held := Collected.empty })

end Sink

end Recompile
