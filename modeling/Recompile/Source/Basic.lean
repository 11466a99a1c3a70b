import Recompile.Digest.Basic
import Recompile.Path.Basic

/-!
Source files: their identities, their kinds, and spans of their text.
-/

namespace Recompile

abbrev FileId := Nat

def noFile : FileId := 4294967295

inductive SourceKind where
  | script
  | declaration
  | template
  | style
  | typeCheckShadow
deriving DecidableEq, Repr, Inhabited

namespace SourceKind

def hasEnding (name : List Char) (endings : List String) : Bool :=
  endings.any fun e => Text.endsWith e.toList name

def ofPath (p : Path) : SourceKind :=
  let name := (p.fileName?.getD "").toList
  if hasEnding name [".d.ts"] then .declaration
  else if hasEnding name [".html", ".htm", ".svg"] then .template
  else if hasEnding name [".css", ".scss", ".sass", ".less"] then .style
  else .script

def isModule : SourceKind → Bool
  | script | declaration | typeCheckShadow => true
  | template | style => false

end SourceKind

/-- A range of bytes of a file. Nothing keeps the end from lying before the start. -/
structure Span where
  file : FileId
  start : Nat
  stop : Nat
deriving DecidableEq, Repr, Inhabited

namespace Span

def none : Span := ⟨noFile, 0, 0⟩

def isEmpty (s : Span) : Bool := s.start = s.stop

/-- The number of bytes; a span that ends before it starts has none. -/
def size? (s : Span) : Option Nat := if s.stop < s.start then .none else some (s.stop - s.start)

end Span

structure SourceFile where
  id : FileId
  path : Path
  text : String
  kind : SourceKind
deriving DecidableEq, Repr, Inhabited

namespace SourceFile

def version (f : SourceFile) : Digest := Digest.ofText f.text

def lines (f : SourceFile) : List (List Char) := Text.splitOn (· = '\n') f.text.toList

/-- The line and the column, both counted from one, of a byte offset in the lines that are left. -/
def locate (line : Nat) : List (List Char) → Nat → Nat × Nat
  | [], offset => (line, offset + 1)
  | [_], offset => (line, offset + 1)
  | l :: rest, offset =>
      if offset ≤ Text.width l then (line, offset + 1)
      else locate (line + 1) rest (offset - (Text.width l + 1))

/-- The line and the column of a byte offset; offsets past the end count as the end. -/
def lineColumn (f : SourceFile) (offset : Nat) : Nat × Nat :=
  locate 1 f.lines (min offset (Text.width f.text.toList))

/-- A line by its number, without line feeds and carriage returns at its end. -/
def lineText (f : SourceFile) (line : Nat) : String :=
  match line with
  | 0 => ""
  | n + 1 =>
      String.ofList (Text.trimEndBy (fun c => c = '\n' || c = '\r') ((f.lines[n]?).getD []))

def snippet? (f : SourceFile) (start stop : Nat) : Option String :=
  (Text.slice? f.text.toList start stop).map String.ofList

end SourceFile

end Recompile
