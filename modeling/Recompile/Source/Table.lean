import Recompile.Data.OrdMap
import Recompile.Source.Basic

/-!
The files of one program by their identities, and spans resolved to lines and columns.
-/

namespace Recompile

abbrev SourceTable := OrdMap FileId SourceFile

structure ResolvedSpan where
  path : Path
  start : Nat × Nat
  stop : Nat × Nat
deriving DecidableEq, Repr

def ResolvedSpan.display (r : ResolvedSpan) : String :=
  r.path.text ++ ":" ++ toString r.start.1 ++ ":" ++ toString r.start.2

namespace SourceTable

def add (t : SourceTable) (f : SourceFile) : SourceTable := OrdMap.insert t f.id f

def resolve? (t : SourceTable) (span : Span) : Option ResolvedSpan := do
  let f ← OrdMap.get? t span.file
  return ⟨f.path, f.lineColumn span.start, f.lineColumn (max (span.stop - 1) span.start)⟩

end SourceTable

end Recompile
