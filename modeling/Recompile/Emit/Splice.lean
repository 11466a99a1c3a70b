import Recompile.Source.Basic

/-!
Edits of a text by byte ranges.

Edits are applied from left to right; one that starts before the end of the last one applied is
dropped. A range that cuts a character, or ends past the text, has no result.
-/

namespace Recompile

/-- A cut inside a character, or past the end of a text. -/
inductive CutError where
  | misaligned
deriving DecidableEq, Repr

structure Edit where
  start : Nat
  stop : Nat
  text : String
deriving DecidableEq, Repr

namespace Edit

def replace (span : Span) (text : String) : Edit := ⟨span.start, span.stop, text⟩

def before (a b : Edit) : Bool :=
  a.start < b.start || (a.start = b.start && a.stop ≤ b.stop)

/-- Applies edits in their order to the text from a byte offset on. -/
def splice? (source : List Char) : Nat → List Edit → Option (List Char)
  | cursor, [] => (Text.splitAt? source cursor).map (·.2)
  | cursor, e :: rest =>
      if e.start < cursor then splice? source cursor rest
      else do
        let kept ← Text.slice? source cursor e.start
        let tail ← splice? source e.stop rest
        return kept ++ e.text.toList ++ tail

def applied? (source : String) (edits : List Edit) : Option String :=
  (splice? source.toList 0 (edits.mergeSort before)).map String.ofList

def apply (source : String) (edits : List Edit) : Except CutError String :=
  match applied? source edits with
  | some text => .ok text
  | none => .error .misaligned

end Edit

end Recompile
