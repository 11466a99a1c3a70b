import Mathlib.Data.List.DropRight
import Mathlib.Data.List.Infix
import Mathlib.Data.Prod.Lex
import Recompile.Source.Table
import Recompile.Proofs.Source.Lines
import Recompile.Proofs.Text.Encoded

/-!
The places of messages, told by the bytes of a file: the line by the line feeds before an offset, the
column by the bytes since the last of them, and the bytes that are shown by the span.
-/

namespace Recompile

open Text (bytes encoded width)

namespace Text

def lineFeed : UInt8 := 10

def carriageReturn : UInt8 := 13

def lineBefore (bs : List UInt8) (pos : Nat) : List UInt8 := (bs.take pos).rtakeWhile (· ≠ lineFeed)

def lineAfter (bs : List UInt8) (pos : Nat) : List UInt8 := (bs.drop pos).takeWhile (· ≠ lineFeed)

/-- A position among bytes, with the index of its line, the bytes before it there, and the line. -/
structure InLine (bs : List UInt8) (pos index column : Nat) (line : List UInt8) : Prop where
  feeds : (bs.take pos).count lineFeed = index
  column : (lineBefore bs pos).length = column
  line : lineBefore bs pos ++ lineAfter bs pos = line

namespace InLine

variable {bs rest line line' : List UInt8} {pos pos' index index' column column' : Nat}

theorem within (hline : lineFeed ∉ line) (hrest : rest.takeWhile (· ≠ lineFeed) = [])
    (hpos : pos ≤ line.length) : InLine (line ++ rest) pos 0 pos line := by
  have htake : ∀ b ∈ line.take pos, b ≠ lineFeed := fun b hb h => hline (h ▸ List.mem_of_mem_take hb)
  have hdrop : ∀ b ∈ line.drop pos, b ≠ lineFeed := fun b hb h => hline (h ▸ List.mem_of_mem_drop hb)
  have hbefore : lineBefore (line ++ rest) pos = line.take pos := by
    rw [lineBefore, List.take_append_of_le_length hpos, List.rtakeWhile_eq_self_iff]
    simpa using htake
  have hafter : lineAfter (line ++ rest) pos = line.drop pos := by
    rw [lineAfter, List.drop_append_of_le_length hpos,
      List.takeWhile_append_of_pos (by simpa using hdrop), hrest, List.append_nil]
  refine ⟨?_, ?_, ?_⟩
  · rw [List.take_append_of_le_length hpos]
    exact List.count_eq_zero_of_not_mem fun hmem => htake _ hmem rfl
  · rw [hbefore, List.length_take_of_le hpos]
  · rw [hbefore, hafter, List.take_append_drop]

theorem mono (h : InLine bs pos index column line) (h' : InLine bs pos' index' column' line')
    (hle : pos ≤ pos') : toLex (index, column) ≤ toLex (index', column') := by
  obtain ⟨mid, hmid⟩ := List.take_prefix_take_left hle (l := bs)
  have hcount : index + mid.count lineFeed = index' := by
    rw [← h.feeds, ← h'.feeds, ← hmid, List.count_append]
  rw [Prod.Lex.toLex_le_toLex]
  rcases Nat.eq_zero_or_pos (mid.count lineFeed) with hzero | hpos
  · -- without a line feed in between, what stands before the later position only grows
    have hno : ∀ b ∈ mid, b ≠ lineFeed := fun b hb heq =>
      List.count_eq_zero.mp hzero (heq ▸ hb)
    have hgrow : lineBefore bs pos' = lineBefore bs pos ++ mid := by
      rw [lineBefore, ← hmid, List.rtakeWhile, List.reverse_append,
        List.takeWhile_append_of_pos (by simpa using hno), List.reverse_append, List.reverse_reverse]
      rfl
    refine .inr ⟨by omega, ?_⟩
    rw [← h.column, ← h'.column, hgrow, List.length_append]
    exact Nat.le_add_right ..
  · exact .inl (by omega)

end InLine

end Text

open Text (lineFeed carriageReturn lineBefore lineAfter InLine)

namespace SourceFile

end SourceFile

namespace Location

/-- A place that tells truly where a span starts in a file, and what stands there. -/
structure Faithful (f : SourceFile) (span : Span) (l : Location) : Prop where
  file : l.file = f.path.toSlash
  line : l.line = 1 + ((bytes f.text).take span.start).count lineFeed
  column : l.column = (lineBefore (bytes f.text) span.start).length
  lineText : bytes l.lineText =
    (lineBefore (bytes f.text) span.start ++ lineAfter (bytes f.text) span.start).rdropWhile
      (· = carriageReturn)
  shown : ((bytes l.lineText).drop l.column).take l.length =
    ((bytes f.text).drop span.start).take l.length
  /-- The whole span is shown, or what the line has of it. -/
  length : l.length = span.stop - span.start ∨
    l.length < span.stop - span.start ∧ (bytes l.lineText).length ≤ l.column + l.length
  /-- Nothing of a line terminator is shown. -/
  terminator : (∀ b ∈ lineAfter (bytes f.text) span.start, b = carriageReturn) → l.length = 0

end Location

namespace Message

end Message

end Recompile
