import Recompile.Script.Delimiters
import Recompile.Script.Literal

/-!
Token sequences by position. A position past the end reads as the end mark.
-/

namespace Recompile.Script

structure Stream where
  file : FileId
  tokens : Array Token
  pairs : List (Nat × Nat)

namespace Stream

def ofTokens (file : FileId) (tokens : List Token) : Stream :=
  ⟨file, tokens.toArray, bracketPairs tokens⟩

def size (s : Stream) : Nat := s.tokens.size

def endMark (s : Stream) : Token := ⟨.eof, ⟨s.file, 0, 0⟩, "", "", none, true⟩

def token (s : Stream) (i : Nat) : Token :=
  (s.tokens[min i (s.size - 1)]?).getD s.endMark

def text (s : Stream) (i : Nat) : String := (s.token i).text

def word (s : Stream) (i : Nat) (w : String) : Bool := (s.token i).isWord w

def ident (s : Stream) (i : Nat) : Bool := (s.token i).kind = .ident

def punct (s : Stream) (i : Nat) (mark : Char) : Bool := (s.token i).isPunct mark

def oneOf (s : Stream) (i : Nat) (marks : List Char) : Bool := (s.token i).isOneOf marks

def atEnd (s : Stream) (i : Nat) : Bool := (s.token i).kind = .eof

def literal? (s : Stream) (i : Nat) : Option String := (s.token i).literal?

def isLiteral (s : Stream) (i : Nat) : Bool := (s.token i).isLiteral

def isString (s : Stream) (i : Nat) : Bool := (s.token i).kind = .string

/-- The position of the bracket that closes the one at a position. -/
def partner? (s : Stream) (i : Nat) : Option Nat :=
  (s.pairs.find? fun p => p.1 = i).map (·.2)

def groupEnd (s : Stream) (i : Nat) : Nat := (s.partner? i).getD i

def span (s : Stream) (first last : Nat) : Span :=
  ⟨s.file, (s.token first).span.start, (s.token last).span.stop⟩

def newlineBefore (s : Stream) (i : Nat) : Bool :=
  if i = 0 then true
  else if i < s.size then (s.token i).gap.toList.contains '\n'
  else false

def declarationLeads : List String := ["export", "default", "declare", "abstract", "async"]

def statementStart (s : Stream) (i : Nat) : Bool :=
  i = 0 || s.newlineBefore i || s.oneOf (i - 1) [';', '\x7d', '\x7b', ')'] ||
    declarationLeads.contains (s.text (i - 1))

def skipSemicolon (s : Stream) (i : Nat) : Nat := if s.punct i ';' then i + 1 else i

/-- The end of a statement: its semicolon, the end of the text, or the token before an unmatched
closing bracket. -/
def statementEndFrom (s : Stream) : Nat → Nat → Nat
  | 0, i => i
  | fuel + 1, i =>
      if s.atEnd i || s.punct i ';' then i
      else match s.partner? i with
        | some close => statementEndFrom s fuel (close + 1)
        | none => if s.oneOf i closers then i - 1 else statementEndFrom s fuel (i + 1)

def statementEnd (s : Stream) (i : Nat) : Nat := s.statementEndFrom s.size i

/-- The texts of the tokens from a position up to another, with single blanks between them. -/
def textBetween (s : Stream) (first stop : Nat) : String :=
  " ".intercalate ((List.range (stop - first)).map fun k => s.text (first + k))

/-- Where the body of a declaration opens, past parameter lists, type arguments and object types
that annotate a result. -/
def bodyOpenFrom (s : Stream) : Nat → Nat → Option Nat
  | 0, _ => none
  | fuel + 1, i =>
      if s.atEnd i || s.punct i ';' then none
      else if s.punct i '\x7b' then some i
      else if s.punct i '(' || s.punct i '[' then
        (s.partner? i).bind fun close => bodyOpenFrom s fuel (close + 1)
      else if s.punct i ':' && s.punct (i + 1) '\x7b' then
        (s.partner? (i + 1)).bind fun close => bodyOpenFrom s fuel (close + 1)
      else bodyOpenFrom s fuel (i + 1)

def bodyOpen (s : Stream) (i : Nat) : Option Nat := s.bodyOpenFrom s.size i

def skipWords (s : Stream) (words : List String) : Nat → Nat → Nat
  | 0, i => i
  | fuel + 1, i =>
      if s.ident i && words.contains (s.text i) then skipWords s words fuel (i + 1) else i

def skipDotted (s : Stream) : Nat → Nat → Nat
  | 0, i => i
  | fuel + 1, i => if s.ident i || s.punct i '.' then skipDotted s fuel (i + 1) else i

end Stream

end Recompile.Script
