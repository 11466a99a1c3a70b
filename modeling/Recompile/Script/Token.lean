import Recompile.Source.Basic

/-!
Tokens of script texts.

A token carries its own text and the text that was skipped before it, so the source is the
concatenation of both over all tokens.
-/

namespace Recompile.Script

inductive TokenKind where
  | ident
  | number
  | string
  | template
  | regex
  | punct (mark : Char)
  | eof
deriving DecidableEq, Repr, Inhabited

structure Token where
  kind : TokenKind
  span : Span
  text : String
  /-- Blanks and comments between the previous token and this one. -/
  gap : String
  /-- Where a comment starts that the gap leaves open. -/
  openComment : Option Nat
  /-- Whether a literal has its closing quote. -/
  closed : Bool
deriving DecidableEq, Repr, Inhabited

namespace Token

def isWord (t : Token) (word : String) : Bool := t.kind = .ident && t.text = word

def isPunct (t : Token) (mark : Char) : Bool := t.kind = .punct mark

def isOneOf (t : Token) (marks : List Char) : Bool :=
  match t.kind with
  | .punct mark => marks.contains mark
  | _ => false

def isLiteral (t : Token) : Bool := t.kind = .string || t.kind = .template

end Token

end Recompile.Script
