import Recompile.Script.Token

/-!
The values of quoted texts.
-/

namespace Recompile.Script

/-- Resolves the backslash escapes of a literal's body. A line break after a backslash vanishes,
and a backslash before any other character gives that character. -/
def unescape : List Char → List Char
  | [] => []
  | ['\\'] => ['\\']
  | '\\' :: c :: rest =>
      if c = 'n' then '\n' :: unescape rest
      else if c = 'r' then '\r' :: unescape rest
      else if c = 't' then '\t' :: unescape rest
      else if c = '0' then '\x00' :: unescape rest
      else if c = '\n' then unescape rest
      else c :: unescape rest
  | c :: rest => c :: unescape rest

@[simp] theorem unescape_nil : unescape [] = [] := rfl

theorem unescape_backslash (c : Char) (rest : List Char) : unescape ('\\' :: c :: rest) =
    if c = 'n' then '\n' :: unescape rest
    else if c = 'r' then '\r' :: unescape rest
    else if c = 't' then '\t' :: unescape rest
    else if c = '0' then '\x00' :: unescape rest
    else if c = '\n' then unescape rest
    else c :: unescape rest := rfl

/-- A literal without its first and last byte; empty when the last byte is not a whole
character. -/
def literalBody (text : List Char) : List Char :=
  (Text.slice? text 1 (Text.width text - 1)).getD []

def Token.literal? (t : Token) : Option String :=
  if t.isLiteral then some (String.ofList (unescape (literalBody t.text.toList))) else none

end Recompile.Script
