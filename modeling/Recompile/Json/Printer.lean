import Recompile.Json.Basic

/-!
The two written forms of a JSON value: compact, and indented by two blanks with one item a line.
-/

namespace Recompile.Json

def hexDigit (n : Nat) : Char :=
  if n < 10 then Char.ofNat (48 + n) else Char.ofNat (87 + n)

/-- How a character is written inside a string: quotes, backslashes and control characters are
escaped. -/
def escape (c : Char) : List Char :=
  if c = '"' then ['\\', '"']
  else if c = '\\' then ['\\', '\\']
  else if c = '\n' then ['\\', 'n']
  else if c = '\r' then ['\\', 'r']
  else if c = '\t' then ['\\', 't']
  else if c = '\x08' then ['\\', 'b']
  else if c = '\x0c' then ['\\', 'f']
  else if c.toNat < 0x20 then
    ['\\', 'u', '0', '0', hexDigit (c.toNat / 16), hexDigit (c.toNat % 16)]
  else [c]

def quote (cs : List Char) : List Char := '"' :: cs.flatMap escape ++ ['"']

def quoted (s : String) : String := String.ofList (quote s.toList)

def quoteKey (key : Option String) : List Char := quote (key.getD "").toList

def commas : List (List Char) → List Char
  | [] => []
  | [item] => item
  | item :: rest => item ++ ',' :: commas rest

mutual

def compactChars : Json → List Char
  | .null => "null".toList
  | .bool true => "true".toList
  | .bool false => "false".toList
  | .number lexeme => lexeme.toList
  | .string s => quoteKey s
  | .array items => '[' :: commas (compactItems items) ++ [']']
  | .object fields => '\x7b' :: commas (compactFields fields) ++ ['\x7d']

def compactItems : List Json → List (List Char)
  | [] => []
  | item :: rest => compactChars item :: compactItems rest

def compactFields : List (Option String × Json) → List (List Char)
  | [] => []
  | (key, value) :: rest => (quoteKey key ++ ':' :: compactChars value) :: compactFields rest

end

def compact (v : Json) : String := String.ofList (compactChars v)

def newline (level : Nat) : List Char := '\n' :: List.replicate (2 * level) ' '

/-- Items on lines of their own between two brackets; without items the brackets touch. -/
def block (opener closer : Char) (level : Nat) : List (List Char) → List Char
  | [] => [opener, closer]
  | items =>
      opener :: commas (items.map fun item => newline (level + 1) ++ item) ++
        newline level ++ [closer]

mutual

def prettyChars (level : Nat) : Json → List Char
  | .array items => block '[' ']' level (prettyItems (level + 1) items)
  | .object fields => block '\x7b' '\x7d' level (prettyFields (level + 1) fields)
  | .null => "null".toList
  | .bool true => "true".toList
  | .bool false => "false".toList
  | .number lexeme => lexeme.toList
  | .string s => quoteKey s

def prettyItems (level : Nat) : List Json → List (List Char)
  | [] => []
  | item :: rest => prettyChars level item :: prettyItems level rest

def prettyFields (level : Nat) : List (Option String × Json) → List (List Char)
  | [] => []
  | (key, value) :: rest =>
      (quoteKey key ++ ':' :: ' ' :: prettyChars level value) :: prettyFields level rest

end

section

variable (level : Nat)

theorem prettyChars_array (items : List Json) :
    prettyChars level (.array items) = block '[' ']' level (prettyItems (level + 1) items) := rfl

theorem prettyChars_object (fields : List (Option String × Json)) :
    prettyChars level (.object fields) =
      block '\x7b' '\x7d' level (prettyFields (level + 1) fields) := rfl

theorem prettyChars_number (lexeme : String) :
    prettyChars level (.number lexeme) = lexeme.toList := rfl

theorem prettyChars_string (s : Option String) : prettyChars level (.string s) = quoteKey s := rfl

theorem prettyItems_cons (v : Json) (rest : List Json) :
    prettyItems level (v :: rest) = prettyChars level v :: prettyItems level rest := rfl

theorem prettyFields_cons (f : Option String × Json) (rest : List (Option String × Json)) :
    prettyFields level (f :: rest) =
      (quoteKey f.1 ++ ':' :: ' ' :: prettyChars level f.2) :: prettyFields level rest := rfl

end

def pretty (v : Json) : String := String.ofList (prettyChars 0 v)

end Recompile.Json
