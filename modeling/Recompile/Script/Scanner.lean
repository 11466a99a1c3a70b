import Recompile.Script.Token
import Recompile.Text.Classes

/-!
Cutting a script text into tokens.

Blanks and comments are skipped. A slash starts a regular expression only where a value may
stand; a text that does not complete one is read as punctuation.
-/

namespace Recompile.Script

/-- Characters that may start a name: letters, `_`, `$`, and all outside the ASCII range. -/
def isNameStart (c : Char) : Bool :=
  Text.isAsciiAlpha c || c = '_' || c = '$' || 0x80 ≤ c.toNat

def isNameChar (c : Char) : Bool := isNameStart c || Text.isAsciiDigit c

def isNumberChar (c : Char) : Bool := Text.isAsciiAlnum c || c = '.' || c = '_'

/-- Where the text being skipped stands: between comments, in a comment that ends with the line,
or in one that runs up to its closing mark and started at an offset. -/
inductive GapMode where
  | plain
  | line
  | block (start : Nat)
deriving DecidableEq, Repr

structure Gap where
  text : List Char
  rest : List Char
  openComment : Option Nat
deriving DecidableEq, Repr

def Gap.grow (lead : List Char) (g : Gap) : Gap := { g with text := lead ++ g.text }

/-- Skips blanks and comments, from a byte offset. -/
def skipGap (pos : Nat) : GapMode → List Char → Gap
  | .plain, '/' :: '/' :: rest => (skipGap (pos + 2) .line rest).grow ['/', '/']
  | .plain, '/' :: '*' :: rest => (skipGap (pos + 2) (.block pos) rest).grow ['/', '*']
  | .plain, c :: rest =>
      if Text.isAsciiBlank c then (skipGap (pos + c.utf8Size) .plain rest).grow [c]
      else ⟨[], c :: rest, none⟩
  | .line, c :: rest =>
      if c = '\n' then (skipGap (pos + 1) .plain rest).grow [c]
      else (skipGap (pos + c.utf8Size) .line rest).grow [c]
  | .block _, '*' :: '/' :: rest => (skipGap (pos + 2) .plain rest).grow ['*', '/']
  | .block start, c :: rest => (skipGap (pos + c.utf8Size) (.block start) rest).grow [c]
  | .block start, [] => ⟨[], [], some start⟩
  | .plain, [] => ⟨[], [], none⟩
  | .line, [] => ⟨[], [], none⟩

section

variable (pos start : Nat) {c : Char} (rest : List Char)

theorem skipGap_nil : skipGap pos .plain [] = ⟨[], [], none⟩ := rfl

theorem skipGap_lineOpen : skipGap pos .plain ('/' :: '/' :: rest) =
    (skipGap (pos + 2) .line rest).grow ['/', '/'] := rfl

theorem skipGap_blockOpen : skipGap pos .plain ('/' :: '*' :: rest) =
    (skipGap (pos + 2) (.block pos) rest).grow ['/', '*'] := rfl

theorem skipGap_blank (h : Text.isAsciiBlank c = true) : skipGap pos .plain (c :: rest) =
    (skipGap (pos + c.utf8Size) .plain rest).grow [c] := by
  simp only [Text.isAsciiBlank, Bool.or_eq_true, decide_eq_true_eq] at h
  rcases h with (((rfl | rfl) | rfl) | rfl) | rfl <;> rfl

theorem skipGap_lineRest (h : c ≠ '\n') : skipGap pos .line (c :: rest) =
    (skipGap (pos + c.utf8Size) .line rest).grow [c] := if_neg h

theorem skipGap_blockRest (h : ∀ tail, c = '*' → rest = '/' :: tail → False) :
    skipGap pos (.block start) (c :: rest) =
      (skipGap (pos + c.utf8Size) (.block start) rest).grow [c] := by
  rw [skipGap]
  exact h

end

/-- A lexeme and what follows it; a literal may lack its closing quote. -/
structure Lexeme where
  kind : TokenKind
  text : List Char
  rest : List Char
  closed : Bool
deriving DecidableEq, Repr

/-- Reads a quoted text after its opening quote. One that may not span lines ends, open, before a
line break; a backslash takes the next character with it. -/
def quotedTail (quote : Char) (multiline : Bool) : List Char → List Char × List Char × Bool
  | [] => ([], [], false)
  | ['\\'] => (['\\'], [], false)
  | '\\' :: c :: rest =>
      let (text, rest, closed) := quotedTail quote multiline rest
      ('\\' :: c :: text, rest, closed)
  | c :: rest =>
      if c = '\n' ∧ multiline = false then ([], c :: rest, false)
      else if c = quote then ([c], rest, true)
      else
        let (text, rest, closed) := quotedTail quote multiline rest
        (c :: text, rest, closed)

/-- Reads a regular expression after its opening slash, up to its closing one. -/
def regexTail (inClass : Bool) : List Char → Option (List Char × List Char)
  | [] => none
  | ['\\'] => none
  | '\\' :: c :: rest => (regexTail inClass rest).map fun r => ('\\' :: c :: r.1, r.2)
  | c :: rest =>
      if c = '\n' then none
      else if c = '/' ∧ inClass = false then some ([c], rest)
      else
        let inClass := if c = '[' then true else if c = ']' then false else inClass
        (regexTail inClass rest).map fun r => (c :: r.1, r.2)

def wordsBeforeValue : List String :=
  ["return", "typeof", "case", "do", "else", "in", "of", "new", "delete", "void", "throw",
   "yield", "await"]

def regexAllowed : Option Token → Bool
  | none => true
  | some t =>
      match t.kind with
      | .punct mark => !(mark = ')' || mark = ']' || mark = '\x7d')
      | .ident => wordsBeforeValue.contains t.text
      | _ => false

def startsNumber (c : Char) (rest : List Char) : Bool :=
  Text.isAsciiDigit c || (c = '.' && (rest.head?.map Text.isAsciiDigit).getD false)

def lexeme (previous : Option Token) (c : Char) (rest : List Char) : Lexeme :=
  if isNameStart c then
    ⟨.ident, c :: rest.takeWhile isNameChar, rest.dropWhile isNameChar, true⟩
  else if startsNumber c rest then
    ⟨.number, c :: rest.takeWhile isNumberChar, rest.dropWhile isNumberChar, true⟩
  else if c = '"' ∨ c = '\'' then
    let (text, rest, closed) := quotedTail c false rest
    ⟨.string, c :: text, rest, closed⟩
  else if c = '\x60' then
    let (text, rest, closed) := quotedTail c true rest
    ⟨.template, c :: text, rest, closed⟩
  else
    match if c = '/' ∧ regexAllowed previous then regexTail false rest else none with
    | some (text, rest) =>
        ⟨.regex, c :: text ++ rest.takeWhile isNameChar, rest.dropWhile isNameChar, true⟩
    | none => ⟨.punct c, [c], rest, true⟩

/-- Reads the tokens of a text from a byte offset. The first argument bounds their number. -/
def scanFrom (file : FileId) : Nat → Nat → Option Token → List Char → List Token
  | 0, _, _, _ => []
  | fuel + 1, pos, previous, cs =>
      let gap := skipGap pos .plain cs
      let start := pos + Text.width gap.text
      match gap.rest with
      | [] =>
          [⟨.eof, ⟨file, start, start⟩, "", String.ofList gap.text, gap.openComment, true⟩]
      | c :: rest =>
          let l := lexeme previous c rest
          let stop := start + Text.width l.text
          let t : Token := ⟨l.kind, ⟨file, start, stop⟩, String.ofList l.text,
            String.ofList gap.text, gap.openComment, l.closed⟩
          t :: scanFrom file fuel stop (some t) l.rest

/-- The tokens of a text; the last one marks its end. -/
def scan (file : FileId) (source : String) : List Token :=
  scanFrom file (source.toList.length + 1) 0 none source.toList

end Recompile.Script
