import Recompile.Template.Basic

/-!
The places where a template holds expressions: interpolations, attributes of elements, structural
directives and control-flow blocks.
-/

namespace Recompile.Template

open Text (width splitFirst? stripLead? isBlank)

def splitWhere? (p : Char → Bool) : List Char → Option (List Char × List Char)
  | [] => none
  | c :: cs => if p c then some ([], cs) else (splitWhere? p cs).map fun r => (c :: r.1, r.2)

/-- The offsets of pieces that one-byte separators divide. -/
def withOffsets (offset : Nat) : List (List Char) → List (Nat × List Char)
  | [] => []
  | piece :: rest => (offset, piece) :: withOffsets (offset + width piece + 1) rest

def clauses (cs : List Char) (offset : Nat) : List (Nat × List Char) :=
  withOffsets offset (Text.splitOn (· = ';') cs)

def trimClause (piece : Nat × List Char) : Nat × List Char :=
  let trimmed := piece.2.dropWhile isBlank
  (piece.1 + (width piece.2 - width trimmed), trimmed)

/-- The interpolations of a text, one after the other; an unclosed one ends the search. -/
def interpolations (offset : Nat) : Nat → List Char → Info
  | 0, _ => Info.empty
  | fuel + 1, cs =>
      match splitFirst? "\x7b\x7b".toList cs with
      | none => Info.empty
      | some (before, after) =>
          match splitFirst? "\x7d\x7d".toList after with
          | none => Info.empty
          | some (inner, rest) =>
              let start := offset + width before + 2
              expression inner start ++ interpolations (start + width inner + 2) fuel rest

/-- A clause `let name = …` or `let name of items`: declares the name and reads the items. -/
def letClause (rest : List Char) (offset : Nat) : Info :=
  let (name, tail) := (splitWhere? (fun c => isBlank c || c = '=') rest).getD (rest, [])
  let tail := ((tail.dropWhile isBlank).dropWhile (· = '=')).dropWhile isBlank
  Info.declare (Text.trim name) ++
    match stripLead? "of ".toList tail with
    | some iterable => expression iterable (offset + (width rest - width iterable))
    | none => Info.empty

def directiveClause (piece : Nat × List Char) : Info :=
  let (offset, cs) := trimClause piece
  match stripLead? "let ".toList cs with
  | some rest => letClause rest (offset + 4)
  | none =>
      match splitFirst? " as ".toList cs with
      | some (expr, given) => expression expr offset ++ Info.declare (Text.trim given)
      | none =>
          match splitFirst? [':'] cs with
          | some (key, expr) =>
              if (Text.trim key).all Text.isAsciiAlnum then
                expression expr (offset + width key + 1)
              else expression cs offset
          | none => expression cs offset

def directive (value : List Char) (offset : Nat) : Info :=
  (clauses value offset).foldl (fun info piece => info ++ directiveClause piece) Info.empty

def isBound (name : List Char) : Bool :=
  (Text.startsWith ['['] name && Text.endsWith [']'] name) ||
    (Text.startsWith ['('] name && Text.endsWith [')'] name) ||
    Text.startsWith "bind-".toList name || Text.startsWith "on-".toList name

def attributeInfo (name : List Char) (value : Option (Nat × List Char)) : Info :=
  match stripLead? ['#'] name with
  | some reference => Info.declare reference
  | none =>
      match stripLead? "let-".toList name with
      | some given => Info.declare given
      | none =>
          match value with
          | none => Info.empty
          | some (offset, value) =>
              if Text.startsWith ['*'] name then directive value offset
              else if isBound name then expression value offset
              else interpolations offset (value.length + 1) value

/-- The value after an attribute's name: between quotes, or up to a blank or the end of the tag.
Gives the value with its offset, and what follows. -/
def attributeValue (pos : Nat) (cs : List Char) : Option (Nat × List Char) × Nat × List Char :=
  match cs with
  | '=' :: quote :: rest =>
      if quote = '"' ∨ quote = '\'' then
        match splitWhere? (· = quote) rest with
        | some (value, after) => (some (pos + 2, value), pos + 2 + width value + 1, after)
        | none => (some (pos + 2, rest), pos + 2 + width rest + 1, [])
      else
        let inside := fun c => !Text.isAsciiBlank c && c != '>'
        let value := (quote :: rest).takeWhile inside
        (some (pos + 1, value), pos + 1 + width value, (quote :: rest).dropWhile inside)
  | ['='] => (some (pos + 1, []), pos + 1, [])
  | _ => (none, pos, cs)

def attributesFrom : Nat → Nat → List Char → Info × Nat × List Char
  | 0, pos, cs => (Info.empty, pos, cs)
  | fuel + 1, pos, cs =>
      let blanks := cs.takeWhile Text.isAsciiBlank
      let pos := pos + width blanks
      match cs.dropWhile Text.isAsciiBlank with
      | [] => (Info.empty, pos, [])
      | '>' :: rest => (Info.empty, pos + 1, rest)
      | '/' :: '>' :: rest => (Info.empty, pos + 1, '>' :: rest)
      | rest =>
          let inName := fun c => !Text.isAsciiBlank c && c != '=' && c != '>'
          let name := rest.takeWhile inName
          let (value, pos, rest) := attributeValue (pos + width name) (rest.dropWhile inName)
          let (info, pos, rest) := attributesFrom fuel pos rest
          (attributeInfo name value ++ info, pos, rest)

theorem attributesFrom_succ (fuel pos : Nat) (cs : List Char) : attributesFrom (fuel + 1) pos cs =
    let start := pos + width (cs.takeWhile Text.isAsciiBlank)
    match cs.dropWhile Text.isAsciiBlank with
    | [] => (Info.empty, start, [])
    | '>' :: rest => (Info.empty, start + 1, rest)
    | '/' :: '>' :: rest => (Info.empty, start + 1, '>' :: rest)
    | rest =>
        let inName := fun c => !Text.isAsciiBlank c && c != '=' && c != '>'
        let name := rest.takeWhile inName
        let value := attributeValue (start + width name) (rest.dropWhile inName)
        let after := attributesFrom fuel value.2.1 value.2.2
        (attributeInfo name value.1 ++ after.1, after.2) := by
  exact rfl

def tag (pos : Nat) (cs : List Char) : Info × Nat × List Char :=
  let inName := fun c => !Text.isAsciiBlank c && c != '>'
  let name := cs.takeWhile inName
  attributesFrom (cs.length + 1) (pos + width name) (cs.dropWhile inName)

/-- The text up to the bracket that closes a group, given how many groups are open. -/
def groupTail (depth : Nat) : List Char → Option (List Char × List Char)
  | [] => none
  | c :: cs =>
      if c = ')' ∧ depth = 0 then some ([], cs)
      else
        let depth := if c = '(' then depth + 1 else if c = ')' then depth - 1 else depth
        (groupTail depth cs).map fun r => (c :: r.1, r.2)

def loopClause (piece : Nat × List Char) : Info :=
  let (offset, cs) := trimClause piece
  match stripLead? "track ".toList cs with
  | some expr => expression expr (offset + 6)
  | none =>
      match stripLead? "let ".toList cs with
      | some rest =>
          ⟨[], (Text.splitOn (· = ',') rest).filterMap fun entry =>
            (splitFirst? ['='] entry).map fun r => String.ofList (Text.trim r.1)⟩
      | none => Info.empty

def loopHead (piece : Nat × List Char) : Info :=
  let (offset, cs) := trimClause piece
  match splitFirst? " of ".toList cs with
  | some (item, iterable) =>
      Info.declare (Text.trim item) ++ expression iterable (offset + width item + 4)
  | none => Info.empty

def blockArgument (keyword : String) (inner : List Char) (offset : Nat) : Info :=
  if keyword = "for" then
    match clauses inner offset with
    | [] => Info.empty
    | head :: rest =>
        rest.foldl (fun info piece => info ++ loopClause piece) (loopHead head)
  else if keyword = "if" || keyword = "else" then
    match splitFirst? [';'] inner with
    | some (expr, rest) =>
        expression expr offset ++
          match stripLead? "as ".toList (Text.trim rest) with
          | some given => Info.declare (Text.trim given)
          | none => Info.empty
    | none => expression inner offset
  else expression inner offset

def block (pos : Nat) (cs : List Char) : Info × Nat × List Char :=
  let keyword := cs.takeWhile Text.isAsciiAlpha
  let afterKeyword := cs.dropWhile Text.isAsciiAlpha
  let blanks := afterKeyword.takeWhile (· = ' ')
  let pos := pos + width keyword + width blanks
  match afterKeyword.dropWhile (· = ' ') with
  | '(' :: rest =>
      match groupTail 0 rest with
      | some (inner, after) =>
          (blockArgument (String.ofList keyword) inner (pos + 1), pos + 1 + width inner + 1, after)
      | none => (Info.empty, pos + 1, rest)
  | rest => (Info.empty, pos, rest)

def startsName (cs : List Char) : Bool := (cs.head?.map Text.isAsciiAlpha).getD false

/-- Takes in a template from a byte offset on. An unclosed interpolation ends it. -/
def analyzeFrom : Nat → Nat → List Char → Info
  | 0, _, _ => Info.empty
  | fuel + 1, pos, cs =>
      match cs with
      | [] => Info.empty
      | '\x7b' :: '\x7b' :: rest =>
          match splitFirst? "\x7d\x7d".toList rest with
          | none => Info.empty
          | some (inner, rest) =>
              expression inner (pos + 2) ++ analyzeFrom fuel (pos + 2 + width inner + 2) rest
      | c :: rest =>
          if c = '<' && startsName rest then
            let (info, pos, rest) := tag (pos + 1) rest
            info ++ analyzeFrom fuel pos rest
          else if c = '@' && startsName rest then
            let (info, pos, rest) := block (pos + 1) rest
            info ++ analyzeFrom fuel pos rest
          else analyzeFrom fuel (pos + c.utf8Size) rest

def analyze (text : String) : Info := analyzeFrom (text.toList.length + 1) 0 text.toList

end Recompile.Template
