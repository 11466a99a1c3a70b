import Recompile.Json.Basic

/-!
Reading JSON texts.
-/

namespace Recompile.Json

def isJsonBlank (c : Char) : Bool := c = ' ' || c = '\n' || c = '\t' || c = '\r'

def skipBlank (cs : List Char) : List Char := cs.dropWhile isJsonBlank

def hexValue? (c : Char) : Option Nat :=
  if '0' ≤ c ∧ c ≤ '9' then some (c.toNat - 48)
  else if 'a' ≤ c ∧ c ≤ 'f' then some (c.toNat - 87)
  else if 'A' ≤ c ∧ c ≤ 'F' then some (c.toNat - 55)
  else none

def hex4? (a b c d : Char) : Option Nat := do
  let a ← hexValue? a
  let b ← hexValue? b
  let c ← hexValue? c
  let d ← hexValue? d
  return ((a * 16 + b) * 16 + c) * 16 + d

def escapeValue? (c : Char) : Option Nat :=
  if c = '"' then some 34
  else if c = '\\' then some 92
  else if c = '/' then some 47
  else if c = 'b' then some 8
  else if c = 'f' then some 12
  else if c = 'n' then some 10
  else if c = 'r' then some 13
  else if c = 't' then some 9
  else none

/-- Reads a string up to its closing quote, as code units: a character, or one half of a
surrogate pair. -/
def stringUnits : List Char → Option (List Nat × List Char)
  | '"' :: rest => some ([], rest)
  | '\\' :: 'u' :: a :: b :: c :: d :: rest => do
      let unit ← hex4? a b c d
      let (units, rest) ← stringUnits rest
      return (unit :: units, rest)
  | '\\' :: e :: rest => do
      let unit ← escapeValue? e
      let (units, rest) ← stringUnits rest
      return (unit :: units, rest)
  | c :: rest =>
      if c.toNat < 0x20 then none
      else do
        let (units, rest) ← stringUnits rest
        return (c.toNat :: units, rest)
  | [] => none

/-- Joins surrogate pairs; no result when one half stands alone. -/
def joinUnits : List Nat → Option (List Char)
  | [] => some []
  | [u] => if 0xD800 ≤ u ∧ u ≤ 0xDFFF then none else some [Char.ofNat u]
  | u :: v :: rest =>
      if 0xD800 ≤ u ∧ u ≤ 0xDBFF then
        if 0xDC00 ≤ v ∧ v ≤ 0xDFFF then
          (joinUnits rest).map
            (Char.ofNat (0x10000 + (u - 0xD800) * 0x400 + (v - 0xDC00)) :: ·)
        else none
      else if 0xDC00 ≤ u ∧ u ≤ 0xDFFF then none
      else (joinUnits (v :: rest)).map (Char.ofNat u :: ·)

def stringBody (cs : List Char) : Option (Option String × List Char) :=
  (stringUnits cs).map fun r => ((joinUnits r.1).map String.ofList, r.2)

def spanDigits (cs : List Char) : List Char × List Char :=
  (cs.takeWhile Text.isAsciiDigit, cs.dropWhile Text.isAsciiDigit)

/-- The digits before a fraction: a single zero, or digits that start with another one. -/
def wholePart : List Char → Option (List Char × List Char)
  | '0' :: rest => some (['0'], rest)
  | cs => match spanDigits cs with
      | ([], _) => none
      | found => some found

def fractionPart : List Char → Option (List Char × List Char)
  | '.' :: rest => match spanDigits rest with
      | ([], _) => none
      | (ds, rest) => some ('.' :: ds, rest)
  | cs => some ([], cs)

def exponentSign : List Char → List Char × List Char
  | '+' :: rest => (['+'], rest)
  | '-' :: rest => (['-'], rest)
  | cs => ([], cs)

def exponentPart : List Char → Option (List Char × List Char)
  | [] => some ([], [])
  | e :: rest =>
      if e = 'e' ∨ e = 'E' then
        let (sign, rest) := exponentSign rest
        match spanDigits rest with
        | ([], _) => none
        | (ds, rest) => some (e :: sign ++ ds, rest)
      else some ([], e :: rest)

def numberSign : List Char → List Char × List Char
  | '-' :: rest => (['-'], rest)
  | cs => ([], cs)

def numberLexeme (cs : List Char) : Option (Json × List Char) := do
  let (sign, rest) := numberSign cs
  let (whole, rest) ← wholePart rest
  let (fraction, rest) ← fractionPart rest
  let (exponent, rest) ← exponentPart rest
  return (.number (String.ofList (sign ++ whole ++ fraction ++ exponent)), rest)

mutual

/-- Reads one value. The first argument bounds the number of nested steps. -/
def parseValue : Nat → List Char → Option (Json × List Char)
  | 0, _ => none
  | fuel + 1, cs =>
      match skipBlank cs with
      | '"' :: rest => (stringBody rest).map fun r => (.string r.1, r.2)
      | '[' :: rest =>
          match skipBlank rest with
          | ']' :: rest => some (.array [], rest)
          | rest => (parseItems fuel rest).map fun r => (.array r.1, r.2)
      | '\x7b' :: rest =>
          match skipBlank rest with
          | '\x7d' :: rest => some (.object [], rest)
          | rest => (parseFields fuel rest).map fun r => (.object r.1, r.2)
      | 'n' :: 'u' :: 'l' :: 'l' :: rest => some (.null, rest)
      | 't' :: 'r' :: 'u' :: 'e' :: rest => some (.bool true, rest)
      | 'f' :: 'a' :: 'l' :: 's' :: 'e' :: rest => some (.bool false, rest)
      | rest => numberLexeme rest

/-- Reads the items of an array up to its closing bracket; there is at least one. -/
def parseItems : Nat → List Char → Option (List Json × List Char)
  | 0, _ => none
  | fuel + 1, cs => do
      let (item, rest) ← parseValue fuel cs
      match skipBlank rest with
      | ',' :: rest =>
          let (items, rest) ← parseItems fuel rest
          return (item :: items, rest)
      | ']' :: rest => return ([item], rest)
      | _ => none

/-- Reads the fields of an object up to its closing brace; there is at least one. -/
def parseFields : Nat → List Char → Option (List (Option String × Json) × List Char)
  | 0, _ => none
  | fuel + 1, cs =>
      match skipBlank cs with
      | '"' :: rest => do
          let (key, rest) ← stringBody rest
          match skipBlank rest with
          | ':' :: rest =>
              let (value, rest) ← parseValue fuel rest
              match skipBlank rest with
              | ',' :: rest =>
                  let (fields, rest) ← parseFields fuel rest
                  return ((key, value) :: fields, rest)
              | '\x7d' :: rest => return ([(key, value)], rest)
              | _ => none
          | _ => none
      | _ => none

end

section

variable (fuel : Nat) (cs : List Char)

theorem parseValue_quote :
    parseValue (fuel + 1) ('"' :: cs) = (stringBody cs).map fun r => (.string r.1, r.2) := rfl

theorem parseValue_bracket :
    parseValue (fuel + 1) ('[' :: cs) =
      match skipBlank cs with
      | ']' :: rest => some (.array [], rest)
      | rest => (parseItems fuel rest).map fun r => (.array r.1, r.2) := rfl

theorem parseValue_brace :
    parseValue (fuel + 1) ('\x7b' :: cs) =
      match skipBlank cs with
      | '\x7d' :: rest => some (.object [], rest)
      | rest => (parseFields fuel rest).map fun r => (.object r.1, r.2) := rfl

theorem parseItems_succ :
    parseItems (fuel + 1) cs = (parseValue fuel cs).bind fun r =>
      match skipBlank r.2 with
      | ',' :: rest => (parseItems fuel rest).bind fun more => some (r.1 :: more.1, more.2)
      | ']' :: rest => some ([r.1], rest)
      | _ => none := rfl

theorem parseFields_quote :
    parseFields (fuel + 1) ('"' :: cs) = (stringBody cs).bind fun key =>
      match skipBlank key.2 with
      | ':' :: rest => (parseValue fuel rest).bind fun r =>
          match skipBlank r.2 with
          | ',' :: rest =>
              (parseFields fuel rest).bind fun more => some ((key.1, r.1) :: more.1, more.2)
          | '\x7d' :: rest => some ([(key.1, r.1)], rest)
          | _ => none
      | _ => none := rfl

theorem parseValue_digit {d : Char} (h : Text.isAsciiDigit d = true) :
    parseValue (fuel + 1) (d :: cs) = numberLexeme (d :: cs) := by
  obtain ⟨n, hn, rfl⟩ := Text.exists_of_isAsciiDigit h
  match n, hn with
  | 0, _ | 1, _ | 2, _ | 3, _ | 4, _ | 5, _ | 6, _ | 7, _ | 8, _ | 9, _ => rfl

end

def parse? (text : String) : Option Json :=
  let cs := text.toList
  match parseValue (2 * cs.length + 2) cs with
  | some (value, rest) => if (skipBlank rest).isEmpty then some value else none
  | none => none

theorem parse?_eq {text : String} {cs : List Char} (h : text.toList = cs) :
    parse? text = match parseValue (2 * cs.length + 2) cs with
      | some (value, rest) => if (skipBlank rest).isEmpty then some value else none
      | none => none := by
  subst h
  rfl

end Recompile.Json
