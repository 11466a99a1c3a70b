import Recompile.Json.Parser
import Recompile.Toml.Basic

/-!
The lexical level of TOML: blanks, comments, line ends, keys and strings.
-/

namespace Recompile.Toml

def isWs (c : Char) : Bool := c = ' ' || c = '\t'

def skipWs (cs : List Char) : List Char := cs.dropWhile isWs

/-- Characters that texts and comments may hold as they are: no control characters but the tab. -/
def isPlain (c : Char) : Bool := c = '\t' || (0x20 ≤ c.toNat && c.toNat != 0x7F)

def newline? : List Char → Option (List Char)
  | '\n' :: rest => some rest
  | '\r' :: '\n' :: rest => some rest
  | _ => none

def skipComment : List Char → List Char
  | '#' :: rest => rest.dropWhile isPlain
  | cs => cs

/-- What may follow an expression on its line: blanks, a comment, and the end of the line or of
the document. -/
def lineEnd? (cs : List Char) : Option (List Char) :=
  match skipComment (skipWs cs) with
  | [] => some []
  | rest => newline? rest

/-- Passes over blanks, line ends and comments. The first argument bounds their number. -/
def skipLines : Nat → List Char → List Char
  | 0, cs => cs
  | fuel + 1, cs =>
      match skipComment (skipWs cs) with
      | [] => []
      | rest => match newline? rest with
          | some rest => skipLines fuel rest
          | none => rest

def hexValue (cs : List Char) : Option Nat :=
  cs.foldl (fun acc c => do return (← acc) * 16 + (← Json.hexValue? c)) (some 0)

def charOf? (n : Nat) : Option Char :=
  if n < 0xD800 ∨ (0xE000 ≤ n ∧ n ≤ 0x10FFFF) then some (Char.ofNat n) else none

def codeEscape? (count : Nat) (cs : List Char) : Option (Char × List Char) := do
  if cs.length < count then none
  let code ← hexValue (cs.take count)
  let c ← charOf? code
  return (c, cs.drop count)

def escape? : List Char → Option (Char × List Char)
  | 'b' :: rest => some ('\x08', rest)
  | 't' :: rest => some ('\t', rest)
  | 'n' :: rest => some ('\n', rest)
  | 'f' :: rest => some ('\x0c', rest)
  | 'r' :: rest => some ('\r', rest)
  | '"' :: rest => some ('"', rest)
  | '\\' :: rest => some ('\\', rest)
  | 'u' :: rest => codeEscape? 4 rest
  | 'U' :: rest => codeEscape? 8 rest
  | _ => none

def basicString : Nat → List Char → Option (List Char × List Char)
  | 0, _ => none
  | _ + 1, [] => none
  | fuel + 1, c :: rest =>
      if c = '"' then some ([], rest)
      else if c = '\\' then do
        let (e, rest) ← escape? rest
        let (text, rest) ← basicString fuel rest
        return (e :: text, rest)
      else if isPlain c then (basicString fuel rest).map fun r => (c :: r.1, r.2)
      else none

def literalString : List Char → Option (List Char × List Char)
  | [] => none
  | c :: rest =>
      if c = '\'' then some ([], rest)
      else if isPlain c then (literalString rest).map fun r => (c :: r.1, r.2)
      else none

/-- Reads a run of quotes inside a text of several lines. Up to two are text; three close it, and
up to two more before them are text. The result says whether the text is closed. -/
def quoteRun (quote : Char) (cs : List Char) : List Char × List Char × Bool :=
  let run := (cs.takeWhile (· = quote)).length
  if run < 3 then (List.replicate run quote, cs.drop run, false)
  else (List.replicate (min run 5 - 3) quote, cs.drop (min run 5), true)

def skipWsNewlines : Nat → List Char → List Char
  | 0, cs => cs
  | fuel + 1, cs =>
      match newline? (skipWs cs) with
      | some rest => skipWsNewlines fuel rest
      | none => skipWs cs

/-- Reads a text of several lines up to its closing quotes. With escapes, a backslash at the end
of a line joins the line to the next text. -/
def multiline (quote : Char) (escapes : Bool) : Nat → List Char → Option (List Char × List Char)
  | 0, _ => none
  | _ + 1, [] => none
  | fuel + 1, c :: rest =>
      if c = quote then
        let (text, after, closed) := quoteRun quote (c :: rest)
        if closed then some (text, after)
        else (multiline quote escapes fuel after).map fun r => (text ++ r.1, r.2)
      else if c = '\\' ∧ escapes then
        match newline? (skipWs rest) with
        | some after => multiline quote escapes fuel (skipWsNewlines after.length after)
        | none => do
            let (e, rest) ← escape? rest
            let (text, rest) ← multiline quote escapes fuel rest
            return (e :: text, rest)
      else if isPlain c then (multiline quote escapes fuel rest).map fun r => (c :: r.1, r.2)
      else match newline? (c :: rest) with
        | some rest => (multiline quote escapes fuel rest).map fun r => ('\n' :: r.1, r.2)
        | none => none

def dropFirstNewline (cs : List Char) : List Char := (newline? cs).getD cs

def stringText? (cs : List Char) : Option (String × List Char) :=
  let found := match cs with
    | '"' :: '"' :: '"' :: rest => multiline '"' true (rest.length + 1) (dropFirstNewline rest)
    | '\'' :: '\'' :: '\'' :: rest =>
        multiline '\'' false (rest.length + 1) (dropFirstNewline rest)
    | '"' :: rest => basicString (rest.length + 1) rest
    | '\'' :: rest => literalString rest
    | _ => none
  found.map fun r => (String.ofList r.1, r.2)

def isKeyChar (c : Char) : Bool :=
  ('a' ≤ c && c ≤ 'z') || ('A' ≤ c && c ≤ 'Z') || ('0' ≤ c && c ≤ '9') || c = '_' || c = '-'

def keyPart? (cs : List Char) : Option (String × List Char) :=
  match cs with
  | '"' :: rest =>
      (basicString (rest.length + 1) rest).map fun r => (String.ofList r.1, r.2)
  | '\'' :: rest => (literalString rest).map fun r => (String.ofList r.1, r.2)
  | _ =>
      match cs.takeWhile isKeyChar with
      | [] => none
      | name => some (String.ofList name, cs.dropWhile isKeyChar)

def keyParts? : Nat → List Char → Option (List String × List Char)
  | 0, _ => none
  | fuel + 1, cs => do
      let (part, rest) ← keyPart? (skipWs cs)
      match skipWs rest with
      | '.' :: rest =>
          let (parts, rest) ← keyParts? fuel rest
          return (part :: parts, rest)
      | rest => return ([part], rest)

def depthLimit : Nat := 80

def key? (cs : List Char) : Option (List String × List Char) := keyParts? (depthLimit - 1) cs

end Recompile.Toml
