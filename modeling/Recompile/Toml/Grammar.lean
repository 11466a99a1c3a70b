import Recompile.Toml.Document
import Recompile.Toml.Lexical
import Recompile.Toml.Scalar

/-!
Reading TOML documents.
-/

namespace Recompile.Toml

mutual

/-- Reads a value. The first argument bounds the number of steps, the second the nesting. -/
def value? : Nat → Nat → List Char → Option (Node × List Char)
  | 0, _, _ => none
  | fuel + 1, depth, cs =>
      match cs with
      | [] => none
      | '[' :: rest =>
          match depth with
          | 0 => none
          | depth + 1 =>
              match skipLines rest.length rest with
              | ']' :: rest => some (.array [], rest)
              | rest => (items? fuel depth rest).map fun r => (.array r.1, r.2)
      | '\x7b' :: rest =>
          match depth with
          | 0 => none
          | depth + 1 =>
              match skipWs rest with
              | '\x7d' :: rest => some (.table .braces [], rest)
              | rest =>
                  (pairs? fuel depth [] rest).map fun r => (.table .braces r.1, r.2)
      | 't' :: 'r' :: 'u' :: 'e' :: rest => some (.boolean true, rest)
      | 'f' :: 'a' :: 'l' :: 's' :: 'e' :: rest => some (.boolean false, rest)
      | c :: _ =>
          if c = '"' ∨ c = '\'' then (stringText? cs).map fun r => (.string r.1, r.2)
          else number? cs

/-- Reads the items of an array up to its closing bracket. A comma may follow the last one. -/
def items? : Nat → Nat → List Char → Option (List Node × List Char)
  | 0, _, _ => none
  | fuel + 1, depth, cs => do
      let (item, rest) ← value? fuel depth cs
      match skipLines rest.length rest with
      | ']' :: rest => return ([item], rest)
      | ',' :: rest =>
          match skipLines rest.length rest with
          | ']' :: rest => return ([item], rest)
          | rest =>
              let (items, rest) ← items? fuel depth rest
              return (item :: items, rest)
      | _ => none

def pairs? : Nat → Nat → Fields → List Char → Option (Fields × List Char)
  | 0, _, _, _ => none
  | fuel + 1, depth, fields, cs => do
      let (key, rest) ← key? cs
      match rest with
      | '=' :: rest =>
          let (value, rest) ← value? fuel depth (skipWs rest)
          let fields ← insert key value .braces fields
          match skipWs rest with
          | '\x7d' :: rest => return (fields, rest)
          | ',' :: rest => pairs? fuel depth fields rest
          | _ => none
      | _ => none

end

def header? (closing : List Char) (cs : List Char) : Option (List String × List Char) := do
  let (key, rest) ← key? cs
  let rest ← Text.stripLead? closing rest
  let rest ← lineEnd? rest
  return (key, rest)

def pair? (cs : List Char) : Option (Line × List Char) := do
  let (key, rest) ← key? cs
  match rest with
  | '=' :: rest =>
      let (value, rest) ← value? (2 * rest.length + 2) (depthLimit - 1) (skipWs rest)
      let rest ← lineEnd? rest
      return (.pair key value, rest)
  | _ => none

def lines? : Nat → List Char → Option (List Line)
  | 0, _ => none
  | fuel + 1, cs =>
      match skipWs cs with
      | [] => some []
      | '#' :: rest => (lineEnd? ('#' :: rest)).bind (lines? fuel)
      | '[' :: '[' :: rest => do
          let (key, rest) ← header? [']', ']'] rest
          return .element key :: (← lines? fuel rest)
      | '[' :: rest => do
          let (key, rest) ← header? [']'] rest
          return .header key :: (← lines? fuel rest)
      | c :: rest =>
          match newline? (c :: rest) with
          | some rest => lines? fuel rest
          | none => do
              let (line, rest) ← pair? (c :: rest)
              return line :: (← lines? fuel rest)

def dropMark : List Char → List Char
  | '\uFEFF' :: rest => rest
  | cs => cs

def parse? (text : String) : Option Fields :=
  let cs := dropMark text.toList
  (lines? (cs.length + 1) cs).bind assemble

end Recompile.Toml
