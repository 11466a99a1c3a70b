import Recompile.Script.Token
import Recompile.Diagnostic.Basic

/-!
Brackets: which closing token belongs to which opening one, and the findings of a token sequence.

A closing bracket closes the nearest open bracket of its form, and leaves the ones opened after it
without a partner.
-/

namespace Recompile.Script

def openers : List Char := ['(', '[', '\x7b']

def closers : List Char := [')', ']', '\x7d']

def openerOf (closer : Char) : Char :=
  if closer = ')' then '(' else if closer = ']' then '[' else '\x7b'

def closerOf (opener : Char) : Char :=
  if opener = '(' then ')' else if opener = '[' then ']' else '\x7d'

def unterminatedString : Code := ⟨.grammar, 1002⟩

def delimiterExpected : Code := ⟨.grammar, 1005⟩

def unterminatedComment : Code := ⟨.grammar, 1010⟩

def unexpectedDelimiter : Code := ⟨.grammar, 1128⟩

def unterminatedTemplate : Code := ⟨.grammar, 1160⟩

abbrev OpenBracket := Char × Span

def unclosed (b : OpenBracket) : Diagnostic :=
  { Diagnostic.error delimiterExpected (String.ofList ['\'', closerOf b.1, '\''] ++ " expected.") b.2 with
    related := [⟨b.2, String.ofList ['\'', b.1, '\''] ++ " opened here"⟩] }

def unexpected (mark : Char) (span : Span) : Diagnostic :=
  Diagnostic.error unexpectedDelimiter
    ("Unexpected " ++ String.ofList ['\'', mark, '\''] ++ ".") span

def trackDelimiter (stack : List OpenBracket) (t : Token) : List OpenBracket × List Diagnostic :=
  match t.kind with
  | .punct mark =>
      if openers.contains mark then ((mark, t.span) :: stack, [])
      else if closers.contains mark then
        let dangling := stack.takeWhile fun b => b.1 ≠ openerOf mark
        match stack.dropWhile fun b => b.1 ≠ openerOf mark with
        | [] => (stack, [unexpected mark t.span])
        | _ :: below => (below, dangling.map unclosed)
      else (stack, [])
  | _ => (stack, [])

def tokenFaults (t : Token) : List Diagnostic :=
  let comment := match t.openComment with
    | some start =>
        [Diagnostic.error unterminatedComment "'*/' expected." ⟨t.span.file, start, t.span.start⟩]
    | none => []
  let literal :=
    if t.closed then []
    else if t.kind = .template then
      [Diagnostic.error unterminatedTemplate "Unterminated template literal." t.span]
    else [Diagnostic.error unterminatedString "Unterminated string literal." t.span]
  comment ++ literal

def faultsFrom (stack : List OpenBracket) : List Token → List Diagnostic
  | [] => stack.map unclosed
  | t :: ts =>
      let (stack, found) := trackDelimiter stack t
      tokenFaults t ++ found ++ faultsFrom stack ts

/-- The findings of a token sequence, in the order in which they come up. -/
def faults (tokens : List Token) : List Diagnostic := faultsFrom [] tokens

abbrev OpenPosition := Char × Nat

/-- The pairs of positions of brackets that belong together, given the brackets open before a
position. -/
def pairsFrom (stack : List OpenPosition) (i : Nat) : List Token → List (Nat × Nat)
  | [] => []
  | t :: ts =>
      match t.kind with
      | .punct mark =>
          if openers.contains mark then pairsFrom ((mark, i) :: stack) (i + 1) ts
          else if closers.contains mark then
            match stack.dropWhile fun b => b.1 ≠ openerOf mark with
            | [] => pairsFrom stack (i + 1) ts
            | b :: below => (b.2, i) :: pairsFrom below (i + 1) ts
          else pairsFrom stack (i + 1) ts
      | _ => pairsFrom stack (i + 1) ts

def bracketPairs (tokens : List Token) : List (Nat × Nat) := pairsFrom [] 0 tokens

end Recompile.Script
