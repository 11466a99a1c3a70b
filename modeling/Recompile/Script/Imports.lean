import Recompile.Script.Outline
import Recompile.Script.Stream

/-!
Import declarations.
-/

namespace Recompile.Script

def Stream.skipComma (s : Stream) (i : Nat) : Nat := if s.punct i ',' then i + 1 else i

def Stream.typeMark (s : Stream) (i : Nat) : Bool :=
  s.word i "type" && s.ident (i + 1) && !s.word (i + 1) "as"

def Stream.fromClause (s : Stream) (i : Nat) : Bool := s.word i "from" && s.isString (i + 1)

def namedImports (s : Stream) (typeOnly : Bool) (close : Nat) : Nat → Nat → List ImportBinding
  | 0, _ => []
  | fuel + 1, k =>
      if close ≤ k then []
      else
        let marked := s.typeMark k
        let k := if marked then k + 1 else k
        if !s.ident k && !s.isLiteral k then namedImports s typeOnly close fuel (k + 1)
        else
          let imported := (s.literal? k).getD (s.text k)
          let renamed := s.word (k + 1) "as" && s.ident (k + 2)
          let binding : ImportBinding :=
            if renamed then ⟨imported, s.text (k + 2), (s.token (k + 2)).span, typeOnly || marked⟩
            else ⟨imported, imported, (s.token k).span, typeOnly || marked⟩
          let next := if renamed then k + 3 else k + 1
          binding :: namedImports s typeOnly close fuel (s.skipComma next)

def defaultImport (s : Stream) (typeOnly : Bool) (j : Nat) : List ImportBinding × Nat :=
  if s.ident j && !s.word j "from" then
    ([⟨"default", s.text j, (s.token j).span, typeOnly⟩], s.skipComma (j + 1))
  else ([], j)

def namespaceImport (s : Stream) (typeOnly : Bool) (j : Nat) : List ImportBinding × Nat :=
  if s.punct j '*' && s.word (j + 1) "as" && s.ident (j + 2) then
    ([⟨"*", s.text (j + 2), (s.token (j + 2)).span, typeOnly⟩], j + 3)
  else ([], j)

def bracedImports (s : Stream) (typeOnly : Bool) (j : Nat) : Option (List ImportBinding × Nat) :=
  if s.punct j '\x7b' then
    (s.partner? j).map fun close => (namedImports s typeOnly close s.size (j + 1), close + 1)
  else some ([], j)

/-- Takes in the import declaration at a position, and gives the position after it. A type-only
declaration with a `from` clause vanishes on emission. -/
def importAt (s : Stream) (start : Nat) (o : Outline) : Option (Outline × Nat) :=
  let typeOnly := s.word (start + 1) "type" && !s.punct (start + 2) ',' &&
    !s.word (start + 2) "from"
  let j := if typeOnly then start + 2 else start + 1
  if s.isString j then
    (s.literal? j).map fun specifier =>
      let stop := s.skipSemicolon (j + 1)
      let decl : Import :=
        ⟨specifier, (s.token j).span, [], typeOnly, s.span start (stop - 1)⟩
      ({ o with imports := o.imports ++ [decl] }, stop)
  else do
    let (first, j) := defaultImport s typeOnly j
    let (whole, j) := namespaceImport s typeOnly j
    let (named, j) ← bracedImports s typeOnly j
    if !s.fromClause j then none
    let specifier ← s.literal? (j + 1)
    let stop := s.skipSemicolon (j + 2)
    let span := s.span start (stop - 1)
    let decl : Import :=
      ⟨specifier, (s.token (j + 1)).span, first ++ whole ++ named, typeOnly, span⟩
    return ({ o with
      imports := o.imports ++ [decl]
      erased := if typeOnly then o.erased ++ [span] else o.erased }, stop)

def dynamicImportAt (s : Stream) (i : Nat) (o : Outline) : Outline :=
  match s.literal? (i + 2) with
  | some specifier =>
      if s.punct (i + 3) ')' then
        { o with dynamicImports := o.dynamicImports ++ [⟨specifier, (s.token (i + 2)).span⟩] }
      else o
  | none => o

end Recompile.Script
