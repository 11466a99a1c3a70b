import Recompile.Script.Imports

/-!
Export declarations.
-/

namespace Recompile.Script

def declarationModifiers : List String := ["declare", "abstract", "async"]

def declarationKeywords : List String :=
  ["class", "function", "const", "let", "var", "interface", "type", "enum", "namespace"]

def declaredName? (s : Stream) (i : Nat) : Option String :=
  let k := s.skipWords declarationModifiers s.size i
  let k := if s.word k "const" && s.word (k + 1) "enum" then k + 1 else k
  let keyword := s.text k
  if keyword = "function" then
    let nameAt := if s.punct (k + 1) '*' then k + 2 else k + 1
    if s.ident nameAt then some (s.text nameAt) else none
  else if declarationKeywords.contains keyword then
    if s.ident (k + 1) && !s.word (k + 1) "extends" && !s.word (k + 1) "implements" then
      some (s.text (k + 1))
    else none
  else none

def listedExports (s : Stream) (close : Nat) : Nat → Nat → List ReexportName
  | 0, _ => []
  | fuel + 1, k =>
      if close ≤ k then []
      else
        let k := if s.typeMark k then k + 1 else k
        if !s.ident k then listedExports s close fuel (k + 1)
        else
          let renamed := s.word (k + 1) "as" && s.ident (k + 2)
          let exported := if renamed then s.text (k + 2) else s.text k
          let next := if renamed then k + 3 else k + 1
          ⟨s.text k, exported, (s.token k).span⟩ :: listedExports s close fuel (s.skipComma next)

def Outline.erase (o : Outline) (typeOnly : Bool) (span : Span) : Outline :=
  if typeOnly then { o with erased := o.erased ++ [span] } else o

def exportAllAt (s : Stream) (start j : Nat) (typeOnly : Bool) (o : Outline) :
    Option (Outline × Nat) := do
  let named := s.word (j + 1) "as" && s.ident (j + 2)
  let names : Option (List ReexportName) :=
    if named then some [⟨"*", s.text (j + 2), (s.token (j + 2)).span⟩] else none
  let k := if named then j + 3 else j + 1
  if !s.fromClause k then none
  let specifier ← s.literal? (k + 1)
  let stop := s.skipSemicolon (k + 2)
  let o := o.erase typeOnly (s.span start (stop - 1))
  let decl : Reexport := ⟨specifier, (s.token (k + 1)).span, names, typeOnly⟩
  return ({ o with reexports := o.reexports ++ [decl] }, stop)

def Outline.exportNames (o : Outline) (names : List ReexportName) : Outline :=
  { o with
    exports := o.exports ++ names.map fun n => ⟨n.exported, some n.imported, n.span⟩
    references := OrdSet.addAll o.references (names.map (·.imported)) }

def exportListAt (s : Stream) (start j : Nat) (typeOnly : Bool) (o : Outline) :
    Option (Outline × Nat) := do
  let close ← s.partner? j
  let names := listedExports s close s.size (j + 1)
  let after := close + 1
  if s.fromClause after then
    let specifier ← s.literal? (after + 1)
    let stop := s.skipSemicolon (after + 2)
    let decl : Reexport := ⟨specifier, (s.token (after + 1)).span, some names, typeOnly⟩
    let o := { o with reexports := o.reexports ++ [decl] }
    return (o.erase typeOnly (s.span start (stop - 1)), stop)
  else
    let stop := s.skipSemicolon after
    return ((o.exportNames names).erase typeOnly (s.span start (stop - 1)), stop)

/-- An exported declaration; the declaration itself is taken in afterwards. -/
def exportDeclarationAt (s : Stream) (start j : Nat) (o : Outline) : Outline :=
  let k := s.skipWords declarationModifiers s.size j
  if declarationKeywords.contains (s.text k) then
    match declaredName? s k with
    | some name => { o with exports := o.exports ++ [⟨name, some name, (s.token start).span⟩] }
    | none => o
  else o

/-- Takes in the export declaration at a position, and gives the position to go on from. -/
def exportAt (s : Stream) (start : Nat) (o : Outline) : Option (Outline × Nat) :=
  let typeOnly := s.word (start + 1) "type" &&
    (s.punct (start + 2) '\x7b' || s.punct (start + 2) '*')
  let j := if typeOnly then start + 2 else start + 1
  if s.punct j '*' then exportAllAt s start j typeOnly o
  else if s.punct j '\x7b' then exportListAt s start j typeOnly o
  else if s.word j "default" then
    some ({ o with
      exports := o.exports ++ [⟨"default", declaredName? s (j + 1), (s.token j).span⟩] }, j + 1)
  else some (exportDeclarationAt s start j o, j)

end Recompile.Script
