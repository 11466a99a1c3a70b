import Recompile.Script.Components
import Recompile.Script.Scanner

/-!
The outline of a script text: one pass over its tokens. Import, export and other declarations
count at the top only, outside all braces; components and dynamic imports count anywhere.
-/

namespace Recompile.Script

def afterDot (s : Stream) (i : Nat) : Bool := decide (0 < i) && s.punct (i - 1) '.'

def Outline.refer (o : Outline) (s : Stream) (i : Nat) : Outline :=
  if afterDot s i then o else { o with references := OrdSet.add o.references (s.text i) }

/-- Takes in a name at a position, with whatever statement it starts. The result also says where
to go on. -/
def wordAt (s : Stream) (top : Bool) (i : Nat) (o : Outline) : Outline × Nat :=
  let text := s.text i
  if text = "import" && s.punct (i + 1) '(' then ((dynamicImportAt s i o).refer s i, i + 1)
  else if top && s.statementStart i then
    if text = "import" then (importAt s i o).getD (o.refer s i, i + 1)
    else if text = "export" then (exportAt s i o).getD (o.refer s i, i + 1)
    else ((declarationAt s i o).refer s i, i + 1)
  else (o.refer s i, i + 1)

/-- Takes in the tokens from a position on, at a depth of braces. -/
def outlineFrom (s : Stream) : Nat → Nat → Nat → Outline → Outline
  | 0, _, _, o => o
  | fuel + 1, depth, i, o =>
      match (s.token i).kind with
      | .eof => o
      | .punct mark =>
          if mark = '\x7b' then outlineFrom s fuel (depth + 1) (i + 1) o
          else if mark = '\x7d' then outlineFrom s fuel (depth - 1) (i + 1) o
          else if mark = '@' && s.word (i + 1) "Component" then
            outlineFrom s fuel depth (i + 1)
              { o with components := o.components ++ (componentAt? s i).toList }
          else outlineFrom s fuel depth (i + 1) o
      | .ident =>
          let (o, next) := wordAt s (depth = 0) i o
          outlineFrom s fuel depth next o
      | _ => outlineFrom s fuel depth (i + 1) o

theorem outlineFrom_succ (s : Stream) (fuel depth i : Nat) (o : Outline) :
    outlineFrom s (fuel + 1) depth i o =
      match (s.token i).kind with
      | .eof => o
      | .punct mark =>
          if mark = '\x7b' then outlineFrom s fuel (depth + 1) (i + 1) o
          else if mark = '\x7d' then outlineFrom s fuel (depth - 1) (i + 1) o
          else if mark = '@' && s.word (i + 1) "Component" then
            outlineFrom s fuel depth (i + 1)
              { o with components := o.components ++ (componentAt? s i).toList }
          else outlineFrom s fuel depth (i + 1) o
      | .ident =>
          let (o, next) := wordAt s (depth = 0) i o
          outlineFrom s fuel depth next o
      | _ => outlineFrom s fuel depth (i + 1) o := rfl

def outlineOf (s : Stream) : Outline := outlineFrom s s.size 0 0 Outline.empty

def analyze (file : FileId) (tokens : List Token) : Outline := outlineOf (Stream.ofTokens file tokens)

end Recompile.Script
