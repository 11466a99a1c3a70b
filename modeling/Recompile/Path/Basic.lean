import Recompile.Text.Basic

/-!
Lexical file paths.

A path keeps the text it was written with, and is compared by its components: empty components
and `.` components are skipped, except a `.` that starts a relative path. Nothing here looks at
a file system.
-/

namespace Recompile

structure Path where
  text : String
deriving DecidableEq, Repr, Inhabited

namespace Path

inductive Component where
  | root
  | here
  | up
  | name (text : String)
deriving DecidableEq, Repr

namespace Component

def rank : Component → Nat
  | root => 0
  | here => 1
  | up => 2
  | name _ => 3

instance : Ord Component where
  compare
    | name a, name b => compare a b
    | a, b => compare a.rank b.rank

def text : Component → String
  | root => "/"
  | here => "."
  | up => ".."
  | name s => s

/-- The component a segment between slashes stands for, if it is not skipped. -/
def ofSegment? (segment : List Char) : Option Component :=
  if segment = [] ∨ segment = ['.'] then none
  else if segment = ['.', '.'] then some up
  else some (name (String.ofList segment))

end Component

def segments (cs : List Char) : List (List Char) := Text.splitOn (· = '/') cs

/-- The leading component of a path, and the text that follows it. -/
def lead : List Char → List Component × List Char
  | '/' :: cs => ([.root], cs)
  | ['.'] => ([.here], [])
  | '.' :: '/' :: cs => ([.here], '/' :: cs)
  | cs => ([], cs)

/-- The components of a path, by which it is compared. -/
def components (p : Path) : List Component :=
  let (start, body) := lead p.text.toList
  start ++ (segments body).filterMap Component.ofSegment?

instance : Ord Path := ⟨fun p q => compare p.components q.components⟩

def same (p q : Path) : Bool := p.components = q.components

def isAbsolute (p : Path) : Bool := Text.startsWith ['/'] p.text.toList

def render : List Component → String
  | [] => ""
  | .root :: cs => "/" ++ "/".intercalate (cs.map Component.text)
  | cs => "/".intercalate (cs.map Component.text)

def ofComponents (cs : List Component) : Path := ⟨render cs⟩

def toSlash (p : Path) : String := render p.components

def join (p q : Path) : Path :=
  if q.isAbsolute then q
  else if p.text.isEmpty || Text.endsWith ['/'] p.text.toList then ⟨p.text ++ q.text⟩
  else ⟨p.text ++ "/" ++ q.text⟩

def fileName? (p : Path) : Option String :=
  match p.components.getLast? with
  | some (.name s) => some s
  | _ => none

/-- A name without its last extension; a leading dot starts no extension. -/
def stemOf (name : List Char) : List Char :=
  match (name.reverse.dropWhile (· ≠ '.')) with
  | [] => name
  | _ :: before => if before.isEmpty then name else before.reverse

def fileStem? (p : Path) : Option String :=
  p.fileName?.map fun s => if s = ".." then s else String.ofList (stemOf s.toList)

def trimSegments (segs : List (List Char)) : List (List Char) :=
  (segs.reverse.dropWhile fun s => (Component.ofSegment? s).isNone).reverse

/-- The path without its last component; none for the root and the empty path. -/
def parent? (p : Path) : Option Path :=
  let (start, body) := lead p.text.toList
  let kept := trimSegments (segments body)
  if kept.isEmpty then
    if start = [.here] then some ⟨""⟩ else none
  else
    some ⟨render start ++ String.ofList (['/'].intercalate (trimSegments kept.dropLast))⟩

/-- The directory a path lies in: the text before its last component, or `.`. -/
def dirname (p : Path) : Path :=
  match p.parent? with
  | some dir => if dir.text.isEmpty then ⟨"."⟩ else dir
  | none => ⟨"."⟩

/-- A file beside a script: its name without `.ts`, with another ending. -/
def beside (p : Path) (ending : String) : Path :=
  let name := (p.fileName?.getD "").toList
  let stem := (Text.stripTail? ".ts".toList name).getD name
  p.dirname.join ⟨String.ofList stem ++ ending⟩

end Path

end Recompile
