import Recompile.Text.Basic

/-!
TOML values and tables.

A table remembers how it came about, because that decides who may add to it: a header opens a
table once, and may open a table that so far only stands on the way to another one; dotted keys
add only to tables that dotted keys made; a table in braces is complete.
-/

namespace Recompile.Toml

inductive Origin where
  /-- By its own header, or as the document. -/
  | header
  /-- On the way to a header that lies deeper. -/
  | passage
  /-- By a dotted key. -/
  | dotted
  | braces
deriving DecidableEq, Repr, Inhabited

inductive Node where
  | string (value : String)
  | integer (value : Int)
  | float (lexeme : String)
  | boolean (value : Bool)
  | datetime (lexeme : String)
  | array (items : List Node)
  | table (origin : Origin) (fields : List (String × Node))
  /-- An array whose elements are opened by headers. -/
  | tables (elements : List Node)
deriving Repr, Inhabited

abbrev Fields := List (String × Node)

namespace Fields

def find? (fields : Fields) (key : String) : Option Node :=
  (List.find? (fun f => f.1 = key) fields).map (·.2)

def replace (fields : Fields) (key : String) (value : Node) : Fields :=
  fields.map fun f => if f.1 = key then (key, value) else f

def add (fields : Fields) (key : String) (value : Node) : Fields := fields ++ [(key, value)]

def set (fields : Fields) (key : String) (value : Node) : Fields :=
  match fields.find? key with
  | some _ => fields.replace key value
  | none => fields.add key value

end Fields

end Recompile.Toml
