import Recompile.Text.Classes

/-!
JSON values.

Fields keep their order and repetitions, and a number keeps the digits it was written with. A
string is absent when its escapes name no sequence of characters (an unpaired surrogate): such a
value is well formed, but no text can be read from it.
-/

namespace Recompile

inductive Json where
  | null
  | bool (value : Bool)
  | number (lexeme : String)
  | string (value : Option String)
  | array (items : List Json)
  | object (fields : List (Option String × Json))
deriving Repr, Inhabited

namespace Json

def text (s : String) : Json := .string (some s)

def nat (n : Nat) : Json := .number (toString n)

def record (fields : List (String × Json)) : Json :=
  .object (fields.map fun f => (some f.1, f.2))

def list {α : Type} (f : α → Json) (items : List α) : Json := .array (items.map f)

def texts (items : List String) : Json := list text items

def option {α : Type} (f : α → Json) : Option α → Json
  | none => .null
  | some a => f a

/-- A field that is written only when its value is present. -/
def present {α : Type} (name : String) (f : α → Json) : Option α → List (String × Json)
  | none => []
  | some a => [(name, f a)]

def field? (name : String) : Json → Option Json
  | .object fields => (fields.find? fun f => f.1 = some name).map (·.2)
  | _ => none

end Json

end Recompile
