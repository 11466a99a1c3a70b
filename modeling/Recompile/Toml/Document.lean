import Recompile.Toml.Basic

/-!
Documents as trees of tables, put together from keys, values and headers.
-/

namespace Recompile.Toml

/-- The fields of the table that dotted keys may enter below a node, and how to put them back. -/
def Node.extend (dotted : Bool) : Node → (Origin → Fields → Option Fields) → Option Node
  | .table origin fields, f =>
      if origin = .braces ∨ (dotted ∧ origin = .header) then none
      else (f origin fields).map (.table origin)
  | .tables elements, f =>
      match elements.getLast? with
      | some (.table origin fields) =>
          (f origin fields).map fun fields =>
            .tables (elements.dropLast ++ [.table origin fields])
      | _ => none
  | _, _ => none

/-- Changes the table at a path, making the tables on the way that are missing. -/
def modifyAt (dotted : Bool) (f : Origin → Fields → Option Fields) :
    List String → Origin → Fields → Option Fields
  | [], origin, fields => f origin fields
  | key :: path, _, fields =>
      match fields.find? key with
      | none =>
          let made := if dotted then .dotted else .passage
          (modifyAt dotted f path made []).map fun inner =>
            fields.add key (.table made inner)
      | some node =>
          (node.extend dotted (modifyAt dotted f path)).map (fields.replace key)

/-- Adds a value under a dotted key. The table it goes into has to be one that dotted keys make,
or the table the key is written in. -/
def insert (key : List String) (value : Node) (origin : Origin) (fields : Fields) :
    Option Fields :=
  match key.getLast? with
  | none => none
  | some name =>
      let path := key.dropLast
      modifyAt true (fun origin fields =>
        if decide (origin = .dotted) = path.isEmpty then none
        else match fields.find? name with
          | some _ => none
          | none => some (fields.add name value)) path origin fields

def openTable (name : String) (fields : Fields) : Option Fields :=
  match fields.find? name with
  | none => some (fields.add name (.table .header []))
  | some (.table .passage inner) => some (fields.replace name (.table .header inner))
  | some _ => none

def openElement (name : String) (fields : Fields) : Option Fields :=
  match fields.find? name with
  | none => some (fields.add name (.tables [.table .header []]))
  | some (.tables elements) =>
      some (fields.replace name (.tables (elements ++ [.table .header []])))
  | some _ => none

inductive Line where
  | pair (key : List String) (value : Node)
  | header (key : List String)
  | element (key : List String)
deriving Repr

/-- A document under construction: its fields, and the header its pairs stand under. -/
structure Draft where
  fields : Fields
  current : List String
deriving Repr

def Draft.addLine (d : Draft) : Line → Option Draft
  | .pair key value =>
      (modifyAt false (insert key value) d.current .header d.fields).map fun fields =>
        { d with fields := fields }
  | .header key => do
      let name ← key.getLast?
      let fields ← modifyAt false (fun _ => openTable name) key.dropLast .header d.fields
      return ⟨fields, key⟩
  | .element key => do
      let name ← key.getLast?
      let fields ← modifyAt false (fun _ => openElement name) key.dropLast .header d.fields
      return ⟨fields, key⟩

def assemble (lines : List Line) : Option Fields :=
  (lines.foldlM Draft.addLine ⟨[], []⟩).map (·.fields)

end Recompile.Toml
