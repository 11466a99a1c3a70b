import Recompile.Json.Basic
import Recompile.Data.OrdMap

/-!
Reading values of other types from JSON values.

A record may be written as an object or as an array of its fields in order. In an object, fields
that are not part of the record are passed over, and a field of the record that is given twice is
refused. A field with a default may be missing; in the array form only such fields may be missing,
and only at the end.
-/

namespace Recompile.Json

abbrev Reader (α : Type) := Json → Option α

namespace Read

def text : Reader String
  | .string s => s
  | _ => none

def bool : Reader Bool
  | .bool b => some b
  | _ => none

def digitsValue (cs : List Char) : Nat :=
  cs.foldl (fun acc c => acc * 10 + (c.toNat - 48)) 0

/-- A whole number written by digits alone, below a bound. -/
def natBelow (bound : Nat) : Reader Nat
  | .number lexeme =>
      let cs := lexeme.toList
      if cs.all Text.isAsciiDigit ∧ digitsValue cs < bound then some (digitsValue cs) else none
  | _ => none

def list {α : Type} (item : Reader α) : Reader (List α)
  | .array items => items.mapM item
  | _ => none

/-- `null` stands for an absent value. -/
def option {α : Type} (value : Reader α) : Reader (Option α)
  | .null => some none
  | v => (value v).map some

/-- An object whose keys are data; the last value of a repeated key counts. -/
def dict {α : Type} (value : Reader α) : Reader (OrdMap String α)
  | .object fields => do
      let pairs ← fields.mapM fun f => do
        let key ← f.1
        let v ← value f.2
        return (key, v)
      return OrdMap.ofList pairs
  | _ => none

/-- A name out of a fixed set, written as a string or as the only key of an object over `null`. -/
def variant {α : Type} (named : String → Option α) : Reader α
  | .string (some s) => named s
  | .object [(some s, .null)] => named s
  | _ => none

end Read

/-- A field of a record: its name, and what a missing field stands for in the two forms. -/
structure Field where
  name : String
  /-- The value a missing field of an object stands for. -/
  absent : Option Json
  /-- Whether the field may be missing at the end of the array form. -/
  optionalInArray : Bool

def required (name : String) : Field := ⟨name, none, false⟩

def nullable (name : String) : Field := ⟨name, some .null, false⟩

def defaulted (name : String) (value : Json) : Field := ⟨name, some value, true⟩

def fieldValue (fields : List (Option String × Json)) (f : Field) : Option Json :=
  match fields.filter fun e => e.1 = some f.name with
  | [] => f.absent
  | [e] => some e.2
  | _ => none

/-- Lines the items of the array form up with the fields of the record. -/
def alignItems : List Field → List Json → Option (List Json)
  | [], [] => some []
  | [], _ :: _ => none
  | _ :: fs, item :: items => (alignItems fs items).map (item :: ·)
  | f :: fs, [] =>
      if f.optionalInArray then do
        let value ← f.absent
        return value :: (← alignItems fs [])
      else none

def fieldValues (fs : List Field) : Json → Option (List Json)
  | .object fields =>
      if fields.all fun e => e.1.isSome then fs.mapM (fieldValue fields) else none
  | .array items => alignItems fs items
  | _ => none

end Recompile.Json
