import Recompile.Data.OrdMap
import Recompile.Script.Scanner

/-!
What a template reads from its component, and the names it declares itself.

An expression is scanned like script text. The names it reads are its identifiers, except member
names after a dot, names of pipes and keys of object literals.
-/

namespace Recompile.Template

structure Binding where
  name : String
  offset : Nat
deriving DecidableEq, Repr, Inhabited

structure Info where
  bindings : List Binding
  declared : List String
deriving DecidableEq, Repr

namespace Info

def empty : Info := ⟨[], []⟩

instance : Inhabited Info := ⟨empty⟩

instance : Append Info := ⟨fun a b => ⟨a.bindings ++ b.bindings, a.declared ++ b.declared⟩⟩

def declare (name : List Char) : Info := ⟨[], [String.ofList name]⟩

def locals (i : Info) : OrdSet String := OrdSet.ofList i.declared

end Info

/-- Names that every template may read. -/
def implicitNames : List String :=
  ["$event", "$any", "$index", "$first", "$last", "$even", "$odd", "$count", "$implicit",
   "undefined", "null", "true", "false", "this", "typeof", "let", "of", "as", "track",
   "Math", "JSON", "Number", "String", "Boolean", "Array", "Object", "Date"]

/-- The names that the component has to provide. -/
def Info.componentBindings (i : Info) : List Binding :=
  i.bindings.filter fun b => !i.declared.contains b.name && !implicitNames.contains b.name

/-- Whether an identifier is a name of its own, given the two tokens before it and the one after
it. -/
def readsName (before2 before : Option Script.Token) (after : Option Script.Token) : Bool :=
  let is := fun (t : Option Script.Token) (mark : Char) => (t.map (·.isPunct mark)).getD false
  let pipe := is before '|' && !is before2 '|' && !is after '|'
  let key := is after ':' && (is before '\x7b' || is before ',')
  !(is before '.' || pipe || key)

/-- The names read by a token sequence, given the two tokens before it. -/
def namesRead (offset : Nat) (before2 before : Option Script.Token) :
    List Script.Token → List Binding
  | [] => []
  | t :: ts =>
      let rest := namesRead offset before (some t) ts
      if t.kind = .ident && readsName before2 before ts.head? then
        ⟨t.text, offset + t.span.start⟩ :: rest
      else rest

def expression (cs : List Char) (offset : Nat) : Info :=
  ⟨namesRead offset none none (Script.scan noFile (String.ofList cs)), []⟩

end Recompile.Template
