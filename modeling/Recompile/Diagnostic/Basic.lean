import Recompile.Source.Table

/-!
Diagnostics: findings about source files, with a code, a severity and the spans they are about.
-/

namespace Recompile

inductive Category where
  | config
  | grammar
  | semantic
  | lint
  | template
deriving DecidableEq, Repr, Inhabited

def Category.letter : Category → Char
  | config => 'C'
  | grammar => 'S'
  | semantic => 'E'
  | lint => 'W'
  | template => 'T'

structure Code where
  category : Category
  number : Nat
deriving DecidableEq, Repr, Inhabited

/-- A number in at least four digits. -/
def fourDigits (n : Nat) : List Char :=
  let ds := Nat.toDigits 10 n
  List.replicate (4 - ds.length) '0' ++ ds

def Code.display (c : Code) : String := String.ofList (c.category.letter :: fourDigits c.number)

inductive Severity where
  | error
  | warning
deriving DecidableEq, Repr, Inhabited

def Severity.display : Severity → String
  | error => "error"
  | warning => "warning"

structure RelatedSpan where
  span : Span
  message : String
deriving DecidableEq, Repr, Inhabited

structure Diagnostic where
  severity : Severity
  code : Code
  message : String
  span : Span
  related : List RelatedSpan
  notes : List String
deriving DecidableEq, Repr, Inhabited

namespace Diagnostic

def error (code : Code) (message : String) (span : Span) : Diagnostic :=
  ⟨.error, code, message, span, [], []⟩

def warning (code : Code) (message : String) (span : Span) : Diagnostic :=
  ⟨.warning, code, message, span, [], []⟩

def withNote (d : Diagnostic) (note : String) : Diagnostic := { d with notes := d.notes ++ [note] }

end Diagnostic

end Recompile
