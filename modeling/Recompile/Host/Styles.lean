import Recompile.Diagnostic.Message
import Recompile.Output

/-!
Processors of stylesheets. A processor reports problems beside its result and never fails.
-/

namespace Recompile

structure StyleOutput where
  /-- The new text; none to keep the text as it is. -/
  contents : Option String
  errors : List Message
  warnings : List Message
  /-- Further files that the stylesheet needs. -/
  outputs : List OutputFile
deriving DecidableEq

namespace StyleOutput

def unchanged : StyleOutput := ⟨none, [], [], []⟩

def ofText (text : String) : StyleOutput := ⟨some text, [], [], []⟩

def messages (o : StyleOutput) : Collected := ⟨o.errors, o.warnings⟩

end StyleOutput

structure StyleProcessor where
  file : Path → String → StyleOutput
  /-- Processes the style text at a position of a script. -/
  inline : String → Path → Nat → StyleOutput

namespace StyleProcessor

def passthrough : StyleProcessor := ⟨fun _ text => .ofText text, fun _ _ _ => .unchanged⟩

/-- What marks in a text call for: `@none` keeps the text, `@error` and `@warn` report, `@asset`
adds a file. -/
def marks (text label : String) : StyleOutput :=
  let marked := fun (mark : String) => Text.includes mark.toList text.toList
  { contents :=
      if marked "@none" then none
      else some (String.ofList (Text.replaceAll "red".toList "#f00".toList text.toList))
    errors := if marked "@error" then [Message.plain ("style error in " ++ label)] else []
    warnings := if marked "@warn" then [Message.plain ("style warning in " ++ label)] else []
    outputs :=
      if marked "@asset" then [OutputFile.ofText ⟨"/out" ++ label ++ ".asset"⟩ text] else [] }

/-- Follows the marks in each text, and writes red in digits. -/
def marked : StyleProcessor :=
  ⟨fun path text => marks text path.text,
   fun text containing order => marks text (containing.text ++ "#" ++ toString order)⟩

end StyleProcessor

end Recompile
