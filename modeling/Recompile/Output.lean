import Recompile.Path.Basic
import Recompile.Text.Utf8

/-!
Files that a build produces.
-/

namespace Recompile

structure OutputFile where
  path : Path
  contents : ByteArray

instance : DecidableEq OutputFile := fun a b =>
  decidable_of_decidable_of_iff (p := a.path = b.path ∧ a.contents.data = b.contents.data) (by
    obtain ⟨p, ⟨x⟩⟩ := a
    obtain ⟨q, ⟨y⟩⟩ := b
    simp)

namespace OutputFile

def ofText (path : Path) (text : String) : OutputFile := ⟨path, text.toUTF8⟩

def text (f : OutputFile) : String := Utf8.lossy f.contents

end OutputFile

end Recompile
