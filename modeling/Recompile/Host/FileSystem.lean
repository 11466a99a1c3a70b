import Recompile.Path.Basic

/-!
What is asked of a file system.
-/

namespace Recompile

inductive IoFault where
  /-- There is no such file. -/
  | missing (reason : String)
  | failed (reason : String)
deriving DecidableEq, Repr

def IoFault.reason : IoFault → String
  | missing reason => reason
  | failed reason => reason

class FileSystem (σ : Type) where
  read : σ → Path → Except IoFault String
  /-- Whether there is a file at a path. -/
  present : σ → Path → Bool
  write : σ → Path → ByteArray → Except IoFault Unit × σ
  /-- At most this many different normal paths can be read. -/
  capacity : σ → Nat

end Recompile
