import Recompile.Bundle.Result

/-!
Runners: a bundler, driven pass by pass, with the classification of what it writes.

A runner that is incremental starts a session on its first pass and keeps it until it is
disposed of. A failed start leaves no session, a failed rebuild keeps the one there is.
-/

namespace Recompile.Bundle

inductive Fault where
  /-- Errors in the code that is bundled. -/
  | failure (errors warnings : List Message)
  | unreadable (path : Path) (reason : String)
  | malformedMetafile
  | broken (reason : String)
deriving DecidableEq

def Fault.message : Fault → String
  | .failure errors _ => "bundling failed with " ++ toString errors.length ++ " error(s)"
  | .unreadable path reason => "bundler I/O error at " ++ path.text ++ ": " ++ reason
  | .malformedMetafile => "failed to parse metafile"
  | .broken reason => "bundler error: " ++ reason

structure Product where
  warnings : List Message
  metafile : Metafile
  outputs : List OutputFile
deriving DecidableEq

/-- A bundler: full builds, and sessions that are started, rebuilt and disposed of. -/
class Bundler (β : Type) where
  build : β → Except Fault Product × β
  start : β → Except Fault Unit × β
  rebuild : β → Except Fault Product × β
  dispose : β → β

structure Runner (β : Type) where
  bundler : β
  incremental : Bool
  hasSession : Bool
  scope : Scope

namespace Runner

def fresh {β : Type} (bundler : β) (incremental : Bool) (scope : Scope) : Runner β :=
  ⟨bundler, incremental, false, scope⟩

variable {β : Type} [Bundler β]

def rebuild (r : Runner β) : Except Fault Product × Runner β :=
  let (product, bundler) := Bundler.rebuild r.bundler
  (product, { r with bundler := bundler, hasSession := true })

def run (r : Runner β) : Except Fault Product × Runner β :=
  if !r.incremental then
    let (product, bundler) := Bundler.build r.bundler
    (product, { r with bundler := bundler })
  else if r.hasSession then r.rebuild
  else
    match Bundler.start r.bundler with
    | (.error fault, bundler) => (.error fault, { r with bundler := bundler })
    | (.ok (), bundler) => rebuild { r with bundler := bundler }

/-- The result of a pass: errors in the bundled code are a result, all else is a fault. -/
def resultOf (scope : Scope) : Except Fault Product → Except Fault Result
  | .ok p => .ok (.success p.warnings p.metafile p.outputs (classify scope p.metafile))
  | .error (.failure errors warnings) => .ok (.failure errors warnings)
  | .error fault => .error fault

def bundle (r : Runner β) : Except Fault Result × Runner β :=
  let (product, r) := r.run
  (resultOf r.scope product, r)

def dispose (r : Runner β) : Runner β :=
  if r.hasSession then { r with bundler := Bundler.dispose r.bundler, hasSession := false } else r

/-- Gives up the runner, with what session it has: its bundler is left. -/
def drop (r : Runner β) : β :=
  r.dispose.bundler

end Runner

def bundleAll {β : Type} [Bundler β] (runners : List (Runner β)) :
    Except Fault Result × List (Runner β) :=
  let passes := runners.map fun r => r.bundle
  let results : Except Fault (List Result) := passes.mapM fun p => p.1
  (results.map Result.merge, passes.map fun p => p.2)

end Recompile.Bundle
