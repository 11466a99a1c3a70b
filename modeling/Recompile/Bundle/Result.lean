import Recompile.Bundle.Classification
import Recompile.Diagnostic.Message
import Recompile.Output

/-!
Results of bundling passes, and their combination.
-/

namespace Recompile.Bundle

/-- The outcome of one or more passes; a failed one keeps no outputs. -/
inductive Result where
  | failure (errors warnings : List Message)
  | success (warnings : List Message) (metafile : Metafile) (outputs : List OutputFile)
      (initial : InitialFiles)
deriving DecidableEq

namespace Result

def isSuccess : Result → Bool
  | failure .. => false
  | success .. => true

def errors : Result → List Message
  | failure errors _ => errors
  | success .. => []

def warnings : Result → List Message
  | failure _ warnings => warnings
  | success warnings .. => warnings

def metafile : Result → Metafile
  | failure .. => Metafile.empty
  | success _ metafile _ _ => metafile

def outputs : Result → List OutputFile
  | failure .. => []
  | success _ _ outputs _ => outputs

def initial : Result → InitialFiles
  | failure .. => OrdMap.empty
  | success _ _ _ initial => initial

def combine (results : List Result) : Result :=
  let warnings := results.flatMap warnings
  if results.all isSuccess then
    success warnings
      (results.foldl (fun m r => m.merge r.metafile) Metafile.empty)
      (results.flatMap outputs)
      (results.foldl (fun m r => mergeInitial m r.initial) OrdMap.empty)
  else failure (results.flatMap errors) warnings

/-- Combines results, and keeps a single one as it is. -/
def merge : List Result → Result
  | [only] => only
  | results => combine results

end Result

end Recompile.Bundle
