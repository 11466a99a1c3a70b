import Recompile.Bundle.InitialFile
import Recompile.Bundle.Metafile
import Recompile.Path.Normal

/-!
The initial files of a pass.

The outputs of the declared entry points are the seeds, and static imports are followed from
there. A file is known by its path relative to the workspace root, an external import by its
specifier, and nothing is followed from an external import.
-/

namespace Recompile.Bundle

/-- The base name of an output up to its first dot. -/
def entryName (output : String) : String :=
  let base := (output.toList.reverse.takeWhile fun c => c ≠ '/' ∧ c ≠ '\\').reverse
  String.ofList (base.takeWhile (· ≠ '.'))

structure Scope where
  entries : List Path
  workingDir : Path
  workspaceRoot : Path
  /-- Whether a file reached through an import is kept. -/
  keep : String → InitialFile → Bool

namespace Scope

/-- The path of an output relative to the workspace root. -/
def key (s : Scope) (output : String) : String :=
  (s.workspaceRoot.relative (s.workingDir.resolve ⟨output⟩)).toSlash

def isEntry (s : Scope) (input : String) : Bool :=
  s.entries.any fun p => (s.workingDir.resolve p).same (s.workingDir.resolve ⟨input⟩)

def edgeKey (s : Scope) (e : ImportEdge) : String := if e.external then e.path else s.key e.path

end Scope

def seedFile (output : String) : InitialFile :=
  ⟨some (entryName output), FileType.ofPath output, true, none⟩

def reachedFile (e : ImportEdge) : InitialFile :=
  ⟨none, FileType.ofPath e.path, false, if e.external then some true else none⟩

/-- The outputs of declared entry points, in the order of their paths. -/
def seeds (s : Scope) (m : Metafile) : List String :=
  (m.outputs.entries.filter fun e => (e.2.entryPoint.map s.isEntry).getD false).map (·.1)

/-- Takes in the static imports of an output; the second result lists the paths to follow. -/
def takeImports (s : Scope) : InitialFiles → List ImportEdge → InitialFiles × List String
  | found, [] => (found, [])
  | found, e :: rest =>
      if e.kind.isStatic && !found.contains (s.edgeKey e) &&
          s.keep (s.edgeKey e) (reachedFile e) then
        let (all, follow) := takeImports s (found.insert (s.edgeKey e) (reachedFile e)) rest
        (all, if e.external then follow else e.path :: follow)
      else takeImports s found rest

def follow (s : Scope) (m : Metafile) : Nat → InitialFiles → List String → InitialFiles
  | 0, found, _ => found
  | _ + 1, found, [] => found
  | fuel + 1, found, output :: queue =>
      match m.outputs.get? output with
      | none => follow s m fuel found queue
      | some entry =>
          let (found, more) := takeImports s found entry.imports
          follow s m fuel found (queue ++ more)

/-- A bound on the number of outputs that are followed: every seed, and one for each import. -/
def followBound (m : Metafile) : Nat :=
  m.outputs.size + (m.outputs.values.flatMap fun e => e.imports).length

def classify (s : Scope) (m : Metafile) : InitialFiles :=
  let start := (seeds s m).foldl (fun found output => found.insert (s.key output) (seedFile output))
    (OrdMap.empty : InitialFiles)
  follow s m (followBound m) start (seeds s m)

end Recompile.Bundle
