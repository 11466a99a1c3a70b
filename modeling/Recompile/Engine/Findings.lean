import Recompile.Program.Checks

/-!
Findings kept from build to build: those about a file are replaced when it is analysed again, and
dropped when it leaves the program.
-/

namespace Recompile

structure FileFindings where
  semantic : List Diagnostic
  template : List Diagnostic
deriving DecidableEq, Repr

namespace FileFindings

/-- Analyses a file; templates are analysed in full builds, for scripts. -/
def ofFile (p : Program) (full strict : Bool) (f : SourceFile) : FileFindings :=
  ⟨Check.semantic p f.id,
    if full && f.kind = .script then Check.templates p f.id strict else []⟩

end FileFindings

structure Findings where
  entries : OrdMap FileId FileFindings
deriving DecidableEq, Repr

namespace Findings

def empty : Findings := ⟨OrdMap.empty⟩

instance : Inhabited Findings := ⟨empty⟩

def size (c : Findings) : Nat := c.entries.size

def get? (c : Findings) (id : FileId) : Option FileFindings := c.entries.get? id

def insert (c : Findings) (id : FileId) (found : FileFindings) : Findings :=
  ⟨c.entries.insert id found⟩

def retain (c : Findings) (keep : FileId → Bool) : Findings :=
  ⟨c.entries.filter fun id _ => keep id⟩

end Findings

namespace Program

/-- The files that are checked: scripts and declarations. -/
def checked (p : Program) : List SourceFile :=
  p.members.filter fun f => f.kind = .script || f.kind = .declaration

end Program

namespace Findings

/-- Analyses the checked files that are affected or not known yet. -/
def update (c : Findings) (p : Program) (full strict : Bool) (affected : OrdSet FileId) :
    Findings :=
  p.checked.foldl (fun c f =>
    if !affected.contains f.id && (c.get? f.id).isSome then c
    else c.insert f.id (FileFindings.ofFile p full strict f)) (c.retain p.contains)

end Findings

end Recompile
