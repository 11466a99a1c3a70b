import Recompile.Program.Basic

/-!
The ledger of a build: what was seen of each file, what still has to be emitted, and what the last
output of each file was made from. Comparing a program with the ledger of the build before it
gives the files that are affected.
-/

namespace Recompile

structure FileRecord where
  version : Digest
  signature : Digest
  dependencies : OrdSet FileId
deriving DecidableEq, Repr

inductive EmitTarget where
  | file (id : FileId)
  /-- The ledger itself. -/
  | buildInfo
deriving DecidableEq, Repr

structure Ledger where
  options : Digest
  files : OrdMap FileId FileRecord
  pending : OrdSet FileId
  fingerprints : OrdMap FileId Digest
  /-- Whether the ledger has changed since it was written. -/
  dirty : Bool
deriving DecidableEq, Repr

namespace Ledger

def empty : Ledger := ⟨default, OrdMap.empty, OrdMap.empty, OrdMap.empty, false⟩

instance : Inhabited Ledger := ⟨empty⟩

def recordOf (p : Program) (f : SourceFile) : FileRecord :=
  ⟨f.version, (p.signature? f.id).getD f.version, p.dependencies f.id⟩

def records (p : Program) : OrdMap FileId FileRecord := OrdMap.map (fun _ f => recordOf p f) p.files

/-- The ledger of a program without a ledger before it: all files are affected. -/
def first (p : Program) (options : Digest) : Ledger × OrdSet FileId :=
  let files := records p
  (⟨options, files, OrdSet.ofList (files.keys.filter p.isScript), OrdMap.empty, true⟩,
    OrdSet.ofList files.keys)

def isFresh (prior : Ledger) (id : FileId) (r : FileRecord) : Bool :=
  match prior.files.get? id with
  | none => true
  | some old => old.version ≠ r.version

/-- Whether a file is new, or what others can see of it has changed. -/
def isResigned (prior : Ledger) (id : FileId) (r : FileRecord) : Bool :=
  match prior.files.get? id with
  | none => true
  | some old => old.signature ≠ r.signature

/-- Whether a file was known, and refers to other files than before. -/
def isRelinked (prior : Ledger) (id : FileId) (r : FileRecord) : Bool :=
  match prior.files.get? id with
  | none => false
  | some old => old.dependencies ≠ r.dependencies

/-- Files that referred to one that is gone. -/
def bereft (prior : Ledger) (files : OrdMap FileId FileRecord) : List FileId :=
  let gone := prior.files.keys.filter fun id => !files.contains id
  (prior.files.entries.filter fun e =>
    files.contains e.1 && gone.any fun id => e.2.dependencies.contains id).map (·.1)

/-- The files that pass names on from a file. -/
def passers (p : Program) (id : FileId) : List FileId :=
  ((p.importers id).filter (·.2)).map (·.1)

/-- The files whose view of others has changed: importers of files that are resigned, also through
modules that pass names on. -/
def reached (p : Program) (resigned : List FileId) : List FileId :=
  (Closure.closure (passers p) p.modules.size resigned).flatMap fun id => (p.importers id).map (·.1)

/-- The ledger of a program, and the affected files, after a ledger for the same options. -/
def next (p : Program) (prior : Ledger) : Ledger × OrdSet FileId :=
  let files := records p
  let having := fun (test : FileId → FileRecord → Bool) => (files.filter test).keys
  let fresh := having prior.isFresh
  let affected := OrdSet.ofList (fresh ++ having prior.isRelinked ++ bereft prior files ++
    reached p (having prior.isResigned))
  let pending := OrdSet.addAll (prior.pending.filter fun id _ => files.contains id)
    (fresh.filter p.isScript)
  (⟨prior.options, files, pending, prior.fingerprints.filter fun id _ => files.contains id,
    prior.dirty || !affected.isEmpty || files ≠ prior.files⟩, affected)

/-- The ledger of a program and the affected files; a ledger for other options does not count. -/
def update (p : Program) (options : Digest) : Option Ledger → Ledger × OrdSet FileId
  | none => first p options
  | some prior => if prior.options = options then next p prior else first p options

/-- What to emit next: pending files in order, then the ledger if it is kept and has changed. -/
def nextTarget? (l : Ledger) (persist : Bool) : Option EmitTarget :=
  match OrdSet.toList l.pending with
  | id :: _ => some (.file id)
  | [] => if persist && l.dirty then some .buildInfo else none

def complete (l : Ledger) : EmitTarget → Ledger
  | .file id =>
      if l.pending.contains id then { l with pending := l.pending.erase id, dirty := true } else l
  | .buildInfo => { l with dirty := false }

def record (l : Ledger) (id : FileId) (fingerprint : Digest) : Ledger :=
  { l with
    fingerprints := l.fingerprints.insert id fingerprint
    dirty := l.dirty || l.fingerprints.get? id ≠ some fingerprint }

def drainFor (persist : Bool) : Nat → Ledger → List EmitTarget × Ledger
  | 0, l => ([], l)
  | fuel + 1, l =>
      match l.nextTarget? persist with
      | none => ([], l)
      | some target =>
          let (rest, l) := drainFor persist fuel (l.complete target)
          (target :: rest, l)

/-- Emits all there is to emit: each pending file, and the ledger itself once. -/
def drain (l : Ledger) (persist : Bool) : List EmitTarget × Ledger :=
  drainFor persist (l.pending.size + 1) l

end Ledger

end Recompile
