import Recompile.Program.Basic
import Recompile.Host.Basic

/-!
Processed stylesheets, kept from build to build: an entry is used again as long as its text is
the same.
-/

namespace Recompile

inductive StyleKey where
  | file (id : FileId)
  /-- A style that stands as text in a script: its component, and its position there. -/
  | inline (script : FileId) (component order : Nat)
deriving DecidableEq, Repr

namespace StyleKey

def code : StyleKey → List Nat
  | file id => [0, id]
  | inline script component order => [1, script, component, order]

instance : Ord StyleKey := ⟨fun a b => compare a.code b.code⟩

end StyleKey

inductive Sheet where
  | file (style : SourceFile)
  | inline (script : SourceFile) (component order : Nat) (text : String)
deriving DecidableEq, Repr

namespace Sheet

def key : Sheet → StyleKey
  | file style => .file style.id
  | inline script component order _ => .inline script.id component order

def version : Sheet → Digest
  | file style => style.version
  | inline _ _ _ text => Digest.ofText text

def process {σ : Type} [FileSystem σ] (h : Host) (fs : σ) : Sheet → Except HostError Resource
  | file style => h.resource fs style.path
  | inline script _ order text => .ok (h.inlineResource .style text script.path order)

end Sheet

namespace Program

def fileSheets (p : Program) (m : Module) : List Sheet :=
  (m.resources.filter fun r => r.kind = .style).filterMap fun r =>
    (r.file.bind p.file?).map Sheet.file

def inlineSheets (script : SourceFile) (m : Module) : List Sheet :=
  (m.outline.components.mapIdx fun component c =>
    c.inlineStyles.mapIdx fun order style => Sheet.inline script component order style.text).flatten

/-- The stylesheets of all scripts; one that is named twice is listed twice. -/
def sheets (p : Program) : List Sheet :=
  (p.members.filter fun f => f.kind = .script).flatMap fun f =>
    match p.module? f.id with
    | none => []
    | some m => fileSheets p m ++ inlineSheets f m

end Program

structure ProcessedSheet where
  version : Digest
  resource : Resource
deriving DecidableEq

structure Stylesheets where
  entries : OrdMap StyleKey ProcessedSheet

namespace Stylesheets

def empty : Stylesheets := ⟨OrdMap.empty⟩

instance : Inhabited Stylesheets := ⟨empty⟩

def size (s : Stylesheets) : Nat := s.entries.size

def contents? (s : Stylesheets) (key : StyleKey) : Option String :=
  (s.entries.get? key).bind fun e => e.resource.contents

def messages (s : Stylesheets) : Collected :=
  s.entries.values.foldl (fun all e => all.append e.resource.messages) Collected.empty

def outputs (s : Stylesheets) : List OutputFile :=
  s.entries.values.flatMap fun e => e.resource.outputs

/-- The entry for a sheet whose text is unchanged. -/
def kept? (old : Stylesheets) (sheet : Sheet) : Option ProcessedSheet :=
  match old.entries.get? sheet.key with
  | some e => if e.version = sheet.version then some e else none
  | none => none

variable {σ : Type} [FileSystem σ]

/-- Takes sheets in, processing those that have no entry to keep. The second result counts
them. -/
def takeAll (h : Host) (fs : σ) (old : Stylesheets) :
    OrdMap StyleKey ProcessedSheet → Nat → List Sheet →
      Except HostError (OrdMap StyleKey ProcessedSheet × Nat)
  | new, count, [] => .ok (new, count)
  | new, count, sheet :: rest =>
      if new.contains sheet.key then takeAll h fs old new count rest
      else match old.kept? sheet with
        | some e => takeAll h fs old (new.insert sheet.key e) count rest
        | none =>
            match sheet.process h fs with
            | .error e => .error e
            | .ok resource =>
                takeAll h fs old (new.insert sheet.key ⟨sheet.version, resource⟩) (count + 1) rest

def refresh (old : Stylesheets) (p : Program) (h : Host) (fs : σ) :
    Except HostError (Stylesheets × Nat) :=
  match takeAll h fs old OrdMap.empty 0 p.sheets with
  | .error e => .error e
  | .ok (entries, count) => .ok (⟨entries⟩, count)

end Stylesheets

end Recompile
