import Recompile.Data.OrdMap
import Recompile.Host.FileSystem
import Recompile.Host.Styles
import Recompile.Path.Normal

/-!
Hosts: access to files with replacements, and to resources through a style processor.
-/

namespace Recompile

structure HostError where
  path : Path
  reason : String
deriving DecidableEq, Repr

def HostError.message (e : HostError) : String :=
  "I/O error on " ++ e.path.text ++ ": " ++ e.reason

structure Host where
  /-- Files that are read in place of others; both sides are normal. -/
  replacements : OrdMap Path Path
  styles : StyleProcessor

structure Resource where
  contents : Option String
  messages : Collected
  outputs : List OutputFile
deriving DecidableEq

namespace Host

/-- A host with replacements as they were asked for; of two for one path the later counts. -/
def ofReplacements (pairs : List (Path × Path)) (styles : StyleProcessor) : Host :=
  ⟨OrdMap.ofList ((OrdMap.ofList pairs).entries.map fun e => (e.1.normalize, e.2.normalize)), styles⟩

def actual (h : Host) (p : Path) : Path := (h.replacements.get? p).getD p

variable {σ : Type} [FileSystem σ]

/-- The text of a file; none when there is no such file. -/
def read (h : Host) (fs : σ) (p : Path) : Except HostError (Option String) :=
  match FileSystem.read fs (h.actual p) with
  | .ok text => .ok (some text)
  | .error (.missing _) => .ok none
  | .error (.failed reason) => .error ⟨h.actual p, reason⟩

def present (h : Host) (fs : σ) (p : Path) : Bool := FileSystem.present fs (h.actual p)

/-- Writes a text; replacements do not apply. -/
def write (fs : σ) (p : Path) (text : String) : Except HostError Unit × σ :=
  match FileSystem.write fs p text.toUTF8 with
  | (.ok (), fs) => (.ok (), fs)
  | (.error fault, fs) => (.error ⟨p, fault.reason⟩, fs)

/-- At most this many different normal paths can be read. -/
def capacity (h : Host) (fs : σ) : Nat := FileSystem.capacity fs + h.replacements.size

/-- The resource at a path: stylesheets are processed, all else is taken as it is. -/
def resource (h : Host) (fs : σ) (p : Path) : Except HostError Resource :=
  match h.read fs p with
  | .error e => .error e
  | .ok none => .ok ⟨none, Collected.empty, []⟩
  | .ok (some text) =>
      if SourceKind.ofPath p = .style then
        let o := h.styles.file p text
        .ok ⟨some (o.contents.getD text), o.messages, o.outputs⟩
      else .ok ⟨some text, Collected.empty, []⟩

/-- The resource that stands as text in a script; only styles are processed. -/
def inlineResource (h : Host) (kind : SourceKind) (text : String) (containing : Path)
    (order : Nat) : Resource :=
  if kind = .style then
    let o := h.styles.inline text containing order
    ⟨o.contents, o.messages, o.outputs⟩
  else ⟨none, Collected.empty, []⟩

end Host

end Recompile
