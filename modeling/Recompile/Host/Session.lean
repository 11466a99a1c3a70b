import Recompile.Host.Basic

/-!
Sessions with a host: what resources report is kept until it is taken.
-/

namespace Recompile

structure HostSession where
  host : Host
  messages : Collected
  outputs : List OutputFile

namespace HostSession

def ofHost (host : Host) : HostSession := ⟨host, Collected.empty, []⟩

/-- Keeps what a resource reports. -/
def absorb (s : HostSession) (r : Resource) : HostSession :=
  { s with messages := s.messages.append r.messages, outputs := s.outputs ++ r.outputs }

def readResource {σ : Type} [FileSystem σ] (s : HostSession) (fs : σ) (p : Path) :
    Except HostError (Option String) × HostSession :=
  match s.host.resource fs p with
  | .error e => (.error e, s)
  | .ok r => (.ok r.contents, s.absorb r)

/-- The new text of a resource that stands in a script; one with a file of its own has none. -/
def transform (s : HostSession) (kind : SourceKind) (text : String) (containing : Path)
    (file : Option Path) (order : Nat) : Option String × HostSession :=
  match file with
  | some _ => (none, s)
  | none =>
      let r := s.host.inlineResource kind text containing order
      (r.contents, s.absorb r)

def takeMessages (s : HostSession) : Collected × HostSession :=
  (s.messages, { s with messages := Collected.empty })

def takeOutputs (s : HostSession) : List OutputFile × HostSession :=
  (s.outputs, { s with outputs := [] })

end HostSession

end Recompile
