import Recompile.Engine.Basic

/-!
Emission: the pending files of the last snapshot, in full builds also the scripts whose resources
have changed, and at the end the ledger where it is kept.
-/

namespace Recompile

namespace Ledger

/-- Emits files one by one. A file that cannot be emitted stays pending, and so do those after
it. -/
def emitFiles (output : FileId → Except CutError (Option Emitted)) :
    Ledger → List FileId → Except CutError (List Emitted) × Ledger
  | l, [] => (.ok [], l)
  | l, id :: rest =>
      match output id with
      | .error e => (.error e, l)
      | .ok emitted =>
          let (more, l) := emitFiles output (l.complete (.file id)) rest
          (more.map (emitted.toList ++ ·), l)

def emitPending (output : FileId → Except CutError (Option Emitted)) (l : Ledger) :
    Except CutError (List Emitted) × Ledger :=
  emitFiles output l (OrdSet.toList l.pending)

def recordAll (fingerprint? : FileId → Option Digest) (l : Ledger) (ids : List FileId) : Ledger :=
  ids.foldl (fun l id =>
    match fingerprint? id with
    | some d => l.record id d
    | none => l) l

def emitStale (output : FileId → Except CutError (Option Emitted))
    (fingerprint? : FileId → Option Digest) :
    Ledger → List FileId → Except CutError (List Emitted) × Ledger
  | l, [] => (.ok [], l)
  | l, id :: rest =>
      match fingerprint? id with
      | none => emitStale output fingerprint? l rest
      | some d =>
          if l.fingerprints.get? id = some d then emitStale output fingerprint? l rest
          else match output id with
            | .error e => (.error e, l)
            | .ok emitted =>
                let (more, l) := emitStale output fingerprint? (l.record id d) rest
                (more.map (emitted.toList ++ ·), l)

end Ledger

namespace Snapshot

/-- Emits with resources written into the outputs: the pending files, then all other scripts that
are stale. -/
def emitInlined (s : Snapshot) : Except CutError (List Emitted) × Ledger :=
  let output := Emit.inlined s.program s.styles
  let fingerprint? := fun id => Emit.fingerprint? s.program id s.optionsDigest
  match s.ledger.emitPending output with
  | (.error e, l) => (.error e, l)
  | (.ok emitted, l) =>
      let done := emitted.map (·.file)
      let others := (s.program.members.filter fun f =>
        f.kind = .script && !done.contains f.id).map (·.id)
      let (more, l) := (l.recordAll fingerprint? done).emitStale output fingerprint? others
      (more.map (emitted ++ ·), l)

def emitFiles (strategy : Strategy) (s : Snapshot) : Except CutError (List Emitted) × Ledger :=
  match strategy with
  | .aot => s.emitInlined
  | .jit => s.ledger.emitPending (Emit.deferred s.program)

/-- Writes the ledger where it is kept and has changed. -/
def persist {σ : Type} [FileSystem σ] (s : Snapshot) (registry : Registry) (fs : σ) :
    Except HostError Snapshot × σ :=
  match s.options.buildInfoPath? with
  | none => (.ok s, fs)
  | some path =>
      if s.ledger.dirty then
        let info := BuildInfo.ofLedger s.ledger registry s.options.configDir
        match Host.write fs path info.render with
        | (.error e, fs) => (.error e, fs)
        | (.ok (), fs) => (.ok { s with ledger := s.ledger.complete .buildInfo }, fs)
      else (.ok s, fs)

end Snapshot

namespace Engine

/-- Emits all that is out of date. What was emitted before a failure counts as emitted. -/
def emit {σ : Type} [FileSystem σ] (e : Engine) (fs : σ) :
    Except EngineError (List Emitted) × Engine × σ :=
  match e.snapshot with
  | none => (.error .uninitialized, e, fs)
  | some s =>
      let (emitted, ledger) := s.emitFiles e.strategy
      let s := { s with ledger := ledger }
      let e := { e with snapshot := some s }
      match emitted with
      | .error _ => (.error .misaligned, e, fs)
      | .ok emitted =>
          match s.persist e.registry fs with
          | (.error err, fs) => (.error (.host err), e, fs)
          | (.ok s, fs) => (.ok emitted, { e with snapshot := some s }, fs)

end Engine

end Recompile
