import Recompile.Proofs.Engine.Emission
import Recompile.Proofs.Engine.FailedStart
import Recompile.Proofs.Engine.Faultless
import Recompile.Proofs.Engine.Outputs
import Recompile.Proofs.Host.Elsewhere
import Recompile.Proofs.Ledger.Recorded
import Recompile.Proofs.Ledger.Written
import Recompile.Proofs.Program.Closed
import Recompile.Proofs.Program.Placed

/-!
Kept ledgers. Along a run in which nobody else touches the file of the ledger, this file tells what the
ledger does whenever the ledger counts as written.
-/

namespace Recompile

namespace FileSystem

variable {σ : Type} [FileSystem σ]

/-- What is written to a file can be read there, and nothing else changes. -/
def Stores (file : Path) (fs : σ) : Prop :=
  ∀ (text : String) (fs' : σ), FileSystem.write fs file text.toUTF8 = (.ok (), fs') →
    FileSystem.read fs' file = .ok text ∧ FileSystem.AgreeBut file fs fs'

end FileSystem

namespace BuildInfo

open Ledger

variable {r q : Registry} {l k : Ledger} {base : Path}

theorem Placed.mono {id : FileId} (h : Placed r id) (hw : r.Within q) : Placed q id := by
  obtain ⟨p, p', hp, hrest⟩ := h
  exact ⟨p, p', hw.path? hp, hrest⟩

namespace LedgerPlaced

theorem mono (h : LedgerPlaced r l) (hw : r.Within q) : LedgerPlaced q l where
  files e he := ⟨(h.files e he).1.mono hw, fun id hid => ((h.files e he).2 id hid).mono hw⟩
  pending := h.pending
  sorted := h.sorted

theorem files_step {l k : Ledger} (hstep : Ledger.Step l k) : k.files = l.files ∧
    ∀ id ∈ OrdSet.toList k.pending, id ∈ OrdSet.toList l.pending := by
  cases hstep with
  | record id fingerprint => exact ⟨rfl, fun _ hid => hid⟩
  | complete target =>
    cases target with
    | buildInfo => exact ⟨rfl, fun _ hid => hid⟩
    | file i =>
      refine ⟨(agrees_complete l (.file i)).1, fun id hid => ?_⟩
      obtain ⟨e, he, rfl⟩ := List.mem_map.mp hid
      rw [pending_complete] at he
      exact List.mem_map.mpr ⟨e, (List.mem_filter.mp he).1, rfl⟩

theorem progress (h : LedgerPlaced r l) (hprogress : Progress l k) : LedgerPlaced r k := by
  induction hprogress with
  | refl => exact h
  | tail _ hlast ih =>
    obtain ⟨hfiles, hpending⟩ := files_step hlast
    refine ⟨?_, fun id hid => ?_, ?_⟩
    · rw [hfiles]
      exact ih.files
    · rw [hfiles]
      exact ih.pending id (hpending id hid)
    · rw [hfiles]
      exact ih.sorted

end LedgerPlaced

def Tells (base : Path) (r : Registry) (l : Ledger) (found : Except IoFault String) : Prop :=
  ∃ text i, found = .ok text ∧ parse? text = some i ∧ i.format = currentFormat ∧ Recorded i base r l

namespace Tells

variable {found : Except IoFault String}

theorem mono (h : Tells base r l found) (hw : r.Within q) : Tells base q l found := by
  obtain ⟨text, i, hfound, hparse, hformat, hrecorded⟩ := h
  exact ⟨text, i, hfound, hparse, hformat, hrecorded.mono hw⟩

theorem congr (h : Tells base r l found) (hagrees : k.Agrees l) (hpending : k.pending = l.pending)
    (hfingerprints : ∀ id, k.fingerprints.get? id = l.fingerprints.get? id) : Tells base r k found := by
  obtain ⟨text, i, hfound, hparse, hformat, hrecorded⟩ := h
  exact ⟨text, i, hfound, hparse, hformat, hrecorded.congr hagrees.2 hagrees.1 (fun _ => hfingerprints _)
    fun _ => by rw [hpending]⟩

theorem next (h : Tells base r l found) {p : Program} (hclean : (Ledger.next p l).1.dirty = false) :
    Tells base r (Ledger.next p l).1 found := by
  obtain ⟨text, i, hfound, hparse, hformat, hrecorded⟩ := h
  exact ⟨text, i, hfound, hparse, hformat, hrecorded.next hclean⟩

theorem render (hr : r.Distinct) (hbase : Path.Rooted base.text.toList) (h : LedgerPlaced r l) :
    Tells base r l (.ok (ofLedger l r base).render) :=
  ⟨_, ofLedger l r base, rfl, parse?_render rfl (OrdMap.sorted_ofList _), rfl, recorded_ofLedger hr hbase h⟩

end Tells

end BuildInfo

namespace Program.Built

open BuildState BuildInfo Registry

variable {σ : Type} [FileSystem σ] {c : BuildContext σ} {p : Program} {q r : Registry} {queue : List Path}

theorem lookup? {s : BuildState} (h : Built c s p r) {id : FileId} {f : SourceFile} (hf : p.file? id = some f) :
    r.lookup? f.path = some id := by
  rcases h.file_cases hf with ⟨-, hread⟩ | ⟨-, -, -, -, hlookup⟩
  · exact h.shadows.within.lookup? (h.sound.file_read hread).2.2.1
  · exact hlookup

end Program.Built

def Call.fs {σ : Type} : Call σ → σ
  | start fs .. => fs
  | emit fs => fs

theorem Snapshot.persist_written {σ : Type} [FileSystem σ] (s : Snapshot) (registry : Registry) (fs : σ) :
    s.persist registry fs = (.ok s, fs) ∧ (s.options.buildInfoPath? ≠ none → s.ledger.dirty = false) ∨
    ∃ path, s.options.buildInfoPath? = some path ∧ s.ledger.dirty = true ∧
      ((∃ err fs', s.persist registry fs = (.error err, fs')) ∨
        ∃ fs', FileSystem.write fs path
            (BuildInfo.ofLedger s.ledger registry s.options.configDir).render.toUTF8 = (.ok (), fs') ∧
          s.persist registry fs = (.ok { s with ledger := s.ledger.complete .buildInfo }, fs')) := by
  unfold persist
  cases s.options.buildInfoPath? with
  | none => exact .inl ⟨rfl, fun h => absurd rfl h⟩
  | some path =>
    cases hdirty : s.ledger.dirty with
    | false => exact .inl ⟨rfl, fun _ => rfl⟩
    | true =>
      refine .inr ⟨path, rfl, rfl, ?_⟩
      simp only [Host.write, if_true]
      cases hwrite : FileSystem.write fs path
          (BuildInfo.ofLedger s.ledger registry s.options.configDir).render.toUTF8 with
      | mk outcome fs' =>
        cases outcome with
        | error fault => exact .inl ⟨_, fs', rfl⟩
        | ok _ => exact .inr ⟨fs', rfl, rfl⟩

namespace Engine

open BuildInfo

variable {σ : Type} [FileSystem σ] {o : Options} {file : Path} {e : Engine} {found : Except IoFault String}

/-- The ledger for some options has rooted paths, and is what was found in its file unless it has changed
since it was written. -/
structure Kept (o : Options) (e : Engine) (found : Except IoFault String) : Prop where
  placed : ∀ s, e.snapshot = some s → s.options = o → LedgerPlaced e.registry s.ledger
  told : ∀ s, e.snapshot = some s → s.options = o → s.ledger.dirty = false →
    Tells o.configDir e.registry s.ledger found

theorem Kept.grow (h : Kept o e found) {r : Registry} (hw : e.registry.Within r) :
    Kept o { e with registry := r } found where
  placed s hs ho := (h.placed s hs ho).mono hw
  told s hs ho hclean := (h.told s hs ho hclean).mono hw

section Run

variable {strategy : Strategy} {styles : StyleProcessor} {calls : List (Call σ)} {call : Call σ}

def left : Engine × Call σ → σ
  | (_, .start fs ..) => fs
  | (e, .emit fs) => (e.emit fs).2.2

/-- A file stays as it is from one call to the next, once there is a snapshot. -/
def Undisturbed (file : Path) (m n : Engine × Call σ) : Prop :=
  n.1.snapshot ≠ none → FileSystem.read n.2.fs file = FileSystem.read (left m) file

/-- What is asked of a run for its ledger to be kept in a file: options as the project file gives them, one
processor of styles, a file that is read and written as it is and that nothing else changes, a root
directory that is no file, shadows with paths of their own, and digests that tell. -/
structure Steady (strategy : Strategy) (styles : StyleProcessor) (file : Path) (calls : List (Call σ)) :
    Prop where
  starts : ∀ fs configPath host change, Call.start fs configPath host change ∈ calls →
    change = id ∧ host.styles = styles ∧ host.replacements.get? file = none ∧ host.RootClosed fs
  emits : ∀ fs, Call.emit fs ∈ calls → FileSystem.Stores file fs
  undisturbed : (moments (create strategy) calls).IsChain (Undisturbed file)
  shadows : ∀ t ∈ snapshots (create strategy) calls, t.program.ShadowsApart ∧
    (strategy.isFull = true → t.program.ShadowsOwn)
  tell : PartsTell (snapshots (create strategy) calls)
  options : ∀ s ∈ snapshots (create strategy) calls, ∀ t ∈ snapshots (create strategy) calls,
    s.optionsDigest = t.optionsDigest → s.options = t.options

theorem Steady.of_append (h : Steady strategy styles file (calls ++ [call])) :
    Steady strategy styles file calls := by
  have hsnapshots := snapshots_append (create strategy) calls call
  have hsub : ∀ t ∈ snapshots (create strategy) calls, t ∈ snapshots (create strategy) (calls ++ [call]) :=
    fun t ht => hsnapshots ▸ List.mem_append_left _ ht
  refine ⟨fun fs configPath host change hmem => h.starts fs configPath host change (by simp [hmem]),
    fun fs hmem => h.emits fs (by simp [hmem]), ?_, fun t ht => h.shadows t (hsub t ht), ?_,
    fun s hs t ht => h.options s (hsub s hs) t (hsub t ht)⟩
  · have hchain := h.undisturbed
    rw [moments_append] at hchain
    exact (List.isChain_append.mp hchain).1
  · exact h.tell.mono fun t ht => hsub t ht

end Run

end Engine

end Recompile
