import Mathlib.Data.List.Basic
import Recompile.Host.Volume
import Recompile.Proofs.Engine.Emission

/-!
Emissions whose ledger cannot be written. By then the files count as emitted, so what the call
would have returned is lost unless there was nothing to emit.
-/

namespace Recompile.Engine

open Snapshot

/-- An emission that fails to write the ledger leaves the pending files and the fingerprints as
they were exactly when there was nothing to emit; otherwise its results are never returned: the
next emission that succeeds returns nothing. -/
theorem emit_failed_write {σ : Type} [FileSystem σ] {e e' : Engine} {s : Snapshot}
    (hs : e.snapshot = some s) {fs fs' : σ} {err : HostError}
    (h : e.emit fs = (.error (.host err), e', fs')) :
    ∃ s' lost, e'.snapshot = some s' ∧
      (∀ (fs₁ fs₂ : σ) es e₁, e.emit fs₁ = (.ok es, e₁, fs₂) → es = lost) ∧
      ((s'.ledger.pending = s.ledger.pending ∧
        ∀ id, s'.ledger.fingerprints.get? id = s.ledger.fingerprints.get? id) ↔
          s.Settled e.strategy) ∧
      (s.Settled e.strategy → lost = []) ∧
      ∀ (fs₁ fs₂ : σ) es e₁, e'.emit fs₁ = (.ok es, e₁, fs₂) → es = [] := by
  obtain ⟨lost, l, hemit, rfl⟩ := emit_host_error hs h
  have hafter := settled_of_emitFiles hemit
  refine ⟨{ s with ledger := l }, lost, rfl, ?_, ⟨?_, ?_⟩, ?_, ?_⟩
  · intro fs₁ fs₂ es e₁ hes
    obtain ⟨k, hk, -⟩ := emit_ok hs hes
    rw [hemit] at hk
    cases hk
    rfl
  · rintro ⟨hpending, hsame⟩
    refine ⟨hpending.symm.trans hafter.1, fun haot f hf hkind => ?_⟩
    have hcurrent := hafter.2 haot f hf hkind
    unfold Ledger.isStale at hcurrent ⊢
    rw [hsame] at hcurrent
    exact hcurrent
  · intro hsettled
    rw [emitFiles_of_settled hsettled] at hemit
    cases hemit
    exact ⟨rfl, fun _ => rfl⟩
  · intro hsettled
    rw [emitFiles_of_settled hsettled] at hemit
    cases hemit
    rfl
  · intro fs₁ fs₂ es e₁ hes
    obtain ⟨k, hk, -⟩ := emit_ok (s := { s with ledger := l }) rfl hes
    rw [emitFiles_of_settled hafter] at hk
    cases hk
    rfl

set_option maxRecDepth 100000

def writable : Volume :=
  .ofTexts [(⟨"/k"⟩, "files=['a.ts']\ncompiler.incremental=true"), (⟨"/a.ts"⟩, "")]

def unwritable : Volume :=
  { writable with writeDenied := OrdSet.ofList [⟨"/k.buildinfo.json"⟩] }

theorem emit_failed_write_unwritable :
    ∃ e s, run (create .jit) [.startAt unwritable] = e ∧ e.snapshot = some s ∧
      ¬ s.Settled e.strategy ∧
      ∃ s', (e.emit unwritable).2.1.snapshot = some s' ∧
        ¬ (s'.ledger.pending = s.ledger.pending ∧
          ∀ id, s'.ledger.fingerprints.get? id = s.ledger.fingerprints.get? id) ∧
        ∀ (fs₁ fs₂ : Volume) es e₁, (e.emit unwritable).2.1.emit fs₁ = (.ok es, e₁, fs₂) →
          es = [] := by
  have hrun : ∃ s ∈ (run (create .jit) [.startAt unwritable]).snapshot,
      s.ledger.pending ≠ OrdMap.empty ∧
      ((run (create .jit) [.startAt unwritable]).emit unwritable).1 =
        .error (.host ⟨⟨"/k.buildinfo.json"⟩, "write denied"⟩) := by
    decide +kernel
  generalize run (create .jit) [.startAt unwritable] = e at hrun
  obtain ⟨s, hs, hpending, hemit⟩ := hrun
  have hunsettled : ¬ s.Settled e.strategy := fun hsettled => hpending hsettled.1
  have hfailed : e.emit unwritable = (.error (.host ⟨⟨"/k.buildinfo.json"⟩, "write denied"⟩),
      (e.emit unwritable).2.1, (e.emit unwritable).2.2) := by rw [← hemit]
  obtain ⟨s', -, hs', -, hiff, -, hnext⟩ := emit_failed_write hs hfailed
  exact ⟨e, s, rfl, hs, hunsettled, s', hs', fun hsame => hunsettled (hiff.mp hsame), hnext⟩

/-- The output of a script is lost with the write of the ledger, although it can be written
later. -/
theorem emit_loses_results :
    let e := run (create .jit) [.startAt unwritable]
    let failed := e.emit unwritable
    failed.1 = .error (.host ⟨⟨"/k.buildinfo.json"⟩, "write denied"⟩) ∧
      failed.2.1.snapshot.map (·.ledger.pending) ≠ e.snapshot.map (·.ledger.pending) ∧
      (failed.2.1.emit writable).1 = .ok [] ∧
      (e.emit writable).1 = .ok [⟨0, ⟨"/a.js"⟩, "", none⟩] := by
  decide +kernel

end Recompile.Engine
