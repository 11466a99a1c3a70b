import Mathlib.Logic.Relation
import Recompile.Proofs.Engine.Run

/-!
What emissions do to a ledger: targets are completed and fingerprints noted, one at a time. What one
such step keeps holds of the ledgers of a whole run.
-/

namespace Recompile

namespace Ledger

/-- A target has been completed, or a fingerprint noted. -/
inductive Step (l : Ledger) : Ledger → Prop where
  | complete (target : EmitTarget) : Step l (l.complete target)
  | record (id : FileId) (fingerprint : Digest) : Step l (l.record id fingerprint)

abbrev Progress : Ledger → Ledger → Prop := Relation.ReflTransGen Step

theorem progress_emitFiles (output : FileId → Except CutError (Option Emitted)) (ids : List FileId) :
    ∀ l : Ledger, Progress l (emitFiles output l ids).2 := by
  induction ids with
  | nil => exact fun _ => .refl
  | cons id rest ih =>
    intro l
    unfold emitFiles
    split
    · exact .refl
    · exact (ih _).head (.complete _)

theorem progress_recordAll (fingerprint? : FileId → Option Digest) (ids : List FileId) :
    ∀ l : Ledger, Progress l (recordAll fingerprint? l ids) := by
  induction ids with
  | nil => exact fun _ => .refl
  | cons id rest ih =>
    intro l
    refine Relation.ReflTransGen.trans ?_ (ih _)
    dsimp only
    split
    · exact .single (.record _ _)
    · exact .refl

theorem progress_emitStale (output : FileId → Except CutError (Option Emitted))
    (fingerprint? : FileId → Option Digest) (ids : List FileId) :
    ∀ l : Ledger, Progress l (emitStale output fingerprint? l ids).2 := by
  induction ids with
  | nil => exact fun _ => .refl
  | cons id rest ih =>
    intro l
    unfold emitStale
    split
    · exact ih l
    · split
      · exact ih l
      · split
        · exact .refl
        · exact (ih _).head (.record _ _)

end Ledger

namespace Snapshot

open Ledger

theorem progress_emitFiles (strategy : Strategy) (s : Snapshot) :
    Progress s.ledger (s.emitFiles strategy).2 := by
  cases strategy with
  | jit => exact Ledger.progress_emitFiles _ _ _
  | aot =>
    show Progress s.ledger s.emitInlined.2
    have hpending : Progress s.ledger (s.ledger.emitPending (Emit.inlined s.program s.styles)).2 :=
      Ledger.progress_emitFiles _ _ _
    unfold emitInlined
    dsimp only
    cases h : s.ledger.emitPending (Emit.inlined s.program s.styles) with
    | mk emitted l =>
      rw [h] at hpending
      cases emitted with
      | error e => exact hpending
      | ok emitted =>
        exact (hpending.trans (progress_recordAll _ _ _)).trans (progress_emitStale _ _ _ _)

theorem progress_persist {σ : Type} [FileSystem σ] {s t : Snapshot} {registry : Registry} {fs fs' : σ}
    (h : s.persist registry fs = (.ok t, fs')) :
    ∃ l, Progress s.ledger l ∧ t = { s with ledger := l } := by
  unfold persist at h
  split at h
  · cases h
    exact ⟨_, .refl, rfl⟩
  · split at h
    · dsimp only at h
      split at h
      · cases h
      · cases h
        exact ⟨_, .single (.complete _), rfl⟩
    · cases h
      exact ⟨_, .refl, rfl⟩

end Snapshot

namespace Engine

open Ledger

variable {σ : Type} [FileSystem σ]

theorem emit_eq {e : Engine} {s : Snapshot} (hs : e.snapshot = some s) (fs : σ) :
    e.emit fs =
      match (s.emitFiles e.strategy).1 with
      | .error _ => (.error .misaligned,
          { e with snapshot := some { s with ledger := (s.emitFiles e.strategy).2 } }, fs)
      | .ok emitted =>
          match { s with ledger := (s.emitFiles e.strategy).2 }.persist e.registry fs with
          | (.error err, fs) => (.error (.host err),
              { e with snapshot := some { s with ledger := (s.emitFiles e.strategy).2 } }, fs)
          | (.ok t, fs) => (.ok emitted, { e with snapshot := some t }, fs) := by
  cases e
  cases hs
  rfl

theorem emit_progress {e : Engine} {s : Snapshot} (hs : e.snapshot = some s) (fs : σ) :
    ∃ l, Progress s.ledger l ∧
      (e.emit fs).2.1 = { e with snapshot := some { s with ledger := l } } := by
  have hmade := Snapshot.progress_emitFiles e.strategy s
  rw [emit_eq hs]
  split
  · exact ⟨_, hmade, rfl⟩
  · split
    · exact ⟨_, hmade, rfl⟩
    · rename_i t fs' hpersist
      obtain ⟨l, hl, rfl⟩ := Snapshot.progress_persist hpersist
      exact ⟨l, hmade.trans hl, rfl⟩

theorem distinct_run (strategy : Strategy) (calls : List (Call σ)) :
    (run (create strategy) calls).registry.Distinct :=
  (history_run (P := fun _ _ => True) strategy calls fun _ _ _ _ _ => trivial).distinct

def Keeps (Q : Registry → Ledger → Prop) (e : Engine) : Prop :=
  ∀ s, e.snapshot = some s → Q e.registry s.ledger

theorem keeps_run {Q : Registry → Ledger → Prop}
    (mono : ∀ {r s : Registry} {l}, Q r l → r.Within s → Q s l)
    (step : ∀ {r : Registry} {l k}, Q r l → Ledger.Step l k → Q r k)
    (started : ∀ {e : Engine} {fs : σ} {host config b t r}, e.Keeps Q → e.registry.Distinct →
      Started e fs host config b t r → Q r t.ledger)
    (strategy : Strategy) (calls : List (Call σ)) : (run (create strategy) calls).Keeps Q := by
  have progress : ∀ {r l k}, Q r l → Progress l k → Q r k := fun hl hprogress =>
    hprogress.recOn hl fun _ hstep ih => step ih hstep
  refine run_induction (motive := fun _ e => e.Keeps Q) (fun s hs => by cases hs) ?_ calls
  intro calls call ih
  cases call with
  | emit fs =>
    show ((run (create strategy) calls).emit fs).2.1.Keeps Q
    rcases Option.eq_none_or_eq_some (run (create strategy) calls).snapshot with hs | ⟨s, hs⟩
    · rw [emit_of_none hs]
      exact ih
    · obtain ⟨l, hl, heq⟩ := emit_progress hs fs
      rw [heq]
      rintro t ht
      cases ht
      exact progress (ih s hs) hl
  | start fs configPath host change =>
    show ((run (create strategy) calls).start fs configPath host change).2.Keeps Q
    rcases start_cases (distinct_run strategy calls) fs configPath host change with
      ⟨err, r, heq, hw, -⟩ | ⟨config, b, t, r, report, heq, -, hstart⟩
    · rw [heq]
      exact fun s hs => mono (ih s hs) hw
    · rw [heq]
      rintro u hu
      cases hu
      exact started ih (distinct_run strategy calls) hstart

end Engine

end Recompile
