import Recompile.Host.Volume
import Recompile.Proofs.Engine.Progress
import Recompile.Proofs.Ledger.Named
import Recompile.Proofs.Program.Resolution

/-!
Starts that fail. They may hand out identities, but nothing that is asked of the engine before the
next start shows it: the snapshot is the one there was, and its ledger is written with the paths it
had.
-/

namespace Recompile

namespace Program.Built

variable {σ : Type} [FileSystem σ] {c : BuildContext σ} {s : BuildState} {p : Program} {r : Registry}

theorem knows_file (h : Built c s p r) {id : FileId} {f : SourceFile} (hf : p.file? id = some f) :
    r.Knows id := by
  rcases h.file_cases hf with ⟨-, hf⟩ | ⟨-, -, -, -, hl⟩
  · obtain ⟨-, -, hl, -⟩ := h.sound.file_read hf
    exact (Registry.knows_of_lookup? hl).mono h.shadows.within
  · exact Registry.knows_of_lookup? hl

theorem contains_of_mem_targets (h : Built c s p r) {id target : FileId} {m : Module}
    (hm : p.module? id = some m) (ht : target ∈ m.targets) : p.contains target = true := by
  obtain ⟨f, -, -, rfl⟩ := h.module_cases hm
  obtain ⟨g, hg⟩ := contains_iff_file?.mp (contains_of_mem_targets_settleModule ht)
  exact h.contains_of_read hg

theorem knows_dependencies (h : Built c s p r) (id : FileId) {target : FileId}
    (ht : target ∈ OrdSet.toList (p.dependencies id)) : r.Knows target := by
  unfold dependencies at ht
  split at ht
  · cases ht
  · rename_i m hm
    obtain ⟨f, hf⟩ := contains_iff_file?.mp
      (h.contains_of_mem_targets hm (OrdSet.mem_toList_ofList.mp ht))
    exact h.knows_file hf

theorem named_update (h : Built c s p r) (options : Digest) (prior : Option Ledger) :
    (Ledger.update p options prior).1.Named r where
  files e he := by
    rw [Ledger.files_update] at he
    obtain ⟨⟨id, f⟩, hf, rfl⟩ := List.mem_map.mp he
    have hfile : p.file? id = some f := h.shadows.files_sorted.get?_of_mem hf
    exact ⟨h.knows_file hfile, fun target ht => h.knows_dependencies f.id ht⟩
  pending _ hid := Ledger.contains_of_mem_pending_update hid

end Program.Built

namespace Ledger

theorem Named.step {r : Registry} {l k : Ledger} (h : l.Named r) (hstep : Step l k) : k.Named r := by
  cases hstep with
  | record id fingerprint => exact h.shrink rfl fun _ hid => hid
  | complete target =>
    cases target with
    | buildInfo => exact h.shrink rfl fun _ hid => hid
    | file i =>
      refine h.shrink (agrees_complete l (.file i)).1 fun id hid => ?_
      unfold complete at hid
      dsimp only at hid
      split at hid
      · obtain ⟨e, he, rfl⟩ := List.mem_map.mp hid
        exact List.mem_map.mpr ⟨e, (List.mem_filter.mp he).1, rfl⟩
      · exact hid

theorem Named.progress {r : Registry} {l k : Ledger} (h : l.Named r) (hprogress : Progress l k) :
    k.Named r := hprogress.recOn h fun _ hstep ih => ih.step hstep

end Ledger

namespace Engine

theorem named_run {σ : Type} [FileSystem σ] (strategy : Strategy) (calls : List (Call σ)) :
    (run (create strategy) calls).Keeps fun r l => l.Named r :=
  keeps_run (fun h hw => h.mono hw) (fun h hstep => h.step hstep)
    (fun _ _ hstart => by
      rw [hstart.ledger]
      exact hstart.built.named_update _ _) strategy calls

end Engine

/-- What can be asked of an engine between its starts. -/
inductive Query (σ : Type) where
  | diagnostics
  | messages
  | sideOutputs
  | emit (fs : σ)

inductive Answer (σ : Type) where
  | diagnostics (found : Except EngineError (List Diagnostic))
  | messages (found : Except EngineError Collected)
  | sideOutputs (files : List OutputFile)
  | emitted (result : Except EngineError (List Emitted)) (fs : σ)

namespace Engine

variable {σ : Type} [FileSystem σ]

def ask (e : Engine) : Query σ → Answer σ × Engine
  | .diagnostics => (.diagnostics e.diagnostics, e)
  | .messages => (.messages e.messages, e)
  | .sideOutputs => (.sideOutputs e.sideOutputs, e)
  | .emit fs => (.emitted (e.emit fs).1 (e.emit fs).2.2, (e.emit fs).2.1)

def answers : Engine → List (Query σ) → List (Answer σ)
  | _, [] => []
  | e, q :: rest => (e.ask q).1 :: answers (e.ask q).2 rest

theorem emit_registry {e : Engine} (h : e.Keeps fun r l => l.Named r) {r : Registry} (hw : e.registry.Within r) (fs : σ) :
    ({ e with registry := r } : Engine).emit fs =
      ((e.emit fs).1, { (e.emit fs).2.1 with registry := r }, (e.emit fs).2.2) := by
  rcases Option.eq_none_or_eq_some e.snapshot with hs | ⟨s, hs⟩
  · rw [emit_of_none hs, emit_of_none (e := { e with registry := r }) hs]
  · have hmade : (s.emitFiles e.strategy).2.Named e.registry :=
      (h s hs).progress (Snapshot.progress_emitFiles e.strategy s)
    have hpersist : { s with ledger := (s.emitFiles e.strategy).2 }.persist r fs =
        { s with ledger := (s.emitFiles e.strategy).2 }.persist e.registry fs := by
      unfold Snapshot.persist
      rw [BuildInfo.ofLedger_within hmade hw]
    rw [emit_eq hs, emit_eq (e := { e with registry := r }) hs]
    dsimp only
    rw [hpersist]
    split
    · rfl
    · split <;> rfl

theorem answers_registry (queries : List (Query σ)) : ∀ {e : Engine},
    (e.Keeps fun r l => l.Named r) → ∀ {r : Registry}, e.registry.Within r →
      ({ e with registry := r } : Engine).answers queries = e.answers queries := by
  induction queries with
  | nil => exact fun _ _ _ => rfl
  | cons q rest ih =>
    intro e h r hw
    cases q with
    | diagnostics => exact congrArg _ (ih h hw)
    | messages => exact congrArg _ (ih h hw)
    | sideOutputs => exact congrArg _ (ih h hw)
    | emit fs =>
      simp only [answers, ask, emit_registry h hw]
      rcases Option.eq_none_or_eq_some e.snapshot with hs | ⟨s, hs⟩
      · rw [emit_of_none hs, ih h hw]
      · obtain ⟨l, hl, heq⟩ := emit_progress hs fs
        have hnext : (e.emit fs).2.1.Keeps fun r l => l.Named r := by
          rw [heq]
          rintro t ht
          cases ht
          exact (h s hs).progress hl
        rw [ih hnext]
        rw [heq]
        exact hw

/-- A start that fails changes nothing that can be observed before the next one: the snapshot is the
one there was, identities name the paths they named, and every sequence of queries is answered as if
the call had not been made. -/
theorem failed_start_unobservable (strategy : Strategy) (calls : List (Call σ)) (fs : σ)
    (configPath : Path) (host : Host) (change : Options → Options) {err : EngineError} {e' : Engine}
    (h : (run (create strategy) calls).start fs configPath host change = (.error err, e')) :
    e'.snapshot = (run (create strategy) calls).snapshot ∧
      e'.strategy = (run (create strategy) calls).strategy ∧
      (∀ id p, (run (create strategy) calls).registry.path? id = some p →
        e'.registry.path? id = some p) ∧
      ∀ queries : List (Query σ), e'.answers queries = (run (create strategy) calls).answers queries := by
  rcases start_cases (distinct_run strategy calls) fs configPath host change with
    ⟨err', r, heq, hw, -⟩ | ⟨config, s, t, r, report, heq, -⟩
  · rw [heq] at h
    cases h
    exact ⟨rfl, rfl, fun _ _ hp => hw.path? hp, fun queries =>
      answers_registry queries (named_run strategy calls) hw⟩
  · rw [heq] at h
    cases h

set_option maxRecDepth 100000

def loneScript : Volume := .ofTexts [(⟨"/k"⟩, "files=['a.ts']\ncompiler.incremental=true"), (⟨"/a.ts"⟩, "")]

/-- The script imports one that cannot be read. -/
def unreadableImport : Volume :=
  { Volume.ofTexts [(⟨"/k"⟩, "files=['a.ts']\ncompiler.incremental=true"), (⟨"/a.ts"⟩, "import './b'"),
      (⟨"/b.ts"⟩, "")] with
    readDenied := OrdSet.ofList [⟨"/b.ts"⟩] }

theorem failed_start_unobservable_unreadableImport :
    ∃ e', (run (create .jit) [.startAt loneScript]).start unreadableImport ⟨"/k"⟩
        ⟨OrdMap.empty, .passthrough⟩ id =
          (.error (.host ⟨⟨"/b.ts"⟩, "read denied"⟩), e') ∧
      e'.registry.paths = [⟨"/a.ts"⟩, ⟨"/b.ts"⟩] ∧
      e'.snapshot = (run (create .jit) [.startAt loneScript]).snapshot ∧
      ∀ queries : List (Query Volume), e'.answers queries =
        (run (create .jit) [.startAt loneScript]).answers queries := by
  have hresult : ((run (create .jit) [.startAt loneScript]).start unreadableImport ⟨"/k"⟩
        ⟨OrdMap.empty, .passthrough⟩ id).1.map (fun _ => ()) =
          .error (.host ⟨⟨"/b.ts"⟩, "read denied"⟩) ∧
      ((run (create .jit) [.startAt loneScript]).start unreadableImport ⟨"/k"⟩
        ⟨OrdMap.empty, .passthrough⟩ id).2.registry.paths = [⟨"/a.ts"⟩, ⟨"/b.ts"⟩] := by
    decide +kernel
  generalize heq : (run (create .jit) [.startAt loneScript]).start unreadableImport ⟨"/k"⟩
    ⟨OrdMap.empty, .passthrough⟩ id = answer at hresult ⊢
  obtain ⟨_ | report, e'⟩ := answer
  · obtain ⟨hfault, hpaths⟩ := hresult
    cases hfault
    obtain ⟨hsnapshot, -, -, hanswers⟩ := failed_start_unobservable .jit _ _ _ _ _ heq
    exact ⟨e', rfl, hpaths, hsnapshot, hanswers⟩
  · cases hresult.1

end Engine

end Recompile
