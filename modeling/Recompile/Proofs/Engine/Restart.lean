import Recompile.Proofs.Engine.Counterparts
import Recompile.Proofs.Engine.Saved
import Recompile.Proofs.Engine.Unchanged
import Recompile.Proofs.Program.Replayed

/-!
Restarts. An engine that goes on after its ledger was written, and one that begins with what was written,
report the same files and emit the same outputs.
-/

namespace Recompile

namespace Ledger

variable {R : FileId → FileId → Prop} {p : Program} {l l' : Ledger}

theorem idle_next (hnone : ∀ {id}, l.files.contains id = true → l.pending.contains id = false)
    (hclean : (next p l).1.dirty = false) : (next p l).1.pending = OrdMap.empty := by
  obtain ⟨-, hfiles, hkept⟩ := next_of_clean hclean
  have hupdate : update p l.options (some l) = next p l := if_pos rfl
  have hempty : (next p l).1.pending.keys = [] := by
    refine List.eq_nil_iff_forall_not_mem.mpr fun id hid => ?_
    have hin : l.files.contains id = true := by
      have hrecord : (update p l.options (some l)).1.files.contains id = true :=
        contains_of_mem_pending_update (by rw [hupdate]; exact hid)
      rw [files_update, hfiles] at hrecord
      exact hrecord
    have hpending := OrdMap.mem_keys_iff.mp hid
    rw [(hkept hin).2, hnone hin] at hpending
    cases hpending
  exact congrArg OrdMap.mk (List.map_eq_nil_iff.mp hempty)

theorem Same.pending_none (h : Same R l l') (hnone : l.pending = OrdMap.empty) {j : FileId}
    (hj : l'.files.contains j = true) : l'.pending.contains j = false := by
  obtain ⟨record, hrecord⟩ := OrdMap.contains_iff.mp hj
  obtain ⟨i, hij⟩ := h.right hrecord
  rw [← h.pending hij (by rw [contains_eq_of_rel (h.file hij)]; exact hj), hnone]
  rfl

end Ledger

namespace Snapshot

variable {σ : Type} [FileSystem σ] {R : FileId → FileId → Prop} {strategy : Strategy} {s t : Snapshot}
variable {c c' : BuildContext σ} {b b' : BuildState} {r r' : Registry}

end Snapshot

namespace Engine

open Snapshot BuildInfo Program BuildState

variable {σ : Type} [FileSystem σ] {e e' : Engine} {fs fs' : σ} {host : Host} {config : Configuration}
variable {t t' : Snapshot} {r r' : Registry}

def reportOf (e : Engine) (fs : σ) (host : Host) (config : Configuration) (t : Snapshot) : StartReport :=
  ⟨pathsOf t.program (reported t.program (Ledger.update t.program t.optionsDigest
    (e.priorLedger fs host config.options).1).2), t.options, t.program.referenced⟩

structure Begins (e : Engine) (fs : σ) (host : Host) (config : Configuration) (t : Snapshot) (r : Registry) :
    Prop where
  eq : e.startWith fs host config = (.ok (reportOf e fs host config t), ⟨e.strategy, r, some t⟩)
  started : Started e fs host config (outcomeOf e fs host config) t r

theorem Started.next {b : BuildState} (h : Started e fs host config b t r) {l : Ledger}
    (hl : (e.priorLedger fs host config.options).1 = some l) (hoptions : l.options = config.options.fingerprint) :
    Ledger.update t.program t.optionsDigest (e.priorLedger fs host config.options).1 =
      Ledger.next t.program l := by
  rw [hl, h.optionsDigest, Ledger.update, if_pos hoptions]

section Run

variable {strategy : Strategy} {styles : StyleProcessor} {file : Path}

end Run

end Engine

end Recompile
