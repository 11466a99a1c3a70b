import Recompile.Proofs.Engine.Handover

/-!
Restarts. An engine that goes on after a completed run and an engine that begins with what this run wrote
cannot be told apart: both fail to start, or report the same files and then emit the same outputs. When no
file has changed, neither of them has anything to do.
-/

namespace Recompile

namespace Program

variable {σ : Type} [FileSystem σ] {o : Options} {host : Host} {fs : σ} {full : Bool} {roots : List Path}
variable {r q : Registry} {p : Program}

theorem Built.build_eq {queue : OrdSet Path}
    (h : Built ⟨o, host, fs, full, queue⟩ (outcome ⟨o, host, fs, full, queue⟩ r (roots.map Path.normalize)) p q)
    (hqueue : queue = OrdSet.ofList (roots.map Path.normalize)) :
    build o host fs full r roots = (.ok p, q) := by
  subst hqueue
  have hfinish : (p, q) = finished full _ _ := h.finish
  rw [Program.build_eq, concluded, h.fault]
  dsimp only
  rw [← hfinish]

end Program

namespace Engine

open Snapshot BuildInfo Program Registry

variable {σ : Type} [FileSystem σ] {e e' : Engine} {s t t' : Snapshot} {file : Path} {l : Ledger}
variable {found : Except IoFault String} {fs fs' : σ} {host : Host} {config : Configuration}
variable {q q' : Registry} {c : BuildContext σ} {b : BuildState}

theorem Inherits.idle (h : Inherits config.options e.registry s e' fs host l)
    (hrested : Rested config.options e s found) (hbuilt : Built c b s.program e.registry)
    (hstrategy : e'.strategy = e.strategy) (hbegins : Begins e' fs host config t q)
    (hprogram : Program.Same (Aligned e.registry q) s.program t.program) :
    (reportOf e' fs host config t).affected = OrdMap.empty ∧
      ∀ fs : σ, emit ⟨e'.strategy, q, some t⟩ fs = (.ok [], ⟨e'.strategy, q, some t⟩, fs) := by
  have hstart := hbegins.started
  have hR := biUnique_aligned hrested.distinct hstart.built.shadows.distinct
  have hledgers := h.same_started hstart hrested.distinct (.refl _)
  have hlisted := Ledger.next_listed hbuilt.shadows.files_sorted hrested.files
  -- the program that the ledger lists affects nothing
  have hnone : (Ledger.next t.program l).2 = OrdMap.empty := by
    have haffected := hledgers.affected hprogram hR
    rw [hlisted] at haffected
    exact congrArg OrdMap.mk (List.map_eq_nil_iff.mp (haffected.eq_nil_iff.mp rfl))
  have hclean : (Ledger.next t.program l).1.dirty = false := by
    rw [← hledgers.dirty hprogram hR (hrested.clean.trans h.clean.symm), hlisted]
    exact hrested.clean
  have hpending : (Ledger.next t.program l).1.pending = OrdMap.empty :=
    Ledger.idle_next (fun hid => hledgers.pending_none hrested.settled.1 hid) hclean
  have hledger := h.ledger_eq hstart
  -- A script that is due has another text or fingerprint than the file it has in the program
  -- before.
  have hdue : ∀ i, ¬ t.Due e'.strategy i := by
    intro i hdue
    obtain ⟨f, hf, hkind⟩ := isScript_iff.mp hdue.1
    refine ((h.due_iff hrested hbuilt hstart hf).mp hdue).2 ?_
    obtain ⟨j, hj⟩ := hprogram.right hf
    have hfile := hprogram.file hj
    rw [hf] at hfile
    obtain ⟨g, hg, hfg⟩ := some_rel hfile
    obtain rfl : g.id = j := hbuilt.id_eq hg
    have hmember := hbuilt.mem_members.mpr hg
    refine ⟨g, hmember, congrArg Path.components (SourceFile.path_congr hfg), ?_, fun haot => ?_⟩
    · rw [SourceFile.version, SourceFile.version, SourceFile.text_congr hfg]
    · have hsettled := hrested.settled
      rw [← hstrategy, haot] at hsettled
      obtain ⟨d, hd, hrecorded⟩ := hsettled.recorded hmember ((SourceFile.kind_congr hfg).trans hkind) hg
      rw [hrecorded, ← hd]
      unfold Snapshot.fingerprint?
      rw [hrested.digest, hstart.optionsDigest]
      exact hprogram.fingerprint? hj _
  refine ⟨?_, fun fs => ?_⟩
  · unfold reportOf
    rw [hstart.next h.prior h.options, hnone]
    rfl
  · have hsettled : t.Settled e'.strategy :=
      (settled_iff hstart.built (hledger ▸ hpending)).mpr hdue
    have hdirty : t.ledger.dirty = false := hledger ▸ hclean
    rw [emit_eq (e := ⟨e'.strategy, q, some t⟩) rfl, emitFiles_of_settled hsettled]
    dsimp only
    rcases Snapshot.persist_written t q fs with ⟨heq, -⟩ | ⟨-, -, hwritten, -⟩
    · rw [heq]
    · rw [hdirty] at hwritten
      cases hwritten

section Run

variable {strategy : Strategy} {styles : StyleProcessor} {calls : List (Call σ)}
variable {configPath : Path} {fs₁ fs₃ : σ} {host₃ : Host}

namespace Completed

end Completed

end Run

set_option maxRecDepth 100000

end Engine

end Recompile
