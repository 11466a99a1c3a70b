import Recompile.Proofs.Engine.Handover
import Recompile.Proofs.Program.Hidden

/-!
Engines that take over what an engine of either strategy left. What they emit depends on the texts of the
scripts, and in full builds on the fingerprints, but not on what was emitted from these texts.
-/

namespace Recompile

namespace BuildState

variable {σ : Type} [FileSystem σ] {o : Options} {host : Host} {fs fs' : σ} {roots : OrdSet Path}
variable {queue : List Path} {file : Path}

theorem Reached.full (hagree : FileSystem.AgreeBut file fs fs')
    (haway : ∀ p, Reached ⟨o, host, fs', false, roots⟩ queue p → host.Away file p) {p : Path}
    (h : Reached ⟨o, host, fs', false, roots⟩ queue p) : Reached ⟨o, host, fs, true, roots⟩ queue p := by
  have halong := alongside_elsewhere hagree o host false roots
  induction h with
  | root hp => exact .root hp
  | @refer p q text hp hread hkind hrefers ih =>
    have hnext : ∀ c : BuildContext σ, nextOf c (fileAt 0 p text) = linksOf c (fileAt 0 p text) :=
      fun c => nextOf_eq_linksOf hkind
    have hlink : q ∈ linksOf ⟨o, host, fs', false, roots⟩ (fileAt 0 p text) := by
      rw [← hnext]
      exact mem_nextOf_iff.mpr ⟨hkind, hrefers⟩
    obtain ⟨hfound, -⟩ := halong.links 0 0 (haway p hp) fun q hq => haway q (hp.next hread (hnext _ ▸ hq))
    -- what a specifier leads to is a link of both builds, as the second one has no resources
    have hspecifier : q ∈ (foundOf ⟨o, host, fs', false, roots⟩ (fileAt 0 p text)).filterMap
        Specifier.Found.path? := by simpa [linksOf] using hlink
    rw [← hfound] at hspecifier
    have hlast : q ∈ nextOf ⟨o, host, fs, true, roots⟩ (fileAt 0 p text) := by
      rw [hnext]
      exact List.mem_append_left _ hspecifier
    exact ih.next ((halong.read (haway p hp)).trans hread) hlast

end BuildState

namespace Program.Built

open BuildState

variable {σ : Type} [FileSystem σ] {o : Options} {host : Host} {fs fs' : σ} {roots : OrdSet Path}
variable {queue : List Path} {file : Path} {p p' : Program} {r r' q q' : Registry}

end Program.Built

namespace Engine

open Snapshot BuildState Program

variable {σ : Type} [FileSystem σ] {e e' : Engine} {s t : Snapshot} {l : Ledger} {file : Path}
variable {found : Except IoFault String} {fs fs' : σ} {host : Host} {config : Configuration}
variable {c : BuildContext σ} {b b' : BuildState} {r : Registry} {i : FileId} {f : SourceFile}

section Run

variable {s₁ s₂ : Strategy} {styles : StyleProcessor} {calls : List (Call σ)} {configPath : Path}
variable {fs₁ fs₂ fs₃ fs₄ : σ} {host₂ : Host} {report : StartReport} {e₂ e₃ : Engine} {es : List Emitted}
variable {change : Options → Options}

end Run

set_option maxRecDepth 100000

end Engine

end Recompile
