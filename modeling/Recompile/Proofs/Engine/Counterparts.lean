import Recompile.Proofs.Emit.Renaming
import Recompile.Proofs.Engine.Coverage
import Recompile.Proofs.Engine.Faultless

/-!
Snapshots that differ in the identities of files only. Their emissions return the same outputs, and both
write their ledgers or neither does.
-/

namespace Recompile

namespace Snapshot

open Program

variable {R : FileId → FileId → Prop} {strategy : Strategy} {s t : Snapshot} {i j : FileId}

/-- Two snapshots have the same files with the same outputs, and as much to emit. -/
structure Counterpart (strategy : Strategy) (R : FileId → FileId → Prop) (s t : Snapshot) : Prop where
  program : Program.Same R s.program t.program
  options : s.options = t.options
  digest : s.optionsDigest = t.optionsDigest
  output : ∀ {i j e}, R i j → s.output strategy i = .ok (some e) →
    ∃ e', t.output strategy j = .ok (some e') ∧ e'.result = e.result
  pending : ∀ {i j}, R i j → s.program.isScript i = true →
    s.ledger.pending.contains i = t.ledger.pending.contains j
  fingerprint : ∀ {i j}, R i j → s.program.isScript i = true → s.ledger.pending.contains i = true ∨
    s.ledger.fingerprints.get? i = t.ledger.fingerprints.get? j
  dirty : s.ledger.dirty = t.ledger.dirty
  idle : s.ledger.dirty = false → s.ledger.pending = OrdMap.empty ∧ t.ledger.pending = OrdMap.empty

namespace Counterpart

theorem isScript (h : Counterpart strategy R s t) (hij : R i j) : s.program.isScript i = t.program.isScript j :=
  h.program.hasKind_eq hij .script

theorem fingerprint? (h : Counterpart strategy R s t) (hij : R i j) : s.fingerprint? i = t.fingerprint? j := by
  unfold Snapshot.fingerprint?
  rw [h.digest]
  exact h.program.fingerprint? hij _

theorem due (h : Counterpart strategy R s t) (hij : R i j) : s.Due strategy i ↔ t.Due strategy j := by
  unfold Due
  rw [← h.isScript hij, ← h.fingerprint? hij]
  refine and_congr_right fun hscript => ?_
  rw [← h.pending hij hscript]
  rcases h.fingerprint hij hscript with hpending | hsame
  · simp [hpending]
  · rw [hsame]

theorem exists_right (h : Counterpart strategy R s t) (hscript : s.program.isScript i = true) : ∃ j, R i j := by
  obtain ⟨f, hf, -⟩ := isScript_iff.mp hscript
  exact h.program.left hf

theorem exists_left (h : Counterpart strategy R s t) (hscript : t.program.isScript j = true) : ∃ i, R i j := by
  obtain ⟨f, hf, -⟩ := isScript_iff.mp hscript
  exact h.program.right hf

theorem results (h : Counterpart strategy R s t) {es es' : List Emitted} (hs : s.Covers strategy es)
    (ht : t.Covers strategy es') (result : Path × String × Option (List Path)) :
    result ∈ es.map Emitted.result ↔ result ∈ es'.map Emitted.result := by
  have hpair : ∀ {e e'}, e ∈ es → e' ∈ es' → R e.file e'.file → e'.result = e.result := by
    intro e e' he he' hij
    obtain ⟨e'', hmade, hresult⟩ := h.output hij (hs.made e he)
    rw [ht.made e' he'] at hmade
    cases hmade
    exact hresult
  constructor
  · intro hmem
    obtain ⟨e, he, rfl⟩ := List.mem_map.mp hmem
    have hdue := (hs.due e.file).mp (List.mem_map.mpr ⟨e, he, rfl⟩)
    obtain ⟨j, hij⟩ := h.exists_right hdue.1
    obtain ⟨e', he', rfl⟩ := List.mem_map.mp ((ht.due j).mpr ((h.due hij).mp hdue))
    exact List.mem_map.mpr ⟨e', he', hpair he he' hij⟩
  · intro hmem
    obtain ⟨e', he', rfl⟩ := List.mem_map.mp hmem
    have hdue := (ht.due e'.file).mp (List.mem_map.mpr ⟨e', he', rfl⟩)
    obtain ⟨i, hij⟩ := h.exists_left hdue.1
    obtain ⟨e, he, rfl⟩ := List.mem_map.mp ((hs.due i).mpr ((h.due hij).mpr hdue))
    exact List.mem_map.mpr ⟨e, he, (hpair he he' hij).symm⟩

end Counterpart

theorem settled_iff {σ : Type} [FileSystem σ] {c : BuildContext σ} {b : BuildState} {r : Registry}
    (hbuilt : Program.Built c b s.program r) (hnone : s.ledger.pending = OrdMap.empty) :
    s.Settled strategy ↔ ∀ id, ¬ s.Due strategy id := by
  have hpending : ∀ id, s.ledger.pending.contains id = false := fun id => by
    rw [hnone]
    rfl
  constructor
  · rintro ⟨-, hcurrent⟩ id ⟨hscript, hdue⟩
    rw [hpending] at hdue
    obtain ⟨f, hf, hkind⟩ := isScript_iff.mp hscript
    obtain rfl := hbuilt.id_eq hf
    rcases hdue with hdue | ⟨haot, hne⟩
    · cases hdue
    · have hstale := hcurrent haot f (hbuilt.mem_members.mpr hf) hkind
      obtain ⟨d, hd⟩ := fingerprint?_of_script hscript
      have htrue : Ledger.isStale s.fingerprint? s.ledger f.id = true :=
        Ledger.isStale_iff.mpr ⟨d, hd, by rwa [hd] at hne⟩
      rw [hstale] at htrue
      cases htrue
  · intro hdue
    refine ⟨hnone, fun haot f hf hkind => ?_⟩
    cases hstale : Ledger.isStale s.fingerprint? s.ledger f.id with
    | false => rfl
    | true =>
      obtain ⟨d, hd, hne⟩ := Ledger.isStale_iff.mp hstale
      refine absurd ⟨isScript_iff.mpr ⟨f, hbuilt.mem_members.mp hf, hkind⟩, .inr ⟨haot, ?_⟩⟩ (hdue f.id)
      rwa [hd]

section Emit

variable {σ : Type} [FileSystem σ] {c c' : BuildContext σ} {b b' : BuildState} {r r' : Registry}
variable {es es' : List Emitted} {l l' : Ledger}

end Emit

end Snapshot

namespace Engine

open Snapshot

variable {σ : Type} [FileSystem σ] {R : FileId → FileId → Prop} {e e' : Engine} {s t : Snapshot}

end Engine

end Recompile
