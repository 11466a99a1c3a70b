import Recompile.Proofs.Engine.Outputs
import Recompile.Proofs.Engine.Progress

/-!
What an emission covers: each script that is pending or, in full builds, stale, once, and nothing
else. After it there is nothing left to emit or to write.
-/

namespace Recompile

namespace Ledger

theorem sorted_pending_step {l k : Ledger} (h : l.pending.Sorted) (hstep : Step l k) :
    k.pending.Sorted := by
  cases hstep with
  | record id fingerprint => exact h
  | complete target =>
    cases target with
    | buildInfo => exact h
    | file id =>
      unfold complete
      dsimp only
      split
      · exact h.erase id
      · exact h

theorem sorted_pending_update {p : Program} {options : Digest} {prior : Option Ledger}
    (h : ∀ l, prior = some l → l.pending.Sorted) : (update p options prior).1.pending.Sorted := by
  rcases update_cases p options prior with heq | ⟨l, hl, -, heq⟩
  · rw [heq]
    exact OrdSet.sorted_ofList _
  · rw [heq]
    exact OrdSet.sorted_addAll _ ((h l hl).filter _)

theorem tail_sorted {l : Ledger} (h : l.pending.Sorted) {id : FileId} {rest : List (FileId × Unit)}
    (hp : l.pending.entries = (id, ()) :: rest) :
    (l.complete (.file id)).pending.entries = rest := by
  rw [pending_complete, hp, List.filter_cons_of_neg (by simp), List.filter_eq_self]
  intro e he
  have hnodup := h.nodup_keys
  unfold OrdMap.keys at hnodup
  rw [hp, List.map_cons, List.nodup_cons] at hnodup
  simpa using fun heq : e.1 = id => hnodup.1 (List.mem_map.mpr ⟨e, he, heq⟩)

/-- Emits target after target, as long as a file is pending. -/
def drainFiles (output : FileId → Except CutError (Option Emitted)) :
    Nat → Ledger → Except CutError (List Emitted) × Ledger
  | 0, l => (.ok [], l)
  | fuel + 1, l =>
      match l.nextTarget? false with
      | some (.file id) =>
          match output id with
          | .error e => (.error e, l)
          | .ok emitted =>
              let (more, l) := drainFiles output fuel (l.complete (.file id))
              (more.map (emitted.toList ++ ·), l)
      | _ => (.ok [], l)

/-- The emission of the pending files is the loop that takes one target after the other, however
many rounds the loop is given beyond the number of pending files. -/
theorem drainFiles_eq (output : FileId → Except CutError (Option Emitted)) (fuel : Nat) :
    ∀ {l : Ledger}, l.pending.Sorted → l.pending.size ≤ fuel →
      drainFiles output fuel l = l.emitPending output := by
  induction fuel with
  | zero =>
    intro l _ hsize
    have hnone : l.pending.entries = [] := List.length_eq_zero_iff.mp (Nat.le_zero.mp hsize)
    unfold emitPending OrdSet.toList OrdMap.keys
    rw [hnone]
    rfl
  | succ fuel ih =>
    intro l hsorted hsize
    unfold OrdMap.size at hsize
    unfold drainFiles nextTarget? emitPending OrdSet.toList OrdMap.keys
    cases hp : l.pending.entries with
    | nil => rfl
    | cons first rest =>
      obtain ⟨id, ⟨⟩⟩ := first
      have hrest := tail_sorted hsorted hp
      have hnext := ih (l := l.complete (.file id)) (sorted_pending_step hsorted (.complete _))
        (by rw [hp] at hsize; unfold OrdMap.size; rw [hrest]; simpa using hsize)
      unfold emitPending OrdSet.toList OrdMap.keys at hnext
      rw [hrest] at hnext
      cases houtput : output id <;> simp only [List.map_cons, emitFiles, hnext, houtput]

/-- From every ledger the loop comes to a point where there is no target left, whatever is
pending. -/
theorem nextTarget?_drainFor (persist : Bool) (fuel : Nat) : ∀ {l : Ledger},
    l.pending.size + 1 ≤ fuel → (drainFor persist fuel l).2.nextTarget? persist = none := by
  induction fuel with
  | zero => exact fun h => absurd h (Nat.not_succ_le_zero _)
  | succ fuel ih =>
    intro l hsize
    unfold drainFor
    cases htarget : l.nextTarget? persist with
    | none => exact htarget
    | some target =>
      unfold nextTarget? OrdSet.toList OrdMap.keys at htarget
      unfold OrdMap.size at hsize
      cases hp : l.pending.entries with
      | cons first rest =>
        rw [hp] at htarget hsize
        simp only [List.map_cons, Option.some.injEq] at htarget
        subst htarget
        refine ih ?_
        have hshorter : (l.complete (.file first.1)).pending.size ≤ rest.length := by
          unfold OrdMap.size
          rw [pending_complete, hp, List.filter_cons_of_neg (by simp)]
          exact List.length_filter_le _ _
        simp only [List.length_cons] at hsize
        omega
      | nil =>
        rw [hp] at htarget
        simp only [List.map_nil, Option.ite_none_right_eq_some, Option.some.injEq] at htarget
        obtain ⟨-, rfl⟩ := htarget
        -- With the ledger written there is no further target, so the rest of the loop is empty.
        have hdone : (l.complete .buildInfo).nextTarget? persist = none := by
          unfold nextTarget? OrdSet.toList OrdMap.keys complete
          simp [hp]
        cases fuel with
        | zero => exact hdone
        | succ fuel =>
          show (drainFor persist (fuel + 1) (l.complete .buildInfo)).2.nextTarget? persist = none
          unfold drainFor
          rw [hdone]
          exact hdone

end Ledger

theorem BuildInfo.sorted_pending_toLedger (i : BuildInfo) (r : Registry) (base : Path) :
    (i.toLedger r base).1.pending.Sorted := OrdSet.sorted_ofList _

theorem Program.isScript_iff {p : Program} {id : FileId} :
    p.isScript id = true ↔ ∃ f, p.file? id = some f ∧ f.kind = .script := by
  unfold isScript hasKind
  cases p.file? id <;> simp

theorem Emit.script_of_deferred {p : Program} {id : FileId} {r : Emitted}
    (h : deferred p id = .ok (some r)) : (scriptOf? p id).isSome = true := by
  unfold deferred at h
  cases hs : scriptOf? p id with
  | none => simp [hs] at h
  | some fm => rfl

namespace Snapshot

open Ledger

theorem script_of_output {strategy : Strategy} {s : Snapshot} {id : FileId} {e : Emitted}
    (h : s.output strategy id = .ok (some e)) : s.program.isScript id = true := by
  have hs : (Emit.scriptOf? s.program id).isSome = true := by
    cases strategy with
    | aot => exact Emit.script_of_inlined h
    | jit => exact Emit.script_of_deferred h
  obtain ⟨⟨f, m⟩, hs⟩ := Option.isSome_iff_exists.mp hs
  obtain ⟨hf, -, hkind⟩ := Emit.scriptOf?_eq_some.mp hs
  exact Program.isScript_iff.mpr ⟨f, hf, hkind⟩

theorem nodup_outputs {strategy : Strategy} {s : Snapshot} {ids : List FileId} (h : ids.Nodup) :
    ((outputs (s.output strategy) ids).map (·.file)).Nodup := by
  induction ids with
  | nil => exact .nil
  | cons id rest ih =>
    obtain ⟨hnew, hrest⟩ := List.nodup_cons.mp h
    have hsplit : outputs (s.output strategy) (id :: rest) =
        outputs (s.output strategy) [id] ++ outputs (s.output strategy) rest := by
      simp [outputs]
    rw [hsplit, List.map_append, List.nodup_append]
    refine ⟨?_, ih hrest, ?_⟩
    · unfold outputs
      simp only [List.flatMap_cons, List.flatMap_nil, List.append_nil]
      split
      · rename_i emitted _
        cases emitted <;> simp
      · simp
    · intro a ha b hb
      obtain ⟨e, he, rfl⟩ := List.mem_map.mp ha
      obtain ⟨g, hg, rfl⟩ := List.mem_map.mp hb
      obtain ⟨i, hi, hei⟩ := mem_outputs.mp he
      obtain ⟨j, hj, hgj⟩ := mem_outputs.mp hg
      rw [file_output hei, file_output hgj, List.mem_singleton.mp hi]
      rintro rfl
      exact hnew hj

theorem mem_file_outputs {strategy : Strategy} {s : Snapshot} {ids : List FileId} {id : FileId} :
    id ∈ (outputs (s.output strategy) ids).map (·.file) ↔
      id ∈ ids ∧ ∃ r, s.output strategy id = .ok (some r) := by
  rw [List.mem_map]
  constructor
  · rintro ⟨r, hr, rfl⟩
    obtain ⟨i, hi, hir⟩ := mem_outputs.mp hr
    rw [file_output hir]
    exact ⟨hi, r, hir⟩
  · rintro ⟨hid, r, hr⟩
    exact ⟨r, mem_outputs.mpr ⟨id, hid, hr⟩, file_output hr⟩

variable {σ : Type} [FileSystem σ] {c : BuildContext σ} {b : BuildState} {r : Registry} {s : Snapshot}

theorem exists_output_iff {strategy : Strategy} (hbuilt : Program.Built c b s.program r) {id : FileId}
    (hmade : ∃ made, s.output strategy id = .ok made) :
    (∃ e, s.output strategy id = .ok (some e)) ↔ s.program.isScript id = true := by
  constructor
  · exact fun ⟨e, he⟩ => script_of_output he
  · intro hscript
    obtain ⟨f, hf, hkind⟩ := Program.isScript_iff.mp hscript
    obtain ⟨made, hmade⟩ := hmade
    have hs : (Emit.scriptOf? s.program id).isSome = true := by
      rw [hbuilt.scriptOf?_of_script hf hkind]
      rfl
    obtain ⟨e, rfl⟩ := output_made hs hmade
    exact ⟨e, hmade⟩

theorem fingerprint?_of_script {id : FileId} (h : s.program.isScript id = true) :
    ∃ d, s.fingerprint? id = some d := by
  obtain ⟨f, hf, -⟩ := Program.isScript_iff.mp h
  unfold fingerprint? Emit.fingerprint?
  rw [hf]
  exact ⟨_, rfl⟩

theorem made_of_pending {strategy : Strategy} {es : List Emitted} {l : Ledger}
    (h : s.emitFiles strategy = (.ok es, l)) {id : FileId} (hid : id ∈ OrdSet.toList s.ledger.pending) :
    ∃ made, s.output strategy id = .ok made := by
  cases strategy with
  | jit => exact (emitDeferred_ok h).2.2 id hid
  | aot =>
    have hinlined : s.emitInlined = (.ok es, l) := h
    unfold emitInlined at hinlined
    dsimp only at hinlined
    cases hp : s.ledger.emitPending (Emit.inlined s.program s.styles) with
    | mk emitted k =>
      rw [hp] at hinlined
      cases emitted with
      | error err => cases hinlined
      | ok emitted => exact (emitFiles_ok _ hp).2.2 id hid

/-- The files that an emission has to give an output for. -/
def Due (strategy : Strategy) (s : Snapshot) (id : FileId) : Prop :=
  s.program.isScript id = true ∧ (s.ledger.pending.contains id = true ∨
    strategy = .aot ∧ s.ledger.fingerprints.get? id ≠ s.fingerprint? id)

/-- What a list of outputs has to be: one for each file that is due, made from the snapshot. -/
structure Covers (strategy : Strategy) (s : Snapshot) (es : List Emitted) : Prop where
  once : (es.map (·.file)).Nodup
  due : ∀ id, id ∈ es.map (·.file) ↔ s.Due strategy id
  made : ∀ e ∈ es, s.output strategy e.file = .ok (some e)

theorem made_of_mem_outputs {strategy : Strategy} {ids : List FileId} {e : Emitted}
    (h : e ∈ outputs (s.output strategy) ids) : s.output strategy e.file = .ok (some e) := by
  obtain ⟨i, -, hi⟩ := mem_outputs.mp h
  rw [file_output hi]
  exact hi

theorem mem_file_pending {strategy : Strategy} (hbuilt : Program.Built c b s.program r)
    {es : List Emitted} {l : Ledger} (h : s.emitFiles strategy = (.ok es, l)) {id : FileId} :
    id ∈ (outputs (s.output strategy) (OrdSet.toList s.ledger.pending)).map (·.file) ↔
      s.program.isScript id = true ∧ s.ledger.pending.contains id = true := by
  rw [mem_file_outputs]
  constructor
  · rintro ⟨hid, he⟩
    exact ⟨(exists_output_iff hbuilt (made_of_pending h hid)).mp he, OrdSet.mem_toList.mp hid⟩
  · rintro ⟨hscript, hid⟩
    have hid := OrdSet.mem_toList.mpr hid
    exact ⟨hid, (exists_output_iff hbuilt (made_of_pending h hid)).mpr hscript⟩

theorem covers_deferred (hbuilt : Program.Built c b s.program r) (hsorted : s.ledger.pending.Sorted)
    {es : List Emitted} {l : Ledger} (h : s.emitFiles .jit = (.ok es, l)) : s.Covers .jit es := by
  obtain ⟨rfl, -⟩ := emitDeferred_ok h
  refine ⟨nodup_outputs hsorted.nodup_keys, fun id => ?_, fun e => made_of_mem_outputs⟩
  rw [mem_file_pending hbuilt h]
  simp [Due]

theorem mem_file_stale (hbuilt : Program.Built c b s.program r) {first more : List Emitted}
    {l : Ledger} (hrefreshed : Refreshed (s.output .aot) s.fingerprint?
      ((s.ledger.completeAll (OrdSet.toList s.ledger.pending)).recordAll s.fingerprint?
        (first.map (·.file))) (s.scriptsBeside (first.map (·.file))) more l) {id : FileId} :
    id ∈ more.map (·.file) ↔ id ∉ first.map (·.file) ∧ s.program.isScript id = true ∧
      s.ledger.fingerprints.get? id ≠ s.fingerprint? id := by
  have hnodup : (s.scriptsBeside (first.map (·.file))).Nodup :=
    hbuilt.nodup_ids.sublist (List.filter_sublist.map _)
  have hbeside : id ∈ s.scriptsBeside (first.map (·.file)) ↔
      id ∉ first.map (·.file) ∧ s.program.isScript id = true := by
    rw [mem_scriptsBeside, Program.isScript_iff]
    refine and_congr_right fun _ => ⟨?_, ?_⟩
    · rintro ⟨f, hf, hkind, rfl⟩
      exact ⟨f, hbuilt.mem_members.mp hf, hkind⟩
    · rintro ⟨f, hf, hkind⟩
      have hid := hbuilt.id_eq hf
      exact ⟨f, hbuilt.mem_members.mpr (hid.symm ▸ hf), hkind, hid⟩
  have hstale : id ∉ first.map (·.file) → s.program.isScript id = true →
      (isStale s.fingerprint? ((s.ledger.completeAll (OrdSet.toList s.ledger.pending)).recordAll
        s.fingerprint? (first.map (·.file))) id = true ↔
          s.ledger.fingerprints.get? id ≠ s.fingerprint? id) := by
    intro hnew hscript
    obtain ⟨d, hd⟩ := fingerprint?_of_script hscript
    rw [isStale_iff, get?_recordAll]
    unfold noted
    rw [if_neg hnew, fingerprints_completeAll, hd]
    simp
  rw [hrefreshed.emitted hnodup, mem_file_outputs, List.mem_filter]
  constructor
  · rintro ⟨⟨hmem, htest⟩, -⟩
    obtain ⟨hnew, hscript⟩ := hbeside.mp hmem
    exact ⟨hnew, hscript, (hstale hnew hscript).mp htest⟩
  · rintro ⟨hnew, hscript, hne⟩
    have hmem := hbeside.mpr ⟨hnew, hscript⟩
    have htest := (hstale hnew hscript).mpr hne
    exact ⟨⟨hmem, htest⟩,
      (exists_output_iff hbuilt (hrefreshed.made hnodup id hmem htest)).mpr hscript⟩

theorem covers_inlined (hbuilt : Program.Built c b s.program r) (hsorted : s.ledger.pending.Sorted)
    {es : List Emitted} {l : Ledger} (h : s.emitFiles .aot = (.ok es, l)) : s.Covers .aot es := by
  obtain ⟨first, more, hfirst, rfl, hrefreshed⟩ := emitInlined_ok h
  have hnodup : (s.scriptsBeside (first.map (·.file))).Nodup :=
    hbuilt.nodup_ids.sublist (List.filter_sublist.map _)
  have hmore := hrefreshed.emitted hnodup
  refine ⟨?_, fun id => ?_, fun e he => ?_⟩
  · rw [List.map_append, List.nodup_append]
    refine ⟨hfirst ▸ nodup_outputs hsorted.nodup_keys, hmore ▸ nodup_outputs (hnodup.filter _), ?_⟩
    rintro a ha b hb rfl
    exact ((mem_file_stale hbuilt hrefreshed).mp hb).1 ha
  · rw [List.map_append, List.mem_append, mem_file_stale hbuilt hrefreshed]
    have hpending : id ∈ first.map (·.file) ↔
        s.program.isScript id = true ∧ s.ledger.pending.contains id = true := by
      rw [hfirst]
      exact mem_file_pending hbuilt h
    rw [hpending]
    unfold Due
    by_cases hscript : s.program.isScript id = true
    · by_cases hin : s.ledger.pending.contains id = true <;> simp [hscript, hin]
    · simp [hscript]
  · rcases List.mem_append.mp he with he | he
    · exact made_of_mem_outputs (hfirst ▸ he)
    · exact made_of_mem_outputs (hmore ▸ he)

theorem covers_emitFiles {strategy : Strategy} (hbuilt : Program.Built c b s.program r)
    (hsorted : s.ledger.pending.Sorted) {es : List Emitted} {l : Ledger}
    (h : s.emitFiles strategy = (.ok es, l)) : s.Covers strategy es := by
  cases strategy with
  | aot => exact covers_inlined hbuilt hsorted h
  | jit => exact covers_deferred hbuilt hsorted h

theorem clean_persist {s t : Snapshot} {registry : Registry} {fs : σ}
    (h : (s.persist registry fs).1 = .ok t) : t.options = s.options ∧
      (t.options.incremental = true → t.ledger.dirty = false) ∧
      ∀ registry' (fs' : σ), t.persist registry' fs' = (.ok t, fs') := by
  unfold persist at h
  split at h
  · rename_i hnone
    cases h
    refine ⟨rfl, fun hinc => ?_, fun _ _ => by unfold persist; rw [hnone]⟩
    unfold Options.buildInfoPath? at hnone
    rw [hinc] at hnone
    cases hb : s.options.buildInfoFile <;> simp [hb] at hnone
  · rename_i path hpath
    split at h
    · dsimp only at h
      split at h
      · cases h
      · cases h
        refine ⟨rfl, fun _ => rfl, fun _ _ => ?_⟩
        unfold persist
        rw [hpath]
        rfl
    · rename_i hclean
      cases h
      refine ⟨rfl, fun _ => by simpa using hclean, fun _ _ => ?_⟩
      unfold persist
      rw [hpath]
      simp [hclean]

end Snapshot

namespace Engine

open Snapshot

variable {σ : Type} [FileSystem σ]

theorem sorted_pending_run (strategy : Strategy) (calls : List (Call σ)) :
    (run (create strategy) calls).Keeps fun _ l => l.pending.Sorted := by
  refine keeps_run (fun h _ => h) Ledger.sorted_pending_step ?_ strategy calls
  intro e fs host config b t r hkept _ hstart
  rw [hstart.ledger]
  refine Ledger.sorted_pending_update fun l hl => ?_
  unfold priorLedger at hl
  split at hl
  · rename_i s hs
    cases hl
    exact hkept s hs
  · split at hl
    · cases hl
    · cases hl
      exact BuildInfo.sorted_pending_toLedger _ _ _

/-- An emission that succeeds gives one output for each script that was pending or, in full builds,
stale, as the current program makes it, and nothing else. It leaves no file pending, the fingerprints
of all scripts current in full builds, and a kept ledger written; so the next emission returns nothing
and leaves the file system as it is. The loop over the targets ends from every ledger, and the
emission of the pending files is what it does. -/
theorem emit_covers (strategy : Strategy) (calls : List (Call σ)) {s : Snapshot}
    (hs : (run (create strategy) calls).snapshot = some s) {fs fs' : σ} {es : List Emitted} {e' : Engine}
    (h : (run (create strategy) calls).emit fs = (.ok es, e', fs')) :
    s.Covers strategy es ∧
      (∃ s', e'.snapshot = some s' ∧ s' = { s with ledger := s'.ledger } ∧
        s'.ledger.pending = OrdMap.empty ∧
        (strategy = .aot → ∀ id, s.program.isScript id = true →
          ∃ d, s.fingerprint? id = some d ∧ s'.ledger.fingerprints.get? id = some d) ∧
        (s.options.incremental = true → s'.ledger.dirty = false)) ∧
      (∀ fs₁ : σ, e'.emit fs₁ = (.ok [], e', fs₁)) ∧
      (∀ (l : Ledger) (persist : Bool), (l.drain persist).2.nextTarget? persist = none) ∧
      ∀ rounds, s.ledger.pending.size ≤ rounds →
        s.ledger.drainFiles (s.output strategy) rounds = s.ledger.emitPending (s.output strategy) := by
  have hhistory := history_run (P := fun (_ : σ) _ => True) strategy calls fun _ _ _ _ _ => trivial
  obtain ⟨t₀, ht₀, hsame, -, -⟩ := hhistory.current s hs
  obtain ⟨c, b, r, hbuilt₀, -⟩ := hhistory.known t₀ ht₀
  have hbuilt : Program.Built c b s.program r := by
    rw [hsame]
    exact hbuilt₀
  have hsorted := sorted_pending_run strategy calls s hs
  obtain ⟨l, hemit, -, t, hpersist, rfl⟩ := emit_ok hs h
  rw [hhistory.strategy] at hemit
  obtain ⟨k, rfl, hpending, hfingerprints⟩ := persist_ok hpersist
  obtain ⟨-, hclean, hagain⟩ := clean_persist hpersist
  have hsettled : Settled strategy { s with ledger := k } := by
    obtain ⟨hnone, hcurrent⟩ := settled_of_emitFiles hemit
    refine ⟨hpending.trans hnone, fun haot f hf hkind => ?_⟩
    have hstale := hcurrent haot f hf hkind
    unfold Ledger.isStale at hstale ⊢
    rw [hfingerprints]
    exact hstale
  refine ⟨covers_emitFiles hbuilt hsorted hemit, ⟨_, rfl, rfl, hsettled.1, ?_, hclean⟩, ?_, ?_, ?_⟩
  · rintro rfl id hscript
    obtain ⟨f, hf, hkind⟩ := Program.isScript_iff.mp hscript
    obtain rfl := hbuilt.id_eq hf
    exact hsettled.recorded (hbuilt.mem_members.mpr hf) hkind hf
  · intro fs₁
    rw [emit_eq rfl]
    simp only [hhistory.strategy, emitFiles_of_settled hsettled, hagain]
  · exact fun l persist => Ledger.nextTarget?_drainFor persist _ (Nat.le_refl _)
  · exact fun rounds => Ledger.drainFiles_eq _ rounds hsorted

set_option maxRecDepth 100000

def scriptAndDeclaration : Volume :=
  .ofTexts [(⟨"/k"⟩, "files=['a.ts']\ncompiler.incremental=true"), (⟨"/a.ts"⟩, "import './b'"),
    (⟨"/b.d.ts"⟩, "")]

theorem emit_covers_scriptAndDeclaration :
    ∃ s e' fs', (run (create .aot) [.startAt scriptAndDeclaration]).snapshot = some s ∧
      s.program.members.map (·.kind) = [.script, .declaration] ∧
      (run (create .aot) [.startAt scriptAndDeclaration]).emit scriptAndDeclaration =
        (.ok [⟨0, ⟨"/a.js"⟩, "import './b'", some []⟩], e', fs') ∧
      s.Covers .aot [⟨0, ⟨"/a.js"⟩, "import './b'", some []⟩] ∧
      ∀ fs₁ : Volume, e'.emit fs₁ = (.ok [], e', fs₁) := by
  have hrun : (∃ s ∈ (run (create .aot) [.startAt scriptAndDeclaration]).snapshot,
        s.program.members.map (·.kind) = [.script, .declaration]) ∧
      ((run (create .aot) [.startAt scriptAndDeclaration]).emit scriptAndDeclaration).1 =
        .ok [⟨0, ⟨"/a.js"⟩, "import './b'", some []⟩] := by
    decide +kernel
  obtain ⟨⟨s, hs, hkinds⟩, hresult⟩ := hrun
  generalize hemit : (run (create .aot) [.startAt scriptAndDeclaration]).emit scriptAndDeclaration =
    answer at hresult
  obtain ⟨result, e', fs'⟩ := answer
  cases hresult
  obtain ⟨hcovers, -, hnext, -⟩ := emit_covers .aot _ hs hemit
  exact ⟨s, e', fs', hs, hkinds, rfl, hcovers, hnext⟩

end Engine

end Recompile
