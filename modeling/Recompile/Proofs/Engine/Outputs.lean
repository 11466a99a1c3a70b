import Mathlib.Data.List.Basic
import Recompile.Host.Volume
import Recompile.Proofs.Emit.Determined
import Recompile.Proofs.Engine.Emission
import Recompile.Proofs.Engine.Known
import Recompile.Proofs.Host.Elsewhere

/-!
The outputs that a run returns. After an emission the last one returned for a script is the one that
the current program gives.
-/

namespace Recompile

def lastFor (id : FileId) (es : List Emitted) : Option Emitted :=
  (es.filter fun r => r.file = id).getLast?

theorem lastFor_append (id : FileId) (es more : List Emitted) :
    lastFor id (es ++ more) = (lastFor id more).or (lastFor id es) := by
  unfold lastFor
  rw [List.filter_append, List.getLast?_append]

theorem lastFor_eq_none {id : FileId} {es : List Emitted} (h : ∀ r ∈ es, r.file ≠ id) :
    lastFor id es = none := by
  unfold lastFor
  rw [List.getLast?_eq_none_iff, List.filter_eq_nil_iff]
  intro r hr
  simpa using h r hr

theorem lastFor_outputs {output : FileId → Except CutError (Option Emitted)}
    (hfile : ∀ {id r}, output id = .ok (some r) → r.file = id) {ids : List FileId} {id : FileId}
    {r : Emitted} (hid : id ∈ ids) (hr : output id = .ok (some r)) :
    lastFor id (Ledger.outputs output ids) = some r := by
  cases hlast : lastFor id (Ledger.outputs output ids) with
  | none =>
    unfold lastFor at hlast
    rw [List.getLast?_eq_none_iff, List.filter_eq_nil_iff] at hlast
    exact absurd (by simpa using hfile hr) (hlast r (Ledger.mem_outputs.mpr ⟨id, hid, hr⟩))
  | some r' =>
    obtain ⟨hmem, hsame⟩ := List.mem_filter.mp (List.mem_of_getLast? hlast)
    obtain ⟨id', -, hr'⟩ := Ledger.mem_outputs.mp hmem
    have hid' : id' = id := by rw [← hfile hr', ← of_decide_eq_true hsame]
    rw [hid', hr] at hr'
    cases hr'
    rfl

namespace Emit

theorem inlined_made {p : Program} {styles : Stylesheets} {id : FileId} {made : Option Emitted}
    (hs : (scriptOf? p id).isSome = true) (h : inlined p styles id = .ok made) :
    ∃ r, made = some r := by
  obtain ⟨⟨f, m⟩, hs⟩ := Option.isSome_iff_exists.mp hs
  unfold inlined at h
  simp only [hs, bind, Except.bind, pure, Except.pure] at h
  split at h
  · cases h
  · cases h
    exact ⟨_, rfl⟩

theorem deferred_made {p : Program} {id : FileId} {made : Option Emitted}
    (hs : (scriptOf? p id).isSome = true) (h : deferred p id = .ok made) : ∃ r, made = some r := by
  obtain ⟨⟨f, m⟩, hs⟩ := Option.isSome_iff_exists.mp hs
  unfold deferred at h
  simp only [hs, bind, Except.bind, pure, Except.pure] at h
  split at h
  · cases h
  · split at h
    · cases h
    · cases h
      exact ⟨_, rfl⟩

theorem script_of_inlined {p : Program} {styles : Stylesheets} {id : FileId} {r : Emitted}
    (h : inlined p styles id = .ok (some r)) : (scriptOf? p id).isSome = true := by
  unfold inlined at h
  cases hs : scriptOf? p id with
  | none => simp [hs] at h
  | some fm => rfl

end Emit

namespace Snapshot

theorem output_made {strategy : Strategy} {s : Snapshot} {id : FileId} {made : Option Emitted}
    (hs : (Emit.scriptOf? s.program id).isSome = true) (h : s.output strategy id = .ok made) :
    ∃ r, made = some r := by
  cases strategy with
  | aot => exact Emit.inlined_made hs h
  | jit => exact Emit.deferred_made hs h

theorem Settled.recorded {s : Snapshot} (h : s.Settled .aot) {f : SourceFile}
    (hf : f ∈ s.program.members) (hkind : f.kind = .script) (hfile : s.program.file? f.id = some f) :
    ∃ d, s.fingerprint? f.id = some d ∧ s.ledger.fingerprints.get? f.id = some d := by
  have hcurrent := h.2 rfl f hf hkind
  have hsome : ∃ d, s.fingerprint? f.id = some d := by
    unfold fingerprint? Emit.fingerprint?
    rw [hfile]
    exact ⟨_, rfl⟩
  obtain ⟨d, hd⟩ := hsome
  unfold Ledger.isStale at hcurrent
  rw [hd] at hcurrent
  exact ⟨d, hd, Decidable.not_not.mp (of_decide_eq_false hcurrent)⟩

theorem persist_ok {σ : Type} [FileSystem σ] {s t : Snapshot} {registry : Registry} {fs : σ}
    (h : (s.persist registry fs).1 = .ok t) : ∃ l : Ledger, t = { s with ledger := l } ∧
      l.pending = s.ledger.pending ∧ l.fingerprints = s.ledger.fingerprints := by
  unfold persist at h
  split at h
  · cases h
    exact ⟨_, rfl, rfl, rfl⟩
  · split at h
    · dsimp only at h
      split at h
      · cases h
      · cases h
        exact ⟨_, rfl, rfl, rfl⟩
    · cases h
      exact ⟨_, rfl, rfl, rfl⟩

end Snapshot

namespace Engine

variable {σ : Type} [FileSystem σ]

def returned : Engine × Call σ → List Emitted
  | (e, .emit fs) =>
      match (e.emit fs).1 with
      | .ok es => es
      | .error _ => []
  | (_, .start ..) => []

/-- The outputs that are returned in a run, in their order. -/
def delivered (e : Engine) (calls : List (Call σ)) : List Emitted :=
  (moments e calls).flatMap returned

theorem delivered_append (e : Engine) (calls : List (Call σ)) (call : Call σ) :
    delivered e (calls ++ [call]) = delivered e calls ++ returned (run e calls, call) := by
  simp [delivered, moments_append]

/-- There is no ledger for the options of a start, neither kept nor written. -/
def Unseeded (e : Engine) (fs : σ) (configPath : Path) (host : Host)
    (change : Options → Options) : Prop :=
  ∀ config l, configAt fs configPath change = .ok config →
    (e.priorLedger fs host config.options).1 = some l → l.options ≠ config.options.fingerprint

/-- Among some snapshots, digests tell texts apart, those of stylesheets too, and the parts that the
fingerprints of a file are made from. -/
structure PartsTell (taken : List Snapshot) : Prop where
  texts : ∀ s ∈ taken, ∀ t ∈ taken, ∀ f ∈ s.program.members, ∀ g ∈ t.program.members,
    f.version = g.version → f.text = g.text
  sheets : ∀ s ∈ taken, ∀ t ∈ taken, ∀ a ∈ s.program.sheets, ∀ b ∈ t.program.sheets,
    a.version = b.version → a.text = b.text
  parts : ∀ s ∈ taken, ∀ t ∈ taken, ∀ id, s.fingerprint? id = t.fingerprint? id →
    Emit.fingerprintParts? s.program id s.optionsDigest =
      Emit.fingerprintParts? t.program id t.optionsDigest

theorem PartsTell.mono {seen taken : List Snapshot} (h : PartsTell taken) (hsub : seen ⊆ taken) :
    PartsTell seen where
  texts s hs t ht := h.texts s (hsub hs) t (hsub ht)
  sheets s hs t ht := h.sheets s (hsub hs) t (hsub ht)
  parts s hs t ht := h.parts s (hsub hs) t (hsub ht)

/-- What the bookkeeping of a snapshot says about the outputs given so far: with resources in them,
a fingerprint is that of the last output; without, a script that is not pending has its output. -/
def Accounted (strategy : Strategy) (seen : List Snapshot) (given : List Emitted)
    (s : Snapshot) : Prop :=
  match strategy with
  | .aot => ∀ id d, s.ledger.fingerprints.get? id = some d → ∃ u ∈ seen,
      u.fingerprint? id = some d ∧ ∃ r, u.output .aot id = .ok (some r) ∧ lastFor id given = some r
  | .jit => ∀ f ∈ s.program.members, f.kind = .script → s.ledger.pending.contains f.id = true ∨
      ∃ r, s.output .jit f.id = .ok (some r) ∧ lastFor f.id given = some r

/-- What is kept along a run about its outputs. -/
structure Tracked (strategy : Strategy) (styles : StyleProcessor) (seen : List Snapshot)
    (given : List Emitted) (e : Engine) : Prop where
  pure : strategy = .aot → ∀ t ∈ seen, t.styles.Pure styles t.program
  accounted : ∀ s, e.snapshot = some s → Accounted strategy seen given s

theorem scriptOf?_isSome {c : BuildContext σ} {b : BuildState} {p : Program} {r : Registry}
    (h : Program.Built c b p r) {f : SourceFile} (hf : f ∈ p.members) (hkind : f.kind = .script) :
    (Emit.scriptOf? p f.id).isSome = true := by
  rw [h.scriptOf?_of_script (h.mem_members.mp hf) hkind]
  rfl

theorem lastFor_outputs_of_not_mem {strategy : Strategy} {s : Snapshot} {ids : List FileId}
    {id : FileId} (h : id ∉ ids) : lastFor id (Ledger.outputs (s.output strategy) ids) = none := by
  refine lastFor_eq_none fun r hr hid => ?_
  obtain ⟨i, hi, hr⟩ := Ledger.mem_outputs.mp hr
  rw [← Snapshot.file_output hr, hid] at hi
  exact h hi

theorem emitInlined_file {s : Snapshot} {es : List Emitted} {l : Ledger} {c : BuildContext σ}
    {b : BuildState} {r : Registry} (hbuilt : Program.Built c b s.program r)
    (hemit : s.emitFiles .aot = (.ok es, l)) (id : FileId) :
    (∃ e, s.output .aot id = .ok (some e) ∧ lastFor id es = some e ∧
      l.fingerprints.get? id = s.fingerprint? id) ∨
    lastFor id es = none ∧ l.fingerprints.get? id = s.ledger.fingerprints.get? id := by
  obtain ⟨first, more, hfirst, rfl, hrefreshed⟩ := Snapshot.emitInlined_ok hemit
  have hnodup : (s.scriptsBeside (first.map (·.file))).Nodup :=
    hbuilt.nodup_ids.sublist (List.filter_sublist.map _)
  have hmore := hrefreshed.emitted hnodup
  rw [lastFor_append, hrefreshed.noted]
  unfold Ledger.noted
  by_cases hdone : id ∈ first.map (·.file)
  · left
    have hbeside : id ∉ s.scriptsBeside (first.map (·.file)) :=
      fun hmem => (Snapshot.mem_scriptsBeside.mp hmem).1 hdone
    obtain ⟨e, he, rfl⟩ := List.mem_map.mp hdone
    obtain ⟨i, hi, hr⟩ := Ledger.mem_outputs.mp (hfirst ▸ he)
    obtain rfl := Snapshot.file_output hr
    refine ⟨e, hr, ?_, ?_⟩
    · rw [hmore, lastFor_outputs_of_not_mem fun hmem => hbeside (List.mem_filter.mp hmem).1,
        Option.none_or, hfirst, lastFor_outputs Snapshot.file_output hi hr]
    · obtain ⟨⟨f, m⟩, hs⟩ := Option.isSome_iff_exists.mp (Emit.script_of_inlined hr)
      rw [if_neg hbeside, Ledger.get?_recordAll]
      unfold Ledger.noted Snapshot.fingerprint? Emit.fingerprint?
      rw [if_pos hdone, (Emit.scriptOf?_eq_some.mp hs).1]
      rfl
  · have hnone : lastFor id first = none :=
      lastFor_eq_none fun r' hr' hid => hdone (List.mem_map.mpr ⟨r', hr', hid⟩)
    have hold : ((s.ledger.completeAll (OrdSet.toList s.ledger.pending)).recordAll s.fingerprint?
        (first.map (·.file))).fingerprints.get? id = s.ledger.fingerprints.get? id := by
      rw [Ledger.get?_recordAll]
      unfold Ledger.noted
      rw [if_neg hdone, Ledger.fingerprints_completeAll]
    -- The file is not among those that were pending, so only the second loop can have reached it.
    rw [hnone, Option.or_none, hold, hmore]
    by_cases hstale : id ∈ (s.scriptsBeside (first.map (·.file))).filter
        (Ledger.isStale s.fingerprint? ((s.ledger.completeAll
          (OrdSet.toList s.ledger.pending)).recordAll s.fingerprint? (first.map (·.file))))
    · obtain ⟨hmem, htest⟩ := List.mem_filter.mp hstale
      obtain ⟨-, f, hf, hkind, rfl⟩ := Snapshot.mem_scriptsBeside.mp hmem
      obtain ⟨made, hmade⟩ := hrefreshed.made hnodup f.id hmem htest
      obtain ⟨e, rfl⟩ := Snapshot.output_made (scriptOf?_isSome hbuilt hf hkind) hmade
      obtain ⟨d, hd, -⟩ := Ledger.isStale_iff.mp htest
      exact .inl ⟨e, hmade, lastFor_outputs Snapshot.file_output hstale hmade,
        by rw [if_pos hmem, hd]; rfl⟩
    · refine .inr ⟨lastFor_outputs_of_not_mem hstale, ?_⟩
      split
      · rename_i hmem
        cases hd : s.fingerprint? id with
        | none => rfl
        | some d =>
          by_cases hcurrent : s.ledger.fingerprints.get? id = some d
          · rw [hcurrent]
            rfl
          · refine absurd (List.mem_filter.mpr ⟨hmem, Ledger.isStale_iff.mpr ⟨d, hd, ?_⟩⟩) hstale
            rw [hold]
            exact hcurrent
      · rfl

theorem accounted_inlined {seen : List Snapshot} {given es : List Emitted} {s u : Snapshot}
    {l : Ledger} {c : BuildContext σ} {b : BuildState} {r : Registry}
    (hbuilt : Program.Built c b s.program r) (hu : u ∈ seen) (hsame : s = { u with ledger := s.ledger })
    (h : Accounted .aot seen given s) (hemit : s.emitFiles .aot = (.ok es, l)) :
    Accounted .aot seen (given ++ es) { s with ledger := l } := by
  have houtput : u.output .aot = s.output .aot := by rw [hsame]; rfl
  have hfingerprint : u.fingerprint? = s.fingerprint? := by rw [hsame]; rfl
  intro id d hd
  have hd : l.fingerprints.get? id = some d := hd
  rw [lastFor_append]
  rcases emitInlined_file hbuilt hemit id with ⟨e, he, hlast, hnoted⟩ | ⟨hnone, hkept⟩
  · refine ⟨u, hu, ?_, e, ?_, ?_⟩
    · rw [hfingerprint, ← hnoted, hd]
    · rw [houtput, he]
    · rw [hlast]
      rfl
  · rw [hnone, Option.none_or]
    exact h id d (hkept ▸ hd)

theorem accounted_deferred {seen : List Snapshot} {given es : List Emitted} {s : Snapshot}
    {l : Ledger} {c : BuildContext σ} {b : BuildState} {r : Registry}
    (hbuilt : Program.Built c b s.program r) (h : Accounted .jit seen given s)
    (hemit : s.emitFiles .jit = (.ok es, l)) :
    Accounted .jit seen (given ++ es) { s with ledger := l } := by
  obtain ⟨hes, -, hmade⟩ := Snapshot.emitDeferred_ok hemit
  intro f hf hkind
  right
  rw [lastFor_append]
  by_cases hpending : f.id ∈ OrdSet.toList s.ledger.pending
  · obtain ⟨made, hmade⟩ := hmade f.id hpending
    obtain ⟨e, rfl⟩ := Snapshot.output_made (scriptOf?_isSome hbuilt hf hkind) hmade
    refine ⟨e, hmade, ?_⟩
    rw [hes, lastFor_outputs Snapshot.file_output hpending hmade]
    rfl
  · rw [hes, lastFor_outputs_of_not_mem hpending, Option.none_or]
    rcases h f hf hkind with hin | hgiven
    · exact absurd (OrdMap.mem_keys_iff.mpr hin) hpending
    · exact hgiven

theorem accounted_emit {strategy : Strategy} {seen : List Snapshot} {given es : List Emitted}
    {s u : Snapshot} {l : Ledger} {c : BuildContext σ} {b : BuildState} {r : Registry}
    (hbuilt : Program.Built c b s.program r) (hu : u ∈ seen) (hsame : s = { u with ledger := s.ledger })
    (h : Accounted strategy seen given s) (hemit : s.emitFiles strategy = (.ok es, l)) :
    Accounted strategy seen (given ++ es) { s with ledger := l } := by
  cases strategy with
  | aot => exact accounted_inlined hbuilt hu hsame h hemit
  | jit => exact accounted_deferred hbuilt h hemit

theorem Accounted.mono {strategy : Strategy} {seen more : List Snapshot} {given : List Emitted}
    {s : Snapshot} (h : Accounted strategy seen given s) :
    Accounted strategy (seen ++ more) given s := by
  cases strategy with
  | aot =>
    intro id d hd
    obtain ⟨u, hu, hrest⟩ := h id d hd
    exact ⟨u, List.mem_append_left _ hu, hrest⟩
  | jit => exact h

theorem ledger_of_next {e : Engine} {fs : σ} {host : Host} {config : Configuration} {l : Ledger}
    (hseed : e.snapshot = none → ∀ l, (e.priorLedger fs host config.options).1 = some l →
      l.options ≠ config.options.fingerprint)
    (hprior : (e.priorLedger fs host config.options).1 = some l)
    (hoptions : l.options = config.options.fingerprint) :
    ∃ u, e.snapshot = some u ∧ l = u.ledger := by
  cases hs : e.snapshot with
  | none => exact absurd hoptions (hseed hs l hprior)
  | some u =>
    unfold priorLedger at hprior
    rw [hs] at hprior
    cases hprior
    exact ⟨u, rfl, rfl⟩

theorem read_of_deferred {c : BuildContext σ} {s : BuildState} {p : Program} {r : Registry}
    (h : Program.Built c s p r) (hfull : c.full = false) {id : FileId} {f : SourceFile}
    (hf : p.file? id = some f) : s.program.file? id = some f := by
  have hp : p = Program.settle s.program := by
    have hfinish := h.finish
    rw [hfull] at hfinish
    exact congrArg Prod.fst hfinish
  rw [hp] at hf
  exact hf

theorem deferred_kept {e : Engine} {seen : List Snapshot} {styles : StyleProcessor}
    (h : History (fun (_ : σ) host => host.styles = styles) .jit seen e) {u : Snapshot}
    (hu : e.snapshot = some u) {fs : σ} {host : Host} {config : Configuration} {s : BuildState}
    {t : Snapshot} {r : Registry} (hstart : Started e fs host config s t r)
    (htell : PartsTell (seen ++ [t])) {f : SourceFile} (hf : f ∈ t.program.members)
    (hkind : f.kind = .script)
    (hfresh : u.ledger.isFresh f.id (Ledger.recordOf t.program f) = false) :
    f ∈ u.program.members ∧ u.output .jit f.id = t.output .jit f.id := by
  obtain ⟨u₀, hu₀, hsame, hfiles, -⟩ := h.current u hu
  have hprogram : u₀.program = u.program := by rw [hsame]
  obtain ⟨c, b, reg, hbuilt, hreg, hfull, -⟩ := h.known u₀ hu₀
  rw [hprogram] at hbuilt
  have hw : b.registry.Within s.registry := by
    have hwithin := hstart.within
    have hprior : (e.priorLedger fs host config.options).2 = e.registry := by
      unfold priorLedger
      rw [hu]
    rw [hprior] at hwithin
    exact (hbuilt.shadows.within.trans hreg).trans hwithin
  have hcfull : c.full = false := by rw [hfull, h.strategy]; rfl
  have hsfull : (contextOf e fs host config).full = false := by
    show e.strategy.isFull = false
    rw [h.strategy]
    rfl
  have hfile := hstart.built.mem_members.mp hf
  unfold Ledger.isFresh at hfresh
  rw [hfiles, Ledger.get?_records] at hfresh
  cases hg : u.program.file? f.id with
  | none => simp [hg] at hfresh
  | some g =>
    have hversion : g.version = f.version := by
      rw [hg] at hfresh
      exact Decidable.not_not.mp (of_decide_eq_false hfresh)
    have hgid := hbuilt.id_eq hg
    have hgmem : g ∈ u.program.members := hbuilt.mem_members.mpr (by rw [hgid]; exact hg)
    have htext : g.text = f.text := htell.texts u₀ (by simp [hu₀]) t (by simp) g (hprogram ▸ hgmem) f
      hf hversion
    have hgf : g = f := hbuilt.read_eq hstart.built hw (.refl _) (read_of_deferred hbuilt hcfull hg)
      (read_of_deferred hstart.built hsfull hfile) htext
    subst hgf
    exact ⟨hgmem, hbuilt.deferred_eq hstart.built hg hfile hkind⟩

theorem accounted_start {strategy : Strategy} {styles : StyleProcessor} {seen : List Snapshot}
    {given : List Emitted} {e : Engine}
    (h : History (fun (_ : σ) host => host.styles = styles) strategy seen e)
    (hold : ∀ s, e.snapshot = some s → Accounted strategy seen given s) {fs : σ} {host : Host}
    {config : Configuration} {s : BuildState} {t : Snapshot} {r : Registry}
    (hstart : Started e fs host config s t r)
    (hseed : e.snapshot = none → ∀ l, (e.priorLedger fs host config.options).1 = some l →
      l.options ≠ config.options.fingerprint)
    (htell : PartsTell (seen ++ [t])) : Accounted strategy (seen ++ [t]) given t := by
  have hledger := hstart.ledger
  have hdigest := hstart.optionsDigest
  rcases Ledger.update_cases t.program t.optionsDigest (e.priorLedger fs host config.options).1 with
    hfirst | ⟨l, hprior, hoptions, hnext⟩
  · rw [hfirst] at hledger
    cases strategy with
    | aot =>
      intro id d hd
      rw [hledger] at hd
      cases hd
    | jit =>
      intro f hf hkind
      have hfile := hstart.built.mem_members.mp hf
      rw [hledger]
      refine .inl (Ledger.pending_first ?_ (Program.contains_iff_file?.mpr ⟨f, hfile⟩))
      simp [Program.isScript, Program.hasKind, hfile, hkind]
  · rw [hnext] at hledger
    obtain ⟨u, hu, rfl⟩ := ledger_of_next hseed hprior (hoptions.trans hdigest)
    cases strategy with
    | aot =>
      intro id d hd
      -- An update drops fingerprints and adds none.
      have hkept : u.ledger.fingerprints.get? id = some d := by
        rw [hledger] at hd
        unfold Ledger.next at hd
        rw [OrdMap.get?_filter] at hd
        split at hd
        · exact hd
        · cases hd
      exact (hold u hu).mono id d hkept
    | jit =>
      intro f hf hkind
      have hfile := hstart.built.mem_members.mp hf
      have hscript : t.program.isScript f.id = true := by
        simp [Program.isScript, Program.hasKind, hfile, hkind]
      have hpending := Ledger.pending_next u.ledger hstart.built.shadows.files_sorted hfile hscript
      rw [hledger, hpending]
      cases hin : u.ledger.pending.contains f.id with
      | true => exact .inl (.inl rfl)
      | false =>
        cases hfresh : u.ledger.isFresh f.id (Ledger.recordOf t.program f) with
        | true => exact .inl (.inr rfl)
        | false =>
          obtain ⟨hmem, hsame⟩ := deferred_kept h hu hstart htell hf hkind hfresh
          rcases hold u hu f hmem hkind with hcontra | hgiven
          · rw [hin] at hcontra
            cases hcontra
          · rw [← hsame]
            exact .inr hgiven

theorem mem_map_program {taken : List Snapshot} {t : Snapshot} (h : t ∈ taken) :
    t.program ∈ taken.map (·.program) :=
  List.mem_map.mpr ⟨t, h, rfl⟩

theorem PartsTell.told {taken : List Snapshot} (h : PartsTell taken) :
    Stylesheets.Told (taken.map (·.program)) := by
  intro p hp q hq
  obtain ⟨s, hs, rfl⟩ := List.mem_map.mp hp
  obtain ⟨t, ht, rfl⟩ := List.mem_map.mp hq
  exact h.sheets s hs t ht

theorem pure_start {styles : StyleProcessor} {seen : List Snapshot} {e : Engine}
    (h : History (fun (_ : σ) host => host.styles = styles) .aot seen e)
    (hpure : ∀ t ∈ seen, t.styles.Pure styles t.program) {fs : σ} {host : Host}
    (hstyles : host.styles = styles) {config : Configuration} {s : BuildState} {t : Snapshot}
    {r : Registry} (hstart : Started e fs host config s t r)
    (hapart : ∀ u ∈ seen ++ [t], u.program.ShadowsApart)
    (htell : Stylesheets.Told ((seen ++ [t]).map (·.program))) :
    t.styles.Pure styles t.program := by
  have hrefresh := hstart.styles
  rw [h.strategy] at hrefresh
  cases hnew : e.oldStyles.refresh t.program host fs with
  | error err =>
    rw [hnew] at hrefresh
    cases hrefresh
  | ok result =>
    obtain ⟨new, n⟩ := result
    rw [hnew] at hrefresh
    cases hrefresh
    rw [← hstyles]
    refine hstart.built.pure_refresh (hapart t (by simp)) ?_ hnew
    intro key entry hentry
    cases hs : e.snapshot with
    | none => simp [oldStyles, hs, Stylesheets.empty] at hentry
    | some u =>
      obtain ⟨u₀, hu₀, hsame, -⟩ := h.current u hs
      obtain ⟨c, b, reg, hbuilt, hreg, -⟩ := h.known u₀ hu₀
      have hw : b.registry.Within s.registry := by
        have hwithin := hstart.within
        unfold priorLedger at hwithin
        rw [hs] at hwithin
        exact (hbuilt.shadows.within.trans hreg).trans hwithin
      have holdStyles : e.oldStyles = u₀.styles := by
        unfold oldStyles
        rw [hs, hsame]
      rw [holdStyles] at hentry
      obtain ⟨sheet, hsheet, hkey, heq⟩ := (hpure u₀ hu₀).1 hentry
      refine ⟨c, b, u₀.program, reg, hbuilt, hapart u₀ (by simp [hu₀]), hw, sheet, hsheet, hkey, ?_,
        fun a ha => htell _ (mem_map_program (by simp)) _ (mem_map_program (by simp [hu₀])) a ha sheet hsheet⟩
      rw [heq]
      show _ = ProcessedSheet.mk sheet.version (sheet.processed host.styles)
      rw [hstyles]

theorem pure_snapshots {styles : StyleProcessor} (calls : List (Call σ)) :
    (∀ fs configPath host change, Call.start fs configPath host change ∈ calls → host.styles = styles) →
    (∀ t ∈ snapshots (create .aot) calls, t.program.ShadowsApart) →
    Stylesheets.Told ((snapshots (create .aot) calls).map (·.program)) →
      ∀ t ∈ snapshots (create .aot) calls, t.styles.Pure styles t.program := by
  refine run_induction (e := create .aot) (motive := fun calls _ =>
    (∀ fs configPath host change, Call.start fs configPath host change ∈ calls → host.styles = styles) →
    (∀ t ∈ snapshots (create .aot) calls, t.program.ShadowsApart) →
    Stylesheets.Told ((snapshots (create .aot) calls).map (·.program)) →
      ∀ t ∈ snapshots (create .aot) calls, t.styles.Pure styles t.program) ?_ ?_ calls
  · intro _ _ _ t ht
    cases ht
  · intro calls call ih hstyles hapart htell t ht
    have hstyles' : ∀ fs configPath host change, Call.start fs configPath host change ∈ calls →
        host.styles = styles := fun fs configPath host change hmem =>
      hstyles fs configPath host change (List.mem_append_left _ hmem)
    have hhistory := history_run (P := fun (_ : σ) host => host.styles = styles) .aot calls hstyles'
    rw [snapshots_append] at ht hapart htell
    have hold := ih hstyles' (fun t ht => hapart t (List.mem_append_left _ ht)) fun p hp q hq =>
      htell p (List.map_subset _ (List.subset_append_left _ _) hp) q
        (List.map_subset _ (List.subset_append_left _ _) hq)
    rcases List.mem_append.mp ht with ht | ht
    · exact hold t ht
    · cases call with
      | emit fs => cases ht
      | start fs configPath host change =>
        rcases start_cases hhistory.distinct fs configPath host change with
          ⟨err, q, heq, -⟩ | ⟨config, b, u, q, report, heq, -, hstart⟩
        · simp [taken, heq] at ht
        · have htaken : taken (run (create .aot) calls, .start fs configPath host change) = [u] := by
            simp [taken, heq]
          rw [htaken] at ht hapart htell
          obtain rfl := List.mem_singleton.mp ht
          exact pure_start hhistory hold (hstyles fs configPath host change (by simp)) hstart hapart htell

theorem tracked_emit {strategy : Strategy} {styles : StyleProcessor} {seen : List Snapshot}
    {given es : List Emitted} {e : Engine}
    (h : History (fun (_ : σ) host => host.styles = styles) strategy seen e)
    (ht : Tracked strategy styles seen given e) {fs : σ} (hes : (e.emit fs).1 = .ok es) :
    Tracked strategy styles seen (given ++ es) (e.after (.emit fs)) := by
  refine ⟨ht.pure, fun t htaken => ?_⟩
  simp only [after] at htaken
  cases hs : e.snapshot with
  | none =>
    rw [emit_of_none hs] at hes
    cases hes
  | some s =>
    have heq : e.emit fs = (.ok es, (e.emit fs).2.1, (e.emit fs).2.2) := by rw [← hes]
    obtain ⟨l, hfiles, -, s', hpersist, hafter⟩ := emit_ok hs heq
    rw [hafter] at htaken
    cases htaken
    obtain ⟨u, hu, hsame, -⟩ := h.current s hs
    obtain ⟨c, b, r, hbuilt, -⟩ := h.known u hu
    have hprogram : u.program = s.program := by rw [hsame]
    rw [hprogram] at hbuilt
    rw [h.strategy] at hfiles
    have hnow := accounted_emit hbuilt hu hsame (ht.accounted s hs) hfiles
    obtain ⟨k, rfl, hpending, hfingerprints⟩ := Snapshot.persist_ok hpersist
    cases strategy with
    | aot =>
      intro id d hd
      exact hnow id d (by rw [← hfingerprints]; exact hd)
    | jit =>
      intro f hf hkind
      rw [hpending]
      exact hnow f hf hkind

theorem tracked_step {strategy : Strategy} {styles : StyleProcessor} {seen : List Snapshot}
    {given : List Emitted} {e : Engine}
    (h : History (fun (_ : σ) host => host.styles = styles) strategy seen e)
    (ht : Tracked strategy styles seen given e) (call : Call σ)
    (hstyles : ∀ fs configPath host change, call = .start fs configPath host change →
      host.styles = styles)
    (hseed : ∀ fs configPath host change report, call = .start fs configPath host change →
      e.snapshot = none → (e.start fs configPath host change).1 = .ok report →
        e.Unseeded fs configPath host change)
    (hemit : ∀ fs, call = .emit fs → ∃ es, (e.emit fs).1 = .ok es)
    (hapart : ∀ t ∈ seen ++ taken (e, call), t.program.ShadowsApart)
    (htell : PartsTell (seen ++ taken (e, call))) :
    Tracked strategy styles (seen ++ taken (e, call)) (given ++ returned (e, call))
      (e.after call) := by
  cases call with
  | emit fs =>
    obtain ⟨es, hes⟩ := hemit fs rfl
    have htaken : seen ++ taken (e, Call.emit fs) = seen := List.append_nil _
    have hreturned : returned (e, Call.emit fs) = es := by simp [returned, hes]
    rw [htaken, hreturned]
    exact tracked_emit h ht hes
  | start fs configPath host change =>
    have hreturned : given ++ returned (e, Call.start fs configPath host change) = given :=
      List.append_nil _
    rw [hreturned]
    rcases start_cases h.distinct fs configPath host change with
      ⟨err, r, heq, -, -⟩ | ⟨config, s, t, r, report, heq, hconfig, hstart⟩
    · have htaken : taken (e, Call.start fs configPath host change) = [] := by simp [taken, heq]
      rw [htaken, List.append_nil, after, heq]
      exact ⟨ht.pure, ht.accounted⟩
    · have htaken : taken (e, Call.start fs configPath host change) = [t] := by simp [taken, heq]
      rw [htaken] at hapart htell ⊢
      rw [after, heq]
      refine ⟨?_, ?_⟩
      · rintro rfl u hu
        rcases List.mem_append.mp hu with hu | hu
        · exact ht.pure rfl u hu
        · rw [List.mem_singleton.mp hu]
          exact pure_start h (ht.pure rfl) (hstyles fs configPath host change rfl) hstart hapart htell.told
      · intro u hu
        cases hu
        refine accounted_start h ht.accounted hstart ?_ htell
        intro hnone l hl
        exact hseed fs configPath host change report rfl hnone (by rw [heq]) config l hconfig hl

/-- What is asked of a run for its outputs to be tracked: one processor of styles, no ledger to begin
with, emissions that succeed, shadows apart, and digests that tell. -/
structure Orderly (strategy : Strategy) (styles : StyleProcessor) (calls : List (Call σ)) : Prop where
  processor : ∀ fs configPath host change, Call.start fs configPath host change ∈ calls →
    host.styles = styles
  unseeded : ∀ e fs configPath host change report,
    (e, Call.start fs configPath host change) ∈ moments (create strategy) calls →
      e.snapshot = none → (e.start fs configPath host change).1 = .ok report →
        e.Unseeded fs configPath host change
  emitted : ∀ e fs, (e, Call.emit fs) ∈ moments (create strategy) calls →
    ∃ es, (e.emit fs).1 = .ok es
  apart : ∀ t ∈ snapshots (create strategy) calls, t.program.ShadowsApart
  tell : PartsTell (snapshots (create strategy) calls)

theorem Orderly.of_append {strategy : Strategy} {styles : StyleProcessor} {calls : List (Call σ)}
    {call : Call σ} (h : Orderly strategy styles (calls ++ [call])) :
    Orderly strategy styles calls := by
  have hmoments : moments (create strategy) calls ⊆ moments (create strategy) (calls ++ [call]) := by
    rw [moments_append]
    exact List.subset_append_left _ _
  have hsnapshots : snapshots (create strategy) calls ⊆
      snapshots (create strategy) (calls ++ [call]) := by
    rw [snapshots_append]
    exact List.subset_append_left _ _
  refine ⟨?_, ?_, ?_, ?_, h.tell.mono hsnapshots⟩
  · exact fun fs configPath host change hmem =>
      h.processor fs configPath host change (List.mem_append_left _ hmem)
  · exact fun e fs configPath host change report hmem =>
      h.unseeded e fs configPath host change report (hmoments hmem)
  · exact fun e fs hmem => h.emitted e fs (hmoments hmem)
  · exact fun t ht => h.apart t (hsnapshots ht)

theorem tracked_run {strategy : Strategy} {styles : StyleProcessor} (calls : List (Call σ)) :
    Orderly strategy styles calls →
      Tracked strategy styles (snapshots (create strategy) calls)
        (delivered (create strategy) calls) (run (create strategy) calls) := by
  refine run_induction (e := create strategy) (motive := fun calls e =>
    Orderly strategy styles calls → Tracked strategy styles (snapshots (create strategy) calls)
      (delivered (create strategy) calls) e) ?_ ?_ calls
  · intro _
    refine ⟨fun _ t ht => ?_, fun s hs => ?_⟩
    · simp [snapshots, moments] at ht
    · cases hs
  · intro calls call ih h
    have hpast := h.of_append
    have hhistory := history_run (P := fun (_ : σ) host => host.styles = styles) strategy calls
      hpast.processor
    have hlast : (run (create strategy) calls, call) ∈
        moments (create strategy) (calls ++ [call]) := by simp [moments_append]
    have hapart := h.apart
    have htell := h.tell
    rw [snapshots_append] at hapart htell ⊢
    rw [delivered_append]
    refine tracked_step hhistory (ih hpast) call ?_ ?_ ?_ hapart htell
    · rintro fs configPath host change rfl
      exact h.processor fs configPath host change (by simp)
    · rintro fs configPath host change report rfl
      exact h.unseeded _ fs configPath host change report hlast
    · rintro fs rfl
      exact h.emitted _ fs hlast

/-- The outputs of a run are up to date after each emission: for every script of the current program,
the last output returned is the one that the program gives now. -/
theorem outputs_current (strategy : Strategy) (styles : StyleProcessor) (calls : List (Call σ))
    (fs : σ) (h : Orderly strategy styles (calls ++ [.emit fs])) :
    ∃ s, (run (create strategy) (calls ++ [.emit fs])).snapshot = some s ∧
      ∀ f ∈ s.program.members, f.kind = .script → ∃ r,
        lastFor f.id (delivered (create strategy) (calls ++ [.emit fs])) = some r ∧
          (strategy = .aot → Emit.inlined s.program s.styles f.id = .ok (some r)) ∧
          (strategy = .jit → Emit.deferred s.program f.id = .ok (some r)) := by
  have hhistory := history_run (P := fun (_ : σ) host => host.styles = styles) strategy calls
    h.of_append.processor
  have htracked := tracked_run _ h
  have hlast : (run (create strategy) calls, Call.emit fs) ∈
      moments (create strategy) (calls ++ [.emit fs]) := by simp [moments_append]
  obtain ⟨es, hes⟩ := h.emitted _ fs hlast
  have hsnapshots : snapshots (create strategy) (calls ++ [.emit fs]) =
      snapshots (create strategy) calls := by
    rw [snapshots_append]
    exact List.append_nil _
  have hapart := h.apart
  have htell := h.tell
  rw [hsnapshots] at htracked hapart htell
  rw [run_append] at htracked ⊢
  generalize run (create strategy) calls = e at *
  cases hs : e.snapshot with
  | none =>
    rw [emit_of_none hs] at hes
    cases hes
  | some s =>
    have heq : e.emit fs = (.ok es, (e.emit fs).2.1, (e.emit fs).2.2) := by rw [← hes]
    obtain ⟨l, hfiles, -, t, hpersist, hafter⟩ := emit_ok hs heq
    obtain ⟨k, rfl, hpending, hfingerprints⟩ := Snapshot.persist_ok hpersist
    have hnow : (e.after (.emit fs)).snapshot = some { s with ledger := k } := by
      rw [after, hafter]
    have haccounted := htracked.accounted _ hnow
    rw [hhistory.strategy] at hfiles
    -- Nothing is left pending, and in full builds every script has the fingerprint of its current
    -- output.
    have hsettled := Snapshot.settled_of_emitFiles hfiles
    refine ⟨_, hnow, fun f hf hkind => ?_⟩
    obtain ⟨u, hu, hsame, -⟩ := hhistory.current s hs
    have hprogram : u.program = s.program := by rw [hsame]
    obtain ⟨c, b, reg, hbuilt, hreg, -⟩ := hhistory.known u hu
    cases strategy with
    | jit =>
      rcases haccounted f hf hkind with hin | ⟨r, hr, hgiven⟩
      · have hempty : k.pending = OrdMap.empty := hpending.trans hsettled.1
        rw [hempty] at hin
        cases hin
      · exact ⟨r, hgiven, by simp, fun _ => hr⟩
    | aot =>
      -- The recorded fingerprint is that of an earlier snapshot, whose output is the same since
      -- all that it is made from is.
      have hmember : f ∈ u.program.members := by rw [hprogram]; exact hf
      obtain ⟨d, hd, hrecorded⟩ := hsettled.recorded hf hkind
        (by rw [← hprogram]; exact hbuilt.mem_members.mp hmember)
      have hud : u.fingerprint? f.id = some d := by rw [← hd, hsame]; rfl
      obtain ⟨v, hv, hvd, r, hr, hgiven⟩ := haccounted f.id d (by rw [hfingerprints]; exact hrecorded)
      obtain ⟨c', b', reg', hbuilt', hreg', -⟩ := hhistory.known v hv
      have hinlined := hbuilt'.inlined_eq hbuilt (hapart v hv) (hapart u hu)
        (hbuilt'.shadows.within.trans hreg') (hbuilt.shadows.within.trans hreg)
        (htell.texts v hv u hu) (htracked.pure rfl v hv) (htracked.pure rfl u hu)
        (Emit.script_of_inlined hr)
        (scriptOf?_isSome hbuilt hmember hkind) (htell.parts v hv u hu f.id (hvd.trans hud.symm))
      refine ⟨r, hgiven, fun _ => ?_, by simp⟩
      have hr' : Emit.inlined v.program v.styles f.id = .ok (some r) := hr
      rw [hinlined, hprogram] at hr'
      rw [← hr', hsame]

theorem mem_of_mem_moments (calls : List (Call σ)) : ∀ {e e' : Engine} {call : Call σ},
    (e', call) ∈ moments e calls → call ∈ calls := by
  induction calls with
  | nil => exact fun h => by cases h
  | cons first rest ih =>
    intro e e' call h
    rcases List.mem_cons.mp h with heq | h
    · cases heq
      exact List.mem_cons_self
    · exact List.mem_cons_of_mem _ (ih h)

/-- Whether a call is no emission, or one that succeeds. -/
def succeeds : Engine × Call σ → Bool
  | (e, .emit fs) => (e.emit fs).1.toOption.isSome
  | (_, .start ..) => true

theorem emitted_of_succeeds {calls : List (Call σ)} {e₀ : Engine}
    (h : ∀ m ∈ moments e₀ calls, succeeds m = true) (e : Engine) (fs : σ)
    (hmem : (e, Call.emit fs) ∈ moments e₀ calls) : ∃ es, (e.emit fs).1 = .ok es := by
  have hs : (e.emit fs).1.toOption.isSome = true := h _ hmem
  cases hr : (e.emit fs).1 with
  | ok es => exact ⟨es, rfl⟩
  | error err =>
    rw [hr] at hs
    cases hs

theorem partsTell_of_members {taken : List Snapshot} {texts : List String}
    (h : ∀ s ∈ taken, (∀ f ∈ s.program.members, f.text ∈ texts) ∧ s.program.sheets = [] ∧
      ∀ t ∈ taken, ∀ id ∈ s.program.files.keys, s.fingerprint? id = t.fingerprint? id →
        Emit.fingerprintParts? s.program id s.optionsDigest =
          Emit.fingerprintParts? t.program id t.optionsDigest)
    (htexts : ∀ a ∈ texts, ∀ b ∈ texts, Digest.ofText a = Digest.ofText b → a = b) :
    PartsTell taken where
  texts s hs t ht f hf g hg := htexts _ ((h s hs).1 f hf) _ ((h t ht).1 g hg)
  sheets s hs t ht a ha := by
    rw [(h s hs).2.1] at ha
    cases ha
  parts s hs t ht id heq := by
    by_cases hid : id ∈ s.program.files.keys
    · exact (h s hs).2.2 t ht id hid heq
    · have hnone : s.program.file? id = none :=
        OrdMap.get?_eq_none_of_not_contains (by simpa [OrdMap.mem_keys_iff] using hid)
      have hparts : Emit.fingerprintParts? s.program id s.optionsDigest = none := by
        simp [Emit.fingerprintParts?, hnone]
      have hother : t.fingerprint? id = none := by
        rw [← heq, Snapshot.fingerprint?, Emit.fingerprint?_eq, hparts]
        rfl
      rw [Snapshot.fingerprint?, Emit.fingerprint?_eq, Option.map_eq_none_iff] at hother
      rw [hparts, hother]

set_option maxRecDepth 100000

def scriptVolume (text : String) : Volume :=
  .ofTexts [(⟨"/k"⟩, "files=['a.ts']"), (⟨"/a.ts"⟩, text)]

def editedScript : List (Call Volume) :=
  [Call.startAt (scriptVolume ""), .emit (scriptVolume ""), Call.startAt (scriptVolume ";"),
    .emit (scriptVolume ";")]

theorem moments_editedScript :
    (∀ text ∈ ["", ";"], Plain (scriptVolume text) false [⟨"/a.ts"⟩]) ∧
    (∀ m ∈ moments (create .aot) editedScript, succeeds m = true) ∧
    (∀ s ∈ snapshots (create .aot) editedScript, s.program.origins = OrdMap.empty ∧
      (∀ f ∈ s.program.members, f.text ∈ ["", ";"]) ∧ s.program.sheets = [] ∧
      ∀ t ∈ snapshots (create .aot) editedScript, ∀ id ∈ s.program.files.keys,
        s.fingerprint? id = t.fingerprint? id →
          Emit.fingerprintParts? s.program id s.optionsDigest =
            Emit.fingerprintParts? t.program id t.optionsDigest) ∧
    (∃ s ∈ (run (create .aot) editedScript).snapshot, ∃ f ∈ s.program.members,
      f.text = ";" ∧ f.kind = .script) := by
  have hplain : ∀ text ∈ ["", ";"], Plain (scriptVolume text) false [⟨"/a.ts"⟩] := by decide +kernel
  have hempty := hplain "" (by simp)
  have hmark := hplain ";" (by simp)
  refine ⟨hplain, ?_⟩
  rw [editedScript, Call.startAt, Call.startAt,
    hempty.run_cons, run_cons, hmark.run_cons, run_cons, run_nil,
    hempty.moments_cons, moments_cons, hmark.moments_cons, moments_cons, moments_nil,
    hempty.snapshots_cons, snapshots_emit, hmark.snapshots_cons, snapshots_emit, snapshots_nil]
  decide +kernel

theorem starts_editedScript {fs : Volume} {configPath : Path} {host : Host}
    {change : Options → Options} (h : Call.start fs configPath host change ∈ editedScript) :
    ∃ text ∈ ["", ";"], fs = scriptVolume text ∧ configPath = ⟨"/k"⟩ ∧
      host = ⟨OrdMap.empty, .passthrough⟩ ∧ change = id := by
  simp only [editedScript, List.mem_cons, List.not_mem_nil, or_false, reduceCtorEq, false_or] at h
  rcases h with h | h
  · exact ⟨"", by simp, Call.eq_startAt h⟩
  · exact ⟨";", by simp, Call.eq_startAt h⟩

theorem outputs_current_editedScript :
    ∃ s, (run (create .aot) editedScript).snapshot = some s ∧ ∃ f ∈ s.program.members,
      f.text = ";" ∧ ∃ r, lastFor f.id (delivered (create .aot) editedScript) = some r ∧
        Emit.inlined s.program s.styles f.id = .ok (some r) := by
  obtain ⟨hplain, hemits, hall, s, hs, f, hf, htext, hkind⟩ := moments_editedScript
  have horderly : Orderly .aot .passthrough editedScript := by
    refine ⟨?_, ?_, emitted_of_succeeds hemits, ?_, ?_⟩
    · intro fs configPath host change hcall
      obtain ⟨text, -, -, -, rfl, -⟩ := starts_editedScript hcall
      rfl
    · intro e fs configPath host change report hmem hnone _ config l hconfig hprior
      obtain ⟨text, ht, rfl, rfl, rfl, rfl⟩ := starts_editedScript (mem_of_mem_moments _ hmem)
      have hpath : config.options.buildInfoPath? = none := by
        rw [(hplain text ht).configAt_eq] at hconfig
        cases hconfig
        decide
      simp only [priorLedger, hnone, hpath, Option.bind_none, reduceCtorEq] at hprior
    · intro t ht id hid
      rw [(hall t ht).1] at hid
      cases hid
    · exact partsTell_of_members (fun t ht => (hall t ht).2) (by decide)
  have hcalls : editedScript = [Call.startAt (scriptVolume ""), .emit (scriptVolume ""),
      Call.startAt (scriptVolume ";")] ++ [.emit (scriptVolume ";")] := rfl
  obtain ⟨t, ht, hcurrent⟩ := outputs_current .aot .passthrough _ _ (hcalls ▸ horderly)
  rw [← hcalls] at ht hcurrent
  obtain rfl : s = t := Option.some.inj (hs.symm.trans ht)
  obtain ⟨r, hr, hinlined, -⟩ := hcurrent f hf hkind
  exact ⟨s, hs, f, hf, htext, r, hr, hinlined rfl⟩

def writtenLedger : String :=
  "\x7b\"format\":1,\"optionsHash\":[75,4,242,193,184,131,119,107,79,13,41,30,92,134,110,144]," ++
  "\"files\":\x7b\"a.ts\":\x7b\"version\":[127,73,141,70,36,195,1,96,216,152,71,1,211,6,170,153]," ++
  "\"signature\":[127,73,141,70,36,195,1,96,216,152,71,1,211,6,170,153]," ++
  "\"dependencies\":[]\x7d\x7d,\"pendingEmit\":[]\x7d"

def writtenVolume : Volume :=
  .ofTexts [(⟨"/k"⟩, "files=['a.ts']\ncompiler.incremental=true"), (⟨"/a.ts"⟩, ""),
    (⟨"/k.buildinfo.json"⟩, writtenLedger)]

def seededLater : List (Call Volume) :=
  [Call.startAt (.ofTexts []), .startAt writtenVolume, .emit writtenVolume]

/-- What the written ledger tells. -/
def writtenInfo : BuildInfo :=
  ⟨1, plainDigest true,
    ⟨[("a.ts", ⟨⟨6918025063187695999, 11072670137173121240⟩,
      ⟨6918025063187695999, 11072670137173121240⟩, [], none⟩)]⟩, []⟩

theorem toList_append_eq {a b : String} {cs ds : List Char} (ha : a.toList = cs)
    (hb : b.toList = ds) : (a ++ b).toList = cs ++ ds := by
  rw [String.toList_append, ha, hb]

theorem load?_writtenVolume :
    BuildInfo.load? ⟨OrdMap.empty, .passthrough⟩ writtenVolume ⟨"/k.buildinfo.json"⟩ =
      some writtenInfo := by
  have hstored : writtenVolume.stored? ⟨"/k.buildinfo.json"⟩ = some writtenLedger.toUTF8 := rfl
  -- The text is taken apart piece by piece, since the list of its characters is slow to compute as a
  -- whole.
  have hchars : writtenLedger.toList = _ := toList_append_eq (toList_append_eq
    (toList_append_eq String.toList_ofList String.toList_ofList) String.toList_ofList)
    String.toList_ofList
  have hparse : BuildInfo.parse? writtenLedger = some writtenInfo := by
    rw [BuildInfo.parse?, Json.parse?_eq hchars]
    decide
  exact BuildInfo.load?_of_read rfl (Volume.read_of_stored rfl hstored) hparse rfl

/-- The start that finds the written ledger. -/
def startWritten : Except EngineError StartReport × Engine :=
  (create .jit).startFrom writtenVolume ⟨OrdMap.empty, .passthrough⟩ (plainConfig true [⟨"/a.ts"⟩])
    writtenInfo.options
    (some (writtenInfo.toLedger (create .jit).registry (plainOptions true).configDir).1,
      (writtenInfo.toLedger (create .jit).registry (plainOptions true).configDir).2)

theorem moments_seededLater :
    (∀ m ∈ moments (create .jit) seededLater, succeeds m = true) ∧
    (∀ s ∈ snapshots (create .jit) seededLater, s.program.origins = OrdMap.empty ∧
      (∀ f ∈ s.program.members, f.text ∈ [""]) ∧ s.program.sheets = [] ∧
      ∀ t ∈ snapshots (create .jit) seededLater, ∀ id ∈ s.program.files.keys,
        s.fingerprint? id = t.fingerprint? id →
          Emit.fingerprintParts? s.program id s.optionsDigest =
            Emit.fingerprintParts? t.program id t.optionsDigest) ∧
    ∃ s ∈ (run (create .jit) seededLater).snapshot, ∃ f ∈ s.program.members, f.kind = .script ∧
      lastFor f.id (delivered (create .jit) seededLater) = none := by
  have hfails : (configAt (.ofTexts [] : Volume) ⟨"/k"⟩ id).toOption = none := rfl
  obtain ⟨hsame, htaken⟩ := start_unread hfails (create .jit) ⟨OrdMap.empty, .passthrough⟩
  have hplain : Plain writtenVolume true [⟨"/a.ts"⟩] := by decide +kernel
  have hstart : (create .jit).startPlain writtenVolume ⟨OrdMap.empty, .passthrough⟩ true [⟨"/a.ts"⟩] =
      startWritten := by
    rw [startPlain, priorLedger_of_none rfl buildInfoPath?_plainOptions, load?_writtenVolume]
    rfl
  rw [seededLater, Call.startAt, Call.startAt, delivered,
    run_cons, moments_cons, snapshots_start, after_start, hsame, htaken,
    hplain.run_cons, hplain.moments_cons, hplain.snapshots_cons, hstart,
    run_cons, moments_cons, snapshots_emit, run_nil, moments_nil, snapshots_nil]
  decide +kernel

/-- A ledger that is found only after a first start has failed leaves a script without any output
from the run. -/
theorem outputs_missing_seededLater :
    (∀ fs configPath host change, Call.start fs configPath host change ∈ seededLater →
      host.styles = .passthrough) ∧
    (create .jit).Unseeded (.ofTexts [] : Volume) ⟨"/k"⟩ ⟨OrdMap.empty, .passthrough⟩ id ∧
    (∀ e fs, (e, Call.emit fs) ∈ moments (create .jit) seededLater →
      ∃ es, (e.emit fs).1 = .ok es) ∧
    (∀ t ∈ snapshots (create .jit) seededLater, t.program.ShadowsApart) ∧
    PartsTell (snapshots (create .jit) seededLater) ∧
    ∃ s, (run (create .jit) seededLater).snapshot = some s ∧ ∃ f ∈ s.program.members,
      f.kind = .script ∧ lastFor f.id (delivered (create .jit) seededLater) = none := by
  obtain ⟨hemits, hall, hmissing⟩ := moments_seededLater
  refine ⟨?_, ?_, emitted_of_succeeds hemits, ?_, ?_, hmissing⟩
  · intro fs configPath host change hcall
    simp only [seededLater, List.mem_cons, List.not_mem_nil, or_false, reduceCtorEq] at hcall
    rcases hcall with hcall | hcall
    · rw [(Call.eq_startAt hcall).2.2.1]
    · rw [(Call.eq_startAt hcall).2.2.1]
  · have hfails : (configAt (.ofTexts [] : Volume) ⟨"/k"⟩ id).toOption = none := rfl
    intro config l hconfig
    rw [hconfig] at hfails
    cases hfails
  · intro t ht id hid
    rw [(hall t ht).1] at hid
    cases hid
  · exact partsTell_of_members (fun t ht => (hall t ht).2) (by simp)

end Engine

end Recompile
