import Recompile.Proofs.Engine.Restart

/-!
What an engine hands over. When it has emitted all, its ledger is written, and an engine that begins with
what was written has the same records under identities of its own.
-/

namespace Recompile

variable {R S : FileId → FileId → Prop}

theorem FileRecord.Same.mono {a b : FileRecord} (h : Same R a b) (hRS : ∀ {i j}, R i j → S i j) : Same S a b where
  version := h.version
  signature := h.signature
  dependencies := ⟨fun i hi => (h.dependencies.left i hi).imp fun _ => And.imp_right hRS,
    fun j hj => (h.dependencies.right j hj).imp fun _ => And.imp_right hRS⟩
  sorted := h.sorted

namespace Ledger

variable {l l' : Ledger}

theorem Same.grow (h : Same R l l') (hS : Relator.BiUnique S) (hRS : ∀ {i j}, R i j → S i j) : Same S l l' := by
  have hleft : ∀ {i j record}, S i j → l.files.get? i = some record → R i j := by
    intro i j record hij hget
    obtain ⟨j', hij'⟩ := h.left hget
    rwa [hS.2 hij (hRS hij')]
  have hright : ∀ {i j record}, S i j → l'.files.get? j = some record → R i j := by
    intro i j record hij hget
    obtain ⟨i', hij'⟩ := h.right hget
    rwa [hS.1 hij (hRS hij')]
  refine ⟨fun {i j} hij => ?_, fun hget => (h.left hget).imp fun _ => hRS,
    fun hget => (h.right hget).imp fun _ => hRS, h.sorted, fun hij hin => ?_, fun hij hin => ?_⟩
  · have hfile : R i j → Option.Rel (FileRecord.Same S) (l.files.get? i) (l'.files.get? j) :=
      fun hold => rel_mono (h.file hold) fun hab => hab.mono hRS
    cases hi : l.files.get? i with
    | some record => exact hi ▸ hfile (hleft hij hi)
    | none =>
      cases hj : l'.files.get? j with
      | none => exact .none
      | some record => exact hi ▸ hj ▸ hfile (hright hij hj)
  · obtain ⟨record, hrecord⟩ := OrdMap.contains_iff.mp hin
    exact h.fingerprint (hleft hij hrecord) hin
  · obtain ⟨record, hrecord⟩ := OrdMap.contains_iff.mp hin
    exact h.pending (hleft hij hrecord) hin

end Ledger

theorem Registry.aligned_iff {r r' : Registry} {i j : FileId} {p q : Path} (h : r.lookup? p = some i)
    (h' : r'.lookup? q = some j) : Aligned r r' i j ↔ p.components = q.components := by
  refine ⟨?_, aligned_of_lookup? h h'⟩
  rintro ⟨a, b, ha, hb, hab⟩
  obtain ⟨a', ha', hp⟩ := path?_of_lookup? h
  obtain ⟨b', hb', hq⟩ := path?_of_lookup? h'
  obtain rfl := Option.some.inj (ha.symm.trans ha')
  obtain rfl := Option.some.inj (hb.symm.trans hb')
  rw [← hp, hab, hq]

theorem FileSystem.AgreeBut.refl {σ : Type} [FileSystem σ] (file : Path) (fs : σ) : AgreeBut file fs fs where
  read _ _ := rfl
  present _ _ := rfl
  kept _ h := h
  capacity := Nat.le_refl _

namespace BuildState

variable {σ : Type} [FileSystem σ] {c : BuildContext σ} {queue : List Path}

end BuildState

namespace Engine

open Snapshot BuildInfo Program Registry

variable {σ : Type} [FileSystem σ] {o : Options} {e e' : Engine} {s : Snapshot} {file : Path}
variable {found : Except IoFault String} {fs : σ} {host : Host} {l : Ledger}

/-- An engine with nothing left to emit, whose ledger is what is found in its file. -/
structure Rested (o : Options) (e : Engine) (s : Snapshot) (found : Except IoFault String) : Prop where
  snapshot : e.snapshot = some s
  distinct : e.registry.Distinct
  options : s.options = o
  digest : s.optionsDigest = o.fingerprint
  accepted : s.ledger.options = o.fingerprint
  files : s.ledger.files = Ledger.records s.program
  settled : s.Settled e.strategy
  clean : s.ledger.dirty = false
  placed : LedgerPlaced e.registry s.ledger
  told : Tells o.configDir e.registry s.ledger found

/-- An engine that begins with the ledger of a snapshot, under identities of its own. -/
structure Inherits (o : Options) (r : Registry) (s : Snapshot) (e : Engine) (fs : σ) (host : Host) (l : Ledger) :
    Prop where
  prior : (e.priorLedger fs host o).1 = some l
  options : l.options = o.fingerprint
  clean : l.dirty = false
  same : Ledger.Same (Aligned r (e.priorLedger fs host o).2) s.ledger l

namespace Inherits

variable {config : Configuration} {c : BuildContext σ} {b b' : BuildState} {t : Snapshot} {r r' : Registry}
variable {i : FileId} {f : SourceFile}

theorem ledger_eq (h : Inherits config.options r s e' fs host l) (hstart : Started e' fs host config b t r') :
    t.ledger = (Ledger.next t.program l).1 :=
  hstart.ledger.trans (congrArg Prod.fst (hstart.next h.prior h.options))

theorem same_started (h : Inherits config.options r s e' fs host l)
    (hstart : Started e' fs host config b t r') {q : Registry} (hq : q.Distinct) (hw : r.Within q) :
    Ledger.Same (Aligned q r') s.ledger l := by
  have hwithin := hstart.within.trans hstart.built.shadows.within
  exact h.same.grow (biUnique_aligned hq hstart.built.shadows.distinct) fun hij => hij.mono hw hwithin

theorem record_cases (h : Inherits config.options e.registry s e' fs host l)
    (hrested : Rested config.options e s found) (hbuilt : Built c b s.program e.registry)
    (hstart : Started e' fs host config b' t r') (hf : t.program.file? i = some f) :
    (l.files.get? i = none ∧ ∀ g ∈ s.program.members, g.path.components ≠ f.path.components) ∨
    ∃ g ∈ s.program.members, ∃ record, l.files.get? i = some record ∧ record.version = g.version ∧
      l.fingerprints.get? i = s.ledger.fingerprints.get? g.id ∧
      ∀ g' ∈ s.program.members, g'.path.components = f.path.components ↔ g' = g := by
  have hsame := h.same_started hstart hrested.distinct (.refl _)
  have haligned : ∀ {j g}, s.program.file? j = some g →
      (Aligned e.registry r' j i ↔ g.path.components = f.path.components) :=
    fun hg => aligned_iff (hbuilt.lookup? hg) (hstart.built.lookup? hf)
  have hrecord : ∀ {j g}, s.program.file? j = some g →
      s.ledger.files.get? j = some (Ledger.recordOf s.program g) := by
    intro j g hg
    rw [hrested.files, Ledger.get?_records, hg]
    rfl
  cases hold : l.files.get? i with
  | none =>
    refine .inl ⟨rfl, fun g hg hpath => ?_⟩
    have hg := hbuilt.mem_members.mp hg
    have hfile := hsame.file ((haligned hg).mpr hpath)
    rw [hrecord hg, hold] at hfile
    cases hfile
  | some record =>
    obtain ⟨j, hj⟩ := hsame.right hold
    obtain ⟨old, hknown, hversion⟩ := some_rel (hold ▸ hsame.file hj)
    have hgiven := hknown
    rw [hrested.files, Ledger.get?_records] at hgiven
    obtain ⟨g, hg, rfl⟩ := Option.map_eq_some_iff.mp hgiven
    obtain rfl : g.id = j := hbuilt.id_eq hg
    refine .inr ⟨g, hbuilt.mem_members.mpr hg, record, rfl, hversion.version.symm,
      (hsame.fingerprint hj (OrdMap.contains_iff.mpr ⟨_, hknown⟩)).symm, fun g' hg' => ?_⟩
    have hg' := hbuilt.mem_members.mp hg'
    constructor
    · intro hpath
      have hunique := biUnique_aligned hrested.distinct hstart.built.shadows.distinct
      rw [hunique.1 ((haligned hg').mpr hpath) hj, hg] at hg'
      exact (Option.some.inj hg').symm
    · rintro rfl
      exact (haligned hg).mp hj

/-- A start over the ledger of a snapshot makes those scripts due that the snapshot has no file for with the
same path and text, in full builds also with the same fingerprint. -/
theorem due_iff (h : Inherits config.options e.registry s e' fs host l)
    (hrested : Rested config.options e s found) (hbuilt : Built c b s.program e.registry)
    (hstart : Started e' fs host config b' t r') (hf : t.program.file? i = some f) :
    t.Due e'.strategy i ↔ f.kind = .script ∧ ¬ ∃ g ∈ s.program.members,
      g.path.components = f.path.components ∧ g.version = f.version ∧
        (e'.strategy = .aot → s.ledger.fingerprints.get? g.id = t.fingerprint? i) := by
  have hscript : t.program.isScript i = true ↔ f.kind = .script := by
    rw [isScript_iff, hf]
    simp
  unfold Due
  rw [hscript]
  refine and_congr_right fun hkind => ?_
  have hpending := Ledger.pending_next l hstart.built.shadows.files_sorted hf (hscript.mpr hkind)
  have hkept : (Ledger.next t.program l).1.fingerprints.get? i = l.fingerprints.get? i := by
    have hlisted : (Ledger.records t.program).contains i = true :=
      OrdMap.contains_iff.mpr ⟨_, by rw [Ledger.get?_records, hf]; rfl⟩
    simp only [Ledger.next, OrdMap.get?_filter]
    rw [if_pos hlisted]
  rw [h.ledger_eq hstart, hpending, hkept, Ledger.isFresh]
  rcases h.record_cases hrested hbuilt hstart hf with ⟨hnone, hother⟩ | ⟨g, hg, record, hold, hversion, hfp, honly⟩
  · rw [hnone]
    refine iff_of_true (.inl (.inr rfl)) ?_
    rintro ⟨g, hg, hpath, -⟩
    exact hother g hg hpath
  · have hdone : l.pending.contains i = false :=
      (h.same_started hstart hrested.distinct (.refl _)).pending_none hrested.settled.1
        (OrdMap.contains_iff.mpr ⟨record, hold⟩)
    have hexists : (∃ g' ∈ s.program.members, g'.path.components = f.path.components ∧ g'.version = f.version ∧
        (e'.strategy = .aot → s.ledger.fingerprints.get? g'.id = t.fingerprint? i)) ↔
          record.version = f.version ∧ (e'.strategy = .aot → l.fingerprints.get? i = t.fingerprint? i) := by
      rw [hversion, hfp]
      constructor
      · rintro ⟨g', hg', hpath, hrest⟩
        rwa [(honly g' hg').mp hpath] at hrest
      · exact fun hrest => ⟨g, hg, (honly g hg).mpr rfl, hrest⟩
    have hrecord : (Ledger.recordOf t.program f).version = f.version := rfl
    rw [hold, hdone, hexists, hrecord]
    simp only [Bool.false_eq_true, false_or, decide_eq_true_eq, not_and, Classical.not_imp, ne_eq]
    exact imp_iff_not_or.symm

end Inherits

section Run

variable {strategy : Strategy} {styles : StyleProcessor} {config : Configuration} {calls : List (Call σ)}
variable {configPath : Path} {fs₁ : σ}

/-- A run that ends with a start and an emission. -/
def completing (calls : List (Call σ)) (fs : σ) (configPath : Path) (host : Host) (fs₁ : σ) : List (Call σ) :=
  calls ++ [.start fs configPath host id] ++ [.emit fs₁]

/-- A steady run whose last start, of a project file with an absolute path that keeps the ledger, and last
emission succeed. -/
structure Completed (strategy : Strategy) (styles : StyleProcessor) (file : Path) (config : Configuration)
    (calls : List (Call σ)) (fs : σ) (configPath : Path) (host : Host) (fs₁ : σ) : Prop where
  steady : Steady strategy styles file (completing calls fs configPath host fs₁)
  absolute : configPath.isAbsolute = true ∧ configPath.normalize.components ≠ [.root]
  found : configAt fs configPath id = .ok config
  kept : config.options.buildInfoPath? = some file
  starts : ∃ report, ((run (create strategy) calls).start fs configPath host id).1 = .ok report
  emits : ∃ es, ((run (create strategy) (calls ++ [.start fs configPath host id])).emit fs₁).1 = .ok es

namespace Completed

theorem started (h : Completed strategy styles file config calls fs configPath host fs₁) :
    ∃ t, (run (create strategy) (calls ++ [.start fs configPath host id])).snapshot = some t ∧
      t ∈ snapshots (create strategy) (completing calls fs configPath host fs₁) ∧
      Started (run (create strategy) calls) fs host config (outcomeOf (run (create strategy) calls) fs host config)
        t (run (create strategy) (calls ++ [.start fs configPath host id])).registry := by
  obtain ⟨report, hreport⟩ := h.starts
  have hafter : run (create strategy) (calls ++ [.start fs configPath host id]) =
      ((run (create strategy) calls).start fs configPath host id).2 := run_append _ _ _
  rcases start_outcome (distinct_run strategy calls) fs configPath host id with
    ⟨err, r, heq, -⟩ | ⟨config', t, r, report', heq, hconfig, hstart⟩
  · rw [heq] at hreport
    cases hreport
  · obtain rfl : config = config' := Except.ok.inj (h.found.symm.trans hconfig)
    refine ⟨t, by rw [hafter, heq], ?_, by rwa [hafter, heq]⟩
    unfold completing
    rw [snapshots_append, snapshots_append]
    simp [taken, heq]

end Completed

end Run

end Engine

end Recompile
