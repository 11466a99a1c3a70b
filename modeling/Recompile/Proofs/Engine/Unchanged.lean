import Recompile.Proofs.Emit.Stylesheets
import Recompile.Proofs.Engine.Findings
import Recompile.Proofs.Engine.Known
import Recompile.Proofs.Engine.Progress
import Recompile.Proofs.Program.Repeated

/-!
Starts of a workspace that has not changed. Each part of a snapshot is what it gives when it is
brought up to date for its own program: the ledger has nothing to tell, all findings are known, and
all stylesheets are kept. So a start right after another one affects nothing and changes nothing.
-/

namespace Recompile

theorem OrdMap.filter_eq_self {κ α : Type} {m : OrdMap κ α} {keep : κ → Bool}
    (h : ∀ k ∈ m.keys, keep k = true) : m.filter (fun k _ => keep k) = m := by
  unfold filter
  rw [List.filter_eq_self.mpr fun e he => h e.1 (List.mem_map.mpr ⟨e, he, rfl⟩)]

namespace Stylesheets

variable {σ : Type} [FileSystem σ] {h h' : Host} {fs fs' : σ} {old : Stylesheets}

theorem kept?_of_get? {sheet : Sheet} {e : ProcessedSheet} (hget : old.entries.get? sheet.key = some e)
    (hversion : e.version = sheet.version) : old.kept? sheet = some e := by
  unfold kept?
  rw [hget]
  exact if_pos hversion

theorem version_of_kept? {sheet : Sheet} {e : ProcessedSheet} (hkept : old.kept? sheet = some e) :
    e.version = sheet.version := by
  unfold kept? at hkept
  split at hkept
  · split at hkept
    · rename_i hversion
      cases hkept
      exact hversion
    · cases hkept
  · cases hkept

theorem takeAll_again (sheets : List Sheet) : ∀ {new entries : OrdMap StyleKey ProcessedSheet}
    {count n : Nat}, takeAll h fs old new count sheets = .ok (entries, n) →
      ∀ k, takeAll h' fs' ⟨entries⟩ new k sheets = .ok (entries, k) := by
  induction sheets with
  | nil =>
    intro new entries count n heq k
    cases heq
    rfl
  | cons sheet rest ih =>
    intro new entries count n heq k
    have hkept : ∀ {e count'}, takeAll h fs old (new.insert sheet.key e) count' rest = .ok (entries, n) →
        e.version = sheet.version → kept? ⟨entries⟩ sheet = some e := fun hrest hversion =>
      kept?_of_get? ((takeAll_ok rest hrest).keep (OrdMap.get?_insert_self _ _ _)) hversion
    unfold takeAll at heq ⊢
    split at heq
    · rename_i hknown
      rw [if_pos hknown]
      exact ih heq k
    · rename_i hnew
      rw [if_neg hnew]
      split at heq
      · rename_i e hold
        rw [hkept heq (version_of_kept? hold)]
        exact ih heq k
      · split at heq
        · cases heq
        · rw [hkept heq rfl]
          exact ih heq k

theorem refresh_again {new : Stylesheets} {p : Program} {n : Nat} (hrefresh : old.refresh p h fs = .ok (new, n))
    (h' : Host) (fs' : σ) : new.refresh p h' fs' = .ok (new, 0) := by
  unfold refresh at hrefresh ⊢
  split at hrefresh
  · cases hrefresh
  · rename_i entries count htake
    cases hrefresh
    rw [takeAll_again p.sheets htake 0]

end Stylesheets

namespace Ledger

/-- A ledger that lists just the files of a program, and nothing about others. -/
structure Current (p : Program) (l : Ledger) : Prop where
  files : l.files = records p
  pending : ∀ id ∈ l.pending.keys, (records p).contains id = true
  fingerprints : ∀ id ∈ l.fingerprints.keys, (records p).contains id = true

theorem current_update (p : Program) (options : Digest) (prior : Option Ledger) :
    Current p (update p options prior).1 where
  files := files_update p options prior
  pending id hid := by simpa using contains_of_mem_pending_update hid
  fingerprints id hid := by
    rcases update_cases p options prior with heq | ⟨l, -, -, heq⟩
    · rw [heq] at hid
      cases hid
    · rw [heq] at hid
      obtain ⟨e, he, rfl⟩ := List.mem_map.mp hid
      exact (List.mem_filter.mp he).2

theorem bereft_self (l : Ledger) : bereft l l.files = [] := by
  have hgone : (l.files.keys.filter fun id => !l.files.contains id) = [] := by
    rw [List.filter_eq_nil_iff]
    intro id hid
    simp [OrdMap.mem_keys_iff.mp hid]
  unfold bereft
  rw [hgone]
  simp

theorem next_listed {p : Program} {l : Ledger} (hfiles : p.files.Sorted) (h : l.files = records p) :
    next p l = ({ l with
      pending := l.pending.filter fun id _ => (records p).contains id
      fingerprints := l.fingerprints.filter fun id _ => (records p).contains id }, OrdMap.empty) := by
  have hnone : ∀ {test : FileId → FileRecord → Bool},
      (∀ {id record}, l.files.get? id = some record → test id record = false) →
      ((records p).filter test).keys = [] := by
    intro test htest
    refine List.eq_nil_iff_forall_not_mem.mpr fun id hid => ?_
    obtain ⟨record, hrecord, hyes⟩ := (sorted_records hfiles).mem_keys_filter.mp hid
    rw [htest (h ▸ hrecord)] at hyes
    cases hyes
  have hfresh := @hnone l.isFresh fun hget => by simp [isFresh, hget]
  have hlinked := @hnone l.isRelinked fun hget => by simp [isRelinked, hget]
  have hsigned := @hnone l.isResigned fun hget => by simp [isResigned, hget]
  have hbereft : bereft l (records p) = [] := h ▸ bereft_self l
  have hreached : reached p [] = [] := by simp [reached, Closure.closure_nil]
  have hsame : decide (records p ≠ l.files) = false := by simp [h]
  unfold next
  dsimp only
  rw [hfresh, hlinked, hsigned, hbereft, hreached, hsame, h]
  show (Ledger.mk l.options (records p) _ _ (l.dirty || false || false), _) = _
  rw [Bool.or_false, Bool.or_false]
  rfl

theorem next_current {p : Program} {l : Ledger} (hfiles : p.files.Sorted) (h : Current p l) :
    next p l = (l, OrdMap.empty) := by
  rw [next_listed hfiles h.files, OrdMap.filter_eq_self h.pending, OrdMap.filter_eq_self h.fingerprints]

theorem update_again (p : Program) (hfiles : p.files.Sorted) (options : Digest) (prior : Option Ledger) :
    update p options (some (update p options prior).1) = ((update p options prior).1, OrdMap.empty) := by
  rw [update, if_pos (options_update p options prior), next_current hfiles (current_update p options prior)]

end Ledger

namespace Findings

variable {p : Program} {full strict : Bool} {affected : OrdSet FileId}

structure Current (p : Program) (c : Findings) : Prop where
  kept : ∀ id ∈ c.entries.keys, p.contains id = true
  known : ∀ f ∈ p.checked, (c.get? f.id).isSome = true

theorem current_update {σ : Type} [FileSystem σ] {c : BuildContext σ} {s : BuildState} {r : Registry}
    (h : Program.Built c s p r) (old : Findings) : Current p (old.update p full strict affected) where
  kept id hid := by
    by_cases hmem : id ∈ p.checked.map (·.id)
    · obtain ⟨f, hf, rfl⟩ := List.mem_map.mp hmem
      exact Program.contains_iff_file?.mpr ⟨f, h.mem_members.mp (Program.mem_checked.mp hf).1⟩
    · have hget : (old.update p full strict affected).get? id = (old.retain p.contains).get? id :=
        get?_foldl_refresh_of_not_mem p.checked hmem
      obtain ⟨found, hfound⟩ := OrdMap.contains_iff.mp (OrdMap.mem_keys_iff.mp hid)
      rw [show (old.update p full strict affected).get? id = some found from hfound, get?_retain] at hget
      split at hget
      · assumption
      · cases hget
  known f hf := by
    rw [get?_update h old full strict affected hf]
    split
    · rename_i hkept
      exact (Bool.and_eq_true_iff.mp hkept).2
    · rfl

theorem foldl_refresh_known {c : Findings} (fs : List SourceFile)
    (h : ∀ f ∈ fs, (c.get? f.id).isSome = true) :
    fs.foldl (refresh p full strict OrdMap.empty) c = c := by
  induction fs with
  | nil => rfl
  | cons f rest ih =>
    have hfirst : refresh p full strict OrdMap.empty c f = c := if_pos (h f List.mem_cons_self)
    rw [List.foldl_cons, hfirst]
    exact ih fun g hg => h g (List.mem_cons_of_mem f hg)

theorem update_current {c : Findings} (h : Current p c) : c.update p full strict OrdMap.empty = c := by
  have hretain : c.retain p.contains = c := by
    unfold retain
    rw [OrdMap.filter_eq_self h.kept]
  show p.checked.foldl (refresh p full strict OrdMap.empty) (c.retain p.contains) = c
  rw [hretain, foldl_refresh_known p.checked h.known]

end Findings

namespace Engine

variable {σ : Type} [FileSystem σ]

theorem startWith_of_snapshotOf {e : Engine} {fs : σ} {host : Host} {config : Configuration} {p : Program}
    {r : Registry} {t : Snapshot} {affected : OrdSet FileId}
    (hbuild : Program.build config.options host fs e.strategy.isFull
      (e.priorLedger fs host config.options).2 config.roots = (.ok p, r))
    (hsnap : snapshotOf { e with registry := r } fs host config (e.priorLedger fs host config.options).1 p =
      .ok (t, affected)) :
    e.startWith fs host config =
      (.ok ⟨pathsOf p affected, t.options, p.referenced⟩, ⟨e.strategy, r, some t⟩) := by
  unfold startWith
  dsimp only
  rw [hbuild]
  dsimp only
  rw [hsnap]

theorem startWith_ok {e e' : Engine} {fs : σ} {host : Host} {config : Configuration} {report : StartReport}
    (h : e.startWith fs host config = (.ok report, e')) :
    ∃ p r t affected,
      Program.build config.options host fs e.strategy.isFull
        (e.priorLedger fs host config.options).2 config.roots = (.ok p, r) ∧
      snapshotOf { e with registry := r } fs host config (e.priorLedger fs host config.options).1 p =
        .ok (t, affected) ∧
      report = ⟨pathsOf p affected, t.options, p.referenced⟩ ∧ e' = ⟨e.strategy, r, some t⟩ := by
  unfold startWith at h
  dsimp only at h
  split at h
  · cases h
  · rename_i p r hbuild
    split at h
    · cases h
    · rename_i t affected hsnap
      cases h
      exact ⟨p, r, t, affected, hbuild, hsnap, rfl, rfl⟩

section Again

variable {e : Engine} {fs : σ} {host : Host} {config : Configuration} {prior : Option Ledger}
variable {p : Program} {t : Snapshot} {affected : OrdSet FileId}

theorem styles_again (h : e.snapshotOf fs host config prior p = .ok (t, affected))
    (hfull : e.strategy.isFull = true) (host' : Host) (fs' : σ) :
    t.styles.refresh p host' fs' = .ok (t.styles, 0) := by
  obtain ⟨n, hrefresh, -⟩ := snapshotOf_fields h
  rw [if_pos hfull] at hrefresh
  exact Stylesheets.refresh_again hrefresh host' fs'

theorem snapshotOf_again {c : BuildContext σ} {s : BuildState} {r : Registry}
    (hbuilt : Program.Built c s p r) (h : e.snapshotOf fs host config prior p = .ok (t, affected))
    (host' : Host) :
    snapshotOf ⟨e.strategy, r, some t⟩ fs host' config (some t.ledger) p = .ok (t, OrdMap.empty) := by
  have hstyles : (if e.strategy.isFull then t.styles.refresh p host' fs else .ok (t.styles, 0)) =
      .ok (t.styles, 0) := by
    split
    · exact styles_again h ‹_› host' fs
    · rfl
  obtain ⟨n, -, -, ht⟩ := snapshotOf_fields h
  have hledger : Ledger.update p config.options.fingerprint (some t.ledger) = (t.ledger, OrdMap.empty) := by
    rw [ht]
    exact Ledger.update_again p hbuilt.shadows.files_sorted _ prior
  have hfindings : t.findings.update p e.strategy.isFull config.options.strictTemplates OrdMap.empty =
      t.findings := by
    rw [ht]
    exact Findings.update_current (Findings.current_update hbuilt _)
  rw [snapshotOf_eq]
  dsimp only [oldStyles, oldFindings]
  rw [hstyles, hledger]
  show Except.ok (Snapshot.mk config.options config.options.fingerprint config.roots config.warnings p
    t.ledger (t.findings.update p e.strategy.isFull config.options.strictTemplates OrdMap.empty) t.styles,
    OrdMap.empty) = _
  rw [hfindings, ht]

theorem startWith_again {e' : Engine} {report : StartReport} (hd : e.registry.Distinct)
    (h : e.startWith fs host config = (.ok report, e')) :
    (∀ styles, e'.startWith fs { host with styles := styles } config =
      (.ok ⟨OrdMap.empty, report.options, report.referenced⟩, e')) ∧
    ∃ t, e'.snapshot = some t ∧ (e.strategy.isFull = true →
      ∀ styles, t.styles.refresh t.program { host with styles := styles } fs = .ok (t.styles, 0)) := by
  obtain ⟨p, r, t, affected, hbuild, hsnap, rfl, rfl⟩ := startWith_ok h
  obtain ⟨b, -, -, hcases⟩ := Program.build_cases config.options host fs e.strategy.isFull config.roots
    (registry_priorLedger hd fs host config.options).2
  rw [hbuild] at hcases
  obtain ⟨err, herr⟩ | ⟨q, known, heq, hbuilt⟩ := hcases
  · cases herr
  cases heq
  constructor
  · intro styles
    have hagain := (Program.build_withStyles config.options host fs e.strategy.isFull r config.roots
      styles).trans (Program.build_again hbuild)
    exact startWith_of_snapshotOf (e := ⟨e.strategy, r, some t⟩) hagain
      (snapshotOf_again hbuilt hsnap { host with styles := styles })
  · refine ⟨t, rfl, fun hfull styles => ?_⟩
    rw [(snapshotOf_ok hsnap).1]
    exact styles_again hsnap hfull _ fs

end Again

/-- A start right after another one that did not fail, of the same files, affects nothing and leaves
the engine as it is, whatever a processor would make of the stylesheets: none of them is processed. -/
theorem start_again (strategy : Strategy) (calls : List (Call σ)) (fs : σ) (configPath : Path)
    (host : Host) (change : Options → Options) {report : StartReport} {e : Engine}
    (h : (run (create strategy) calls).start fs configPath host change = (.ok report, e)) :
    (∀ styles, e.start fs configPath { host with styles := styles } change =
      (.ok ⟨OrdMap.empty, report.options, report.referenced⟩, e)) ∧
    ∃ t, e.snapshot = some t ∧ (strategy.isFull = true →
      ∀ styles, t.styles.refresh t.program { host with styles := styles } fs = .ok (t.styles, 0)) := by
  have hstrategy : (run (create strategy) calls).strategy = strategy :=
    (history_run (P := fun _ _ => True) strategy calls fun _ _ _ _ _ => trivial).strategy
  rw [start_eq] at h
  cases hconfig : configAt fs configPath change with
  | error err =>
    rw [hconfig] at h
    cases h
  | ok config =>
    rw [hconfig] at h
    obtain ⟨hagain, t, ht, hstyles⟩ := startWith_again (distinct_run strategy calls) h
    rw [hstrategy] at hstyles
    refine ⟨fun styles => ?_, t, ht, hstyles⟩
    rw [start_eq, hconfig]
    exact hagain styles

set_option maxRecDepth 100000

def besideBlank (text : String) : Volume :=
  .ofTexts [(⟨"/k"⟩, "files=['a.ts','b.ts']"), (⟨"/a.ts"⟩, text), (⟨"/b.ts"⟩, "")]

def styledScript : Volume := besideBlank "@Component(\x7bstyles:['']\x7d)class A\x7b\x7d"

theorem start_again_styledScript :
    ∃ report e t, (run (create .aot) [.startAt (besideBlank "")]).start styledScript ⟨"/k"⟩
        ⟨OrdMap.empty, .marked⟩ id = (.ok report, e) ∧
      report.affected.keys = [⟨"/a.ts"⟩] ∧ e.snapshot = some t ∧ t.styles.size = 1 ∧
      (∀ styles, e.start styledScript ⟨"/k"⟩ ⟨OrdMap.empty, styles⟩ id =
        (.ok ⟨OrdMap.empty, report.options, report.referenced⟩, e)) ∧
      ∀ styles, t.styles.refresh t.program ⟨OrdMap.empty, styles⟩ styledScript = .ok (t.styles, 0) := by
  have hresult : ((run (create .aot) [.startAt (besideBlank "")]).start styledScript ⟨"/k"⟩
        ⟨OrdMap.empty, .marked⟩ id).1.toOption.map (·.affected.keys) = some [⟨"/a.ts"⟩] ∧
      ((run (create .aot) [.startAt (besideBlank "")]).start styledScript ⟨"/k"⟩
        ⟨OrdMap.empty, .marked⟩ id).2.snapshot.map (·.styles.size) = some 1 := by
    have hblank : Plain (besideBlank "") false [⟨"/a.ts"⟩, ⟨"/b.ts"⟩] := by decide +kernel
    have hstyled : Plain styledScript false [⟨"/a.ts"⟩, ⟨"/b.ts"⟩] := by decide +kernel
    rw [Call.startAt, hblank.run_cons, run_nil, hstyled.start_eq]
    decide +kernel
  generalize hstart : (run (create .aot) [.startAt (besideBlank "")]).start styledScript ⟨"/k"⟩
    ⟨OrdMap.empty, .marked⟩ id = answer at hresult
  obtain ⟨_ | report, e⟩ := answer
  · cases hresult.1
  · obtain ⟨hagain, t, ht, hstyles⟩ := start_again .aot _ styledScript ⟨"/k"⟩ _ id hstart
    simp only [Except.toOption, Option.map_some, Option.some.injEq, ht] at hresult
    exact ⟨report, e, t, rfl, hresult.1, ht, hresult.2, hagain, hstyles rfl⟩

end Engine

end Recompile
