import Recompile.Proofs.Engine.Run

/-!
What an emission returns, and what it notes in the ledger.
-/

namespace Recompile

namespace Ledger

variable {output : FileId → Except CutError (Option Emitted)} {fingerprint? : FileId → Option Digest}

def outputs (output : FileId → Except CutError (Option Emitted)) (ids : List FileId) :
    List Emitted :=
  ids.flatMap fun id => match output id with
    | .ok emitted => emitted.toList
    | .error _ => []

theorem mem_outputs {ids : List FileId} {e : Emitted} :
    e ∈ outputs output ids ↔ ∃ id ∈ ids, output id = .ok (some e) := by
  unfold outputs
  rw [List.mem_flatMap]
  constructor
  · rintro ⟨id, hid, he⟩
    refine ⟨id, hid, ?_⟩
    cases ho : output id with
    | error err => simp [ho] at he
    | ok emitted =>
      simp only [ho, Option.mem_toList] at he
      rw [he]
  · rintro ⟨id, hid, he⟩
    exact ⟨id, hid, by simp [he]⟩

def completeAll (l : Ledger) (ids : List FileId) : Ledger :=
  ids.foldl (fun l id => l.complete (.file id)) l

theorem emitFiles_ok (ids : List FileId) : ∀ {l l' : Ledger} {es : List Emitted},
    emitFiles output l ids = (.ok es, l') →
      es = outputs output ids ∧ l' = l.completeAll ids ∧ ∀ id ∈ ids, ∃ made, output id = .ok made := by
  induction ids with
  | nil =>
    intro l l' es h
    cases h
    exact ⟨rfl, rfl, by simp⟩
  | cons id rest ih =>
    intro l l' es h
    unfold emitFiles at h
    cases ho : output id with
    | error err => simp [ho] at h
    | ok emitted =>
      simp only [ho] at h
      cases hr : emitFiles output (l.complete (.file id)) rest with
      | mk more k =>
        rw [hr] at h
        cases more with
        | error err => simp [Except.map] at h
        | ok more =>
          obtain ⟨hmore, hk, hmade⟩ := ih hr
          simp only [Except.map, Prod.mk.injEq, Except.ok.injEq] at h
          rw [← h.1, ← h.2, hmore, hk]
          refine ⟨by simp [outputs, ho], rfl, fun i hi => ?_⟩
          rcases List.mem_cons.mp hi with rfl | hi
          · exact ⟨emitted, ho⟩
          · exact hmade i hi

theorem pending_complete (l : Ledger) (id : FileId) :
    (l.complete (.file id)).pending.entries = l.pending.entries.filter (fun e => e.1 ≠ id) := by
  have herase : (l.pending.erase id).entries = l.pending.entries.filter (fun e => e.1 ≠ id) := by
    unfold OrdMap.erase
    refine List.filter_congr fun e _ => ?_
    by_cases h : e.1 = id
    · simp [h]
    · simp [h, Ne.symm h]
  unfold complete
  dsimp only
  split
  · exact herase
  · rename_i hnot
    symm
    rw [List.filter_eq_self]
    intro e he
    rw [decide_eq_true_eq]
    rintro rfl
    exact hnot (OrdMap.mem_keys_iff.mp (List.mem_map.mpr ⟨e, he, rfl⟩))

theorem pending_completeAll (ids : List FileId) : ∀ l : Ledger,
    (l.completeAll ids).pending.entries = l.pending.entries.filter (fun e => e.1 ∉ ids) := by
  induction ids with
  | nil =>
    intro l
    exact (List.filter_eq_self.mpr (by simp)).symm
  | cons id rest ih =>
    intro l
    show ((l.complete (.file id)).completeAll rest).pending.entries = _
    rw [ih, pending_complete, List.filter_filter]
    refine List.filter_congr fun e _ => ?_
    by_cases h : e.1 = id <;> simp [h]

theorem pending_completeAll_pending (l : Ledger) :
    (l.completeAll (OrdSet.toList l.pending)).pending = OrdMap.empty := by
  have h := pending_completeAll (OrdSet.toList l.pending) l
  have hnone : l.pending.entries.filter (fun e => e.1 ∉ OrdSet.toList l.pending) = [] := by
    rw [List.filter_eq_nil_iff]
    intro e he hnot
    simp only [decide_eq_true_eq] at hnot
    exact hnot (List.mem_map.mpr ⟨e, he, rfl⟩)
  rw [hnone] at h
  cases hp : (l.completeAll (OrdSet.toList l.pending)).pending with
  | mk entries =>
    rw [hp] at h
    simp only at h
    rw [h]
    rfl

theorem fingerprints_complete (l : Ledger) (id : FileId) :
    (l.complete (.file id)).fingerprints = l.fingerprints := by
  unfold complete
  dsimp only
  split <;> rfl

theorem fingerprints_completeAll (ids : List FileId) : ∀ l : Ledger,
    (l.completeAll ids).fingerprints = l.fingerprints := by
  induction ids with
  | nil => exact fun l => rfl
  | cons id rest ih => exact fun l => (ih _).trans (fingerprints_complete l id)

theorem get?_record (l : Ledger) (id j : FileId) (d : Digest) :
    (l.record id d).fingerprints.get? j = if j = id then some d else l.fingerprints.get? j := by
  unfold record
  rw [OrdMap.get?_insert]
  simp only [Std.LawfulEqOrd.compare_eq_iff_eq]

def noted (fingerprint? : FileId → Option Digest) (l : Ledger) (ids : List FileId) (id : FileId) :
    Option Digest :=
  if id ∈ ids then (fingerprint? id).or (l.fingerprints.get? id) else l.fingerprints.get? id

theorem get?_recordAll (ids : List FileId) : ∀ (l : Ledger) (id : FileId),
    (recordAll fingerprint? l ids).fingerprints.get? id = noted fingerprint? l ids id := by
  induction ids with
  | nil => exact fun l id => by simp [recordAll, noted]
  | cons i rest ih =>
    intro l id
    unfold noted
    cases hi : fingerprint? i with
    | none =>
      have hstep : recordAll fingerprint? l (i :: rest) = recordAll fingerprint? l rest := by
        simp [recordAll, hi]
      rw [hstep, ih]
      unfold noted
      by_cases hid : id = i
      · subst hid
        simp [hi]
      · simp [hid]
    | some d =>
      have hstep : recordAll fingerprint? l (i :: rest) =
          recordAll fingerprint? (l.record i d) rest := by simp [recordAll, hi]
      rw [hstep, ih]
      unfold noted
      simp only [get?_record]
      by_cases hid : id = i
      · subst hid
        simp [hi]
      · simp [hid]

theorem pending_recordAll (ids : List FileId) : ∀ l : Ledger,
    (recordAll fingerprint? l ids).pending = l.pending := by
  induction ids with
  | nil => exact fun l => rfl
  | cons i rest ih =>
    intro l
    refine (ih _).trans ?_
    dsimp only
    split <;> rfl

/-- Whether the output of a file would be made from something else than the last one. -/
def isStale (fingerprint? : FileId → Option Digest) (l : Ledger) (id : FileId) : Bool :=
  match fingerprint? id with
  | some d => l.fingerprints.get? id ≠ some d
  | none => false

theorem isStale_iff {l : Ledger} {id : FileId} : isStale fingerprint? l id = true ↔
    ∃ d, fingerprint? id = some d ∧ l.fingerprints.get? id ≠ some d := by
  unfold isStale
  cases fingerprint? id <;> simp

/-- What the emission of stale files comes to. -/
structure Refreshed (output : FileId → Except CutError (Option Emitted))
    (fingerprint? : FileId → Option Digest) (l : Ledger) (ids : List FileId) (es : List Emitted)
    (l' : Ledger) : Prop where
  emitted : ids.Nodup → es = outputs output (ids.filter (isStale fingerprint? l))
  made : ids.Nodup → ∀ id ∈ ids, isStale fingerprint? l id = true → ∃ made, output id = .ok made
  pending : l'.pending = l.pending
  noted : ∀ id, l'.fingerprints.get? id = noted fingerprint? l ids id
  clean : l'.dirty = false → l.dirty = false ∧
    ∀ id, Ledger.noted fingerprint? l ids id = l.fingerprints.get? id

theorem Refreshed.skip {l l' : Ledger} {i : FileId} {rest : List FileId} {es : List Emitted}
    (h : Refreshed output fingerprint? l rest es l')
    (hi : ∀ d, fingerprint? i = some d → l.fingerprints.get? i = some d) :
    Refreshed output fingerprint? l (i :: rest) es l' := by
  have hstale : isStale fingerprint? l i = false := by
    cases hs : isStale fingerprint? l i with
    | false => rfl
    | true =>
      obtain ⟨d, hd, hne⟩ := isStale_iff.mp hs
      exact absurd (hi d hd) hne
  have hnoted : ∀ id, Ledger.noted fingerprint? l (i :: rest) id =
      Ledger.noted fingerprint? l rest id := by
    intro id
    unfold Ledger.noted
    by_cases hid : id = i
    · subst hid
      cases hf : fingerprint? id with
      | none => simp
      | some d => simp [hi d hf]
    · simp [hid]
  refine ⟨?_, ?_, h.pending, ?_, ?_⟩
  · intro hids
    rw [h.emitted (List.nodup_cons.mp hids).2, List.filter_cons_of_neg (by simp [hstale])]
  · intro hids id hid hstale'
    rcases List.mem_cons.mp hid with rfl | hid
    · rw [hstale] at hstale'
      cases hstale'
    · exact h.made (List.nodup_cons.mp hids).2 id hid hstale'
  · exact fun id => (h.noted id).trans (hnoted id).symm
  · exact fun hd => ⟨(h.clean hd).1, fun id => (hnoted id).trans ((h.clean hd).2 id)⟩

theorem Refreshed.record {l l' : Ledger} {i : FileId} {rest : List FileId} {es : List Emitted}
    {d : Digest} {emitted : Option Emitted} (hd : fingerprint? i = some d)
    (hne : l.fingerprints.get? i ≠ some d) (ho : output i = .ok emitted)
    (h : Refreshed output fingerprint? (l.record i d) rest es l') :
    Refreshed output fingerprint? l (i :: rest) (emitted.toList ++ es) l' := by
  have hother : i ∉ rest → ∀ j ∈ rest,
      isStale fingerprint? (l.record i d) j = isStale fingerprint? l j := by
    intro hnew j hj
    have hji : j ≠ i := fun heq => hnew (heq ▸ hj)
    unfold isStale
    rw [get?_record, if_neg hji]
  have hnoted : ∀ id, Ledger.noted fingerprint? l (i :: rest) id =
      Ledger.noted fingerprint? (l.record i d) rest id := by
    intro id
    unfold Ledger.noted
    rw [get?_record]
    by_cases hid : id = i
    · subst hid
      simp [hd]
    · simp [hid]
  refine ⟨?_, ?_, h.pending, ?_, ?_⟩
  · intro hids
    obtain ⟨hnew, hrest⟩ := List.nodup_cons.mp hids
    rw [h.emitted hrest, List.filter_cons_of_pos (isStale_iff.mpr ⟨d, hd, hne⟩),
      List.filter_congr (hother hnew)]
    simp [outputs, ho]
  · intro hids id hid hstale
    obtain ⟨hnew, hrest⟩ := List.nodup_cons.mp hids
    rcases List.mem_cons.mp hid with rfl | hid
    · exact ⟨emitted, ho⟩
    · exact h.made hrest id hid ((hother hnew id hid).trans hstale)
  · exact fun id => (h.noted id).trans (hnoted id).symm
  · intro hdirty
    have hclean := (h.clean hdirty).1
    simp only [Ledger.record, Bool.or_eq_false_iff, decide_eq_false_iff_not] at hclean
    exact absurd hne hclean.2

theorem emitStale_ok (ids : List FileId) : ∀ {l l' : Ledger} {es : List Emitted},
    emitStale output fingerprint? l ids = (.ok es, l') →
      Refreshed output fingerprint? l ids es l' := by
  induction ids with
  | nil =>
    intro l l' es h
    cases h
    exact ⟨fun _ => rfl, by simp, rfl, fun id => by simp [Ledger.noted],
      fun h => ⟨h, fun id => by simp [Ledger.noted]⟩⟩
  | cons i rest ih =>
    intro l l' es h
    unfold emitStale at h
    cases hf : fingerprint? i with
    | none =>
      simp only [hf] at h
      exact (ih h).skip fun d hd => by simp [hf] at hd
    | some d =>
      simp only [hf] at h
      split at h
      · rename_i hsame
        refine (ih h).skip fun d' hd' => ?_
        rw [hf] at hd'
        cases hd'
        exact hsame
      · rename_i hne
        cases ho : output i with
        | error err => simp [ho] at h
        | ok emitted =>
          simp only [ho] at h
          cases hr : emitStale output fingerprint? (l.record i d) rest with
          | mk more k =>
            rw [hr] at h
            cases more with
            | error err => simp [Except.map] at h
            | ok more =>
              simp only [Except.map, Prod.mk.injEq, Except.ok.injEq] at h
              rw [← h.1, ← h.2]
              exact (ih hr).record hf hne ho

theorem emitStale_of_current (ids : List FileId) {l : Ledger}
    (h : ∀ id ∈ ids, isStale fingerprint? l id = false) :
    emitStale output fingerprint? l ids = (.ok [], l) := by
  induction ids with
  | nil => rfl
  | cons i rest ih =>
    have hrest := ih fun id hid => h id (List.mem_cons_of_mem _ hid)
    have hi := h i List.mem_cons_self
    unfold emitStale
    cases hf : fingerprint? i with
    | none => exact hrest
    | some d =>
      have hsame : l.fingerprints.get? i = some d := by simpa [isStale, hf] using hi
      simp only [hsame, ↓reduceIte]
      exact hrest

end Ledger

namespace Emit

theorem file_inlined {p : Program} {styles : Stylesheets} {id : FileId} {e : Emitted}
    (h : inlined p styles id = .ok (some e)) : e.file = id := by
  unfold inlined at h
  split at h
  · cases h
  · simp only [bind, Except.bind, pure, Except.pure] at h
    split at h
    · cases h
    · cases h
      rfl

theorem file_deferred {p : Program} {id : FileId} {e : Emitted}
    (h : deferred p id = .ok (some e)) : e.file = id := by
  unfold deferred at h
  split at h
  · cases h
  · simp only [bind, Except.bind, pure, Except.pure] at h
    split at h
    · cases h
    · split at h
      · cases h
      · cases h
        rfl

end Emit

namespace Snapshot

open Ledger

def output (strategy : Strategy) (s : Snapshot) : FileId → Except CutError (Option Emitted) :=
  match strategy with
  | .aot => Emit.inlined s.program s.styles
  | .jit => Emit.deferred s.program

theorem file_output {strategy : Strategy} {s : Snapshot} {id : FileId} {e : Emitted}
    (h : s.output strategy id = .ok (some e)) : e.file = id := by
  cases strategy with
  | aot => exact Emit.file_inlined h
  | jit => exact Emit.file_deferred h

def fingerprint? (s : Snapshot) (id : FileId) : Option Digest :=
  Emit.fingerprint? s.program id s.optionsDigest

def scriptsBeside (s : Snapshot) (done : List FileId) : List FileId :=
  (s.program.members.filter fun f => f.kind = .script && !done.contains f.id).map (·.id)

theorem mem_scriptsBeside {s : Snapshot} {done : List FileId} {id : FileId} :
    id ∈ s.scriptsBeside done ↔
      id ∉ done ∧ ∃ f ∈ s.program.members, f.kind = .script ∧ f.id = id := by
  unfold scriptsBeside
  simp only [List.mem_map, List.mem_filter, Bool.and_eq_true, decide_eq_true_eq,
    Bool.not_eq_true', List.contains_eq_mem, decide_eq_false_iff_not]
  constructor
  · rintro ⟨f, ⟨hf, hkind, hnot⟩, rfl⟩
    exact ⟨hnot, f, hf, hkind, rfl⟩
  · rintro ⟨hnot, f, hf, hkind, rfl⟩
    exact ⟨f, ⟨hf, hkind, hnot⟩, rfl⟩

theorem emitDeferred_ok {s : Snapshot} {es : List Emitted} {l : Ledger}
    (h : s.emitFiles .jit = (.ok es, l)) :
    es = outputs (s.output .jit) (OrdSet.toList s.ledger.pending) ∧
      l = s.ledger.completeAll (OrdSet.toList s.ledger.pending) ∧
      ∀ id ∈ OrdSet.toList s.ledger.pending, ∃ made, s.output .jit id = .ok made := emitFiles_ok _ h

theorem emitInlined_ok {s : Snapshot} {es : List Emitted} {l : Ledger}
    (h : s.emitFiles .aot = (.ok es, l)) :
    ∃ first more, first = outputs (s.output .aot) (OrdSet.toList s.ledger.pending) ∧
      es = first ++ more ∧
      Refreshed (s.output .aot) s.fingerprint?
        ((s.ledger.completeAll (OrdSet.toList s.ledger.pending)).recordAll s.fingerprint?
          (first.map (·.file)))
        (s.scriptsBeside (first.map (·.file))) more l := by
  have hinlined : s.emitInlined = (.ok es, l) := h
  unfold emitInlined at hinlined
  dsimp only at hinlined
  cases hp : s.ledger.emitPending (Emit.inlined s.program s.styles) with
  | mk emitted k =>
    rw [hp] at hinlined
    cases emitted with
    | error err => cases hinlined
    | ok emitted =>
      obtain ⟨hemitted, hk, -⟩ := emitFiles_ok _ hp
      have hrest : ((emitStale (s.output .aot) s.fingerprint? (k.recordAll s.fingerprint?
          (emitted.map (·.file))) (s.scriptsBeside (emitted.map (·.file)))).1.map (emitted ++ ·),
          (emitStale (s.output .aot) s.fingerprint? (k.recordAll s.fingerprint?
            (emitted.map (·.file))) (s.scriptsBeside (emitted.map (·.file)))).2) = (.ok es, l) :=
        hinlined
      cases hstale : emitStale (s.output .aot) s.fingerprint? (k.recordAll s.fingerprint?
          (emitted.map (·.file))) (s.scriptsBeside (emitted.map (·.file))) with
      | mk more k' =>
        rw [hstale] at hrest
        cases more with
        | error err => simp [Except.map] at hrest
        | ok more =>
          simp only [Except.map, Prod.mk.injEq, Except.ok.injEq] at hrest
          refine ⟨emitted, more, hemitted, hrest.1.symm, ?_⟩
          rw [← hrest.2, ← hk]
          exact emitStale_ok _ hstale

/-- There is nothing to emit: no file is pending, and in full builds no script is stale. -/
def Settled (strategy : Strategy) (s : Snapshot) : Prop :=
  s.ledger.pending = OrdMap.empty ∧
    (strategy = .aot → ∀ f ∈ s.program.members, f.kind = .script →
      isStale s.fingerprint? s.ledger f.id = false)

theorem emitFiles_of_settled {strategy : Strategy} {s : Snapshot} (h : s.Settled strategy) :
    s.emitFiles strategy = (.ok [], s.ledger) := by
  obtain ⟨hpending, hstale⟩ := h
  have hnone : ∀ output, s.ledger.emitPending output = (.ok [], s.ledger) := by
    intro output
    unfold emitPending
    rw [hpending]
    rfl
  cases strategy with
  | jit => exact hnone _
  | aot =>
    have hscripts : emitStale (s.output .aot) s.fingerprint? s.ledger (s.scriptsBeside []) =
        (.ok [], s.ledger) := by
      refine emitStale_of_current _ fun id hid => ?_
      obtain ⟨-, f, hf, hkind, rfl⟩ := mem_scriptsBeside.mp hid
      exact hstale rfl f hf hkind
    show s.emitInlined = (.ok [], s.ledger)
    unfold emitInlined
    simp only [hnone]
    have hall : ((emitStale (s.output .aot) s.fingerprint? s.ledger (s.scriptsBeside [])).1.map
        ([] ++ ·), (emitStale (s.output .aot) s.fingerprint? s.ledger (s.scriptsBeside [])).2) =
        (.ok [], s.ledger) := by
      rw [hscripts]
      rfl
    exact hall

theorem noted_of_script {s : Snapshot} {first more : List Emitted} {l k : Ledger}
    (h : Refreshed (s.output .aot) s.fingerprint? (k.recordAll s.fingerprint? (first.map (·.file)))
      (s.scriptsBeside (first.map (·.file))) more l) {f : SourceFile}
    (hf : f ∈ s.program.members) (hkind : f.kind = .script) {d : Digest}
    (hd : s.fingerprint? f.id = some d) : l.fingerprints.get? f.id = some d := by
  rw [h.noted]
  unfold noted
  by_cases hdone : f.id ∈ first.map (·.file)
  · rw [if_neg (fun hmem => (mem_scriptsBeside.mp hmem).1 hdone), get?_recordAll]
    unfold noted
    rw [if_pos hdone, hd]
    rfl
  · rw [if_pos (mem_scriptsBeside.mpr ⟨hdone, f, hf, hkind, rfl⟩), hd]
    rfl

theorem settled_of_emitFiles {strategy : Strategy} {s : Snapshot} {es : List Emitted} {l : Ledger}
    (h : s.emitFiles strategy = (.ok es, l)) : Settled strategy { s with ledger := l } := by
  cases strategy with
  | jit =>
    obtain ⟨-, rfl, -⟩ := emitDeferred_ok h
    exact ⟨pending_completeAll_pending _, fun haot => by cases haot⟩
  | aot =>
    obtain ⟨first, more, -, -, hrefreshed⟩ := emitInlined_ok h
    refine ⟨?_, fun _ f hf hkind => ?_⟩
    · show l.pending = OrdMap.empty
      rw [hrefreshed.pending, pending_recordAll, pending_completeAll_pending]
    · cases hstale : isStale (fingerprint? { s with ledger := l }) l f.id with
      | false => rfl
      | true =>
        obtain ⟨d, hd, hne⟩ := isStale_iff.mp hstale
        exact absurd (noted_of_script hrefreshed hf hkind hd) hne

end Snapshot

namespace Engine

variable {σ : Type} [FileSystem σ]

theorem emit_ok {e e' : Engine} {s : Snapshot} (hs : e.snapshot = some s) {fs fs' : σ}
    {es : List Emitted} (h : e.emit fs = (.ok es, e', fs')) :
    ∃ l, s.emitFiles e.strategy = (.ok es, l) ∧
      ({ s with ledger := l }.persist e.registry fs).2 = fs' ∧
      ∃ t, ({ s with ledger := l }.persist e.registry fs).1 = .ok t ∧
        e' = { e with snapshot := some t } := by
  unfold emit at h
  rw [hs] at h
  dsimp only at h
  cases hemit : s.emitFiles e.strategy with
  | mk emitted l =>
    rw [hemit] at h
    cases emitted with
    | error err => cases h
    | ok emitted =>
      dsimp only at h
      split at h
      · cases h
      · rename_i t fs'' hpersist
        cases h
        exact ⟨l, rfl, by rw [hpersist], t, by rw [hpersist], rfl⟩

theorem emit_host_error {e e' : Engine} {s : Snapshot} (hs : e.snapshot = some s) {fs fs' : σ}
    {err : HostError} (h : e.emit fs = (.error (.host err), e', fs')) :
    ∃ es l, s.emitFiles e.strategy = (.ok es, l) ∧
      e' = { e with snapshot := some { s with ledger := l } } := by
  unfold emit at h
  rw [hs] at h
  dsimp only at h
  cases hemit : s.emitFiles e.strategy with
  | mk emitted l =>
    rw [hemit] at h
    cases emitted with
    | error err => cases h
    | ok emitted =>
      dsimp only at h
      split at h
      · cases h
        exact ⟨emitted, l, rfl, rfl⟩
      · cases h

end Engine

end Recompile
