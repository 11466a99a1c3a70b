import Recompile.Engine.Basic
import Recompile.Proofs.Program.Renaming

/-!
Ledgers that differ in the identities of their files only. Compared with programs that differ in the
same way, they report the same files and leave the same outputs to be made.
-/

namespace Recompile

variable {R : FileId → FileId → Prop}

structure FileRecord.Same (R : FileId → FileId → Prop) (a b : FileRecord) : Prop where
  version : a.version = b.version
  signature : a.signature = b.signature
  dependencies : Alike R (OrdSet.toList a.dependencies) (OrdSet.toList b.dependencies)
  sorted : a.dependencies.Sorted ∧ b.dependencies.Sorted

theorem FileRecord.Same.relinked {a b a' b' : FileRecord} (h : Same R a b) (h' : Same R a' b')
    (hR : Relator.BiUnique R) :
    decide (a.dependencies ≠ a'.dependencies) = decide (b.dependencies ≠ b'.dependencies) := by
  rw [decide_eq_decide]
  exact not_congr (Alike.eq_iff hR h.sorted.1 h'.sorted.1 h.sorted.2 h'.sorted.2 h.dependencies
    h'.dependencies)

theorem FileRecord.biUnique_same (hR : Relator.BiUnique R) : Relator.BiUnique (FileRecord.Same R) := by
  constructor
  · rintro ⟨v, s, d⟩ ⟨v', s', d'⟩ b h h'
    have hdeps : d = d' := (Alike.eq_iff hR h.sorted.1 h'.sorted.1 h.sorted.2 h'.sorted.2 h.dependencies
      h'.dependencies).mpr rfl
    rw [show v = v' from h.version.trans h'.version.symm, show s = s' from h.signature.trans h'.signature.symm,
      hdeps]
  · rintro a ⟨v, s, d⟩ ⟨v', s', d'⟩ h h'
    have hdeps : d = d' := (Alike.eq_iff hR h.sorted.1 h'.sorted.1 h.sorted.2 h'.sorted.2 h.dependencies
      h'.dependencies).mp rfl
    rw [show v = v' from h.version.symm.trans h'.version, show s = s' from h.signature.symm.trans h'.signature,
      hdeps]

theorem rel_eq_iff {α β : Type} {S : α → β → Prop} (hS : Relator.BiUnique S) {x x' : Option α}
    {y y' : Option β} (h : Option.Rel S x y) (h' : Option.Rel S x' y') : x = x' ↔ y = y' := by
  cases h with
  | none => cases h' <;> simp
  | some hab =>
    cases h' with
    | none => simp
    | some hab' =>
      simp only [Option.some.injEq]
      exact ⟨fun h => hS.2 hab (h ▸ hab'), fun h => hS.1 hab (h ▸ hab')⟩

structure OrdMap.Matched {α β : Type} (R : FileId → FileId → Prop) (S : α → β → Prop) (m : OrdMap FileId α)
    (n : OrdMap FileId β) : Prop where
  get? : ∀ {i j}, R i j → Option.Rel S (m.get? i) (n.get? j)
  left : ∀ {i a}, m.get? i = some a → ∃ j, R i j
  right : ∀ {j b}, n.get? j = some b → ∃ i, R i j
  sorted : m.Sorted ∧ n.Sorted

theorem OrdMap.Matched.eq_iff {α β : Type} {S : α → β → Prop} (hS : Relator.BiUnique S) {m m' : OrdMap FileId α}
    {n n' : OrdMap FileId β} (h : Matched R S m n) (h' : Matched R S m' n') : m = m' ↔ n = n' := by
  constructor
  · rintro rfl
    refine h.sorted.2.ext h'.sorted.2 fun j => ?_
    by_cases hj : ∃ i, R i j
    · obtain ⟨i, hij⟩ := hj
      exact (rel_eq_iff hS (h.get? hij) (h'.get? hij)).mp rfl
    · have hnone : ∀ {k : OrdMap FileId β}, Matched R S m k → k.get? j = none := fun hk =>
        Option.eq_none_iff_forall_ne_some.mpr fun b hb => hj (hk.right hb)
      rw [hnone h, hnone h']
  · rintro rfl
    refine h.sorted.1.ext h'.sorted.1 fun i => ?_
    by_cases hi : ∃ j, R i j
    · obtain ⟨j, hij⟩ := hi
      exact (rel_eq_iff hS (h.get? hij) (h'.get? hij)).mpr rfl
    · have hnone : ∀ {k : OrdMap FileId α}, Matched R S k n → k.get? i = none := fun hk =>
        Option.eq_none_iff_forall_ne_some.mpr fun a ha => hi (hk.left ha)
      rw [hnone h, hnone h']

theorem contains_eq_of_rel {α β : Type} {S : α → β → Prop} {m : OrdMap FileId α} {n : OrdMap FileId β}
    {i j : FileId} (h : Option.Rel S (m.get? i) (n.get? j)) : m.contains i = n.contains j := by
  rw [OrdMap.contains_eq_isSome, OrdMap.contains_eq_isSome]
  generalize m.get? i = x at h
  generalize n.get? j = y at h
  cases h <;> rfl

namespace Ledger

structure Same (R : FileId → FileId → Prop) (l l' : Ledger) : Prop where
  file : ∀ {i j}, R i j → Option.Rel (FileRecord.Same R) (l.files.get? i) (l'.files.get? j)
  left : ∀ {i r}, l.files.get? i = some r → ∃ j, R i j
  right : ∀ {j r}, l'.files.get? j = some r → ∃ i, R i j
  sorted : l.files.Sorted ∧ l'.files.Sorted
  fingerprint : ∀ {i j}, R i j → l.files.contains i = true →
    l.fingerprints.get? i = l'.fingerprints.get? j
  pending : ∀ {i j}, R i j → l.files.contains i = true → l.pending.contains i = l'.pending.contains j

variable {p p' : Program} {l l' : Ledger} {i j : FileId}

theorem sorted_dependencies (p : Program) (id : FileId) : (p.dependencies id).Sorted := by
  unfold Program.dependencies
  split
  · exact OrdMap.sorted_empty
  · exact OrdSet.sorted_ofList _

theorem same_records (h : Program.Same R p p') (hR : Relator.BiUnique R) (hij : R i j) :
    Option.Rel (FileRecord.Same R) ((records p).get? i) ((records p').get? j) := by
  rw [get?_records, get?_records]
  have hfile := h.file hij
  generalize hx : p.file? i = x at hfile
  generalize hy : p'.file? j = y at hfile
  cases hfile with
  | none => exact .none
  | some hfg =>
    refine .some ⟨SourceFile.version_congr hfg, ?_, ?_, sorted_dependencies _ _, sorted_dependencies _ _⟩
    · simp only [recordOf]
      rw [h.proper_left.id_eq hx, h.proper_right.id_eq hy, h.signature? hR hij,
        SourceFile.version_congr hfg]
    · simp only [recordOf]
      rw [h.proper_left.id_eq hx, h.proper_right.id_eq hy]
      exact h.dependencies hij

theorem alike_keys_filter (h : Program.Same R p p') (hR : Relator.BiUnique R)
    {test test' : FileId → FileRecord → Bool}
    (htest : ∀ {i j a b}, R i j → FileRecord.Same R a b → test i a = test' j b) :
    Alike R ((records p).filter test).keys ((records p').filter test').keys := by
  have hleft := sorted_records h.proper_left.files
  have hright := sorted_records h.proper_right.files
  refine Alike.of_mem_iff (fun i hi => ?_) (fun j hj => ?_) fun {i j} hij => ?_
  · obtain ⟨a, ha, -⟩ := hleft.mem_keys_filter.mp hi
    rw [get?_records] at ha
    obtain ⟨f, hf, -⟩ := Option.map_eq_some_iff.mp ha
    exact h.left hf
  · obtain ⟨a, ha, -⟩ := hright.mem_keys_filter.mp hj
    rw [get?_records] at ha
    obtain ⟨f, hf, -⟩ := Option.map_eq_some_iff.mp ha
    exact h.right hf
  · rw [hleft.mem_keys_filter, hright.mem_keys_filter]
    have hrel := same_records h hR hij
    generalize (records p).get? i = x at hrel
    generalize (records p').get? j = y at hrel
    cases hrel with
    | none => simp
    | some hab => simp [htest hij hab]

theorem contains_records (h : Program.Same R p p') (hR : Relator.BiUnique R) (hij : R i j) :
    (records p).contains i = (records p').contains j := contains_eq_of_rel (same_records h hR hij)

namespace Same

theorem isFresh (h : Same R l l') (hij : R i j) {a b : FileRecord} (hab : FileRecord.Same R a b) :
    l.isFresh i a = l'.isFresh j b := by
  have hfile := h.file hij
  unfold Ledger.isFresh
  generalize l.files.get? i = x at hfile
  generalize l'.files.get? j = y at hfile
  cases hfile with
  | none => rfl
  | some hold => simp only [hold.version, hab.version]

theorem isResigned (h : Same R l l') (hij : R i j) {a b : FileRecord} (hab : FileRecord.Same R a b) :
    l.isResigned i a = l'.isResigned j b := by
  have hfile := h.file hij
  unfold Ledger.isResigned
  generalize l.files.get? i = x at hfile
  generalize l'.files.get? j = y at hfile
  cases hfile with
  | none => rfl
  | some hold => simp only [hold.signature, hab.signature]

theorem isRelinked (h : Same R l l') (hR : Relator.BiUnique R) (hij : R i j) {a b : FileRecord}
    (hab : FileRecord.Same R a b) : l.isRelinked i a = l'.isRelinked j b := by
  have hfile := h.file hij
  unfold Ledger.isRelinked
  generalize l.files.get? i = x at hfile
  generalize l'.files.get? j = y at hfile
  cases hfile with
  | none => rfl
  | some hold => exact hold.relinked hab hR

theorem entries (h : Same R l l') :
    Alike (fun a b => R a.1 b.1 ∧ FileRecord.Same R a.2 b.2) l.files.entries l'.files.entries := by
  constructor
  · rintro ⟨i, a⟩ ha
    have hget := h.sorted.1.get?_of_mem ha
    obtain ⟨j, hij⟩ := h.left hget
    have hfile := h.file hij
    rw [hget] at hfile
    generalize hy : l'.files.get? j = y at hfile
    cases hfile with
    | some hab => exact ⟨(j, _), OrdMap.get?_mem hy, hij, hab⟩
  · rintro ⟨j, b⟩ hb
    have hget := h.sorted.2.get?_of_mem hb
    obtain ⟨i, hij⟩ := h.right hget
    have hfile := h.file hij
    rw [hget] at hfile
    generalize hx : l.files.get? i = x at hfile
    cases hfile with
    | some hab => exact ⟨(i, _), OrdMap.get?_mem hx, hij, hab⟩

theorem bereft (h : Same R l l') (hR : Relator.BiUnique R) {files files' : OrdMap FileId FileRecord}
    (hfiles : ∀ {i j}, R i j → files.contains i = files'.contains j) :
    Alike R (Ledger.bereft l files) (Ledger.bereft l' files') := by
  have hkeys : Alike R l.files.keys l'.files.keys := h.entries.map fun hab => hab.1
  have hgone := hkeys.filter fun hab => congrArg not (hfiles hab)
  refine (h.entries.filter fun hab => ?_).map fun hab => hab.1
  rw [hfiles hab.1, hgone.any_eq fun hgone => hab.2.dependencies.contains_iff hR hgone]

end Same

theorem alike_passers (h : Program.Same R p p') (hR : Relator.BiUnique R) (hij : R i j) :
    Alike R (passers p i) (passers p' j) :=
  ((h.importers hR hij).filter fun hab => hab.2).map fun hab => hab.1

theorem alike_reached (h : Program.Same R p p') (hR : Relator.BiUnique R) {is js : List FileId}
    (hseeds : Alike R is js) : Alike R (reached p is) (reached p' js) := by
  have hclosure := hseeds.closure hR (fun hab => alike_passers h hR hab) p'.modules.size
  unfold reached
  rw [h.size_eq hR]
  exact hclosure.flatMap fun hab => (h.importers hR hab).map fun hab => hab.1

theorem Same.affected (h : Same R l l') (hp : Program.Same R p p') (hR : Relator.BiUnique R) :
    Alike R (OrdSet.toList (next p l).2) (OrdSet.toList (next p' l').2) := by
  refine Alike.ofList (((Alike.append ?_ ?_).append ?_).append ?_)
  · exact alike_keys_filter hp hR fun hij hab => h.isFresh hij hab
  · exact alike_keys_filter hp hR fun hij hab => h.isRelinked hR hij hab
  · exact h.bereft hR fun hij => contains_records hp hR hij
  · exact alike_reached hp hR (alike_keys_filter hp hR fun hij hab => h.isResigned hij hab)

theorem Same.next (h : Same R l l') (hp : Program.Same R p p') (hR : Relator.BiUnique R) (hij : R i j)
    (hscript : p.isScript i = true) :
    (Ledger.next p l).1.pending.contains i = (Ledger.next p' l').1.pending.contains j ∧
      ((Ledger.next p l).1.pending.contains i = true ∨
        (Ledger.next p l).1.fingerprints.get? i = (Ledger.next p' l').1.fingerprints.get? j) := by
  have hscript' : p'.isScript j = true := by
    rw [← hscript]
    exact (hp.hasKind_eq hij .script).symm
  have hexists : ∀ {q : Program} {k : FileId}, q.isScript k = true → ∃ f, q.file? k = some f := by
    intro q k hk
    unfold Program.isScript Program.hasKind at hk
    split at hk
    · rename_i f hf
      exact ⟨f, hf⟩
    · cases hk
  obtain ⟨f, hf⟩ := hexists hscript
  obtain ⟨g, hg⟩ := hexists hscript'
  have hrel := same_records hp hR hij
  rw [get?_records, get?_records, hf, hg] at hrel
  have hrecord : FileRecord.Same R (recordOf p f) (recordOf p' g) := by
    cases hrel with
    | some hab => exact hab
  have hleft := pending_next l hp.proper_left.files hf hscript
  have hright := pending_next l' hp.proper_right.files hg hscript'
  rw [← h.isFresh hij hrecord] at hright
  have hfile := contains_eq_of_rel (h.file hij)
  cases hknown : l.files.contains i with
  | true =>
    refine ⟨?_, .inr ?_⟩
    · rw [Bool.eq_iff_iff, hleft, hright, h.pending hij hknown]
    · have hin : (records p).contains i = true :=
        OrdMap.contains_iff.mpr ⟨_, by rw [get?_records, hf]; rfl⟩
      have hin' : (records p').contains j = true := by rw [← contains_records hp hR hij, hin]
      simp only [Ledger.next, OrdMap.get?_filter]
      rw [hin, hin']
      exact h.fingerprint hij hknown
  | false =>
    -- a script without a record is new on both sides
    have hfresh : l.isFresh i (recordOf p f) = true := by
      unfold Ledger.isFresh
      rw [OrdMap.get?_eq_none_of_not_contains hknown]
    rw [hleft.mpr (.inr hfresh), hright.mpr (.inr hfresh)]
    exact ⟨rfl, .inl rfl⟩

theorem Same.dirty (h : Same R l l') (hp : Program.Same R p p') (hR : Relator.BiUnique R)
    (hdirty : l.dirty = l'.dirty) : (Ledger.next p l).1.dirty = (Ledger.next p' l').1.dirty := by
  have haffected : (Ledger.next p l).2.isEmpty = (Ledger.next p' l').2.isEmpty := by
    have hnil := (h.affected hp hR).eq_nil_iff
    simp only [OrdSet.toList, OrdMap.keys, List.map_eq_nil_iff] at hnil
    simp only [OrdMap.isEmpty]
    rw [Bool.eq_iff_iff, List.isEmpty_iff, List.isEmpty_iff, hnil]
  have hrecords : (records p).Matched R (FileRecord.Same R) (records p') := by
    refine ⟨fun hij => same_records hp hR hij, fun {i a} ha => ?_, fun {j b} hb => ?_,
      sorted_records hp.proper_left.files, sorted_records hp.proper_right.files⟩
    · rw [get?_records] at ha
      obtain ⟨f, hf, -⟩ := Option.map_eq_some_iff.mp ha
      exact hp.left hf
    · rw [get?_records] at hb
      obtain ⟨f, hf, -⟩ := Option.map_eq_some_iff.mp hb
      exact hp.right hf
  have hfiles : records p = l.files ↔ records p' = l'.files :=
    hrecords.eq_iff (FileRecord.biUnique_same hR) ⟨h.file, h.left, h.right, h.sorted⟩
  show (l.dirty || !(Ledger.next p l).2.isEmpty || decide (records p ≠ l.files)) =
    (l'.dirty || !(Ledger.next p' l').2.isEmpty || decide (records p' ≠ l'.files))
  rw [hdirty, haffected, decide_eq_decide.mpr (not_congr hfiles)]

end Ledger

namespace Engine

variable {p p' : Program}

end Engine

end Recompile
