import Mathlib.Data.List.Perm.Subperm
import Recompile.Host.Volume
import Recompile.Proofs.Path.Level
import Recompile.Proofs.Program.Shadow

/-!
Builds come to an end. A round follows another only when a file was read for the first time, and no
more files can be read than a file system holds, so a build never runs out of rounds: it fails only
when a file cannot be read.
-/

namespace Recompile

def Path.Apart (ps : List Path) : Prop := ps.Pairwise fun p q => p.components ≠ q.components

namespace OrdMap

theorem mem_keys_of_get? {β : Type} {m : OrdMap Path β} {p : Path} {b : β} (h : m.get? p = some b) :
    ∃ k ∈ m.keys, k.components = p.components := by
  unfold get? entry? at h
  obtain ⟨e, he, -⟩ := Option.map_eq_some_iff.mp h
  have hsame : compare p e.1 = .eq := by simpa using List.find?_some he
  exact ⟨e.1, List.mem_map.mpr ⟨e, List.mem_of_find?_eq_some he, rfl⟩,
    (Path.compare_eq_iff.mp hsame).symm⟩

theorem length_le_size {β : Type} (m : OrdMap Path β) {ps : List Path} (hps : Path.Apart ps)
    (h : ∀ p ∈ ps, ∃ b, m.get? p = some b) : ps.length ≤ m.size := by
  have hnodup : (ps.map Path.components).Nodup := List.pairwise_map.mpr hps
  have hsub : ps.map Path.components ⊆ m.keys.map Path.components := by
    intro cs hcs
    obtain ⟨p, hp, rfl⟩ := List.mem_map.mp hcs
    obtain ⟨b, hb⟩ := h p hp
    obtain ⟨k, hk, hsame⟩ := mem_keys_of_get? hb
    exact List.mem_map.mpr ⟨k, hk, hsame⟩
  have hle := (hnodup.subperm hsub).length_le
  simpa [keys, size] using hle

end OrdMap

/-- No more different level paths can be read than the capacity tells. -/
def FileSystem.Finite {σ : Type} [FileSystem σ] (fs : σ) : Prop :=
  ∀ ps : List Path, Path.Apart ps → (∀ p ∈ ps, p.Level ∧ ∃ text, FileSystem.read fs p = .ok text) →
    ps.length ≤ FileSystem.capacity fs

theorem Volume.finite (v : Volume) : FileSystem.Finite v := by
  intro ps hps h
  refine OrdMap.length_le_size v.files hps fun p hp => ?_
  obtain ⟨-, text, htext⟩ := h p hp
  have hread : v.read p = .ok text := htext
  unfold read at hread
  split at hread
  · cases hread
  · split at hread
    · cases hread
    · rename_i contents hstored
      exact ⟨contents, hstored⟩

namespace Host

variable {σ : Type} [FileSystem σ]

theorem length_le_capacity {fs : σ} (hfinite : FileSystem.Finite fs) (h : Host) {ps : List Path}
    (hps : Path.Apart ps) (hread : ∀ p ∈ ps, p.Level ∧ ∃ text, h.read fs p = .ok (some text)) :
    ps.length ≤ h.capacity fs := by
  have hsplit := List.length_eq_length_filter_add (l := ps) fun p => (h.replacements.get? p).isSome
  have hreplaced : (ps.filter fun p => (h.replacements.get? p).isSome).length ≤ h.replacements.size := by
    refine OrdMap.length_le_size _ (hps.sublist List.filter_sublist) fun p hp => ?_
    exact Option.isSome_iff_exists.mp (List.mem_filter.mp hp).2
  have hplain : (ps.filter fun p => !(h.replacements.get? p).isSome).length ≤
      FileSystem.capacity fs := by
    refine hfinite _ (hps.sublist List.filter_sublist) fun p hp => ?_
    obtain ⟨hmem, hnone⟩ := List.mem_filter.mp hp
    obtain ⟨hlevel, text, htext⟩ := hread p hmem
    have hget : h.replacements.get? p = none := by simpa using hnone
    have hactual : h.actual p = p := by
      rw [actual, hget]
      rfl
    refine ⟨hlevel, text, ?_⟩
    unfold read at htext
    rw [hactual] at htext
    split at htext
    · rename_i found hfound
      cases htext
      exact hfound
    · cases htext
    · cases htext
  rw [capacity]
  omega

end Host

namespace BuildState

variable {σ : Type} [FileSystem σ] {c : BuildContext σ}

theorem level_linksOf {f : SourceFile} {p : Path} (h : p ∈ linksOf c f) : p.Level := by
  rcases mem_linksOf.mp h with h | ⟨-, ref, href, -, rfl⟩
  · obtain ⟨spec, -, hspec⟩ := mem_foundOf.mp h
    obtain ⟨paths, hpaths, hfind⟩ := Specifier.find_eq_file hspec
    have hmem := List.mem_of_find?_eq_some hfind
    unfold Specifier.alternatives? at hpaths
    split at hpaths
    · cases hpaths
      exact Path.level_candidates (Path.level_resolve _ _) p hmem
    · obtain ⟨targets, -, rfl⟩ := Option.map_eq_some_iff.mp hpaths
      obtain ⟨t, -, hmem⟩ := List.mem_flatMap.mp hmem
      exact Path.level_candidates (Path.level_resolve _ _) p hmem
  · rw [(mem_refsOf href).2.2]
    exact Path.level_resolve _ _

/-- All files read so far stand at level paths. -/
def Leveled (s : BuildState) : Prop := ∀ {id f}, s.program.file? id = some f → f.path.Level

theorem Sound.size_le {s : BuildState} (h : Sound c s) (hlevel : s.Leveled)
    (hfinite : FileSystem.Finite c.fs) : s.program.files.size ≤ c.host.capacity c.fs := by
  have hfile : ∀ e ∈ s.program.files.entries, s.program.file? e.1 = some e.2 := fun e he =>
    h.files_sorted.get?_of_mem he
  have hapart : Path.Apart (s.program.files.entries.map fun e => e.2.path) := by
    refine List.pairwise_map.mpr ?_
    have hkeys : s.program.files.entries.Pairwise fun a b => a.1 ≠ b.1 :=
      List.pairwise_map.mp h.files_sorted.nodup_keys
    refine hkeys.imp_of_mem fun {a b} ha hb hne hsame => hne ?_
    have hla := (h.file_read (hfile a ha)).2.2.1
    have hlb := (h.file_read (hfile b hb)).2.2.1
    rw [Registry.lookup?_congr s.registry hsame, hlb] at hla
    exact (Option.some.inj hla).symm
  have hle := c.host.length_le_capacity hfinite hapart fun p hp => by
    obtain ⟨e, he, rfl⟩ := List.mem_map.mp hp
    exact ⟨hlevel (hfile e he), e.2.text, (h.file_read (hfile e he)).2.2.2.2⟩
  simpa [OrdMap.size] using hle

theorem size_put {α : Type} {k : Nat} {a : α} {entries : List (Nat × α)}
    (h : ∀ e ∈ entries, e.1 ≠ k) : (OrdMap.put k a entries).length = entries.length + 1 := by
  induction entries with
  | nil => rfl
  | cons e rest ih =>
    obtain ⟨j, b⟩ := e
    have hne : j ≠ k := h (j, b) List.mem_cons_self
    rw [OrdMap.put]
    cases hcompare : compare k j with
    | lt => rfl
    | eq => exact absurd (Std.LawfulEqOrd.eq_of_compare hcompare).symm hne
    | gt =>
      dsimp only
      rw [List.length_cons, ih fun e he => h e (List.mem_cons_of_mem _ he), List.length_cons]

/-- What a visit adds: nothing, or one file with what it refers to. -/
structure Advance (c : BuildContext σ) (s t : BuildState) (next : List Path) : Prop where
  size_le : s.program.files.size ≤ t.program.files.size
  size_lt : next ≠ [] → s.program.files.size < t.program.files.size
  leveled : s.Leveled → t.Leveled
  level : ∀ p ∈ next, p.Level
  fault : ∀ {e}, t.fault = some e → s.fault = some e ∨ ∃ p, c.host.read c.fs p = .error e

theorem visit_fault (c : BuildContext σ) (s : BuildState) (p : Path) {e : HostError}
    (h : (visit c s p).1.fault = some e) :
    s.fault = some e ∨ ∃ p, c.host.read c.fs p = .error e := by
  unfold visit at h
  split at h
  · exact .inl h
  · dsimp only at h
    split at h
    · rename_i e' hread
      cases h
      exact .inr ⟨p, hread⟩
    · split at h <;> exact .inl h
    · rename_i text hread
      have heq := addFile_eq c { s with visited := OrdSet.add s.visited p } p text
      rw [heq] at h
      exact .inl h

theorem advance_visit {s : BuildState} (h : Sound c s) {p : Path} (htidy : Path.Tidy p.text.toList)
    (hlevel : p.Level) : Advance c s (visit c s p).1 (visit c s p).2 := by
  have hfault := fun {e} => @visit_fault σ _ c s p e
  rcases visit_cases c s p with ⟨-, heq⟩ | ⟨-, hnew, ⟨fault, missing, -, heq⟩ | ⟨text, roots, -, heq⟩⟩
  · rw [heq] at hfault ⊢
    exact ⟨Nat.le_refl _, fun hne => absurd rfl hne, id, fun q hq => (List.not_mem_nil hq).elim, hfault⟩
  · rw [heq] at hfault ⊢
    exact ⟨Nat.le_refl _, fun hne => absurd rfl hne, id, fun q hq => (List.not_mem_nil hq).elim, hfault⟩
  · rw [heq] at hfault ⊢
    have hfresh : ∀ e ∈ s.program.files.entries, e.1 ≠ (s.registry.intern p).1 := by
      intro e he heq
      have hnone := h.file?_intern htidy hnew
      rw [← heq, Program.file?, h.files_sorted.get?_of_mem he] at hnone
      cases hnone
    have hsize : ∀ {r}, (withFile c s.program roots r (fileAt (s.registry.intern p).1 p text)).files.size =
        s.program.files.size + 1 := size_put hfresh
    refine ⟨?_, fun _ => ?_, ?_, ?_, hfault⟩
    · rw [hsize]
      exact Nat.le_succ _
    · rw [hsize]
      exact Nat.lt_succ_self _
    · intro hs id f hf
      rw [file?_withFile] at hf
      split at hf
      · cases hf
        exact hlevel
      · exact hs hf
    · intro q hq
      unfold nextOf at hq
      split at hq
      · exact level_linksOf hq
      · cases hq

theorem Advance.trans {s t u : BuildState} {next next' : List Path} (h : Advance c s t next)
    (h' : Advance c t u next') : Advance c s u (next ++ next') where
  size_le := Nat.le_trans h.size_le h'.size_le
  size_lt hne := by
    by_cases hnext : next = []
    · exact Nat.lt_of_le_of_lt h.size_le (h'.size_lt (by simpa [hnext] using hne))
    · exact Nat.lt_of_lt_of_le (h.size_lt hnext) h'.size_le
  leveled hs := h'.leveled (h.leveled hs)
  level p hp := (List.mem_append.mp hp).elim (h.level p) (h'.level p)
  fault he := (h'.fault he).elim h.fault .inr

-- A round that leads on has read a file, so one round less is enough from there.
theorem Advance.room {s t : BuildState} {next : List Path} {limit fuel : Nat} (h : Advance c s t next)
    (hroom : limit < s.program.files.size + (fuel + 1)) :
    next = [] ∨ limit < t.program.files.size + fuel := by
  by_cases hempty : next = []
  · exact .inl hempty
  · have hlt := h.size_lt hempty
    exact .inr (by omega)

theorem advance_round {queue : List Path} (hqueue : ∀ p ∈ queue, Path.Tidy p.text.toList ∧ p.Level) :
    ∀ {s : BuildState}, Sound c s → Advance c s (round c s queue).1 (round c s queue).2 := by
  induction queue with
  | nil =>
    exact fun _ => ⟨Nat.le_refl _, fun hne => absurd rfl hne, id,
      fun p hp => (List.not_mem_nil hp).elim, .inl⟩
  | cons p rest ih =>
    intro s h
    obtain ⟨htidy, hlevel⟩ := hqueue p List.mem_cons_self
    have hvisit := advance_visit h htidy hlevel
    exact hvisit.trans (ih (fun q hq => hqueue q (List.mem_cons_of_mem _ hq)) (step_visit h htidy).sound)

/-- A build fails only when a file cannot be read. -/
theorem fault_rounds (hfinite : FileSystem.Finite c.fs) (fuel : Nat) : ∀ {s : BuildState}
    {queue : List Path}, Sound c s → s.Leveled → (∀ p ∈ queue, Path.Tidy p.text.toList ∧ p.Level) →
      queue = [] ∨ c.host.capacity c.fs < s.program.files.size + fuel →
      ∀ {e}, (rounds c fuel s queue).fault = some e →
        s.fault = some e ∨ ∃ p, c.host.read c.fs p = .error e := by
  induction fuel with
  | zero =>
    intro s queue h hs hqueue hroom e he
    cases queue with
    | nil => exact .inl he
    | cons p rest =>
      have := h.size_le hs hfinite
      rcases hroom with hroom | hroom
      · cases hroom
      · omega
  | succ fuel ih =>
    intro s queue h hs hqueue hroom e he
    cases queue with
    | nil => exact .inl he
    | cons p rest =>
      have hstep := step_round (fun q hq => (hqueue q hq).1) h
      have hround := advance_round hqueue h
      have hnext := hround.room (hroom.resolve_left (List.cons_ne_nil p rest))
      have hlast := ih hstep.sound (hround.leveled hs)
        (fun q hq => ⟨hstep.tidy q hq, hround.level q hq⟩) hnext he
      exact hlast.elim hround.fault .inr

end BuildState

theorem Program.build_error {σ : Type} [FileSystem σ] {fs : σ} (hfinite : FileSystem.Finite fs)
    {options : Options} {host : Host} {full : Bool} {registry r : Registry} (hr : registry.Distinct)
    {roots : List Path} {e : HostError}
    (h : build options host fs full registry roots = (.error e, r)) :
    ∃ p, host.read fs p = .error e := by
  have hqueue : ∀ q ∈ roots.map Path.normalize, Path.Tidy q.text.toList ∧ q.Level := by
    intro q hq
    obtain ⟨root, -, rfl⟩ := List.mem_map.mp hq
    exact ⟨Path.tidy_normalize root, Path.level_normalize root⟩
  unfold build at h
  dsimp only at h
  split at h
  · rename_i e' hfault
    cases h
    let c : BuildContext σ := ⟨options, host, fs, full, OrdSet.ofList (roots.map Path.normalize)⟩
    have hread := @BuildState.fault_rounds σ _ c hfinite (host.capacity fs + 1) _ _
      (BuildState.sound_initial hr) (fun hf => by cases hf) hqueue
      (.inr (Nat.lt_of_lt_of_le (Nat.lt_succ_self _) (Nat.le_add_left _ _))) e hfault
    exact hread.resolve_left fun hnone => by cases hnone
  · cases h

end Recompile
