import Mathlib.Data.List.Nodup
import Recompile.Proofs.Program.Lockstep
import Recompile.Proofs.Program.Rounds

/-!
What a build visits. From the roots on it follows what the modules refer to that it can read, so in
the end it has looked at all paths that the roots lead to, and at no others.
-/

namespace Recompile

namespace BuildState

variable {σ : Type} [FileSystem σ] {c : BuildContext σ} {queue : List Path} {s : BuildState}

def chosen? (c : BuildContext σ) (dir : Path) (specifier : String) : Option Path :=
  (Specifier.alternatives? c.options dir specifier).bind fun paths => paths.find? (c.host.present c.fs)

/-- What the module of a text at a path refers to. -/
inductive Refers (c : BuildContext σ) (p : Path) (text : String) : Path → Prop where
  | specifier {x : String × Span} {q : Path} :
      x ∈ (Script.analyze 0 (Script.scan 0 text)).specifiers →
      chosen? c p.dirname x.1 = some q → Refers c p text q
  | resource {component : Script.Component} {u : SourceKind × String × Span} :
      c.full = true → component ∈ (Script.analyze 0 (Script.scan 0 text)).components →
      u ∈ urls component → c.host.present c.fs (p.dirname.resolve ⟨u.2.1⟩) = true →
      Refers c p text (p.dirname.resolve ⟨u.2.1⟩)

/-- The paths that some paths lead to, through modules that can be read. -/
inductive Reached (c : BuildContext σ) (queue : List Path) : Path → Prop where
  | root {p : Path} : p ∈ queue → Reached c queue p
  | refer {p q : Path} {text : String} : Reached c queue p →
      c.host.read c.fs p = .ok (some text) → (SourceKind.ofPath p).isModule = true →
      Refers c p text q → Reached c queue q

theorem find_eq_file_iff {dir q : Path} {specifier : String} :
    Specifier.find c.options c.host c.fs dir specifier = .file q ↔ chosen? c dir specifier = some q := by
  rw [Specifier.find_eq, chosen?]
  cases Specifier.alternatives? c.options dir specifier with
  | none => simp
  | some paths =>
    simp only [Option.bind_some]
    cases paths.find? (c.host.present c.fs) <;> simp [Specifier.Found.ofFirst]

theorem mem_refsOf_iff {f : SourceFile} {q : Path} :
    (∃ ref ∈ refsOf c f, ref.present = true ∧ ref.path = q) ↔
      ∃ component ∈ (outlineOf f).components, ∃ u ∈ urls component,
        c.host.present c.fs (f.path.dirname.resolve ⟨u.2.1⟩) = true ∧
          f.path.dirname.resolve ⟨u.2.1⟩ = q := by
  unfold refsOf resourceRefs
  constructor
  · rintro ⟨ref, href, hpresent, rfl⟩
    obtain ⟨refs, hrefs, href⟩ := List.mem_flatten.mp href
    obtain ⟨i, hi, rfl⟩ := List.mem_mapIdx.mp hrefs
    obtain ⟨u, hu, rfl⟩ := List.mem_map.mp href
    exact ⟨_, List.getElem_mem hi, u, hu, hpresent, rfl⟩
  · rintro ⟨component, hcomponent, u, hu, hpresent, rfl⟩
    obtain ⟨i, hi, rfl⟩ := List.getElem_of_mem hcomponent
    exact ⟨_, List.mem_flatten.mpr ⟨_, List.mem_mapIdx.mpr ⟨i, hi, rfl⟩,
      List.mem_map.mpr ⟨u, hu, rfl⟩⟩, hpresent, rfl⟩

theorem mem_nextOf_iff {id : FileId} {p q : Path} {text : String} :
    q ∈ nextOf c (fileAt id p text) ↔ (SourceKind.ofPath p).isModule = true ∧ Refers c p text q := by
  rw [nextOf_fileAt c id 0]
  by_cases hkind : (SourceKind.ofPath p).isModule = true
  · rw [nextOf_eq_linksOf hkind, mem_linksOf, mem_foundOf, mem_refsOf_iff]
    constructor
    · rintro (⟨x, hx, hfind⟩ | ⟨hfull, component, hcomponent, u, hu, hpresent, rfl⟩)
      · exact ⟨hkind, .specifier hx (find_eq_file_iff.mp hfind)⟩
      · exact ⟨hkind, .resource hfull hcomponent hu hpresent⟩
    · rintro ⟨-, hrefers⟩
      cases hrefers with
      | specifier hx hchosen => exact .inl ⟨_, hx, find_eq_file_iff.mpr hchosen⟩
      | resource hfull hcomponent hu hpresent =>
        exact .inr ⟨hfull, _, hcomponent, _, hu, hpresent, rfl⟩
  · rw [nextOf_eq_nil hkind]
    simp [hkind]

theorem Reached.next {p q : Path} {text : String} {id : FileId} (h : Reached c queue p)
    (hread : c.host.read c.fs p = .ok (some text)) (hq : q ∈ nextOf c (fileAt id p text)) :
    Reached c queue q := by
  obtain ⟨hkind, hrefers⟩ := mem_nextOf_iff.mp hq
  exact .refer h hread hkind hrefers

theorem Reached.tidy (hqueue : ∀ p ∈ queue, Path.Tidy p.text.toList) {p : Path}
    (h : Reached c queue p) : Path.Tidy p.text.toList := by
  induction h with
  | root hp => exact hqueue _ hp
  | @refer p q text _ _ hkind hrefers _ =>
    have hnext : q ∈ nextOf c (fileAt 0 p text) := mem_nextOf_iff.mpr ⟨hkind, hrefers⟩
    exact tidy_nextOf hnext

def missingWith (c : BuildContext σ) (missing : List Path) (p : Path) : List Path :=
  if c.roots.contains p then missing ++ [p] else missing

theorem visit_eq {p : Path} (hfault : s.fault = none) (hnew : s.visited.contains p = false) :
    visit c s p =
      match c.host.read c.fs p with
      | .error e => (⟨s.registry, s.program, OrdSet.add s.visited p, some e⟩, [])
      | .ok none =>
          let missing := missingWith c s.program.missingRoots p
          (⟨s.registry, { s.program with missingRoots := missing }, OrdSet.add s.visited p, none⟩, [])
      | .ok (some text) =>
          let f := fileAt (s.registry.intern p).1 p text
          let r := (s.registry.intern p).2.internAll (nextOf c f)
          (⟨r, withFile c s.program (rootsWith c s.program.roots f.id p) r f,
            OrdSet.add s.visited p, none⟩, nextOf c f) := by
  unfold visit
  rw [if_neg (by simp [hfault, hnew])]
  cases c.host.read c.fs p with
  | error e => rfl
  | ok found =>
    cases found with
    | none => by_cases hroot : c.roots.contains p = true <;> simp [missingWith, hroot, hfault]
    | some text =>
      dsimp only
      rw [addFile_eq, hfault]

/-- How far a build has come on its way from the roots. -/
structure Traced (c : BuildContext σ) (queue : List Path) (s : BuildState) : Prop where
  reached : ∀ {p}, Path.Tidy p.text.toList → s.visited.contains p = true → Reached c queue p
  unfailing : s.fault = none → ∀ {p}, Path.Tidy p.text.toList → s.visited.contains p = true →
    ∀ e, c.host.read c.fs p ≠ .error e
  root_iff : ∀ {id}, id ∈ s.program.roots ↔ ∃ f, s.program.file? id = some f ∧ f.path ∈ queue
  missing_iff : ∀ {p}, p ∈ s.program.missingRoots ↔
    p ∈ queue ∧ s.visited.contains p = true ∧ c.host.read c.fs p = .ok none
  roots_nodup : s.program.roots.Nodup
  missing_nodup : s.program.missingRoots.Nodup

theorem traced_initial (r : Registry) : Traced c queue ⟨r, Program.empty, OrdMap.empty, none⟩ where
  reached _ h := by cases h
  unfailing _ _ _ h := by cases h
  root_iff := ⟨fun h => (List.not_mem_nil h).elim, fun ⟨_, hf, _⟩ => by cases hf⟩
  missing_iff := ⟨fun h => (List.not_mem_nil h).elim, fun ⟨_, hv, _⟩ => by cases hv⟩
  roots_nodup := .nil
  missing_nodup := .nil

structure StartsFrom (c : BuildContext σ) (queue : List Path) : Prop where
  roots : c.roots = OrdSet.ofList queue
  tidy : ∀ p ∈ queue, Path.Tidy p.text.toList
  level : ∀ p ∈ queue, p.Level

omit [FileSystem σ] in
theorem StartsFrom.contains_iff (h : StartsFrom c queue) {p : Path} (hp : Path.Tidy p.text.toList) :
    c.roots.contains p = true ↔ p ∈ queue := by
  rw [h.roots, OrdSet.ofList, OrdSet.contains_addAll, OrdMap.contains_eq_isSome, OrdMap.get?_empty,
    Option.isSome_none, Bool.false_or, List.any_eq_true]
  constructor
  · rintro ⟨q, hq, hsame⟩
    rwa [Path.eq_of_components_eq hp (h.tidy q hq) (Path.compare_eq_iff.mp (beq_iff_eq.mp hsame))]
  · exact fun hq => ⟨p, hq, beq_iff_eq.mpr (Path.compare_eq_iff.mpr rfl)⟩

theorem contains_visit_of_tidy {v : OrdSet Path} {p q : Path} (hp : Path.Tidy p.text.toList)
    (hq : Path.Tidy q.text.toList) :
    (OrdSet.add v p).contains q = true ↔ q = p ∨ v.contains q = true := by
  rw [contains_visit]
  exact or_congr_left ⟨fun h => Path.eq_of_components_eq hq hp h, fun h => by rw [h]⟩

section Visit

variable {p : Path}

theorem Traced.failed (h : Traced c queue s) (hqueue : StartsFrom c queue) (hp : Reached c queue p)
    {e : HostError} (hread : c.host.read c.fs p = .error e) :
    Traced c queue ⟨s.registry, s.program, OrdSet.add s.visited p, some e⟩ where
  reached hq hv := by
    rcases (contains_visit_of_tidy (hp.tidy hqueue.tidy) hq).mp hv with rfl | hv
    · exact hp
    · exact h.reached hq hv
  unfailing hnone := by cases hnone
  root_iff := h.root_iff
  missing_iff {q} := by
    rw [h.missing_iff]
    refine and_congr_right fun hq => and_congr_left fun hnone => ?_
    rw [contains_visit_of_tidy (hp.tidy hqueue.tidy) (hqueue.tidy q hq)]
    refine ⟨.inr, fun hv => hv.resolve_left ?_⟩
    rintro rfl
    rw [hread] at hnone
    cases hnone
  roots_nodup := h.roots_nodup
  missing_nodup := h.missing_nodup

theorem Traced.absent (h : Traced c queue s) (hqueue : StartsFrom c queue) (hp : Reached c queue p)
    (hfault : s.fault = none) (hnew : s.visited.contains p = false)
    (hread : c.host.read c.fs p = .ok none) :
    Traced c queue ⟨s.registry,
      { s.program with missingRoots := missingWith c s.program.missingRoots p },
      OrdSet.add s.visited p, none⟩ where
  reached hq hv := by
    rcases (contains_visit_of_tidy (hp.tidy hqueue.tidy) hq).mp hv with rfl | hv
    · exact hp
    · exact h.reached hq hv
  unfailing _ {q} hq hv e := by
    rcases (contains_visit_of_tidy (hp.tidy hqueue.tidy) hq).mp hv with rfl | hv
    · simp [hread]
    · exact h.unfailing hfault hq hv e
  root_iff := h.root_iff
  missing_iff {q} := by
    have hmem : q ∈ missingWith c s.program.missingRoots p ↔
        q ∈ s.program.missingRoots ∨ q = p ∧ p ∈ queue := by
      rw [← hqueue.contains_iff (hp.tidy hqueue.tidy), missingWith]
      split <;> simp [*]
    rw [hmem, h.missing_iff]
    constructor
    · rintro (⟨hq, hv, hnone⟩ | ⟨rfl, hq⟩)
      · exact ⟨hq, contains_visit.mpr (.inr hv), hnone⟩
      · exact ⟨hq, contains_visit.mpr (.inl rfl), hread⟩
    · rintro ⟨hq, hv, hnone⟩
      rcases (contains_visit_of_tidy (hp.tidy hqueue.tidy) (hqueue.tidy q hq)).mp hv with rfl | hv
      · exact .inr ⟨rfl, hq⟩
      · exact .inl ⟨hq, hv, hnone⟩
  roots_nodup := h.roots_nodup
  missing_nodup := by
    show (missingWith c s.program.missingRoots p).Nodup
    unfold missingWith
    split
    · refine List.nodup_append.mpr ⟨h.missing_nodup, List.nodup_singleton p, ?_⟩
      rintro q hq r hr rfl
      rw [List.mem_singleton.mp hr, h.missing_iff, hnew] at hq
      cases hq.2.1
    · exact h.missing_nodup

theorem Traced.withFile (h : Traced c queue s) (hqueue : StartsFrom c queue)
    (hp : Reached c queue p) (hfault : s.fault = none) (hnew : s.visited.contains p = false)
    {text : String} (hread : c.host.read c.fs p = .ok (some text)) {id : FileId} {r : Registry}
    (hfresh : s.program.file? id = none) :
    Traced c queue ⟨r, withFile c s.program (rootsWith c s.program.roots id p) r (fileAt id p text),
      OrdSet.add s.visited p, none⟩ where
  reached hq hv := by
    rcases (contains_visit_of_tidy (hp.tidy hqueue.tidy) hq).mp hv with rfl | hv
    · exact hp
    · exact h.reached hq hv
  unfailing _ {q} hq hv e := by
    rcases (contains_visit_of_tidy (hp.tidy hqueue.tidy) hq).mp hv with rfl | hv
    · simp [hread]
    · exact h.unfailing hfault hq hv e
  root_iff {i} := by
    have hmem : i ∈ rootsWith c s.program.roots id p ↔ i ∈ s.program.roots ∨ i = id ∧ p ∈ queue := by
      rw [← hqueue.contains_iff (hp.tidy hqueue.tidy), rootsWith]
      split <;> simp [*]
    show i ∈ rootsWith c s.program.roots id p ↔ _
    rw [hmem, h.root_iff, file?_withFile]
    by_cases hi : i = id
    · subst hi
      simp [hfresh, fileAt]
    · simp [show i ≠ (fileAt id p text).id from hi, hi]
  missing_iff {q} := by
    show q ∈ s.program.missingRoots ↔ _
    rw [h.missing_iff]
    refine and_congr_right fun hq => and_congr_left fun hnone => ?_
    rw [contains_visit_of_tidy (hp.tidy hqueue.tidy) (hqueue.tidy q hq)]
    refine ⟨.inr, fun hv => hv.resolve_left ?_⟩
    rintro rfl
    rw [hread] at hnone
    cases hnone
  roots_nodup := by
    show (rootsWith c s.program.roots id p).Nodup
    unfold rootsWith
    split
    · refine List.nodup_append.mpr ⟨h.roots_nodup, List.nodup_singleton id, ?_⟩
      rintro i hi j hj rfl
      rw [List.mem_singleton.mp hj, h.root_iff] at hi
      obtain ⟨f, hf, -⟩ := hi
      rw [hfresh] at hf
      cases hf
    · exact h.roots_nodup
  missing_nodup := h.missing_nodup

theorem traced_visit (h : Traced c queue s) (hqueue : StartsFrom c queue) (hs : Sound c s)
    (hp : Reached c queue p) : Traced c queue (visit c s p).1 ∧
      ∀ q ∈ (visit c s p).2, Reached c queue q := by
  by_cases hskip : (s.fault.isSome || s.visited.contains p) = true
  · unfold visit
    rw [if_pos hskip]
    exact ⟨h, fun q hq => (List.not_mem_nil hq).elim⟩
  obtain ⟨hfault, hnew⟩ : s.fault = none ∧ s.visited.contains p = false := by simpa using hskip
  rw [visit_eq hfault hnew]
  split
  · rename_i e hread
    exact ⟨h.failed hqueue hp hread, fun q hq => (List.not_mem_nil hq).elim⟩
  · rename_i hread
    exact ⟨h.absent hqueue hp hfault hnew hread, fun q hq => (List.not_mem_nil hq).elim⟩
  · rename_i text hread
    have hfresh := hs.file?_intern (hp.tidy hqueue.tidy) hnew
    exact ⟨h.withFile hqueue hp hfault hnew hread hfresh, fun q hq => hp.next hread hq⟩

end Visit

theorem traced_round (hqueue : StartsFrom c queue) (todo : List Path) : ∀ {s : BuildState},
    Traced c queue s → Sound c s → (∀ p ∈ todo, Reached c queue p) →
      Traced c queue (round c s todo).1 ∧ ∀ q ∈ (round c s todo).2, Reached c queue q := by
  induction todo with
  | nil => exact fun h _ _ => ⟨h, fun q hq => (List.not_mem_nil hq).elim⟩
  | cons p rest ih =>
    intro s h hs htodo
    have hp := htodo p List.mem_cons_self
    obtain ⟨hfirst, hnext⟩ := traced_visit h hqueue hs hp
    obtain ⟨hlast, hmore⟩ := ih hfirst (step_visit hs (hp.tidy hqueue.tidy)).sound
      fun q hq => htodo q (List.mem_cons_of_mem _ hq)
    exact ⟨hlast, fun q hq => (List.mem_append.mp hq).elim (hnext q) (hmore q)⟩

theorem traced_rounds (hqueue : StartsFrom c queue) (fuel : Nat) : ∀ {s : BuildState} {todo : List Path},
    Traced c queue s → Sound c s → (∀ p ∈ todo, Reached c queue p) →
      (rounds c fuel s todo).fault = none → Traced c queue (rounds c fuel s todo) := by
  induction fuel with
  | zero =>
    intro s todo h hs htodo hfault
    cases todo with
    | nil => exact h
    | cons p rest => cases hfault
  | succ fuel ih =>
    intro s todo h hs htodo hfault
    cases todo with
    | nil => exact h
    | cons p rest =>
      obtain ⟨hround, hnext⟩ := traced_round hqueue (p :: rest) h hs htodo
      have hstep := step_round (fun q hq => (htodo q hq).tidy hqueue.tidy) hs
      exact ih hround hstep.sound hnext hfault

theorem visited_queue {fuel : Nat} {todo : List Path} (hs : Sound c s)
    (htidy : ∀ p ∈ todo, Path.Tidy p.text.toList) (hfault : (rounds c fuel s todo).fault = none) :
    ∀ p ∈ todo, (rounds c fuel s todo).visited.contains p = true := by
  cases todo with
  | nil => exact fun p hp => (List.not_mem_nil hp).elim
  | cons q rest =>
    cases fuel with
    | zero => cases hfault
    | succ fuel =>
      have hstep := step_round htidy hs
      have hnone := ((sound_rounds fuel hstep.sound hstep.tidy).2.2 hfault).1
      exact fun p hp => visited_rounds c p fuel (hstep.done_visited hnone p hp)

theorem fault_visit {p : Path} (hfault : s.fault = none) (hread : ∀ e, c.host.read c.fs p ≠ .error e) :
    (visit c s p).1.fault = none := by
  cases hvisited : s.visited.contains p with
  | true =>
    unfold visit
    rw [if_pos (by simp [hvisited])]
    exact hfault
  | false =>
    rw [visit_eq hfault hvisited]
    cases hfound : c.host.read c.fs p with
    | error e => exact absurd hfound (hread e)
    | ok found => cases found <;> simp

theorem fault_round (todo : List Path) : ∀ {s : BuildState}, s.fault = none →
    (∀ p ∈ todo, ∀ e, c.host.read c.fs p ≠ .error e) → (round c s todo).1.fault = none := by
  induction todo with
  | nil => exact fun h _ => h
  | cons p rest ih =>
    intro s h hread
    exact ih (fault_visit h (hread p List.mem_cons_self)) fun q hq => hread q (List.mem_cons_of_mem _ hq)

/-- A build ends when all that the roots lead to can be looked at. -/
theorem rounds_end (hfinite : FileSystem.Finite c.fs) (hqueue : StartsFrom c queue)
    (hread : ∀ p, Reached c queue p → ∀ e, c.host.read c.fs p ≠ .error e) (fuel : Nat) :
    ∀ {s : BuildState} {todo : List Path}, Traced c queue s → Sound c s → s.Leveled →
      (∀ p ∈ todo, Reached c queue p ∧ p.Level) →
      todo = [] ∨ c.host.capacity c.fs < s.program.files.size + fuel → s.fault = none →
        (rounds c fuel s todo).fault = none := by
  induction fuel with
  | zero =>
    intro s todo h hs hlevel htodo hroom hfault
    cases todo with
    | nil => exact hfault
    | cons p rest =>
      have hsize := hs.size_le hlevel hfinite
      rcases hroom with hroom | hroom
      · cases hroom
      · omega
  | succ fuel ih =>
    intro s todo h hs hlevel htodo hroom hfault
    cases todo with
    | nil => exact hfault
    | cons p rest =>
      obtain ⟨htraced, hnext⟩ := traced_round hqueue (p :: rest) h hs fun q hq => (htodo q hq).1
      have hstep := step_round (fun q hq => (htodo q hq).1.tidy hqueue.tidy) hs
      have hround := advance_round
        (fun q hq => ⟨(htodo q hq).1.tidy hqueue.tidy, (htodo q hq).2⟩) hs
      have hmore := hround.room (hroom.resolve_left (List.cons_ne_nil p rest))
      exact ih htraced hstep.sound (hround.leveled hlevel)
        (fun q hq => ⟨hnext q hq, hround.level q hq⟩) hmore
        (fault_round (p :: rest) hfault fun q hq => hread q (htodo q hq).1)

theorem Reached.visited (hs : Sound c s) (hqueue : StartsFrom c queue) (hcovered : Covered c s [])
    (hroots : ∀ p ∈ queue, s.visited.contains p = true) {p : Path} (h : Reached c queue p) :
    s.visited.contains p = true := by
  induction h with
  | root hp => exact hroots _ hp
  | @refer p q text hp hread hkind hrefers ih =>
    obtain ⟨id, -, hf⟩ := hs.read_file ih (hp.tidy hqueue.tidy) hread
    have hnext : q ∈ nextOf c (fileAt id p text) := mem_nextOf_iff.mpr ⟨hkind, hrefers⟩
    exact (hcovered id _ hf q hnext).resolve_right List.not_mem_nil

end BuildState

end Recompile
