import Recompile.Proofs.Program.Reachable

/-!
Builds made again. Once the identities that a build hands out are known, the same build hands out
none, and makes the same program of them. What becomes of stylesheets plays no part in it.
-/

namespace Recompile

namespace Registry

theorem intern_known {r s : Registry} {p : Path} (h : (r.intern p).2.Within s) :
    s.intern p = ((r.intern p).1, s) := intern_of_lookup? (h.lookup? (lookup?_intern r p))

theorem internAll_known (paths : List Path) : ∀ {r s : Registry}, (r.internAll paths).Within s →
    s.internAll paths = s := by
  induction paths with
  | nil => exact fun _ => rfl
  | cons p rest ih =>
    intro r s h
    have hfirst : s.intern p = ((r.intern p).1, s) :=
      intern_known ((within_internAll rest (r.intern p).2).trans h)
    show (s.intern p).2.internAll rest = s
    rw [hfirst]
    exact ih h

end Registry

namespace BuildState

variable {σ : Type} [FileSystem σ] {c : BuildContext σ} {r : Registry}

theorem within_visit (c : BuildContext σ) (s : BuildState) (p : Path) :
    s.registry.Within (visit c s p).1.registry := by
  rcases visit_cases c s p with ⟨-, heq⟩ | ⟨-, -, ⟨fault, missing, -, heq⟩ | ⟨text, roots, -, heq⟩⟩
  · rw [heq]
    exact .refl _
  · rw [heq]
    exact .refl _
  · rw [heq]
    exact (Registry.within_intern _ p).trans (Registry.within_internAll _ _)

theorem within_round (c : BuildContext σ) (queue : List Path) : ∀ s : BuildState,
    s.registry.Within (round c s queue).1.registry := by
  induction queue with
  | nil => exact fun s => .refl _
  | cons p rest ih => exact fun s => (within_visit c s p).trans (ih _)

theorem within_rounds (c : BuildContext σ) (fuel : Nat) : ∀ (s : BuildState) (queue : List Path),
    s.registry.Within (rounds c fuel s queue).registry := by
  induction fuel with
  | zero =>
    intro s queue
    cases queue <;> exact .refl _
  | succ fuel ih =>
    intro s queue
    cases queue with
    | nil => exact .refl _
    | cons p rest => exact (within_round c (p :: rest) s).trans (ih _ _)

theorem withFile_within (p : Program) (roots : List FileId) {s : Registry} {f : SourceFile}
    (h : r.Within s) (hknown : ∀ q ∈ nextOf c f, ∃ i, r.lookup? q = some i) :
    withFile c p roots s f = withFile c p roots r f := by
  unfold withFile
  by_cases hmodule : f.kind.isModule = true
  · have hlinks : ∀ q ∈ linksOf c f, ∃ i, r.lookup? q = some i := by simpa [nextOf, hmodule] using hknown
    rw [moduleOf_within h hlinks]
  · rw [if_neg hmodule, if_neg hmodule]

theorem visit_again {s : BuildState} {p : Path} (h : (visit c s p).1.registry.Within r) :
    visit c { s with registry := r } p =
      ({ (visit c s p).1 with registry := r }, (visit c s p).2) := by
  by_cases hskip : (s.fault.isSome || s.visited.contains p) = true
  · have hstay : ∀ known, visit c { s with registry := known } p = ({ s with registry := known }, []) :=
      fun known => if_pos hskip
    rw [hstay r, show visit c s p = (s, []) from hstay s.registry]
  · obtain ⟨hfault, hnew⟩ : s.fault = none ∧ s.visited.contains p = false := by simpa using hskip
    have hagain := visit_eq (c := c) (s := { s with registry := r }) (p := p) hfault hnew
    rw [visit_eq hfault hnew] at h ⊢
    rw [hagain]
    cases hread : c.host.read c.fs p with
    | error e => rfl
    | ok found =>
      cases found with
      | none => rfl
      | some text =>
        rw [hread] at h
        dsimp only at h ⊢
        have hid := Registry.intern_known ((Registry.within_internAll _ _).trans h)
        have hnext := Registry.internAll_known _ h
        rw [hid]
        dsimp only
        rw [hnext, withFile_within _ _ h fun q hq => Registry.lookup?_internAll hq _]

theorem round_again (queue : List Path) : ∀ {s : BuildState}, (round c s queue).1.registry.Within r →
    round c { s with registry := r } queue =
      ({ (round c s queue).1 with registry := r }, (round c s queue).2) := by
  induction queue with
  | nil => exact fun _ => rfl
  | cons p rest ih =>
    intro s h
    have hfirst := visit_again ((within_round c rest (visit c s p).1).trans h)
    have hrest := ih (s := (visit c s p).1) h
    simp only [round]
    rw [hfirst, hrest]

theorem rounds_again (fuel : Nat) : ∀ {s : BuildState} {queue : List Path},
    (rounds c fuel s queue).registry.Within r →
      rounds c fuel { s with registry := r } queue = { rounds c fuel s queue with registry := r } := by
  induction fuel with
  | zero =>
    intro s queue h
    cases queue <;> rfl
  | succ fuel ih =>
    intro s queue h
    cases queue with
    | nil => rfl
    | cons p rest =>
      have hround := round_again (p :: rest) ((within_rounds c fuel _ _).trans h)
      show rounds c fuel (round c { s with registry := r } (p :: rest)).1
        (round c { s with registry := r } (p :: rest)).2 = _
      rw [hround]
      exact ih h

def withStyles (c : BuildContext σ) (styles : StyleProcessor) : BuildContext σ :=
  { c with host := { c.host with styles := styles } }

theorem visit_withStyles (styles : StyleProcessor) (s : BuildState) (p : Path) :
    visit (withStyles c styles) s p = visit c s p := by
  unfold visit
  rfl

theorem round_withStyles (styles : StyleProcessor) (queue : List Path) : ∀ s : BuildState,
    round (withStyles c styles) s queue = round c s queue := by
  induction queue with
  | nil => exact fun _ => rfl
  | cons p rest ih =>
    intro s
    simp only [round, visit_withStyles, ih]

theorem rounds_withStyles (styles : StyleProcessor) (fuel : Nat) : ∀ (s : BuildState) (queue : List Path),
    rounds (withStyles c styles) fuel s queue = rounds c fuel s queue := by
  induction fuel with
  | zero =>
    intro s queue
    cases queue <;> rfl
  | succ fuel ih =>
    intro s queue
    cases queue with
    | nil => rfl
    | cons p rest => simp only [rounds, round_withStyles, ih]

end BuildState

namespace Shadow

theorem within_add (state : Program × Registry) (origin : FileId) : state.2.Within (add state origin).2 := by
  unfold add
  dsimp only
  split
  · exact Registry.within_intern _ _
  · exact .refl _

theorem within_foldl (origins : List FileId) : ∀ state : Program × Registry,
    state.2.Within (origins.foldl add state).2 := by
  induction origins with
  | nil => exact fun _ => .refl _
  | cons origin rest ih => exact fun state => (within_add state origin).trans (ih _)

theorem add_again {p : Program} {known r : Registry} {origin : FileId}
    (h : (add (p, known) origin).2.Within r) : add (p, r) origin = ((add (p, known) origin).1, r) := by
  unfold add at h ⊢
  dsimp only at h ⊢
  split
  · rename_i f m hf hm
    rw [hf, hm] at h
    rw [Registry.intern_known h]
  · rfl

theorem foldl_again {r : Registry} (origins : List FileId) : ∀ {p : Program} {known : Registry},
    (origins.foldl add (p, known)).2.Within r →
      origins.foldl add (p, r) = ((origins.foldl add (p, known)).1, r) := by
  induction origins with
  | nil => exact fun _ => rfl
  | cons origin rest ih =>
    intro p known h
    rw [List.foldl_cons, List.foldl_cons, add_again ((within_foldl rest _).trans h)]
    exact ih h

end Shadow

namespace Program

open BuildState

variable {σ : Type} [FileSystem σ]

theorem within_finished (full : Bool) (p : Program) (r : Registry) : r.Within (finished full p r).2 := by
  cases full with
  | true => exact Shadow.within_foldl _ (settle p, r)
  | false => exact .refl _

theorem finished_again {full : Bool} {p : Program} {known r : Registry}
    (h : (finished full p known).2.Within r) : finished full p r = ((finished full p known).1, r) := by
  cases full with
  | true => exact Shadow.foldl_again _ h
  | false => rfl

theorem concluded_again {full : Bool} {s : BuildState} {p : Program} {r : Registry}
    (h : concluded full s = (.ok p, r)) :
    s.registry.Within r ∧ concluded full { s with registry := r } = (.ok p, r) := by
  unfold concluded at h ⊢
  dsimp only
  split at h
  · cases h
  · obtain ⟨hprogram, hregistry⟩ := Prod.mk.inj h
    have hleft : (finished full s.program s.registry).2.Within r := hregistry ▸ .refl _
    refine ⟨(within_finished full _ _).trans hleft, ?_⟩
    rw [finished_again hleft]
    exact congrArg (·, r) hprogram

theorem build_withStyles (options : Options) (host : Host) (fs : σ) (full : Bool) (registry : Registry)
    (roots : List Path) (styles : StyleProcessor) :
    build options { host with styles := styles } fs full registry roots =
      build options host fs full registry roots :=
  congrArg (concluded full) (rounds_withStyles (c := ⟨options, host, fs, full, _⟩) styles _ _ _)

theorem build_again {options : Options} {host : Host} {fs : σ} {full : Bool} {known r : Registry}
    {roots : List Path} {p : Program} (h : build options host fs full known roots = (.ok p, r)) :
    build options host fs full r roots = (.ok p, r) := by
  rw [build_eq] at h ⊢
  obtain ⟨hwithin, hagain⟩ := concluded_again h
  rw [outcome, rounds_again _ hwithin]
  exact hagain

end Program

end Recompile
