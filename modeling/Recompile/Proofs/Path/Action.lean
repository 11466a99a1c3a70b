import Recompile.Proofs.Path.Normal

/-!
Resolution as an action. Components are taken in one after the other, and a relative path does the
same to whatever was taken in before it as its normal form does. So a path may be normalized before
or after it is read from a directory, and reading from one directory after another is reading from
the directory that the two make together.
-/

namespace Recompile.Path

theorem mem_foldComponent {done : List Component} {c d : Component} (h : d ∈ foldComponent done c) :
    d ∈ done ∨ d = c := by
  unfold foldComponent at h
  split at h
  · exact .inl h
  · exact .inl (List.mem_cons_of_mem _ h)
  · exact .inl h
  · exact (List.mem_cons.mp h).symm
  · exact (List.mem_cons.mp h).symm

theorem mem_foldl_foldComponent {cs : List Component} {d : Component} : ∀ {done : List Component},
    d ∈ cs.foldl foldComponent done → d ∈ done ∨ d ∈ cs := by
  induction cs with
  | nil => exact fun h => .inl h
  | cons c cs ih =>
    intro done h
    rcases ih h with h | h
    · rcases mem_foldComponent h with h | rfl
      · exact .inl h
      · exact .inr List.mem_cons_self
    · exact .inr (List.mem_cons_of_mem c h)

theorem mem_normalComponents {cs : List Component} {d : Component} (h : d ∈ normalComponents cs) :
    d ∈ cs :=
  (mem_foldl_foldComponent (List.mem_reverse.mp h)).resolve_left List.not_mem_nil

theorem foldl_normalComponents {cs : List Component} (h : .root ∉ cs) (done : List Component) :
    (normalComponents cs).foldl foldComponent done = cs.foldl foldComponent done := by
  induction cs using List.reverseRecOn with
  | nil => rfl
  | append_singleton cs c ih =>
    rw [List.mem_append, not_or] at h
    have hroot : .root ∉ cs.foldl foldComponent [] := fun hmem =>
      h.1 ((mem_foldl_foldComponent hmem).resolve_left List.not_mem_nil)
    have hnormal : normalComponents (cs ++ [c]) =
        (foldComponent (cs.foldl foldComponent []) c).reverse := by
      rw [normalComponents, List.foldl_concat]
    replace ih := ih h.1
    rw [normalComponents] at ih
    rw [hnormal, List.foldl_concat, ← ih]
    generalize cs.foldl foldComponent [] = taken at hroot
    cases c with
    | root => exact absurd (List.mem_singleton_self _) h.2
    | here => rfl
    | name s => rw [foldComponent_name, List.reverse_cons, List.foldl_concat]
    | up =>
      -- a step up takes back a name, and stays after anything else
      cases taken with
      | nil => rfl
      | cons d taken =>
        cases d with
        | root => exact absurd List.mem_cons_self hroot
        | here => exact (congrArg _ List.reverse_cons).trans (List.foldl_concat ..)
        | up => exact (congrArg _ List.reverse_cons).trans (List.foldl_concat ..)
        | name s =>
          show taken.reverse.foldl foldComponent done = _
          rw [List.reverse_cons, List.foldl_concat, foldComponent_name]
          rfl

theorem here_not_mem_normalComponents (p : Path) : .here ∉ normalComponents p.components := by
  obtain ⟨steps, hsteps, hshape⟩ := normalComponents_shape p
  rcases hshape with hshape | hshape
  · rw [hshape]
    exact fun h => hsteps _ h
  · rw [hshape]
    exact fun h => (List.mem_cons.mp h).elim nofun (hsteps _)

theorem components_normalize (p : Path) : p.normalize.components =
    if normalComponents p.components = [] then [.here] else normalComponents p.components := by
  obtain ⟨steps, hsteps, hshape⟩ := normalComponents_shape p
  unfold normalize
  split
  · rename_i hnil
    rw [if_pos hnil]
    rfl
  · rename_i hne
    rw [if_neg hne]
    rcases hshape with hshape | hshape
    · rw [hshape] at hne ⊢
      exact components_render_steps hsteps hne
    · rw [hshape]
      exact components_render_root hsteps

theorem normalComponents_normalize (p : Path) :
    normalComponents p.normalize.components = normalComponents p.components := by
  have hagain := congrArg components (normal_normalize p)
  rw [components_normalize p.normalize] at hagain
  by_cases hnil : normalComponents p.components = []
  · rw [components_normalize, if_pos hnil, hnil]
    rfl
  · rw [components_normalize p, if_neg hnil] at hagain ⊢
    split at hagain
    · exact absurd (hagain ▸ List.mem_singleton_self _) (here_not_mem_normalComponents p)
    · exact hagain

theorem root_mem_components_iff {p : Path} : .root ∈ p.components ↔ p.isAbsolute = true := by
  constructor
  · intro h
    have h : .root ∈ (lead p.text.toList).1 ++
        (segments (lead p.text.toList).2).filterMap Component.ofSegment? := h
    rcases List.mem_append.mp h with h | h
    · rcases lead_cases p.text.toList with ⟨t, ht, -⟩ | ⟨-, hlead⟩ | ⟨t, -, hlead⟩ | hlead
      · exact isAbsolute_iff.mpr ⟨t, ht⟩
      all_goals
        rw [hlead] at h
        simp at h
    · exact absurd h (root_not_mem_filterMap _)
  · intro h
    obtain ⟨body, hbody⟩ := isAbsolute_iff.mp h
    rw [components_of_slash hbody]
    exact List.mem_cons_self

@[simp] theorem isAbsolute_normalize (p : Path) : p.normalize.isAbsolute = p.isAbsolute := by
  rw [Bool.eq_iff_iff]
  constructor
  · intro h
    have hmem := root_mem_components_iff.mpr h
    rw [components_normalize] at hmem
    split at hmem
    · cases List.mem_singleton.mp hmem
    · exact root_mem_components_iff.mp (mem_normalComponents hmem)
  · exact fun h => (rooted_normalize h).isAbsolute

theorem root_not_mem_components {p : Path} (h : p.isAbsolute = false) : .root ∉ p.components := by
  rw [root_mem_components_iff, h]
  exact Bool.false_ne_true

theorem components_of_relative {p : Path} (h : p.isAbsolute = false) :
    p.components = stepsOf p.text.toList ∨ p.components = .here :: stepsOf p.text.toList := by
  have hhere : Component.ofSegment? ['.'] = none := rfl
  have hskip : Component.ofSegment? [] = none := rfl
  show (lead p.text.toList).1 ++ stepsOf (lead p.text.toList).2 = _ ∨
    (lead p.text.toList).1 ++ stepsOf (lead p.text.toList).2 = _
  rcases lead_cases p.text.toList with ⟨cs, htext, -⟩ | ⟨htext, hlead⟩ | ⟨cs, htext, hlead⟩ | hlead
  · rw [isAbsolute_iff.mpr ⟨cs, htext⟩] at h
    cases h
  · rw [hlead, htext]
    exact .inr rfl
  · have hsegments : segments ('.' :: '/' :: cs) = ['.'] :: segments cs := segments_append_slash ['.'] cs
    rw [hlead, htext, stepsOf, stepsOf, hsegments]
    exact .inr (by simp [hhere, hskip])
  · rw [hlead]
    exact .inl rfl

/-- What is taken in when a path is read after other components, the last one first. -/
def taken (p : Path) (done : List Component) : List Component := p.components.foldl foldComponent done

theorem taken_normalize_nil (p : Path) : p.normalize.taken [] = p.taken [] :=
  List.reverse_injective (normalComponents_normalize p)

theorem normalize_eq_iff {p q : Path} : p.normalize = q.normalize ↔ p.taken [] = q.taken [] := by
  constructor
  · intro h
    rw [← taken_normalize_nil p, h, taken_normalize_nil]
  · intro h
    have hnormal : normalComponents p.components = normalComponents q.components :=
      congrArg List.reverse h
    unfold normalize
    rw [hnormal]

theorem taken_normalize {p : Path} (h : p.isAbsolute = false) (done : List Component) :
    p.normalize.taken done = p.taken done := by
  rw [taken, components_normalize, taken, ← foldl_normalComponents (root_not_mem_components h)]
  split
  · rename_i hnil
    rw [hnil]
    rfl
  · rfl

theorem join_of_nil {p q : Path} (hp : p.text.toList = []) (hq : q.isAbsolute = false) : p.join q = q := by
  have hempty : p.text = "" := String.toList_inj.mp hp
  unfold join
  rw [if_neg (by simp [hq]), if_pos (by simp [hempty]), hempty, String.empty_append]

theorem isAbsolute_join_of_relative (p : Path) {q : Path} (hq : q.isAbsolute = false)
    (hp : p.isAbsolute = false) : (p.join q).isAbsolute = false := by
  by_cases hnil : p.text.toList = []
  · rw [join_of_nil hnil hq, hq]
  · rw [← Bool.not_eq_true, ← root_mem_components_iff, components_join hnil hq, List.mem_append, not_or]
    exact ⟨root_not_mem_components hp, root_not_mem_filterMap _⟩

theorem taken_join (p : Path) {q : Path} (h : q.isAbsolute = false) (done : List Component) :
    (p.join q).taken done = q.taken (p.taken done) := by
  by_cases hnil : p.text.toList = []
  · have hnone : p.components = [] := by
      unfold components
      rw [hnil]
      rfl
    rw [join_of_nil hnil h, taken.eq_1 p, hnone]
    rfl
  · rw [taken, components_join hnil h, List.foldl_append, taken, taken]
    rcases components_of_relative h with hq | hq <;> rw [hq]
    rfl

theorem resolve_of_absolute {p q : Path} (h : q.isAbsolute = true) : p.resolve q = q.normalize :=
  if_pos h

theorem resolve_of_relative {p q : Path} (h : q.isAbsolute = false) :
    p.resolve q = (p.join q).normalize := if_neg (by simp [h])

theorem resolve_normalize (p q : Path) : p.normalize.resolve q.normalize = p.resolve q := by
  cases h : q.isAbsolute with
  | true => rw [resolve_of_absolute h, resolve_of_absolute (by simpa using h), normal_normalize]
  | false =>
    have h' : q.normalize.isAbsolute = false := by simpa using h
    rw [resolve_of_relative h, resolve_of_relative h']
    refine normalize_eq_iff.mpr ?_
    calc (p.normalize.join q.normalize).taken []
        = q.normalize.taken (p.normalize.taken []) := taken_join _ h' _
      _ = q.taken (p.taken []) := by rw [taken_normalize h, taken_normalize_nil]
      _ = (p.join q).taken [] := (taken_join _ h _).symm

theorem resolve_normalize_left (p q : Path) : p.normalize.resolve q = p.resolve q := by
  rw [← resolve_normalize, normal_normalize, resolve_normalize]

theorem resolve_normalize_right (p q : Path) : p.resolve q.normalize = p.resolve q := by
  rw [← resolve_normalize, normal_normalize, resolve_normalize]

theorem resolve_assoc (p q r : Path) : p.resolve (q.resolve r) = (p.resolve q).resolve r := by
  cases hr : r.isAbsolute with
  | true => rw [resolve_of_absolute hr, resolve_of_absolute hr, resolve_normalize_right,
      resolve_of_absolute hr]
  | false =>
    rw [resolve_of_relative hr, resolve_normalize_right]
    cases hq : q.isAbsolute with
    | true =>
      rw [resolve_of_absolute (isAbsolute_join hq r), resolve_of_absolute hq, resolve_normalize_left,
        resolve_of_relative hr]
    | false =>
      have hjoin := isAbsolute_join_of_relative q hr hq
      rw [resolve_of_relative hjoin, resolve_of_relative hq, resolve_normalize_left,
        resolve_of_relative hr]
      refine normalize_eq_iff.mpr ?_
      calc (p.join (q.join r)).taken []
          = r.taken (q.taken (p.taken [])) := by rw [taken_join _ hjoin, taken_join _ hr]
        _ = ((p.join q).join r).taken [] := by rw [taken_join _ hr, taken_join _ hq]

theorem normalComponents_of_relative {p : Path} (h : p.isAbsolute = false) :
    ∃ (rise : Nat) (names : List String), (∀ n ∈ names, IsName n.toList) ∧
      normalComponents p.components = List.replicate rise .up ++ names.map .name := by
  obtain ⟨names, floor, hnames, ⟨rise, rfl⟩, heq⟩ :=
    @foldl_floor (fun floor => ∃ rise, floor = List.replicate rise .up)
      (fun ⟨rise, hrise⟩ => ⟨rise + 1, by cases rise <;> rw [hrise] <;> rfl⟩)
      (stepsOf p.text.toList) (fun c hc => isStep_of_mem_filterMap hc) [] []
      (fun _ hn => (List.not_mem_nil hn).elim) ⟨0, rfl⟩
  have hsteps : normalComponents p.components = normalComponents (stepsOf p.text.toList) := by
    rcases components_of_relative h with hp | hp <;> rw [hp]
    rfl
  refine ⟨rise, names.reverse, fun n hn => hnames n (List.mem_reverse.mp hn), ?_⟩
  rw [hsteps, normalComponents]
  show ((stepsOf p.text.toList).foldl foldComponent ([].map Component.name ++ [])).reverse = _
  rw [heq]
  simp

/-- Nothing stands for nothing, steps up stand at the start only, and there are none after the root. -/
structure Reduced (cs : List Component) : Prop where
  here : .here ∉ cs
  up : ∃ rise rest, cs = List.replicate rise .up ++ rest ∧ .up ∉ rest
  root : .root ∈ cs → .up ∉ cs

theorem reduced_normalComponents (p : Path) : Reduced (normalComponents p.components) := by
  cases h : p.isAbsolute with
  | true =>
    obtain ⟨names, -, hnormal⟩ := normalComponents_of_absolute h
    have hup : .up ∉ normalComponents p.components := by simp [hnormal]
    exact ⟨here_not_mem_normalComponents p, ⟨0, _, rfl, hup⟩, fun _ => hup⟩
  | false =>
    obtain ⟨rise, names, -, hnormal⟩ := normalComponents_of_relative h
    refine ⟨here_not_mem_normalComponents p, ⟨rise, _, hnormal, by simp⟩, fun hroot => ?_⟩
    exact absurd (mem_normalComponents hroot) (root_not_mem_components h)

theorem foldl_rise (more rise : Nat) : (List.replicate more Component.up).foldl foldComponent
    (List.replicate rise .up) = List.replicate (rise + more) .up := by
  induction more generalizing rise with
  | zero => rfl
  | succ more ih =>
    have hup : foldComponent (List.replicate rise .up) .up = List.replicate (rise + 1) .up := by
      cases rise <;> rfl
    rw [List.replicate_succ, List.foldl_cons, hup, ih, Nat.add_right_comm, Nat.add_assoc]

theorem foldl_climb (more rise : Nat) (names : List String) :
    (List.replicate more Component.up ++ names.map Component.name).foldl foldComponent
      (List.replicate rise .up) =
      (List.replicate (rise + more) Component.up ++ names.map Component.name).reverse := by
  rw [List.foldl_append, foldl_rise, foldl_names, List.reverse_append, List.reverse_replicate]

theorem names_of_steps {cs : List Component} (hsteps : ∀ c ∈ cs, c.IsStep) (hup : .up ∉ cs) :
    ∃ names : List String, cs = names.map .name := by
  obtain ⟨names, hnames, -⟩ := @exists_names cs fun c hc => by
    have hstep := hsteps c hc
    cases c with
    | root => cases hstep
    | here => cases hstep
    | up => exact absurd hc hup
    | name s => exact ⟨s, rfl, hstep⟩
  exact ⟨names, hnames⟩

theorem normalComponents_of_reduced {p : Path} (h : Reduced p.components) :
    normalComponents p.components = p.components := by
  cases hp : p.isAbsolute with
  | true =>
    have hup := h.root (root_mem_components_iff.mpr hp)
    obtain ⟨body, hbody⟩ := isAbsolute_iff.mp hp
    rw [components_of_slash hbody] at hup ⊢
    obtain ⟨names, hnames⟩ := names_of_steps (fun c hc => isStep_of_mem_filterMap hc)
      fun hmem => hup (List.mem_cons_of_mem _ hmem)
    rw [hnames, normalComponents_names]
  | false =>
    have hsteps : p.components = stepsOf p.text.toList := (components_of_relative hp).resolve_right
      fun hhere => h.here (hhere ▸ List.mem_cons_self)
    obtain ⟨rise, rest, hrest, hup⟩ := h.up
    obtain ⟨names, rfl⟩ := names_of_steps (fun c hc => isStep_of_mem_filterMap
      (show c ∈ stepsOf p.text.toList by rw [← hsteps, hrest]; exact List.mem_append_right _ hc)) hup
    have hclimb := foldl_climb rise 0 names
    rw [Nat.zero_add] at hclimb
    rw [hrest, normalComponents]
    exact (congrArg List.reverse hclimb).trans (List.reverse_reverse _)

/-- Resolution is an action: it does not matter which of two readings comes first, nor whether the
paths are normalized before. Normal forms are the dot and the reduced paths, and no others. -/
theorem resolve_acts (a b c : Path) :
    a.resolve (b.resolve c) = (a.resolve b).resolve c ∧
    a.resolve b = a.normalize.resolve b.normalize ∧
    a.normalize.normalize = a.normalize ∧
    (a.normalize = ⟨"."⟩ ∨ Reduced a.normalize.components) ∧
    (a.isAbsolute = true → .up ∉ a.normalize.components) ∧
    (a.components ≠ [] → Reduced a.components → a.normalize.components = a.components) := by
  have hshape : a.normalize = ⟨"."⟩ ∨ Reduced a.normalize.components := by
    by_cases hnil : normalComponents a.components = []
    · refine .inl ?_
      unfold normalize
      rw [hnil]
    · refine .inr ?_
      rw [components_normalize, if_neg hnil]
      exact reduced_normalComponents a
  refine ⟨resolve_assoc a b c, (resolve_normalize a b).symm, normal_normalize a, hshape, ?_, ?_⟩
  · intro habs
    rcases hshape with hdot | hreduced
    · rw [hdot]
      decide
    · exact hreduced.root (root_mem_components_iff.mpr (by rwa [isAbsolute_normalize]))
  · intro hne hreduced
    have hnormal := normalComponents_of_reduced hreduced
    rw [components_normalize, hnormal, if_neg hne]

theorem resolve_acts_twoSteps :
    resolve ⟨"/ws//src"⟩ (resolve ⟨"../../lib"⟩ ⟨"../x/./y"⟩) =
      (resolve ⟨"/ws//src"⟩ ⟨"../../lib"⟩).resolve ⟨"../x/./y"⟩ ∧
    .up ∉ (normalize ⟨"/ws//src"⟩).components ∧
    (normalize ⟨"/ws//src"⟩).components = [.root, .name "ws", .name "src"] := by
  have h := resolve_acts ⟨"/ws//src"⟩ ⟨"../../lib"⟩ ⟨"../x/./y"⟩
  have hreduced : Reduced (components ⟨"/ws//src"⟩) :=
    ⟨by decide, ⟨0, [.root, .name "ws", .name "src"], by decide, by decide⟩, by decide⟩
  exact ⟨h.1, h.2.2.2.2.1 (by decide), h.2.2.2.2.2 (by decide) hreduced⟩

end Recompile.Path
