import Recompile.Bundle.Classification
import Recompile.Ledger.BuildInfo
import Recompile.Proofs.Path.Action

/-!
The way from a directory to a path, written with slashes, and what it leads to when it is read from
the directory again. It leads to the path whenever the path is absolute, and otherwise when the
directory is relative and does not climb higher than the path does. So the names that files have in
build infos and in lists of initial files tell their normal forms.
-/

namespace Recompile.Path

def ascent (p : Path) : Nat := (p.components.takeWhile (· = .up)).length

theorem ascent_normalize {p : Path} {rise : Nat} {names : List String}
    (h : normalComponents p.components = List.replicate rise .up ++ names.map .name) :
    p.normalize.ascent = rise := by
  have hnames : (names.map Component.name).takeWhile (· = .up) = [] := by cases names <;> simp
  unfold ascent
  rw [components_normalize, h]
  split
  · rename_i hnil
    obtain rfl : rise = 0 := by simpa using (List.append_eq_nil_iff.mp hnil).1
    rfl
  · rw [List.takeWhile_append_of_pos fun c hc => by simp [List.eq_of_mem_replicate hc], hnames,
      List.append_nil, List.length_replicate]

def walk : List Component → Path
  | [] => ⟨"."⟩
  | steps => ofComponents steps

section Walk

variable {steps : List Component}

theorem components_walk (h : ∀ c ∈ steps, c.IsStep) :
    (walk steps).components = if steps = [] then [.here] else steps := by
  cases steps with
  | nil => rfl
  | cons c steps => exact components_render_steps h (List.cons_ne_nil c steps)

theorem isAbsolute_walk (h : ∀ c ∈ steps, c.IsStep) : (walk steps).isAbsolute = false := by
  rw [← Bool.not_eq_true, ← root_mem_components_iff, components_walk h]
  split
  · decide
  · exact fun hroot => h _ hroot

theorem taken_walk (h : ∀ c ∈ steps, c.IsStep) (done : List Component) :
    (walk steps).taken done = steps.foldl foldComponent done := by
  rw [taken, components_walk h]
  split
  · rename_i hnil
    rw [hnil]
    rfl
  · rfl

theorem tidy_walk (h : ∀ c ∈ steps, c.IsStep) : Tidy (walk steps).text.toList := by
  cases steps with
  | nil => trivial
  | cons c steps => exact (tidy_render h).2 (List.cons_ne_nil c steps)

end Walk

theorem toSlash_of_tidy {p : Path} (h : Tidy p.text.toList) : (⟨p.toSlash⟩ : Path) = p := by
  rw [toSlash, render_components_of_tidy h]

theorem relative_normalize (p q : Path) : p.normalize.relative q.normalize = p.relative q := by
  unfold relative
  dsimp only
  rw [normalComponents_normalize, normalComponents_normalize]

theorem dropShared_append (shared as bs : List Component) :
    dropShared (shared ++ as) (shared ++ bs) = dropShared as bs := by
  induction shared with
  | nil => rfl
  | cons c shared ih => rw [List.cons_append, List.cons_append, dropShared, if_pos rfl, ih]

theorem dropShared_of_head_ne {as bs : List Component} {b : Component} (h : as.head? ≠ some b) :
    dropShared as (b :: bs) = (as, b :: bs) := by
  cases as with
  | nil => rfl
  | cons a as =>
    rw [dropShared, if_neg]
    rintro rfl
    exact h rfl

theorem relative_eq_walk {source target : Path} {rise descent : List Component}
    (h : dropShared (normalComponents source.components) (normalComponents target.components) =
      (rise, descent)) (hdescent : .root ∉ descent) :
    source.relative target = walk (List.replicate rise.length .up ++ descent) := by
  unfold relative
  dsimp only
  rw [h, List.map_const']
  dsimp only
  split
  · exact absurd List.mem_cons_self hdescent
  · rfl

theorem resolve_walk {steps : List Component} (h : ∀ c ∈ steps, c.IsStep) (source target : Path) :
    source.resolve ⟨(walk steps).toSlash⟩ = target.normalize ↔
      steps.foldl foldComponent (source.taken []) = target.taken [] := by
  rw [toSlash_of_tidy (tidy_walk h), resolve_of_relative (isAbsolute_walk h), normalize_eq_iff,
    taken_join _ (isAbsolute_walk h), taken_walk h]

/-- The way to an absolute path leads there, from wherever it starts. -/
theorem resolve_relative_of_absolute {source target : Path} (h : target.isAbsolute = true) :
    source.resolve ⟨(source.relative target).toSlash⟩ = target.normalize := by
  cases hsource : source.isAbsolute with
  | true =>
    rw [← resolve_normalize_left, ← relative_normalize]
    exact resolve_way (rooted_normalize hsource) (rooted_normalize h) (normal_normalize target)
  | false =>
    obtain ⟨names, -, hnames⟩ := normalComponents_of_absolute h
    have hhead : (normalComponents source.components).head? ≠ some .root := fun hhead =>
      root_not_mem_components hsource (mem_normalComponents (List.mem_of_mem_head? hhead))
    have hway : source.relative target = target.normalize := by
      unfold relative normalize
      dsimp only
      rw [hnames, dropShared_of_head_ne hhead]
    rw [hway, toSlash_of_tidy (tidy_normalize target), resolve_of_absolute (by simpa using h),
      normal_normalize]

theorem foldl_descend (names : List String) (done : List Component) :
    (List.replicate names.length Component.up).foldl foldComponent
      ((names.map Component.name).reverse ++ done) = done := by
  have hups : List.replicate names.length Component.up = names.reverse.map fun _ => .up := by
    rw [List.map_const', List.length_reverse]
  rw [hups, ← List.map_reverse, foldl_ups]

theorem foldl_way (m n : Nat) (as bs : List String) : ∃ rise descent,
    dropShared (List.replicate m .up ++ as.map .name) (List.replicate n .up ++ bs.map .name) =
      (rise, descent) ∧
    descent ⊆ List.replicate n Component.up ++ bs.map Component.name ∧
    (List.replicate rise.length Component.up ++ descent).foldl foldComponent
        ((as.map Component.name).reverse ++ List.replicate m Component.up) =
      (List.replicate (n + 2 * (m - n)) Component.up ++ bs.map Component.name).reverse := by
  have hclimbs : ∀ k : Nat, List.replicate (k + 1) Component.up = .up :: List.replicate k .up :=
    fun _ => rfl
  rcases Nat.lt_trichotomy m n with hlt | rfl | hgt
  · obtain ⟨k, rfl⟩ : ∃ k, n = m + (k + 1) := ⟨n - m - 1, by omega⟩
    have hhead : (as.map Component.name).head? ≠ some .up := by cases as <;> simp
    refine ⟨as.map .name, List.replicate (k + 1) Component.up ++ bs.map .name, ?_, ?_, ?_⟩
    · rw [List.replicate_add, List.append_assoc, dropShared_append, hclimbs, List.cons_append,
        dropShared_of_head_ne hhead]
    · rw [List.replicate_add m, List.append_assoc]
      exact List.subset_append_right _ _
    · rw [List.length_map, List.foldl_append, foldl_descend, foldl_climb, Nat.sub_eq_zero_of_le (by omega)]
      rfl
  · obtain ⟨shared, rise, descent, rfl, rfl, hdrop⟩ := dropShared_names as bs
    refine ⟨rise.map .name, descent.map .name, by rw [dropShared_append, hdrop], ?_, ?_⟩
    · rw [List.map_append, ← List.append_assoc]
      exact List.subset_append_right _ _
    · rw [List.length_map, List.map_append, List.reverse_append, List.append_assoc, List.foldl_append,
        foldl_descend, foldl_names]
      simp
  · obtain ⟨k, rfl⟩ : ∃ k, m = n + (k + 1) := ⟨m - n - 1, by omega⟩
    have hhead : ∀ c, (bs.map Component.name).head? = some c → c ≠ .up := by cases bs <;> simp
    have hdrop : dropShared (List.replicate (k + 1) Component.up ++ as.map .name) (bs.map .name) =
        (List.replicate (k + 1) Component.up ++ as.map .name, bs.map .name) := by
      cases bs with
      | nil => rfl
      | cons b bs => exact dropShared_of_head_ne (by simp [hclimbs])
    refine ⟨List.replicate (k + 1) Component.up ++ as.map .name, bs.map .name, ?_,
      List.subset_append_right _ _, ?_⟩
    · rw [List.replicate_add, List.append_assoc, dropShared_append, hdrop]
    · have hrise : n + (k + 1) + (k + 1) = n + 2 * (n + (k + 1) - n) := by omega
      rw [List.length_append, List.length_replicate, List.length_map, Nat.add_comm (k + 1),
        List.replicate_add as.length, List.append_assoc, List.foldl_append, foldl_descend, foldl_climb,
        hrise]

/-- The way between two relative paths leads to its end if and only if it does not have to climb out
of more steps up than its end has. -/
theorem resolve_relative_of_relative {source target : Path} (hs : source.isAbsolute = false)
    (ht : target.isAbsolute = false) :
    source.resolve ⟨(source.relative target).toSlash⟩ = target.normalize ↔
      source.normalize.ascent ≤ target.normalize.ascent := by
  obtain ⟨m, as, has, hsource⟩ := normalComponents_of_relative hs
  obtain ⟨n, bs, hbs, htarget⟩ := normalComponents_of_relative ht
  have hstart : source.taken [] = (as.map Component.name).reverse ++ List.replicate m Component.up := by
    have hreverse := congrArg List.reverse hsource
    rwa [normalComponents, List.reverse_reverse, List.reverse_append, List.reverse_replicate] at hreverse
  have hend : target.taken [] = (List.replicate n Component.up ++ bs.map Component.name).reverse := by
    rw [← htarget, normalComponents, List.reverse_reverse]
    rfl
  obtain ⟨rise, descent, hdrop, hsubset, hway⟩ := foldl_way m n as bs
  have hsteps : ∀ c ∈ List.replicate rise.length Component.up ++ descent, c.IsStep := by
    intro c hc
    rcases List.mem_append.mp hc with hc | hc
    · rw [List.eq_of_mem_replicate hc]
      trivial
    · rcases List.mem_append.mp (hsubset hc) with hc | hc
      · rw [List.eq_of_mem_replicate hc]
        trivial
      · exact isStep_names hbs c hc
  rw [ascent_normalize hsource, ascent_normalize htarget,
    relative_eq_walk (by rw [hsource, htarget, hdrop]) fun hroot => hsteps _ (List.mem_append_right _ hroot),
    resolve_walk hsteps, hstart, hway, hend]
  constructor
  · intro heq
    have hlength := congrArg List.length heq
    simp only [List.length_reverse, List.length_append, List.length_replicate] at hlength
    omega
  · intro hle
    rw [Nat.sub_eq_zero_of_le hle]
    rfl

theorem way_eq_iff {base p q : Path} (hp : p.isAbsolute = true) (hq : q.isAbsolute = true) :
    (base.relative p).toSlash = (base.relative q).toSlash ↔ p.normalize = q.normalize := by
  constructor
  · intro h
    rw [← @resolve_relative_of_absolute base p hp, h, resolve_relative_of_absolute hq]
  · intro h
    rw [← relative_normalize, h, relative_normalize]

theorem isAbsolute_resolve {base : Path} (h : base.isAbsolute = true) (q : Path) :
    (base.resolve q).isAbsolute = true := (rooted_resolve_absolute h q).isAbsolute

/-- The way from a directory leads back to exactly those paths that are absolute, or that climb at
least as high as the directory when both are relative. By their ways from one directory, absolute
paths are told apart up to their normal forms. -/
theorem resolve_relative_iff (source target : Path) :
    (source.resolve ⟨(source.relative target).toSlash⟩ = target.normalize ↔
      source.isAbsolute = true ∧ target.isAbsolute = true ∨
      source.isAbsolute = false ∧ target.isAbsolute = true ∨
      source.isAbsolute = false ∧ target.isAbsolute = false ∧
        source.normalize.ascent ≤ target.normalize.ascent) ∧
    (∀ {r : Registry} {i j : FileId} {p q : Path}, r.path? i = some p → r.path? j = some q →
      p.isAbsolute = true → q.isAbsolute = true →
        (BuildInfo.nameOf? r source i = BuildInfo.nameOf? r source j ↔ p.normalize = q.normalize)) ∧
    ∀ {s : Bundle.Scope} {p q : Path}, s.workspaceRoot = source → p.isAbsolute = true →
      q.isAbsolute = true → (s.key p.text = s.key q.text ↔ p.normalize = q.normalize) := by
  refine ⟨?_, ?_, ?_⟩
  · cases hs : source.isAbsolute with
    | true =>
      cases ht : target.isAbsolute with
      | true => simpa using resolve_relative_of_absolute ht
      | false =>
        have hne : source.resolve ⟨(source.relative target).toSlash⟩ ≠ target.normalize := by
          intro heq
          have habs := isAbsolute_resolve hs ⟨(source.relative target).toSlash⟩
          rw [heq, isAbsolute_normalize, ht] at habs
          cases habs
        simpa using hne
    | false =>
      cases ht : target.isAbsolute with
      | true => simpa using resolve_relative_of_absolute ht
      | false => simpa using resolve_relative_of_relative hs ht
  · intro r i j p q hi hj hp hq
    rw [BuildInfo.nameOf?, BuildInfo.nameOf?, hi, hj, Option.map_some, Option.map_some, Option.some_inj]
    exact way_eq_iff hp hq
  · rintro s p q rfl hp hq
    rw [Bundle.Scope.key, Bundle.Scope.key, resolve_of_absolute hp, resolve_of_absolute hq,
      way_eq_iff (by simpa using hp) (by simpa using hq)]
    exact ⟨fun h => by rwa [normal_normalize p, normal_normalize q] at h, congrArg normalize⟩

theorem resolve_relative_iff_sameFile :
    resolve ⟨"/ws/src"⟩ ⟨(relative ⟨"/ws/src"⟩ ⟨"/ws/lib/../a.ts"⟩).toSlash⟩ =
      normalize ⟨"/ws/lib/../a.ts"⟩ ∧
    BuildInfo.nameOf? ⟨[⟨"/ws/a.ts"⟩, ⟨"/ws/lib/../a.ts"⟩]⟩ ⟨"/ws/src"⟩ 0 =
      BuildInfo.nameOf? ⟨[⟨"/ws/a.ts"⟩, ⟨"/ws/lib/../a.ts"⟩]⟩ ⟨"/ws/src"⟩ 1 ∧
    Bundle.Scope.key ⟨[], ⟨"/ws"⟩, ⟨"/ws/src"⟩, fun _ _ => true⟩ "/ws/a.js" ≠
      Bundle.Scope.key ⟨[], ⟨"/ws"⟩, ⟨"/ws/src"⟩, fun _ _ => true⟩ "/ws/src/a.js" := by
  obtain ⟨hway, hname, hkey⟩ := resolve_relative_iff ⟨"/ws/src"⟩ ⟨"/ws/lib/../a.ts"⟩
  have habs : ∀ p ∈ ([⟨"/ws/a.ts"⟩, ⟨"/ws/lib/../a.ts"⟩, ⟨"/ws/a.js"⟩, ⟨"/ws/src/a.js"⟩] : List Path),
      p.isAbsolute = true := by decide
  refine ⟨hway.mpr (.inl ⟨by decide, by decide⟩), ?_, ?_⟩
  · exact (hname rfl rfl (habs ⟨"/ws/a.ts"⟩ (by simp)) (habs ⟨"/ws/lib/../a.ts"⟩ (by simp))).mpr (by decide)
  · exact fun heq => absurd ((@hkey _ ⟨"/ws/a.js"⟩ ⟨"/ws/src/a.js"⟩ rfl (habs _ (by simp))
      (habs _ (by simp))).mp heq) (by decide)

end Recompile.Path
