import Recompile.Proofs.Program.Rebuilt

/-!
What shadows hold. The text of a shadow depends on files that were read and on exported names only, so
the order in which shadows are added does not matter, and neither do identities.
-/

namespace Recompile

theorem Program.exportedNames_of_modules {p q : Program} (h : p.modules = q.modules) (id : FileId) :
    p.exportedNames id = q.exportedNames id := by
  unfold exportedNames starTargets directExports module?
  rw [h]

namespace Shadow

def templateText? (p : Program) (m : Module) (component : Nat) (c : Script.Component) : Option String :=
  match c.template with
  | none => none
  | some (.inline text _) => some text
  | some (.external ..) => ((m.templateRef? component).bind fun r => r.file.bind p.file?).map (·.text)

theorem map_template? (p : Program) (id : FileId) (m : Module) (component : Nat) (c : Script.Component) :
    (template? p id m component c).map (·.1) = templateText? p m component c := by
  unfold template? templateText?
  cases c.template with
  | none => rfl
  | some t =>
    cases t with
    | inline text literal => rfl
    | external url literal property =>
      cases m.templateRef? component with
      | none => rfl
      | some ref =>
        cases hfile : ref.file with
        | none => simp [hfile]
        | some i => cases hf : p.file? i <;> simp [hfile, hf]

theorem componentText_eq (p : Program) (id : FileId) (m : Module) (component : Nat) (c : Script.Component) :
    componentText p id m component c =
      "// component " ++ c.className ++ "\n//   members: " ++ ", ".intercalate c.members ++ "\n//   bindings: " ++
        (match templateText? p m component c with
          | none => "<none>"
          | some text => ", ".intercalate ((Template.analyze text).componentBindings.map bindingText)) ++ "\n" := by
  rw [← map_template? p id]
  unfold componentText
  cases template? p id m component c <;> rfl

theorem text_congr {p q : Program} {m : Module} (hmodules : p.modules = q.modules)
    (hfiles : ∀ ref ∈ m.resources, ∀ i, ref.file = some i → p.file? i = q.file? i) (id : FileId) :
    text p id m = text q id m := by
  have htemplate : ∀ n c, templateText? p m n c = templateText? q m n c := by
    intro n c
    unfold templateText?
    cases href : m.templateRef? n with
    | none => rfl
    | some ref =>
      have hmem : ref ∈ m.resources := List.mem_of_find?_eq_some href
      cases hfile : ref.file with
      | none => simp [hfile]
      | some i => simp only [Option.bind_some, hfile, hfiles ref hmem i hfile]
  have hcomponents : componentText p id m = componentText q id m := by
    funext n c
    rw [componentText_eq, componentText_eq, htemplate]
  have himports : importText p = importText q := by
    funext i
    unfold importText
    simp only [Program.exportedNames_of_modules hmodules]
  unfold text
  rw [hcomponents, himports]

end Shadow

namespace Program.Same

variable {R : FileId → FileId → Prop} {p p' : Program} {i j : FileId} {m m' : Module}

theorem templateText? (h : Same R p p') (hm : Module.Same R m m') (component : Nat) (c : Script.Component)
    (g : FileId) : Shadow.templateText? p m component c = Shadow.templateText? p' m' component (c.moved g) := by
  have hfile : Option.Rel (fun f g : SourceFile => f.content = g.content)
      ((m.templateRef? component).bind fun r => r.file.bind p.file?)
      ((m'.templateRef? component).bind fun r => r.file.bind p'.file?) := by
    have href := hm.templateRef? component
    generalize m.templateRef? component = x at href
    generalize m'.templateRef? component = y at href
    cases href with
    | none => exact .none
    | some hab => exact h.resource hab
  have htemplate : (c.moved g).template = c.template.map (Script.TemplateSource.moved g) := rfl
  unfold Shadow.templateText?
  rw [htemplate]
  cases c.template with
  | none => rfl
  | some t =>
    cases t with
    | inline text literal => rfl
    | external url literal property =>
      dsimp only [Option.map_some, Script.TemplateSource.moved]
      generalize ((m.templateRef? component).bind fun r => r.file.bind p.file?) = x at hfile
      generalize ((m'.templateRef? component).bind fun r => r.file.bind p'.file?) = y at hfile
      cases hfile with
      | none => rfl
      | some hfg => exact congrArg some (SourceFile.text_congr hfg)

theorem importText (h : Same R p p') (hR : Relator.BiUnique R) (import_ : Script.Import) (g : FileId)
    {a b : Resolution} (hab : Resolution.Same R a b) :
    Shadow.importText p (import_, a) = Shadow.importText p' (import_.moved g, b) := by
  cases hab with
  | file hij =>
    simp only [Shadow.importText, Resolution.target?, h.exportedNames hR hij]
    rfl
  | external => rfl
  | unresolved => rfl

theorem shadowText (h : Same R p p') (hR : Relator.BiUnique R) (hm : Module.Same R m m') :
    Shadow.text p i m = Shadow.text p' j m' := by
  obtain ⟨g, hg⟩ := hm.outline
  have hcomponents : m'.outline.components.mapIdx (Shadow.componentText p' j m') =
      m.outline.components.mapIdx (Shadow.componentText p i m) := by
    have hmoved : m'.outline.components = m.outline.components.map (Script.Component.moved g) := by
      rw [hg]
      rfl
    rw [hmoved, mapIdx_map]
    congr 1
    funext index c
    rw [Shadow.componentText_eq, Shadow.componentText_eq, h.templateText? hm index c g]
    rfl
  have himports : ∀ {is : List Script.Import} {xs ys : List Resolution},
      List.Forall₂ (Resolution.Same R) xs ys →
        ((is.map (Script.Import.moved g)).zip ys).map (Shadow.importText p') =
          (is.zip xs).map (Shadow.importText p) := by
    intro is xs ys hxy
    induction hxy generalizing is with
    | nil => simp
    | cons hab _ ih =>
      cases is with
      | nil => rfl
      | cons i is =>
        simp only [List.map_cons, List.zip_cons_cons, ih, h.importText hR i g hab]
  unfold Shadow.text Module.imports
  rw [hcomponents, hg]
  congr 2
  exact (himports hm.resolutions).symm

end Program.Same

namespace Shadow

theorem mem_origins {p : Program} (h : p.modules.Sorted) {o : FileId} :
    o ∈ origins p ↔ ∃ f m, p.file? o = some f ∧ f.kind = .script ∧ p.module? o = some m ∧
      m.outline.components ≠ [] := by
  unfold origins
  rw [List.mem_map]
  constructor
  · rintro ⟨⟨o, m⟩, hmem, rfl⟩
    obtain ⟨hentry, htest⟩ := List.mem_filter.mp hmem
    simp only [Bool.and_eq_true, Bool.not_eq_true', List.isEmpty_eq_false_iff, Program.isScript,
      Program.hasKind] at htest
    obtain ⟨hcomponents, hscript⟩ := htest
    split at hscript
    · rename_i f hf
      exact ⟨f, m, hf, of_decide_eq_true hscript, h.get?_of_mem hentry, hcomponents⟩
    · cases hscript
  · rintro ⟨f, m, hf, hkind, hm, hcomponents⟩
    refine ⟨(o, m), List.mem_filter.mpr ⟨OrdMap.get?_mem hm, ?_⟩, rfl⟩
    simp [hcomponents, Program.isScript, Program.hasKind, hf, hkind]

theorem add_eq {state : Program × Registry} {origin : FileId} {f : SourceFile} {m : Module}
    (hf : state.1.file? origin = some f) (hm : state.1.module? origin = some m) :
    add state origin =
      ({ state.1 with
          files := state.1.files.add
            ⟨(state.2.intern (path f.path)).1, path f.path, text state.1 origin m, .typeCheckShadow⟩
          origins := state.1.origins.insert (state.2.intern (path f.path)).1 origin },
        (state.2.intern (path f.path)).2) := by
  obtain ⟨p, registry⟩ := state
  unfold add
  dsimp only at hf hm ⊢
  rw [hf, hm]

theorem contains_add {state : Program × Registry} {origin id : FileId}
    (h : state.1.origins.contains id = true) : (add state origin).1.origins.contains id = true := by
  obtain ⟨p, registry⟩ := state
  unfold add
  dsimp only
  split
  · obtain ⟨o, ho⟩ := OrdMap.contains_iff.mp h
    rw [OrdMap.contains_iff, OrdMap.get?_insert]
    split
    · exact ⟨_, rfl⟩
    · exact ⟨o, ho⟩
  · exact h

theorem contains_foldl_add {id : FileId} (origins : List FileId) : ∀ {state : Program × Registry},
    state.1.origins.contains id = true → (origins.foldl add state).1.origins.contains id = true := by
  induction origins with
  | nil => exact fun h => h
  | cons o rest ih => exact fun h => ih (contains_add h)

structure Made (base : Program) (done : List FileId) (state : Program × Registry) : Prop where
  shadow : ∀ {id o}, state.1.origins.get? id = some o → o ∈ done ∧ ∃ f m, base.file? o = some f ∧
    base.module? o = some m ∧ state.1.file? id = some ⟨id, path f.path, text base o m, .typeCheckShadow⟩ ∧
      state.2.lookup? (path f.path) = some id
  present : ∀ {o f}, o ∈ done → base.file? o = some f →
    ∃ id, state.2.lookup? (path f.path) = some id ∧ state.1.origins.contains id = true

variable {base : Program} {r : Registry} {state : Program × Registry} {done : List FileId}

theorem Made.add (h : Made base done state) (hext : Extends base r state) (hsorted : base.modules.Sorted)
    {origin : FileId} (horigin : origin ∈ origins base)
    (hclear : ∀ {i g}, base.file? i = some g → state.1.origins.get? i = none)
    (hresources : ∀ {o m}, base.module? o = some m → ∀ ref ∈ m.resources, ∀ i, ref.file = some i →
      ∃ g, base.file? i = some g) : Made base (done ++ [origin]) (add state origin) := by
  obtain ⟨f, m, hf, -, hm, -⟩ := (mem_origins hsorted).mp horigin
  have hfile : state.1.file? origin = some f := by rw [hext.plain (hclear hf), hf]
  have hmodule : state.1.module? origin = some m := by
    unfold Program.module?
    rw [hext.modules]
    exact hm
  have htext : text state.1 origin m = text base origin m := by
    refine text_congr hext.modules (fun ref href i hi => ?_) origin
    obtain ⟨g, hg⟩ := hresources hm ref href i hi
    exact hext.plain (hclear hg)
  -- The shadow's identity may be one that is known: then it takes the place of that file.
  have hin := Registry.within_intern state.2 (path f.path)
  have hlookup := Registry.lookup?_intern state.2 (path f.path)
  rw [add_eq hfile hmodule, htext]
  generalize (state.2.intern (path f.path)).1 = new at hlookup
  generalize (state.2.intern (path f.path)).2 = registry at hin hlookup
  constructor
  · intro id o ho
    simp only [OrdMap.get?_insert, Std.LawfulEqOrd.compare_eq_iff_eq] at ho
    simp only [Program.file?, SourceTable.add, OrdMap.get?_insert, Std.LawfulEqOrd.compare_eq_iff_eq]
    split at ho
    · rename_i hid
      cases ho
      subst hid
      exact ⟨by simp, f, m, hf, hm, by simp, hlookup⟩
    · rename_i hid
      obtain ⟨hdone, g, n, hg, hn, hstate, hl⟩ := h.shadow ho
      exact ⟨by simp [hdone], g, n, hg, hn, by rw [if_neg hid]; exact hstate, hin.lookup? hl⟩
  · intro o g ho hg
    rcases List.mem_append.mp ho with ho | ho
    · obtain ⟨id, hl, hcontains⟩ := h.present ho hg
      refine ⟨id, hin.lookup? hl, ?_⟩
      obtain ⟨o', ho'⟩ := OrdMap.contains_iff.mp hcontains
      rw [OrdMap.contains_iff, OrdMap.get?_insert]
      split
      · exact ⟨_, rfl⟩
      · exact ⟨o', ho'⟩
    · obtain rfl := List.mem_singleton.mp ho
      obtain rfl := Option.some.inj (hf.symm.trans hg)
      exact ⟨new, hlookup, OrdMap.contains_iff.mpr ⟨o, by simp⟩⟩

theorem Made.foldl_add (hsorted : base.modules.Sorted)
    (hresources : ∀ {o m}, base.module? o = some m → ∀ ref ∈ m.resources, ∀ i, ref.file = some i →
      ∃ g, base.file? i = some g) (todo : List FileId) :
    ∀ {done : List FileId} {state : Program × Registry}, Made base done state → Extends base r state →
      (∀ o ∈ todo, o ∈ origins base) →
      (∀ {i g}, base.file? i = some g → (todo.foldl Shadow.add state).1.origins.get? i = none) →
        Made base (done ++ todo) (todo.foldl Shadow.add state) := by
  induction todo with
  | nil =>
    intro done state h _ _ _
    rwa [List.append_nil]
  | cons o rest ih =>
    intro done state h hext htodo hclear
    have hnow : ∀ {i g}, base.file? i = some g → state.1.origins.get? i = none := by
      intro i g hg
      -- a shadow that is there now is there at the end
      cases ho : state.1.origins.get? i with
      | none => rfl
      | some o' =>
        have hend := contains_foldl_add (o :: rest) (OrdMap.contains_iff.mpr ⟨o', ho⟩)
        rw [OrdMap.contains_eq_isSome, hclear hg] at hend
        cases hend
    have hnext := h.add hext hsorted (htodo o (by simp)) hnow hresources
    have hlast := ih hnext (extends_add hext o) (fun o' ho' => htodo o' (by simp [ho'])) hclear
    rwa [List.append_assoc] at hlast

end Shadow

namespace Program

/-- No two scripts have shadows of one path. -/
def ShadowsOwn (p : Program) : Prop :=
  ∀ o ∈ Shadow.origins p, ∀ o' ∈ Shadow.origins p, ∀ f f', p.file? o = some f → p.file? o' = some f' →
    (Shadow.path f.path).components = (Shadow.path f'.path).components → o = o'

namespace Built

open BuildState Shadow Registry

variable {σ : Type} [FileSystem σ] {c c' : BuildContext σ} {s s' : BuildState} {p p' : Program}
variable {r r' : Registry} {Good : Path → Prop} {i j : FileId}

theorem made_nil (h : s.Sound c) : Made (settle s.program) [] (settle s.program, s.registry) := by
  refine ⟨fun ho => ?_, fun ho => by cases ho⟩
  rw [show (settle s.program, s.registry).1.origins = OrdMap.empty from h.origins_empty] at ho
  cases ho

theorem resource_settled_file {q : Program} {o i : FileId} {m : Module} (hm : (settle q).module? o = some m)
    {ref : ResourceRef} (href : ref ∈ m.resources) (hi : ref.file = some i) :
    ∃ g, (settle q).file? i = some g := by
  rw [← contains_iff_file?]
  rw [module?_settle] at hm
  obtain ⟨m₀, -, rfl⟩ := Option.map_eq_some_iff.mp hm
  refine contains_of_mem_targets_settleModule (m := m₀) ?_
  exact List.mem_append_right _ (List.mem_filterMap.mpr ⟨ref, href, hi⟩)

theorem made (h : Built c s p r) (hfull : c.full = true) (hapart : p.ShadowsApart) :
    Made (settle s.program) (Shadow.origins (settle s.program)) (p, r) := by
  have hfinish := h.finish
  rw [if_pos hfull] at hfinish
  rw [hfinish]
  have hself : Extends (settle s.program) s.registry (settle s.program, s.registry) :=
    extends_self h.sound.files_sorted h.sound.origins_empty h.sound.distinct
  refine Made.foldl_add h.sound.proper_settle.modules (fun hm _ href _ => resource_settled_file hm href) _
    (made_nil h.sound) hself (fun _ ho => ho) ?_
  intro i g hg
  show (Shadow.addAll (settle s.program) s.registry).1.origins.get? i = none
  rw [← hfinish]
  exact h.origin_of_read hapart hg

theorem full_of_origin (h : Built c s p r) {o : FileId} (ho : p.origins.get? i = some o) : c.full = true := by
  cases hfull : c.full with
  | true => rfl
  | false =>
    have hp : p = settle s.program := by
      have hfinish := h.finish
      rw [hfull] at hfinish
      exact congrArg Prod.fst hfinish
    have hempty : p.origins = OrdMap.empty := by
      rw [hp]
      exact h.sound.origins_empty
    rw [hempty] at ho
    cases ho

theorem mem_origins_of_read (h : Built c s p r) (hapart : p.ShadowsApart) {o : FileId} :
    o ∈ Shadow.origins (settle s.program) ↔ o ∈ Shadow.origins p := by
  rw [mem_origins h.sound.proper_settle.modules, mem_origins h.modules_sorted]
  have hmodule : ∀ m, (settle s.program).module? o = some m ↔ p.module? o = some m := by
    intro m
    unfold Program.module?
    rw [h.shadows.modules]
  constructor
  · rintro ⟨f, m, hf, hkind, hm, hcomponents⟩
    exact ⟨f, m, h.file?_of_read hapart hf, hkind, (hmodule m).mp hm, hcomponents⟩
  · rintro ⟨f, m, hf, hkind, hm, hcomponents⟩
    rcases h.file_cases hf with ⟨-, hread⟩ | ⟨-, hshadow, -⟩
    · exact ⟨f, m, hread, hkind, (hmodule m).mpr hm, hcomponents⟩
    · rw [hshadow] at hkind
      cases hkind

theorem own_shadow (h : Built c s p r) (hfull : c.full = true) (hapart : p.ShadowsApart) (hown : p.ShadowsOwn)
    {o : FileId} {f : SourceFile} {m : Module} (ho : o ∈ Shadow.origins (settle s.program))
    (hf : (settle s.program).file? o = some f) (hm : (settle s.program).module? o = some m) :
    ∃ id, r.lookup? (path f.path) = some id ∧ p.origins.get? id = some o ∧
      p.file? id = some ⟨id, path f.path, text (settle s.program) o m, .typeCheckShadow⟩ := by
  have hmade := h.made hfull hapart
  obtain ⟨id, hlookup, hcontains⟩ := hmade.present ho hf
  obtain ⟨o', ho'⟩ := OrdMap.contains_iff.mp hcontains
  obtain ⟨hin, g, n, hg, hn, hfile, hl⟩ := hmade.shadow ho'
  obtain rfl : o = o' := hown o ((h.mem_origins_of_read hapart).mp ho) o' ((h.mem_origins_of_read hapart).mp hin)
    f g (h.file?_of_read hapart hf) (h.file?_of_read hapart hg) (components_eq_of_lookup? hlookup hl)
  obtain rfl := Option.some.inj (hf.symm.trans hg)
  obtain rfl := Option.some.inj (hm.symm.trans hn)
  exact ⟨id, hlookup, ho', hfile⟩

/-- Two programs have the same file under two identities, for the same script when it is a shadow. -/
structure Shared (r r' : Registry) (p p' : Program) (i j : FileId) : Prop where
  aligned : Aligned r r' i j
  file : ∃ f g, p.file? i = some f ∧ p'.file? j = some g ∧ f.content = g.content
  origin : Option.Rel (Aligned r r') (p.origins.get? i) (p'.origins.get? j)

theorem Shared.symm (h : Shared r r' p p' i j) : Shared r' r p' p j i where
  aligned := h.aligned.symm
  file := by
    obtain ⟨f, g, hf, hg, hcontent⟩ := h.file
    exact ⟨g, f, hg, hf, hcontent.symm⟩
  origin := by
    have horigin := h.origin
    generalize p.origins.get? i = x at horigin
    generalize p'.origins.get? j = y at horigin
    cases horigin with
    | none => exact .none
    | some hab => exact .some hab.symm

theorem exists_shared (h : Built c s p r) (h' : Built c' s' p' r') (hfull : c.full = c'.full)
    (hapart : p.ShadowsApart) (hapart' : p'.ShadowsApart) (hown' : c'.full = true → p'.ShadowsOwn)
    (hread : ∀ {o f}, s.program.file? o = some f → ∃ o', Aligned s.registry s'.registry o o' ∧
      s'.program.file? o' = some (fileAt o' f.path f.text))
    (hshadow : ∀ {o o' m}, Aligned s.registry s'.registry o o' → (settle s.program).module? o = some m →
      ∃ m', (settle s'.program).module? o' = some m' ∧
        (m.outline.components ≠ [] → m'.outline.components ≠ []) ∧
        text (settle s.program) o m = text (settle s'.program) o' m')
    {f : SourceFile} (hf : p.file? i = some f) : ∃ j, Shared r r' p p' i j := by
  have hmono : ∀ {a b}, Aligned s.registry s'.registry a b → Aligned r r' a b :=
    fun hab => hab.mono h.shadows.within h'.shadows.within
  rcases h.file_cases hf with ⟨hplain, hread₀⟩ | ⟨⟨o, ho⟩, -⟩
  · obtain ⟨j, hij, hfile⟩ := hread hread₀
    refine ⟨j, hmono hij, ⟨f, _, hf, h'.file?_of_read hapart' hfile, ?_⟩, ?_⟩
    · rw [(h.sound.file_read hread₀).1]
      rfl
    · rw [hplain, h'.origin_of_read hapart' hfile]
      exact .none
  · have hc := h.full_of_origin ho
    obtain ⟨hin, g, m, hg, hm, hfile, hlookup⟩ := (h.made hc hapart).shadow ho
    obtain ⟨o', haligned, hg'⟩ := hread hg
    obtain ⟨m', hm', hnonempty, htext⟩ := hshadow haligned hm
    obtain ⟨g₁, m₁, hg₁, hkind, hm₁, hcomponents⟩ := (mem_origins h.sound.proper_settle.modules).mp hin
    obtain rfl := Option.some.inj (hg.symm.trans hg₁)
    obtain rfl := Option.some.inj (hm.symm.trans hm₁)
    have hin' : o' ∈ Shadow.origins (settle s'.program) := by
      refine (mem_origins h'.sound.proper_settle.modules).mpr ⟨_, m', hg', ?_, hm', hnonempty hcomponents⟩
      rw [(h.sound.file_read hg).1] at hkind
      exact hkind
    obtain ⟨j, hj, horigin, hfile'⟩ := h'.own_shadow (hfull ▸ hc) hapart' (hown' (hfull ▸ hc)) hin' hg' hm'
    refine ⟨j, aligned_of_lookup? hlookup hj rfl, ⟨_, _, hfile, hfile', ?_⟩, ?_⟩
    · simp only [SourceFile.content, htext]
      rfl
    · rw [ho, horigin]
      exact .some (hmono haligned)

theorem proper (h : Built c s p r) : p.Proper where
  files := h.shadows.files_sorted
  modules := h.modules_sorted
  id_eq := h.id_eq
  file_of_module hm := by
    obtain ⟨f, hf, -⟩ := h.module_cases hm
    exact contains_iff_file?.mp (h.contains_of_read hf)

theorem origin_of_no_file (h : Built c s p r) (hi : p.file? i = none) : p.origins.get? i = none := by
  cases ho : p.origins.get? i with
  | none => rfl
  | some o =>
    obtain ⟨_, _, hfile, -⟩ := h.shadows.shadow ho
    rw [hi] at hfile
    cases hfile

theorem module_of_settled (h : Built c s p r) (i : FileId) : p.module? i = (settle s.program).module? i := by
  unfold Program.module?
  rw [h.shadows.modules]

theorem same_modules (h : Built c s p r) (h' : Built c' s' p' r') (ht : Twins Good c c' s s')
    (hij : Aligned r r' i j) : Option.Rel (Module.Same (Aligned r r')) (p.module? i) (p'.module? j) := by
  have hR := biUnique_aligned h.shadows.distinct h'.shadows.distinct
  have hmono : ∀ {a b}, Aligned s.registry s'.registry a b → Aligned r r' a b :=
    fun hab => hab.mono h.shadows.within h'.shadows.within
  by_cases haligned : Aligned s.registry s'.registry i j
  · rw [h.module_of_settled, h'.module_of_settled]
    exact rel_mono (ht.same_settled.module haligned) fun hm => hm.mono hmono
  · -- a module on either side is that of a file that was read on both
    have hi : p.module? i = none := by
      cases hm : p.module? i with
      | none => rfl
      | some m =>
        obtain ⟨f, hf, -⟩ := h.module_cases hm
        obtain ⟨k, hik, -⟩ := ht.file_right hf
        obtain rfl := hR.2 (hmono hik) hij
        exact absurd hik haligned
    have hj : p'.module? j = none := by
      cases hm : p'.module? j with
      | none => rfl
      | some m =>
        obtain ⟨f, hf, -⟩ := h'.module_cases hm
        obtain ⟨k, hkj, -⟩ := ht.file_left hf
        obtain rfl := hR.1 (hmono hkj) hij
        exact absurd hkj haligned
    rw [hi, hj]
    exact .none

theorem same (h : Built c s p r) (h' : Built c' s' p' r') (ht : Twins Good c c' s s')
    (hapart : p.ShadowsApart) (hapart' : p'.ShadowsApart) (hown : c.full = true → p.ShadowsOwn)
    (hown' : c'.full = true → p'.ShadowsOwn) : Same (Aligned r r') p p' := by
  have hbase := ht.same_settled
  have hR := biUnique_aligned h.shadows.distinct h'.shadows.distinct
  have hcomponents : ∀ {m m' : Module}, Module.Same (Aligned s.registry s'.registry) m m' →
      (m.outline.components ≠ [] ↔ m'.outline.components ≠ []) := by
    intro m m' hm
    obtain ⟨g, hg⟩ := hm.outline
    rw [hg]
    simp [Script.Outline.moved]
  have hleft : ∀ {i f}, p.file? i = some f → ∃ j, Shared r r' p p' i j := by
    intro i f hf
    refine h.exists_shared h' ht.along.full hapart hapart' hown' ht.file_right ?_ hf
    intro o o' m haligned hm
    obtain ⟨m', hm', hsame⟩ := rel_some (hm ▸ hbase.module haligned)
    exact ⟨m', hm', (hcomponents hsame).mp, hbase.shadowText ht.biUnique hsame⟩
  have hright : ∀ {j g}, p'.file? j = some g → ∃ i, Shared r r' p p' i j := by
    intro j g hg
    refine (h'.exists_shared h ht.along.full.symm hapart' hapart hown ?_ ?_ hg).imp fun _ hi => hi.symm
    · exact fun hf => (ht.file_left hf).imp fun _ hi => ⟨hi.1.symm, hi.2⟩
    · intro o o' m haligned hm
      obtain ⟨m', hm', hsame⟩ := some_rel (hm ▸ hbase.module haligned.symm)
      exact ⟨m', hm', (hcomponents hsame).mpr, (hbase.shadowText ht.biUnique hsame).symm⟩
  -- Aligned identities are both without a file or share one: what one program has, the other has
  -- under the only identity that is aligned.
  have hcases : ∀ {i j}, Aligned r r' i j → p.file? i = none ∧ p'.file? j = none ∨ Shared r r' p p' i j := by
    intro i j hij
    cases hf : p.file? i with
    | some f =>
      obtain ⟨k, hik⟩ := hleft hf
      obtain rfl := hR.2 hik.aligned hij
      exact .inr hik
    | none =>
      cases hg : p'.file? j with
      | none => exact .inl ⟨rfl, rfl⟩
      | some g =>
        obtain ⟨k, hkj⟩ := hright hg
        obtain rfl := hR.1 hkj.aligned hij
        exact .inr hkj
  refine ⟨?_, h.same_modules h' ht, ?_, ?_, ?_, h.proper, h'.proper⟩
  · intro i j hij
    rcases hcases hij with ⟨hi, hj⟩ | hshared
    · rw [hi, hj]
      exact .none
    · obtain ⟨f, g, hf, hg, hcontent⟩ := hshared.file
      rw [hf, hg]
      exact .some hcontent
  · intro i j hij
    rcases hcases hij with ⟨hi, hj⟩ | hshared
    · rw [h.origin_of_no_file hi, h'.origin_of_no_file hj]
      exact .none
    · exact hshared.origin
  · exact fun hf => (hleft hf).imp fun _ hj => hj.aligned
  · exact fun hg => (hright hg).imp fun _ hi => hi.aligned

end Built

end Program

end Recompile
