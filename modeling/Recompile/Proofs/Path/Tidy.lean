import Recompile.Path.Normal
import Recompile.Program.Specifier

/-!
Tidy paths: those that are written the way their components are rendered. Two tidy paths with the
same components are the same path, normal forms are tidy, and so is every file that a module path
may stand for.
-/

namespace Recompile

namespace Text

theorem stripLead?_eq_some : ∀ {lead cs rest : List Char},
    stripLead? lead cs = some rest ↔ cs = lead ++ rest
  | [], cs, rest => by simp
  | p :: ps, [], rest => by simp
  | p :: ps, c :: cs, rest => by
    by_cases h : p = c
    · simp [h, @stripLead?_eq_some ps]
    · simp [h, Ne.symm h]

theorem stripTail?_eq_some {tail cs rest : List Char} (h : stripTail? tail cs = some rest) :
    cs = rest ++ tail := by
  obtain ⟨front, hfront, rfl⟩ := Option.map_eq_some_iff.mp h
  have := congrArg List.reverse (stripLead?_eq_some.mp hfront)
  simpa using this

theorem endsWith_iff {tail cs : List Char} : endsWith tail cs = true ↔ ∃ rest, cs = rest ++ tail := by
  constructor
  · intro h
    obtain ⟨rest, hrest⟩ := Option.isSome_iff_exists.mp h
    exact ⟨rest, stripTail?_eq_some hrest⟩
  · rintro ⟨rest, rfl⟩
    have h : stripLead? tail.reverse (rest ++ tail).reverse = some rest.reverse :=
      stripLead?_eq_some.mpr (by simp)
    rw [endsWith, stripTail?, h]
    rfl

end Text

namespace Path

namespace Component

def label : Component → String
  | name s => s
  | _ => ""

theorem compare_eq_compareLex :
    (compare : Component → Component → Ordering) =
      compareLex (compareOn rank) (compareOn label) := by
  funext a b
  cases a <;> cases b <;> rfl

instance : Std.TransOrd Component := by
  have h : Std.TransCmp (compareLex (compareOn rank) (compareOn label)) := inferInstance
  rw [← compare_eq_compareLex] at h
  exact h

instance : Std.LawfulEqOrd Component where
  compare_self := Std.ReflOrd.compare_self
  eq_of_compare := by
    intro a b h
    rw [compare_eq_compareLex, compareLex, Ordering.then_eq_eq] at h
    have hrank : a.rank = b.rank := Std.LawfulEqOrd.eq_of_compare h.1
    have hlabel : a.label = b.label := Std.LawfulEqOrd.eq_of_compare h.2
    cases a <;> cases b <;> simp_all [rank, label]

end Component

instance : Std.TransOrd Path := inferInstanceAs (Std.TransCmp (compareOn components))

theorem compare_eq_iff {p q : Path} : compare p q = .eq ↔ p.components = q.components :=
  Std.LawfulEqOrd.compare_eq_iff_eq (a := p.components) (b := q.components)

theorem lead_cases (cs : List Char) : (∃ t, cs = '/' :: t ∧ lead cs = ([.root], t)) ∨
    (cs = ['.'] ∧ lead cs = ([.here], [])) ∨
    (∃ t, cs = '.' :: '/' :: t ∧ lead cs = ([.here], '/' :: t)) ∨ lead cs = ([], cs) := by
  unfold lead
  split
  · exact .inl ⟨_, rfl, rfl⟩
  · exact .inr (.inl ⟨rfl, rfl⟩)
  · exact .inr (.inr (.inl ⟨_, rfl, rfl⟩))
  · exact .inr (.inr (.inr rfl))

theorem segments_eq_splitOn (cs : List Char) : segments cs = cs.splitOn '/' := by
  induction cs with
  | nil => rfl
  | cons c cs ih =>
    unfold segments at ih ⊢
    rw [List.splitOn_cons_eq_if_modifyHead, Text.splitOn, ih]
    obtain ⟨piece, rest, h⟩ := List.exists_cons_of_ne_nil (List.splitOn_ne_nil '/' cs)
    by_cases hc : c = '/' <;> simp [hc, h]

@[simp] theorem segments_nil : segments [] = [[]] := rfl

theorem segments_ne_nil (cs : List Char) : segments cs ≠ [] := by
  rw [segments_eq_splitOn]
  exact List.splitOn_ne_nil '/' cs

@[simp] theorem segments_slash (cs : List Char) : segments ('/' :: cs) = [] :: segments cs := rfl

theorem segments_append_slash (cs ds : List Char) :
    segments (cs ++ '/' :: ds) = segments cs ++ segments ds := by
  simp only [segments_eq_splitOn, List.splitOn_append_cons_self]

theorem segments_of_not_mem {cs : List Char} (h : '/' ∉ cs) : segments cs = [cs] := by
  rw [segments_eq_splitOn, List.splitOn_eq_singleton h]

theorem intercalate_segments (cs : List Char) : ['/'].intercalate (segments cs) = cs := by
  rw [segments_eq_splitOn, List.intercalate_splitOn]

theorem segments_intercalate {segs : List (List Char)} (h : ∀ seg ∈ segs, '/' ∉ seg)
    (hne : segs ≠ []) : segments (['/'].intercalate segs) = segs := by
  rw [segments_eq_splitOn, List.splitOn_intercalate '/' h hne]

theorem slash_not_mem_of_mem_segments {cs seg : List Char} (h : seg ∈ segments cs) :
    '/' ∉ seg := by
  induction cs generalizing seg with
  | nil => simp_all
  | cons c cs ih =>
    unfold segments at ih h
    rw [Text.splitOn] at h
    split at h
    · rcases List.mem_cons.mp h with rfl | h
      · simp
      · exact ih h
    · rename_i hc
      split at h
      · simp_all
        rintro rfl
        exact hc rfl
      · rename_i piece rest hs
        rcases List.mem_cons.mp h with rfl | h
        · have hp : '/' ∉ piece := ih (by simp [hs])
          have hne : '/' ≠ c := by
            rintro rfl
            simp at hc
          simp [hp, hne]
        · exact ih (by simp [hs, h])

theorem segments_cons {c : Char} (hc : c ≠ '/') (cs : List Char) :
    segments (c :: cs) = (segments cs).modifyHead (c :: ·) := by
  simp [segments_eq_splitOn, List.splitOn_cons_eq_if_modifyHead, hc]

theorem segments_append {tail : List Char} (htail : '/' ∉ tail) (cs : List Char) :
    ∃ pre last, segments cs = pre ++ [last] ∧ segments (cs ++ tail) = pre ++ [last ++ tail] := by
  induction cs with
  | nil => exact ⟨[], [], rfl, by simp [segments_of_not_mem htail]⟩
  | cons c cs ih =>
    obtain ⟨pre, last, h, htl⟩ := ih
    by_cases hc : c = '/'
    · subst hc
      exact ⟨[] :: pre, last, by simp [h], by simp [htl]⟩
    · rw [List.cons_append, segments_cons hc, segments_cons hc, h, htl]
      cases pre with
      | nil => exact ⟨[], c :: last, rfl, rfl⟩
      | cons seg pre => exact ⟨(c :: seg) :: pre, last, rfl, rfl⟩

def Solid (seg : List Char) : Prop := seg ≠ [] ∧ seg ≠ ['.']

theorem solid_of_length {seg : List Char} (h : 2 ≤ seg.length) : Solid seg := by
  constructor <;> rintro rfl <;> simp at h

theorem ofSegment?_of_solid {seg : List Char} (h : Solid seg) :
    ∃ c, Component.ofSegment? seg = some c ∧ c ≠ .root ∧ c.text.toList = seg := by
  unfold Component.ofSegment?
  rw [if_neg (by simp [h.1, h.2])]
  split
  · rename_i hup
    exact ⟨.up, rfl, by simp, hup.symm⟩
  · exact ⟨_, rfl, by simp, by simp [Component.text]⟩

theorem texts_filterMap_ofSegment? {segs : List (List Char)} (h : ∀ seg ∈ segs, Solid seg) :
    (segs.filterMap Component.ofSegment?).map (fun c => c.text.toList) = segs := by
  induction segs with
  | nil => rfl
  | cons seg segs ih =>
    obtain ⟨c, hc, -, ht⟩ := ofSegment?_of_solid (h seg (by simp))
    simp [hc, ht, ih (fun s hs => h s (by simp [hs]))]

theorem root_not_mem_filterMap (segs : List (List Char)) :
    Component.root ∉ segs.filterMap Component.ofSegment? := by
  intro h
  obtain ⟨seg, -, hseg⟩ := List.mem_filterMap.mp h
  unfold Component.ofSegment? at hseg
  split at hseg
  · cases hseg
  · split at hseg <;> cases hseg

theorem toList_render {cs : List Component} (h : Component.root ∉ cs) :
    (render cs).toList = ['/'].intercalate (cs.map fun c => c.text.toList) := by
  cases cs with
  | nil => rfl
  | cons c cs =>
    cases c with
    | root => simp at h
    | here => simp [render, Function.comp_def]
    | up => simp [render, Function.comp_def]
    | name s => simp [render, Function.comp_def]

theorem toList_render_root (cs : List Component) :
    (render (.root :: cs)).toList = '/' :: ['/'].intercalate (cs.map fun c => c.text.toList) := by
  simp [render, Function.comp_def]

/-- Written with single slashes, without skipped segments but a dot that starts a relative path. -/
def Tidy : List Char → Prop
  | '/' :: cs => cs = [] ∨ ∀ seg ∈ segments cs, Solid seg
  | ['.'] => True
  | '.' :: '/' :: cs => ∀ seg ∈ segments cs, Solid seg
  | cs => cs = [] ∨ ∀ seg ∈ segments cs, Solid seg

theorem tidy_of_solid {cs : List Char} (h : ∀ seg ∈ segments cs, Solid seg) : Tidy cs := by
  unfold Tidy
  split
  · exact absurd rfl (h [] (by simp)).1
  · trivial
  · rename_i cs
    refine absurd rfl (h ['.'] ?_).2
    simp [segments_cons (show '.' ≠ '/' by decide)]
  · exact .inr h

theorem lead_of_plain {cs : List Char} (h₁ : ∀ t, cs ≠ '/' :: t) (h₂ : cs ≠ ['.'])
    (h₃ : ∀ t, cs ≠ '.' :: '/' :: t) : lead cs = ([], cs) := by
  rcases lead_cases cs with ⟨t, h, -⟩ | ⟨h, -⟩ | ⟨t, h, -⟩ | h
  · exact absurd h (h₁ t)
  · exact absurd h h₂
  · exact absurd h (h₃ t)
  · exact h

theorem plain_append {cs tail : List Char} (hne : cs ≠ []) (hhere : cs ≠ ['.'])
    (hdot : ∀ t, cs ≠ '.' :: '/' :: t) : ∀ t, cs ++ tail ≠ '.' :: '/' :: t := by
  intro t ht
  match cs, hne with
  | [c], _ =>
    simp only [List.singleton_append, List.cons.injEq] at ht
    exact hhere (by rw [ht.1])
  | c :: d :: cs, _ =>
    simp only [List.cons_append, List.cons.injEq] at ht
    exact hdot cs (by rw [ht.1, ht.2.1])

theorem render_components_of_tidy {p : Path} (h : Tidy p.text.toList) :
    render p.components = p.text := by
  rw [← String.toList_inj]
  unfold components
  unfold Tidy at h
  split at h
  · rename_i cs htext
    simp only [htext, lead, List.singleton_append, toList_render_root]
    rcases h with rfl | h
    · rfl
    · rw [texts_filterMap_ofSegment? h, intercalate_segments]
  · rename_i htext
    rw [htext]
    rfl
  · rename_i cs htext
    have hskip : Component.ofSegment? [] = none := rfl
    simp only [htext, lead, segments_slash, List.filterMap_cons, hskip, List.singleton_append]
    rw [toList_render (by simpa using root_not_mem_filterMap _)]
    simp only [List.map_cons, texts_filterMap_ofSegment? h]
    rw [List.intercalate_cons_of_ne_nil (segments_ne_nil cs), intercalate_segments]
    rfl
  · rename_i h₁ h₂ h₃
    simp only [lead_of_plain h₁ h₂ h₃, List.nil_append]
    rw [toList_render (root_not_mem_filterMap _)]
    rcases h with h | h
    · rw [h]
      rfl
    · rw [texts_filterMap_ofSegment? h, intercalate_segments]

theorem eq_of_components_eq {p q : Path} (hp : Tidy p.text.toList) (hq : Tidy q.text.toList)
    (h : p.components = q.components) : p = q := by
  have ht : p.text = q.text := by
    rw [← render_components_of_tidy hp, ← render_components_of_tidy hq, h]
  cases p
  cases q
  simpa using ht

def IsName (seg : List Char) : Prop := Solid seg ∧ seg ≠ ['.', '.'] ∧ '/' ∉ seg

def Component.IsStep : Component → Prop
  | .up => True
  | .name s => IsName s.toList
  | _ => False

theorem Component.IsStep.solid {c : Component} (h : c.IsStep) :
    Solid c.text.toList ∧ '/' ∉ c.text.toList ∧ c ≠ .root := by
  cases c with
  | root => cases h
  | here => cases h
  | up => exact ⟨by simp [Component.text, Solid], by simp [Component.text], by simp⟩
  | name s => exact ⟨h.1, h.2.2, by simp⟩

theorem isStep_of_mem_filterMap {cs : List Char} {c : Component}
    (h : c ∈ (segments cs).filterMap Component.ofSegment?) : c.IsStep := by
  obtain ⟨seg, hseg, hc⟩ := List.mem_filterMap.mp h
  have hslash := slash_not_mem_of_mem_segments hseg
  unfold Component.ofSegment? at hc
  split at hc
  · cases hc
  · rename_i hne
    split at hc
    · cases hc
      trivial
    · rename_i hup
      cases hc
      simp only [Component.IsStep, IsName, Solid, String.toList_ofList]
      exact ⟨⟨fun h => hne (.inl h), fun h => hne (.inr h)⟩, hup, hslash⟩

theorem components_eq_lead (p : Path) : ∃ start steps, p.components = start ++ steps ∧
    (start = [] ∨ start = [.root] ∨ start = [.here]) ∧ ∀ c ∈ steps, c.IsStep := by
  refine ⟨(lead p.text.toList).1, _, rfl, ?_, fun c hc => isStep_of_mem_filterMap hc⟩
  rcases lead_cases p.text.toList with ⟨t, -, h⟩ | ⟨-, h⟩ | ⟨t, -, h⟩ | h <;> simp [h]

/-- Taken in components, the last one first: steps, and the root below them. -/
def Stacked (done : List Component) : Prop :=
  ∃ steps, (∀ c ∈ steps, c.IsStep) ∧ (done = steps ∨ done = steps ++ [.root])

theorem Stacked.fold {done : List Component} (h : Stacked done) {c : Component} (hc : c.IsStep) :
    Stacked (foldComponent done c) := by
  obtain ⟨steps, hsteps, hdone⟩ := h
  have hcons : ∀ d ∈ c :: steps, d.IsStep := by
    intro d hd
    rcases List.mem_cons.mp hd with rfl | hd
    · exact hc
    · exact hsteps d hd
  have hpush : Stacked (c :: done) := ⟨c :: steps, hcons, by
    rcases hdone with rfl | rfl
    · exact .inl rfl
    · exact .inr rfl⟩
  unfold foldComponent
  split
  · cases hc
  · rename_i s rest
    -- `..` takes back the name before it
    cases steps with
    | nil => rcases hdone with h | h <;> cases h
    | cons d steps =>
      refine ⟨steps, fun c hc => hsteps c (by simp [hc]), ?_⟩
      rcases hdone with h | h <;> cases h
      · exact .inl rfl
      · exact .inr rfl
  · exact ⟨steps, hsteps, hdone⟩
  · exact hpush
  · exact hpush

theorem Stacked.foldl {cs : List Component} (hcs : ∀ c ∈ cs, c.IsStep) :
    ∀ {done : List Component}, Stacked done → Stacked (cs.foldl foldComponent done) := by
  induction cs with
  | nil => exact fun h => h
  | cons c cs ih =>
    intro done h
    exact ih (fun d hd => hcs d (by simp [hd])) (h.fold (hcs c (by simp)))

theorem normalComponents_shape (p : Path) : ∃ steps, (∀ c ∈ steps, c.IsStep) ∧
    (normalComponents p.components = steps ∨ normalComponents p.components = .root :: steps) := by
  obtain ⟨start, steps, hp, hstart, hsteps⟩ := components_eq_lead p
  have hbase : Stacked (start.foldl foldComponent []) := by
    rcases hstart with rfl | rfl | rfl
    · exact ⟨[], by simp, .inl rfl⟩
    · exact ⟨[], by simp, .inr rfl⟩
    · exact ⟨[], by simp, .inl rfl⟩
  obtain ⟨done, hdone, h⟩ := hbase.foldl hsteps
  refine ⟨done.reverse, fun c hc => hdone c (List.mem_reverse.mp hc), ?_⟩
  unfold normalComponents
  rw [hp, List.foldl_append]
  rcases h with h | h
  · exact .inl (by rw [h])
  · exact .inr (by simp [h])

theorem segments_steps {steps : List Component} (h : ∀ c ∈ steps, c.IsStep) (hne : steps ≠ []) :
    segments (['/'].intercalate (steps.map fun c => c.text.toList)) =
      steps.map fun c => c.text.toList := by
  refine segments_intercalate (fun seg hseg => ?_) (by simpa using hne)
  obtain ⟨c, hc, rfl⟩ := List.mem_map.mp hseg
  exact (h c hc).solid.2.1

theorem solid_steps {steps : List Component} (h : ∀ c ∈ steps, c.IsStep) (hne : steps ≠ []) :
    ∀ seg ∈ segments (['/'].intercalate (steps.map fun c => c.text.toList)), Solid seg := by
  intro seg hseg
  rw [segments_steps h hne] at hseg
  obtain ⟨c, hc, rfl⟩ := List.mem_map.mp hseg
  exact (h c hc).solid.1

theorem tidy_render {steps : List Component} (h : ∀ c ∈ steps, c.IsStep) :
    Tidy (render (.root :: steps)).toList ∧ (steps ≠ [] → Tidy (render steps).toList) := by
  constructor
  · rw [toList_render_root]
    by_cases hne : steps = []
    · subst hne
      exact .inl rfl
    · exact .inr (solid_steps h hne)
  · intro hne
    rw [toList_render (fun hroot => (h _ hroot).solid.2.2 rfl)]
    exact tidy_of_solid (solid_steps h hne)

theorem tidy_normalize (p : Path) : Tidy p.normalize.text.toList := by
  obtain ⟨steps, hsteps, h⟩ := normalComponents_shape p
  unfold normalize
  split
  · trivial
  · rename_i hne
    rcases h with h | h
    · rw [h] at hne ⊢
      exact (tidy_render hsteps).2 hne
    · rw [h]
      exact (tidy_render hsteps).1

theorem resolve_eq_normalize (base p : Path) : ∃ q : Path, base.resolve p = q.normalize := by
  unfold resolve
  split
  · exact ⟨p, rfl⟩
  · exact ⟨base.join p, rfl⟩

theorem tidy_resolve (base p : Path) : Tidy (base.resolve p).text.toList := by
  obtain ⟨q, hq⟩ := resolve_eq_normalize base p
  rw [hq]
  exact tidy_normalize q

theorem solid_append {tail : List Char} (htail : '/' ∉ tail) (hsolid : ∀ seg, Solid (seg ++ tail))
    {cs : List Char} (h : cs = [] ∨ ∀ seg ∈ segments cs, Solid seg) :
    ∀ seg ∈ segments (cs ++ tail), Solid seg := by
  obtain ⟨pre, last, hcs, happ⟩ := segments_append htail cs
  intro seg hseg
  rw [happ] at hseg
  rcases List.mem_append.mp hseg with hpre | hlast
  · rcases h with rfl | h
    · cases pre with
      | nil => cases hpre
      | cons a pre => cases pre <;> cases hcs
    · exact h seg (by simp [hcs, hpre])
  · rw [List.mem_singleton.mp hlast]
    exact hsolid last

theorem tidy_append {tail : List Char} (htail : '/' ∉ tail) (hsolid : ∀ seg, Solid (seg ++ tail))
    {cs : List Char} (h : Tidy cs) : Tidy (cs ++ tail) := by
  unfold Tidy at h
  split at h
  · exact .inr (solid_append htail hsolid h)
  · refine tidy_of_solid fun seg hseg => ?_
    rw [segments_of_not_mem (by simpa using htail)] at hseg
    rw [List.mem_singleton.mp hseg]
    exact hsolid ['.']
  · exact solid_append htail hsolid (.inr h)
  · exact tidy_of_solid (solid_append htail hsolid h)

theorem tidy_swap {old new : List Char} (hold : '/' ∉ old) (hne : old ≠ []) (hnew : '/' ∉ new)
    (hsolid : ∀ seg, Solid (seg ++ new)) {cs : List Char} (h : Tidy (cs ++ old)) :
    Tidy (cs ++ new) := by
  -- Both texts differ in their last segment only.
  have hswap : ∀ {ds : List Char}, (∀ seg ∈ segments (ds ++ old), Solid seg) →
      ∀ seg ∈ segments (ds ++ new), Solid seg := by
    intro ds hds seg hseg
    obtain ⟨pre, last, hcs, happ⟩ := segments_append hold ds
    obtain ⟨pre', last', hcs', happ'⟩ := segments_append hnew ds
    rw [happ'] at hseg
    obtain ⟨rfl, -⟩ := List.append_inj' (hcs.symm.trans hcs') rfl
    rcases List.mem_append.mp hseg with hpre | hlast
    · exact hds seg (by simp [happ, hpre])
    · rw [List.mem_singleton.mp hlast]
      exact hsolid last'
  have hor : ∀ {ds : List Char}, (ds ++ old = [] ∨ ∀ seg ∈ segments (ds ++ old), Solid seg) →
      ∀ seg ∈ segments (ds ++ new), Solid seg := fun hds =>
    hds.elim (fun h => absurd (List.append_eq_nil_iff.mp h).2 hne) hswap
  by_cases hroot : ∃ ds, cs = '/' :: ds
  · obtain ⟨ds, rfl⟩ := hroot
    exact .inr (hor h)
  by_cases hdot : ∃ ds, cs = '.' :: '/' :: ds
  · obtain ⟨ds, rfl⟩ := hdot
    exact hswap h
  refine tidy_of_solid ?_
  unfold Tidy at h
  split at h
  · rename_i t ht
    rcases List.append_eq_cons_iff.mp ht with ⟨rfl, rfl⟩ | ⟨ds, rfl, -⟩
    · simp at hold
    · exact absurd ⟨ds, rfl⟩ hroot
  · rename_i ht
    rcases List.append_eq_cons_iff.mp ht with ⟨rfl, -⟩ | ⟨ds, rfl, hds⟩
    · rw [List.nil_append, segments_of_not_mem hnew]
      simpa using hsolid []
    · exact absurd (List.append_eq_nil_iff.mp hds.symm).2 hne
  · rename_i t ht
    rcases List.append_eq_cons_iff.mp ht with ⟨rfl, rfl⟩ | ⟨ds, rfl, hds⟩
    · simp at hold
    · rcases List.append_eq_cons_iff.mp hds.symm with ⟨rfl, rfl⟩ | ⟨es, rfl, -⟩
      · simp at hold
      · exact absurd ⟨es, rfl⟩ hdot
  · exact hor h

theorem eq_slash_of_tidy_of_endsWith {cs : List Char} (h : Tidy (cs ++ ['/'])) : cs = [] := by
  have hlast : ∀ ds : List Char, ¬ ∀ seg ∈ segments (ds ++ ['/']), Solid seg := by
    intro ds hds
    rw [segments_append_slash] at hds
    exact (hds [] (by simp)).1 rfl
  unfold Tidy at h
  split at h
  · rename_i t ht
    rcases List.append_eq_cons_iff.mp ht with ⟨rfl, -⟩ | ⟨ds, rfl, rfl⟩
    · rfl
    · rcases h with h | h
      · simp at h
      · exact absurd h (hlast ds)
  · rename_i ht
    rcases List.append_eq_cons_iff.mp ht with ⟨rfl, -⟩ | ⟨ds, rfl, hds⟩
    · rfl
    · simp at hds
  · rename_i t ht
    rcases List.append_eq_cons_iff.mp ht with ⟨rfl, -⟩ | ⟨ds, rfl, hds⟩
    · rfl
    · rcases List.append_eq_cons_iff.mp hds.symm with ⟨rfl, he⟩ | ⟨es, rfl, rfl⟩
      · cases he
        exact absurd rfl (h [] (by simp)).1
      · exact absurd h (hlast es)
  · rcases h with h | h
    · simp at h
    · exact absurd h (hlast cs)

theorem tidy_append_name {cs name : List Char} (hname : Solid name) (hslash : '/' ∉ name)
    (hne : cs ≠ []) (hend : ∀ ds, cs ≠ ds ++ ['/']) (h : Tidy cs) : Tidy (cs ++ '/' :: name) := by
  have hsolid : ∀ {ds : List Char}, (∀ seg ∈ segments ds, Solid seg) →
      ∀ seg ∈ segments (ds ++ '/' :: name), Solid seg := by
    intro ds hds seg hseg
    rw [segments_append_slash, segments_of_not_mem hslash] at hseg
    rcases List.mem_append.mp hseg with hseg | hseg
    · exact hds seg hseg
    · rw [List.mem_singleton.mp hseg]
      exact hname
  unfold Tidy at h
  split at h
  · rename_i ds
    rcases h with rfl | h
    · exact absurd rfl (hend [])
    · exact .inr (hsolid h)
  · intro seg hseg
    rw [segments_of_not_mem hslash] at hseg
    rw [List.mem_singleton.mp hseg]
    exact hname
  · exact hsolid h
  · rcases h with h | h
    · exact absurd h hne
    · exact tidy_of_solid (hsolid h)

theorem tidy_join_name {p : Path} {name : String} (hname : Solid name.toList)
    (hslash : '/' ∉ name.toList) (h : Tidy p.text.toList) : Tidy (p.join ⟨name⟩).text.toList := by
  have hrel : isAbsolute ⟨name⟩ = false := by
    unfold isAbsolute Text.startsWith
    cases hc : name.toList with
    | nil => rfl
    | cons c cs =>
      have hne : '/' ≠ c := by
        rintro rfl
        simp [hc] at hslash
      simp [hne]
  have halone : Tidy name.toList := tidy_of_solid (by simpa [segments_of_not_mem hslash] using hname)
  unfold join
  rw [if_neg (by simp [hrel])]
  by_cases hempty : p.text.toList = []
  · rw [if_pos (by simp [String.toList_eq_nil_iff.mp hempty])]
    simpa [hempty] using halone
  · by_cases hend : Text.endsWith ['/'] p.text.toList = true
    · rw [if_pos (by simp [hend])]
      obtain ⟨cs, hcs⟩ := Text.endsWith_iff.mp hend
      rw [hcs] at h
      simp only [String.toList_append, hcs, eq_slash_of_tidy_of_endsWith h, List.nil_append]
      exact .inr (by simpa [segments_of_not_mem hslash] using hname)
    · have hp : p.text.isEmpty = false := by
        simpa [String.toList_eq_nil_iff] using hempty
      rw [if_neg (by simp [hend, hp])]
      simp only [String.toList_append, List.append_assoc]
      refine tidy_append_name hname hslash hempty (fun ds hds => hend ?_) h
      exact Text.endsWith_iff.mpr ⟨ds, hds⟩

theorem tidy_candidates {base : Path} (h : Tidy base.text.toList) :
    ∀ c ∈ Specifier.candidates base, Tidy c.text.toList := by
  have hts : ∀ seg, Solid (seg ++ ['.', 't', 's']) := fun seg => solid_of_length (by simp)
  have hdts : ∀ seg, Solid (seg ++ ['.', 'd', '.', 't', 's']) := fun seg => solid_of_length (by simp)
  intro c hc
  unfold Specifier.candidates at hc
  simp only at hc
  split at hc
  · rw [List.mem_singleton.mp hc]
    exact h
  · split at hc
    · rename_i stem hstem
      rw [List.mem_singleton.mp hc]
      have hjs := Text.stripTail?_eq_some hstem
      rw [hjs] at h
      simpa using tidy_swap (by decide) (by decide) (by decide) hts h
    · simp only [List.mem_cons, List.not_mem_nil, or_false] at hc
      rcases hc with rfl | rfl | rfl | rfl
      · simpa using tidy_append (by decide) hts h
      · simpa using tidy_append (by decide) hdts h
      · exact tidy_join_name (by simp [Solid]) (by decide) h
      · exact tidy_join_name (by simp [Solid]) (by decide) h

end Path

end Recompile
