import Mathlib.Data.List.Chain
import Recompile.Proofs.Path.Tidy

/-!
Level paths: those in which a step up stands at the start only, after further steps up or a dot.
Normal forms are level, and so is every file that a module path may stand for.
-/

namespace Recompile.Path

def Climbs (seg next : List Char) : Prop := next = ['.', '.'] → seg = ['.', '.'] ∨ seg = ['.']

def Level (p : Path) : Prop := (segments p.text.toList).IsChain Climbs

theorem climbs_fold {done : List Component} {c : Component} (hc : c.IsStep ∨ c = .root ∨ c = .here)
    (h : (done.map fun c => c.text.toList).IsChain fun a b => Climbs b a) :
    ((foldComponent done c).map fun c => c.text.toList).IsChain fun a b => Climbs b a := by
  have hpush : ∀ {c : Component}, c.text.toList ≠ ['.', '.'] →
      ((c :: done).map fun c => c.text.toList).IsChain fun a b => Climbs b a := by
    intro c hne
    rw [List.map_cons]
    exact List.isChain_cons.mpr ⟨fun _ _ hup => absurd hup hne, h⟩
  unfold foldComponent
  split
  · exact h
  · rw [List.map_cons] at h
    exact h.tail
  · exact h
  · rename_i hname hroot
    -- nothing but a step up or a dot is below
    refine List.isChain_cons.mpr ⟨?_, h⟩
    intro seg hseg hup
    cases done with
    | nil => simp at hseg
    | cons d rest =>
      simp only [List.map_cons, List.head?_cons, Option.mem_def, Option.some.injEq] at hseg
      subst hseg
      cases d with
      | root => exact absurd rfl (hroot rest)
      | here => exact .inr rfl
      | up => exact .inl rfl
      | name s => exact absurd rfl (hname s rest)
  · rename_i _ hup _ _
    refine hpush ?_
    cases c with
    | root => simp [Component.text]
    | here => simp [Component.text]
    | up => exact absurd rfl hup
    | name s =>
      rcases hc with hc | hc | hc
      · exact hc.2.1
      · cases hc
      · cases hc

theorem climbs_foldl : ∀ {cs done : List Component}, (∀ c ∈ cs, c.IsStep ∨ c = .root ∨ c = .here) →
    ((done.map fun c => c.text.toList).IsChain fun a b => Climbs b a) →
    ((cs.foldl foldComponent done).map fun c => c.text.toList).IsChain fun a b => Climbs b a
  | [], _, _, h => h
  | c :: cs, _, hcs, h => by
    rw [List.foldl_cons]
    exact climbs_foldl (fun d hd => hcs d (List.mem_cons_of_mem c hd))
      (climbs_fold (hcs c List.mem_cons_self) h)

theorem climbs_normalComponents (p : Path) :
    ((normalComponents p.components).map fun c => c.text.toList).IsChain Climbs := by
  obtain ⟨start, steps, hp, hstart, hsteps⟩ := components_eq_lead p
  have hcs : ∀ c ∈ p.components, c.IsStep ∨ c = .root ∨ c = .here := by
    intro c hc
    rw [hp] at hc
    rcases List.mem_append.mp hc with hc | hc
    · rcases hstart with rfl | rfl | rfl
      · cases hc
      · exact .inr (.inl (List.mem_singleton.mp hc))
      · exact .inr (.inr (List.mem_singleton.mp hc))
    · exact .inl (hsteps c hc)
  have h := @climbs_foldl p.components [] hcs .nil
  rw [normalComponents, List.map_reverse]
  exact List.isChain_reverse.mpr h

theorem level_normalize (p : Path) : p.normalize.Level := by
  obtain ⟨steps, hsteps, hshape⟩ := normalComponents_shape p
  have hclimbs := climbs_normalComponents p
  unfold normalize Level
  split
  · exact .singleton _
  · rename_i hne
    rcases hshape with hshape | hshape
    · rw [hshape] at hne hclimbs ⊢
      rw [ofComponents, toList_render (fun hroot => (hsteps _ hroot).solid.2.2 rfl),
        segments_steps hsteps hne]
      exact hclimbs
    · rw [hshape, List.map_cons] at hclimbs
      rw [hshape, ofComponents, toList_render_root, segments_slash]
      by_cases hempty : steps = []
      · subst hempty
        simp [Climbs]
      · rw [segments_steps hsteps hempty]
        refine List.isChain_cons.mpr ⟨fun seg hseg hup => ?_, hclimbs.tail⟩
        -- the root is neither a step up nor a dot, so no step up follows it
        rcases (List.isChain_cons.mp hclimbs).1 seg hseg hup with h | h <;> simp [Component.text] at h

theorem level_resolve (base p : Path) : (base.resolve p).Level := by
  unfold resolve
  split <;> exact level_normalize _

theorem level_concat {segs : List (List Char)} {seg : List Char} (h : segs.IsChain Climbs)
    (hseg : seg ≠ ['.', '.']) : (segs ++ [seg]).IsChain Climbs :=
  List.isChain_append.mpr ⟨h, .singleton seg, fun _ _ next hnext hup => by
    rw [List.head?_cons, Option.mem_def, Option.some.injEq] at hnext
    exact absurd (hnext ▸ hup) hseg⟩

theorem level_append {cs tail : List Char} (htail : '/' ∉ tail)
    (hname : ∀ seg, seg ++ tail ≠ ['.', '.']) (h : (segments cs).IsChain Climbs) :
    (segments (cs ++ tail)).IsChain Climbs := by
  obtain ⟨pre, last, hcs, happend⟩ := segments_append htail cs
  rw [hcs] at h
  rw [happend]
  exact level_concat h.left_of_append (hname last)

theorem level_swap {cs old new : List Char} (hold : '/' ∉ old) (hnew : '/' ∉ new)
    (hname : ∀ seg, seg ++ new ≠ ['.', '.']) (h : (segments (cs ++ old)).IsChain Climbs) :
    (segments (cs ++ new)).IsChain Climbs := by
  obtain ⟨pre, last, hcs, happend⟩ := segments_append hold cs
  obtain ⟨pre', last', hcs', happend'⟩ := segments_append hnew cs
  obtain ⟨rfl, hlast⟩ := List.append_inj' (hcs.symm.trans hcs') rfl
  rw [happend] at h
  rw [happend']
  exact level_concat h.left_of_append (hname last')

theorem level_join_name {p : Path} {name : String} (hslash : '/' ∉ name.toList)
    (hlong : 3 ≤ name.toList.length) (h : p.Level) : (p.join ⟨name⟩).Level := by
  have hname : ∀ seg, seg ++ name.toList ≠ ['.', '.'] := by
    intro seg heq
    have := congrArg List.length heq
    simp only [List.length_append, List.length_cons, List.length_nil] at this
    omega
  have hrel : isAbsolute ⟨name⟩ = false := by
    unfold isAbsolute Text.startsWith
    cases hc : name.toList with
    | nil => rfl
    | cons c cs =>
      have hne : '/' ≠ c := by
        rintro rfl
        simp [hc] at hslash
      simp [hne]
  unfold Level join
  rw [if_neg (by simp [hrel])]
  split
  · rw [String.toList_append]
    exact level_append hslash hname h
  · rw [String.toList_append, String.toList_append, List.append_assoc]
    have hsegs := segments_append_slash p.text.toList name.toList
    rw [segments_of_not_mem hslash] at hsegs
    show (segments (p.text.toList ++ '/' :: name.toList)).IsChain Climbs
    rw [hsegs]
    exact level_concat h (by simpa using hname [])

theorem level_candidates {base : Path} (h : base.Level) :
    ∀ c ∈ Specifier.candidates base, c.Level := by
  have hts : ∀ seg, seg ++ ['.', 't', 's'] ≠ ['.', '.'] := by
    intro seg heq
    have := congrArg List.getLast? heq
    simp at this
  have hdts : ∀ seg, seg ++ ['.', 'd', '.', 't', 's'] ≠ ['.', '.'] := by
    intro seg heq
    have := congrArg List.getLast? heq
    simp at this
  intro c hc
  unfold Specifier.candidates at hc
  simp only at hc
  split at hc
  · rw [List.mem_singleton.mp hc]
    exact h
  · split at hc
    · rename_i stem hstem
      rw [List.mem_singleton.mp hc]
      unfold Level at h ⊢
      rw [Text.stripTail?_eq_some hstem] at h
      simpa using level_swap (by decide) (by decide) hts h
    · simp only [List.mem_cons, List.not_mem_nil, or_false] at hc
      rcases hc with rfl | rfl | rfl | rfl
      · simpa [Level] using level_append (by decide) hts h
      · simpa [Level] using level_append (by decide) hdts h
      · exact level_join_name (by decide) (by decide) h
      · exact level_join_name (by decide) (by decide) h

end Recompile.Path
