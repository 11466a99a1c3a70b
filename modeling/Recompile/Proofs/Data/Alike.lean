import Mathlib.Data.List.Forall2
import Recompile.Proofs.Data.Closure
import Recompile.Proofs.Data.OrdMap

/-!
Lists that are related as sets, under a relation that gives no member two partners. What is computed
from the members alone is related again, in whatever order they are listed.
-/

namespace Recompile

universe u v w x

variable {α : Type u} {β : Type v} {γ : Type w} {δ : Type x} {R : α → β → Prop} {S : γ → δ → Prop}

structure Alike (R : α → β → Prop) (xs : List α) (ys : List β) : Prop where
  left : ∀ a ∈ xs, ∃ b ∈ ys, R a b
  right : ∀ b ∈ ys, ∃ a ∈ xs, R a b

namespace Alike

variable {xs xs' : List α} {ys ys' : List β}

theorem nil : Alike R [] [] := ⟨by simp, by simp⟩

theorem refl (xs : List α) : Alike Eq xs xs := ⟨fun a ha => ⟨a, ha, rfl⟩, fun a ha => ⟨a, ha, rfl⟩⟩

theorem mem_iff (h : Alike R xs ys) (hR : Relator.BiUnique R) {a : α} {b : β} (hab : R a b) :
    a ∈ xs ↔ b ∈ ys := by
  constructor
  · intro ha
    obtain ⟨b', hb', hab'⟩ := h.left a ha
    rwa [hR.2 hab hab']
  · intro hb
    obtain ⟨a', ha', hab'⟩ := h.right b hb
    rwa [hR.1 hab hab']

theorem of_mem_iff (hleft : ∀ a ∈ xs, ∃ b, R a b) (hright : ∀ b ∈ ys, ∃ a, R a b)
    (h : ∀ {a b}, R a b → (a ∈ xs ↔ b ∈ ys)) : Alike R xs ys where
  left a ha := by
    obtain ⟨b, hab⟩ := hleft a ha
    exact ⟨b, (h hab).mp ha, hab⟩
  right b hb := by
    obtain ⟨a, hab⟩ := hright b hb
    exact ⟨a, (h hab).mpr hb, hab⟩

theorem of_forall₂ (h : List.Forall₂ R xs ys) : Alike R xs ys := by
  induction h with
  | nil => exact nil
  | @cons a b xs ys hab _ ih =>
    refine ⟨fun a' ha => ?_, fun b' hb => ?_⟩
    · rcases List.mem_cons.mp ha with rfl | ha
      · exact ⟨b, List.mem_cons_self, hab⟩
      · obtain ⟨b', hb', hab'⟩ := ih.left a' ha
        exact ⟨b', List.mem_cons_of_mem _ hb', hab'⟩
    · rcases List.mem_cons.mp hb with rfl | hb
      · exact ⟨a, List.mem_cons_self, hab⟩
      · obtain ⟨a', ha', hab'⟩ := ih.right b' hb
        exact ⟨a', List.mem_cons_of_mem _ ha', hab'⟩

theorem append (h : Alike R xs ys) (h' : Alike R xs' ys') : Alike R (xs ++ xs') (ys ++ ys') where
  left a ha := by
    rcases List.mem_append.mp ha with ha | ha
    · obtain ⟨b, hb, hab⟩ := h.left a ha
      exact ⟨b, List.mem_append_left _ hb, hab⟩
    · obtain ⟨b, hb, hab⟩ := h'.left a ha
      exact ⟨b, List.mem_append_right _ hb, hab⟩
  right b hb := by
    rcases List.mem_append.mp hb with hb | hb
    · obtain ⟨a, ha, hab⟩ := h.right b hb
      exact ⟨a, List.mem_append_left _ ha, hab⟩
    · obtain ⟨a, ha, hab⟩ := h'.right b hb
      exact ⟨a, List.mem_append_right _ ha, hab⟩

theorem flatMap (h : Alike R xs ys) {f : α → List γ} {g : β → List δ}
    (hfg : ∀ {a b}, R a b → Alike S (f a) (g b)) : Alike S (xs.flatMap f) (ys.flatMap g) where
  left c hc := by
    obtain ⟨a, ha, hca⟩ := List.mem_flatMap.mp hc
    obtain ⟨b, hb, hab⟩ := h.left a ha
    obtain ⟨d, hd, hcd⟩ := (hfg hab).left c hca
    exact ⟨d, List.mem_flatMap.mpr ⟨b, hb, hd⟩, hcd⟩
  right d hd := by
    obtain ⟨b, hb, hdb⟩ := List.mem_flatMap.mp hd
    obtain ⟨a, ha, hab⟩ := h.right b hb
    obtain ⟨c, hc, hcd⟩ := (hfg hab).right d hdb
    exact ⟨c, List.mem_flatMap.mpr ⟨a, ha, hc⟩, hcd⟩

theorem filterMap (h : Alike R xs ys) {f : α → Option γ} {g : β → Option δ}
    (hfg : ∀ {a b}, R a b → Option.Rel S (f a) (g b)) : Alike S (xs.filterMap f) (ys.filterMap g) where
  left c hc := by
    obtain ⟨a, ha, hca⟩ := List.mem_filterMap.mp hc
    obtain ⟨b, hb, hab⟩ := h.left a ha
    have hrel := hfg hab
    rw [hca] at hrel
    generalize hgb : g b = y at hrel
    cases hrel with
    | some hcd => exact ⟨_, List.mem_filterMap.mpr ⟨b, hb, hgb⟩, hcd⟩
  right d hd := by
    obtain ⟨b, hb, hdb⟩ := List.mem_filterMap.mp hd
    obtain ⟨a, ha, hab⟩ := h.right b hb
    have hrel := hfg hab
    rw [hdb] at hrel
    generalize hfa : f a = x at hrel
    cases hrel with
    | some hcd => exact ⟨_, List.mem_filterMap.mpr ⟨a, ha, hfa⟩, hcd⟩

theorem map (h : Alike R xs ys) {f : α → γ} {g : β → δ} (hfg : ∀ {a b}, R a b → S (f a) (g b)) :
    Alike S (xs.map f) (ys.map g) where
  left c hc := by
    obtain ⟨a, ha, rfl⟩ := List.mem_map.mp hc
    obtain ⟨b, hb, hab⟩ := h.left a ha
    exact ⟨g b, List.mem_map.mpr ⟨b, hb, rfl⟩, hfg hab⟩
  right d hd := by
    obtain ⟨b, hb, rfl⟩ := List.mem_map.mp hd
    obtain ⟨a, ha, hab⟩ := h.right b hb
    exact ⟨f a, List.mem_map.mpr ⟨a, ha, rfl⟩, hfg hab⟩

theorem filter (h : Alike R xs ys) {f : α → Bool} {g : β → Bool}
    (hfg : ∀ {a b}, R a b → f a = g b) : Alike R (xs.filter f) (ys.filter g) where
  left a ha := by
    obtain ⟨ha, hfa⟩ := List.mem_filter.mp ha
    obtain ⟨b, hb, hab⟩ := h.left a ha
    exact ⟨b, List.mem_filter.mpr ⟨hb, by rw [← hfg hab, hfa]⟩, hab⟩
  right b hb := by
    obtain ⟨hb, hgb⟩ := List.mem_filter.mp hb
    obtain ⟨a, ha, hab⟩ := h.right b hb
    exact ⟨a, List.mem_filter.mpr ⟨ha, by rw [hfg hab, hgb]⟩, hab⟩

theorem any_eq (h : Alike R xs ys) {f : α → Bool} {g : β → Bool}
    (hfg : ∀ {a b}, R a b → f a = g b) : xs.any f = ys.any g := by
  rw [Bool.eq_iff_iff, List.any_eq_true, List.any_eq_true]
  constructor
  · rintro ⟨a, ha, hfa⟩
    obtain ⟨b, hb, hab⟩ := h.left a ha
    exact ⟨b, hb, by rw [← hfg hab, hfa]⟩
  · rintro ⟨b, hb, hgb⟩
    obtain ⟨a, ha, hab⟩ := h.right b hb
    exact ⟨a, ha, by rw [hfg hab, hgb]⟩

theorem eq_nil_iff (h : Alike R xs ys) : xs = [] ↔ ys = [] := by
  constructor
  · rintro rfl
    refine List.eq_nil_iff_forall_not_mem.mpr fun b hb => ?_
    obtain ⟨a, ha, -⟩ := h.right b hb
    cases ha
  · rintro rfl
    refine List.eq_nil_iff_forall_not_mem.mpr fun a ha => ?_
    obtain ⟨b, hb, -⟩ := h.left a ha
    cases hb

theorem congr_mem (h : Alike R xs ys) (hx : ∀ a, a ∈ xs' ↔ a ∈ xs) (hy : ∀ b, b ∈ ys' ↔ b ∈ ys) :
    Alike R xs' ys' where
  left a ha := by
    obtain ⟨b, hb, hab⟩ := h.left a ((hx a).mp ha)
    exact ⟨b, (hy b).mpr hb, hab⟩
  right b hb := by
    obtain ⟨a, ha, hab⟩ := h.right b ((hy b).mp hb)
    exact ⟨a, (hx a).mpr ha, hab⟩

theorem length_eq [BEq β] [LawfulBEq β] (hR : Relator.BiUnique R) : ∀ {xs : List α} {ys : List β},
    xs.Nodup → ys.Nodup → Alike R xs ys → xs.length = ys.length := by
  intro xs
  induction xs with
  | nil =>
    intro ys _ _ h
    rw [h.eq_nil_iff.mp rfl]
    rfl
  | cons a xs ih =>
    intro ys hxs hys h
    obtain ⟨hnew, hxs⟩ := List.nodup_cons.mp hxs
    obtain ⟨b, hb, hab⟩ := h.left a List.mem_cons_self
    have hrest : Alike R xs (ys.erase b) := by
      refine ⟨fun a' ha' => ?_, fun b' hb' => ?_⟩
      · obtain ⟨b', hb', hab'⟩ := h.left a' (List.mem_cons_of_mem _ ha')
        have hne : b' ≠ b := by
          rintro rfl
          exact hnew (hR.1 hab' hab ▸ ha')
        exact ⟨b', (List.mem_erase_of_ne hne).mpr hb', hab'⟩
      · obtain ⟨hne, hb'⟩ := hys.mem_erase_iff.mp hb'
        obtain ⟨a', ha', hab'⟩ := h.right b' hb'
        rcases List.mem_cons.mp ha' with rfl | ha'
        · exact absurd (hR.2 hab' hab) hne
        · exact ⟨a', ha', hab'⟩
    have hlength := ih hxs (hys.erase b) hrest
    have hpos := List.length_pos_of_mem hb
    rw [List.length_cons, hlength, List.length_erase_of_mem hb]
    omega

section Closure

variable [BEq α] [LawfulBEq α] [BEq β] [LawfulBEq β]

theorem fresh (hR : Relator.BiUnique R) {known : List α} {known' : List β} (hknown : Alike R known known')
    (h : Alike R xs ys) : Alike R (Closure.fresh known xs) (Closure.fresh known' ys) where
  left a ha := by
    obtain ⟨ha, hnew⟩ := Closure.mem_fresh.mp ha
    obtain ⟨b, hb, hab⟩ := h.left a ha
    exact ⟨b, Closure.mem_fresh.mpr ⟨hb, fun hmem => hnew ((hknown.mem_iff hR hab).mpr hmem)⟩, hab⟩
  right b hb := by
    obtain ⟨hb, hnew⟩ := Closure.mem_fresh.mp hb
    obtain ⟨a, ha, hab⟩ := h.right b hb
    exact ⟨a, Closure.mem_fresh.mpr ⟨ha, fun hmem => hnew ((hknown.mem_iff hR hab).mp hmem)⟩, hab⟩

theorem grow (hR : Relator.BiUnique R) {next : α → List α} {next' : β → List β}
    (hnext : ∀ {a b}, R a b → Alike R (next a) (next' b)) (fuel : Nat) :
    ∀ {reached frontier : List α} {reached' frontier' : List β}, Alike R reached reached' →
      Alike R frontier frontier' →
        Alike R (Closure.grow next fuel reached frontier) (Closure.grow next' fuel reached' frontier') := by
  induction fuel with
  | zero => exact fun h _ => h
  | succ fuel ih =>
    intro reached frontier reached' frontier' hreached hfrontier
    have hnew := hreached.fresh hR hfrontier
    unfold Closure.grow
    cases hf : Closure.fresh reached frontier with
    | nil =>
      rw [hf] at hnew
      rw [hnew.eq_nil_iff.mp rfl]
      exact hreached
    | cons a rest =>
      rw [hf] at hnew
      cases hf' : Closure.fresh reached' frontier' with
      | nil =>
        rw [hf'] at hnew
        cases hnew.eq_nil_iff.mpr rfl
      | cons b rest' =>
        rw [hf'] at hnew
        exact ih (hreached.append hnew) (hnew.flatMap hnext)

theorem closure (hR : Relator.BiUnique R) {next : α → List α} {next' : β → List β}
    (hnext : ∀ {a b}, R a b → Alike R (next a) (next' b)) (h : Alike R xs ys) (bound : Nat) :
    Alike R (Closure.closure next bound xs) (Closure.closure next' bound ys) :=
  grow hR hnext (bound + 1) nil h

end Closure

section Sets

variable [Ord α] [Std.TransOrd α] [Std.LawfulEqOrd α] [Ord β] [Std.TransOrd β] [Std.LawfulEqOrd β]

theorem ofList (h : Alike R xs ys) :
    Alike R (OrdSet.toList (OrdSet.ofList xs)) (OrdSet.toList (OrdSet.ofList ys)) :=
  h.congr_mem (fun _ => OrdSet.mem_toList_ofList) (fun _ => OrdSet.mem_toList_ofList)

theorem contains_iff {s : OrdSet α} {t : OrdSet β} (h : Alike R (OrdSet.toList s) (OrdSet.toList t))
    (hR : Relator.BiUnique R) {a : α} {b : β} (hab : R a b) : s.contains a = t.contains b := by
  rw [Bool.eq_iff_iff, ← OrdSet.mem_toList, ← OrdSet.mem_toList]
  exact h.mem_iff hR hab

theorem eq_iff (hR : Relator.BiUnique R) {s t : OrdSet α} {s' t' : OrdSet β} (hs : s.Sorted) (ht : t.Sorted)
    (hs' : s'.Sorted) (ht' : t'.Sorted) (h : Alike R (OrdSet.toList s) (OrdSet.toList s'))
    (h' : Alike R (OrdSet.toList t) (OrdSet.toList t')) : s = t ↔ s' = t' := by
  constructor
  · rintro rfl
    refine OrdSet.ext_of_sorted hs' ht' fun b => ?_
    rw [← OrdSet.mem_toList, ← OrdSet.mem_toList]
    constructor
    · intro hb
      obtain ⟨a, ha, hab⟩ := h.right b hb
      exact (h'.mem_iff hR hab).mp ha
    · intro hb
      obtain ⟨a, ha, hab⟩ := h'.right b hb
      exact (h.mem_iff hR hab).mp ha
  · rintro rfl
    refine OrdSet.ext_of_sorted hs ht fun a => ?_
    rw [← OrdSet.mem_toList, ← OrdSet.mem_toList]
    constructor
    · intro ha
      obtain ⟨b, hb, hab⟩ := h.left a ha
      exact (h'.mem_iff hR hab).mpr hb
    · intro ha
      obtain ⟨b, hb, hab⟩ := h'.left a ha
      exact (h.mem_iff hR hab).mpr hb

end Sets

theorem mem_iff_of_eq {xs ys : List α} (h : Alike Eq xs ys) {a : α} : a ∈ xs ↔ a ∈ ys :=
  h.mem_iff ⟨fun _ _ _ h h' => h.trans h'.symm, fun _ _ _ h h' => h.symm.trans h'⟩ rfl

theorem ofList_eq [Ord α] [Std.TransOrd α] {xs ys : List α} (h : Alike Eq xs ys)
    (hfaithful : ∀ a ∈ xs, ∀ b ∈ xs, compare a b = .eq → a = b) :
    OrdSet.ofList xs = OrdSet.ofList ys := by
  refine OrdSet.ext_of_toList (OrdSet.sorted_ofList xs) (OrdSet.sorted_ofList ys) fun a => ?_
  rw [OrdSet.mem_toList_ofList_of_faithful hfaithful, OrdSet.mem_toList_ofList_of_faithful
    fun a ha b hb => hfaithful a (h.mem_iff_of_eq.mpr ha) b (h.mem_iff_of_eq.mpr hb)]
  exact h.mem_iff_of_eq

end Alike

end Recompile
