import Recompile.Data.Closure

/-!
Members of closures. As a set, a closure depends on the successors of its members only, and not on
the order in which they are listed.
-/

namespace Recompile.Closure

universe u

variable {α : Type u} [BEq α]

theorem mem_fresh [LawfulBEq α] {a : α} : ∀ {xs known : List α}, a ∈ fresh known xs ↔ a ∈ xs ∧ a ∉ known := by
  intro xs
  induction xs with
  | nil => simp [fresh_nil]
  | cons x rest ih =>
    intro known
    rw [fresh_cons]
    by_cases hx : known.contains x = true
    · rw [if_pos hx, ih]
      have hmem : x ∈ known := by simpa using hx
      constructor
      · exact fun h => ⟨List.mem_cons_of_mem _ h.1, h.2⟩
      · rintro ⟨h, hk⟩
        rcases List.mem_cons.mp h with rfl | h
        · exact absurd hmem hk
        · exact ⟨h, hk⟩
    · rw [if_neg hx, List.mem_cons, ih, List.mem_cons, List.mem_cons]
      have hnot : x ∉ known := by simpa using hx
      by_cases ha : a = x
      · subst ha
        simp [hnot]
      · simp [ha]

theorem grow_nil (next : α → List α) (fuel : Nat) (reached : List α) :
    grow next fuel reached [] = reached := by
  cases fuel <;> rfl

theorem grow_succ (next : α → List α) (fuel : Nat) (reached frontier : List α) :
    grow next (fuel + 1) reached frontier =
      grow next fuel (reached ++ fresh reached frontier) ((fresh reached frontier).flatMap next) := by
  rw [grow_round]
  cases hfresh : fresh reached frontier with
  | nil => rw [List.append_nil, List.flatMap_nil, grow_nil]
  | cons a rest => rfl

theorem subset_grow (next : α → List α) {a : α} (fuel : Nat) :
    ∀ {reached frontier : List α}, a ∈ reached → a ∈ grow next fuel reached frontier := by
  induction fuel with
  | zero => exact fun h => h
  | succ fuel ih =>
    intro reached frontier h
    rw [grow_succ]
    exact ih (List.mem_append_left _ h)

theorem subset_closure [LawfulBEq α] (next : α → List α) (bound : Nat) {a : α} {seeds : List α}
    (h : a ∈ seeds) : a ∈ closure next bound seeds := by
  have hfresh : a ∈ fresh [] seeds := mem_fresh.mpr ⟨h, List.not_mem_nil⟩
  rw [closure, grow_succ]
  exact subset_grow next bound (List.mem_append_right _ hfresh)

theorem grow_induction [LawfulBEq α] {next : α → List α} {P : α → Prop} (hnext : ∀ a, P a → ∀ b ∈ next a, P b)
    (fuel : Nat) : ∀ {reached frontier : List α}, (∀ a ∈ reached, P a) → (∀ a ∈ frontier, P a) →
      ∀ a ∈ grow next fuel reached frontier, P a := by
  induction fuel with
  | zero => exact fun hreached _ => hreached
  | succ fuel ih =>
    intro reached frontier hreached hfrontier
    have hfresh : ∀ a ∈ fresh reached frontier, P a := fun a ha => hfrontier a (mem_fresh.mp ha).1
    rw [grow_succ]
    refine ih (fun a ha => ?_) fun b hb => ?_
    · exact (List.mem_append.mp ha).elim (hreached a) (hfresh a)
    · obtain ⟨a, ha, hab⟩ := List.mem_flatMap.mp hb
      exact hnext a (hfresh a ha) b hab

theorem closure_induction [LawfulBEq α] {next : α → List α} {P : α → Prop} {bound : Nat} {seeds : List α}
    (hseeds : ∀ a ∈ seeds, P a) (hnext : ∀ a, P a → ∀ b ∈ next a, P b) {a : α}
    (h : a ∈ closure next bound seeds) : P a :=
  grow_induction hnext (bound + 1) (fun _ hmem => (List.not_mem_nil hmem).elim) hseeds a h

theorem closure_nil (next : α → List α) (bound : Nat) : closure next bound [] = [] := rfl

/-- All successors of the members are members. -/
def Closed (next : α → List α) (xs : List α) : Prop := ∀ a ∈ xs, ∀ b ∈ next a, b ∈ xs

/-- The successors of what is reached are reached, or on the frontier. -/
def Framed (next : α → List α) (reached frontier : List α) : Prop :=
  ∀ a ∈ reached, ∀ b ∈ next a, b ∈ reached ∨ b ∈ frontier

omit [BEq α] in
theorem Framed.closed {next : α → List α} {reached frontier : List α} (h : Framed next reached frontier)
    (hsub : ∀ b ∈ frontier, b ∈ reached) : Closed next reached :=
  fun a ha b hb => (h a ha b hb).elim id (hsub b)

variable [LawfulBEq α]

theorem Framed.step {next : α → List α} {reached frontier : List α} (h : Framed next reached frontier) :
    Framed next (reached ++ fresh reached frontier) ((fresh reached frontier).flatMap next) := by
  intro a ha b hb
  rcases List.mem_append.mp ha with ha | ha
  · by_cases hreached : b ∈ reached
    · exact .inl (List.mem_append_left _ hreached)
    · have hfrontier := (h a ha b hb).resolve_left hreached
      exact .inl (List.mem_append_right _ (mem_fresh.mpr ⟨hfrontier, hreached⟩))
  · exact .inr (List.mem_flatMap.mpr ⟨a, ha, hb⟩)

def left (known reached : List α) : List α := known.filter fun a => !reached.contains a

theorem left_lt {known reached new : List α} {a : α} (ha : a ∈ new) (hknown : a ∈ known)
    (hnew : a ∉ reached) : (left known (reached ++ new)).length < (left known reached).length := by
  have hsplit : left known (reached ++ new) = (left known reached).filter fun b => !new.contains b := by
    unfold left
    rw [List.filter_filter]
    refine List.filter_congr fun b _ => ?_
    simp [Bool.and_comm]
  rw [hsplit]
  refine List.length_filter_lt_length_iff_exists.mpr ⟨a, ?_, by simpa using ha⟩
  exact List.mem_filter.mpr ⟨hknown, by simpa using hnew⟩

theorem closed_grow_of_sources {next : α → List α} {known : List α}
    (hknown : ∀ a, next a ≠ [] → a ∈ known) (fuel : Nat) : ∀ {reached frontier : List α},
      Framed next reached frontier → ((left known reached).length < fuel ∨ frontier = []) →
        Closed next (grow next fuel reached frontier) := by
  induction fuel with
  | zero =>
    rintro reached frontier h (hfuel | rfl)
    · exact absurd hfuel (Nat.not_lt_zero _)
    · exact h.closed fun b hb => (List.not_mem_nil hb).elim
  | succ fuel ih =>
    rintro reached frontier h (hfuel | rfl)
    · rw [grow_succ]
      refine ih h.step ?_
      by_cases hlast : (fresh reached frontier).flatMap next = []
      · exact .inr hlast
      · -- whoever has successors among the fresh members is known, and leaves fewer behind
        obtain ⟨b, hb⟩ := List.exists_mem_of_ne_nil _ hlast
        obtain ⟨a, ha, hab⟩ := List.mem_flatMap.mp hb
        have hlt := left_lt ha (hknown a (List.ne_nil_of_mem hab)) (mem_fresh.mp ha).2
        exact .inl (by omega)
    · rw [grow_nil]
      exact h.closed fun b hb => (List.not_mem_nil hb).elim

/-- The rounds suffice when only known members have successors. -/
theorem closed_closure_of_sources {next : α → List α} {known : List α} {bound : Nat}
    (hknown : ∀ a, next a ≠ [] → a ∈ known) (hbound : known.length ≤ bound) (seeds : List α) :
    Closed next (closure next bound seeds) := by
  refine closed_grow_of_sources hknown _ (fun a ha => (List.not_mem_nil ha).elim) (.inl ?_)
  exact Nat.lt_succ_of_le (Nat.le_trans (List.length_filter_le _ _) hbound)

theorem closed_grow_of_targets {next : α → List α} {known : List α}
    (hknown : ∀ a, ∀ b ∈ next a, b ∈ known) (fuel : Nat) : ∀ {reached frontier : List α},
      Framed next reached frontier → (∀ b ∈ frontier, b ∈ known) →
        (left known reached).length ≤ fuel → Closed next (grow next fuel reached frontier) := by
  induction fuel with
  | zero =>
    intro reached frontier h hsub hfuel
    refine h.closed fun b hb => ?_
    have hempty := List.eq_nil_of_length_eq_zero (Nat.le_zero.mp hfuel)
    refine Classical.byContradiction fun hnew => ?_
    have hmem : b ∈ left known reached := List.mem_filter.mpr ⟨hsub b hb, by simpa using hnew⟩
    rw [hempty] at hmem
    cases hmem
  | succ fuel ih =>
    intro reached frontier h hsub hfuel
    cases hfresh : fresh reached frontier with
    | nil =>
      rw [grow_succ, hfresh, List.append_nil, List.flatMap_nil, grow_nil]
      refine h.closed fun b hb => ?_
      refine Classical.byContradiction fun hnew => ?_
      have hmem : b ∈ fresh reached frontier := mem_fresh.mpr ⟨hb, hnew⟩
      rw [hfresh] at hmem
      cases hmem
    | cons a rest =>
      have ha : a ∈ fresh reached frontier := hfresh ▸ List.mem_cons_self
      obtain ⟨hfrontier, hnew⟩ := mem_fresh.mp ha
      have hlt := left_lt ha (hsub a hfrontier) hnew
      rw [grow_succ]
      refine ih h.step (fun b hb => ?_) (by omega)
      obtain ⟨x, -, hx⟩ := List.mem_flatMap.mp hb
      exact hknown x b hx

theorem closed_closure_of_targets {next : α → List α} {known : List α} {bound : Nat}
    (hknown : ∀ a, ∀ b ∈ next a, b ∈ known) (hbound : known.length ≤ bound) (seeds : List α) :
    Closed next (closure next bound seeds) := by
  have hstart : Framed next [] seeds := fun a ha => (List.not_mem_nil ha).elim
  rw [closure, grow_succ]
  refine closed_grow_of_targets hknown bound hstart.step (fun b hb => ?_) ?_
  · obtain ⟨x, -, hx⟩ := List.mem_flatMap.mp hb
    exact hknown x b hx
  · exact Nat.le_trans (List.length_filter_le _ _) hbound

end Recompile.Closure
