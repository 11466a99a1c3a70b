import Recompile.Proofs.Data.OrdMap

/-!
Maps laid over each other. A lookup in what comes out is made of the lookups in the layers, so layers can be
put together in any groups.
-/

namespace Recompile

variable {κ : Type} {α : Type}

def overlay (f : Option α → α → α) (was later : Option α) : Option α := (later.map (f was)).or was

/-- Laying values over each other does not depend on where one begins. -/
structure Layered (f : Option α → α → α) : Prop where
  none : ∀ a, f none a = a
  some : ∀ was a b, f (some (f was a)) b = f was (f (some a) b)

theorem Layered.assoc {f : Option α → α → α} (hf : Layered f) (a b c : Option α) :
    overlay f (overlay f a b) c = overlay f a (overlay f b c) := by
  cases c with
  | none => rfl
  | some z =>
    cases b with
    | none => simp [overlay, hf.none]
    | some y => simp [overlay, hf.some]

theorem Layered.none_overlay {f : Option α → α → α} (hf : Layered f) (a : Option α) : overlay f .none a = a := by
  cases a with
  | none => rfl
  | some a => simp [overlay, hf.none]

theorem Layered.foldl_flatten {f : Option α → α → α} (hf : Layered f) (groups : List (List (Option α))) :
    groups.flatten.foldl (overlay f) .none = (groups.map (·.foldl (overlay f) .none)).foldl (overlay f) .none := by
  have : Std.Associative (overlay f) := ⟨hf.assoc⟩
  rw [List.foldl_flatten, List.foldl_map]
  congr 1
  funext was group
  have hgroup : group.foldl (overlay f) (overlay f was .none) = overlay f was (group.foldl (overlay f) .none) :=
    List.foldl_assoc
  exact hgroup

namespace OrdMap

variable [Ord κ]

def layer (f : Option α → α → α) (m n : OrdMap κ α) : OrdMap κ α :=
  n.entries.foldl (fun m e => m.insert e.1 (f (m.get? e.1) e.2)) m

variable [Std.TransOrd κ]

theorem Sorted.layer {f : Option α → α → α} {m : OrdMap κ α} (h : m.Sorted) (n : OrdMap κ α) :
    (layer f m n).Sorted := by
  obtain ⟨entries⟩ := n
  unfold OrdMap.layer
  induction entries generalizing m with
  | nil => exact h
  | cons e rest ih => exact ih (h.insert _ _)

theorem Sorted.foldl_layer {f : Option α → α → α} (maps : List (OrdMap κ α)) :
    ∀ {m : OrdMap κ α}, m.Sorted → (maps.foldl (OrdMap.layer f) m).Sorted := by
  induction maps with
  | nil => exact fun h => h
  | cons n rest ih => exact fun h => ih (h.layer n)

variable [Std.LawfulEqOrd κ]

theorem get?_layer {f : Option α → α → α} {n : OrdMap κ α} (hn : n.Sorted) (m : OrdMap κ α) (k : κ) :
    (layer f m n).get? k = overlay f (m.get? k) (n.get? k) := by
  obtain ⟨entries⟩ := n
  induction entries generalizing m with
  | nil => rfl
  | cons e rest ih =>
    obtain ⟨hfirst, hrest⟩ := List.pairwise_cons.mp hn
    show (layer f (m.insert e.1 (f (m.get? e.1) e.2)) ⟨rest⟩).get? k = _
    rw [ih _ hrest, get?_insert]
    by_cases hk : compare k e.1 = .eq
    · -- the later entries have larger keys
      have hlater : (⟨rest⟩ : OrdMap κ α).get? k = none := by
        refine Option.map_eq_none_iff.mpr (List.find?_eq_none.mpr fun e' he' => ?_)
        rw [Std.LawfulEqOrd.eq_of_compare hk, hfirst e' he']
        decide
      have hhere : (⟨e :: rest⟩ : OrdMap κ α).get? k = some e.2 := by simp [get?, entry?, hk]
      rw [if_pos hk, hlater, hhere, Std.LawfulEqOrd.eq_of_compare hk]
      rfl
    · have hskip : (⟨e :: rest⟩ : OrdMap κ α).get? k = (⟨rest⟩ : OrdMap κ α).get? k := by
        simp [get?, entry?, hk]
      rw [if_neg hk, hskip]

theorem get?_foldl_layer {f : Option α → α → α} (maps : List (OrdMap κ α)) (h : ∀ n ∈ maps, n.Sorted) :
    ∀ (m : OrdMap κ α) (k : κ), (maps.foldl (layer f) m).get? k =
      (maps.map (·.get? k)).foldl (overlay f) (m.get? k) := by
  induction maps with
  | nil => exact fun _ _ => rfl
  | cons n rest ih =>
    intro m k
    obtain ⟨hn, hrest⟩ := List.forall_mem_cons.mp h
    rw [List.foldl_cons, ih hrest, get?_layer hn, List.map_cons, List.foldl_cons]

theorem empty_layer {f : Option α → α → α} (hf : Layered f) {n : OrdMap κ α} (hn : n.Sorted) :
    layer f empty n = n :=
  (sorted_empty.layer n).ext hn fun k => by rw [get?_layer hn, get?_empty, hf.none_overlay]

theorem foldl_layer_flatten {f : Option α → α → α} (hf : Layered f) (groups : List (List (OrdMap κ α)))
    (h : ∀ group ∈ groups, ∀ n ∈ group, n.Sorted) :
    (groups.map (·.foldl (layer f) empty)).foldl (layer f) empty = groups.flatten.foldl (layer f) empty := by
  refine (Sorted.foldl_layer _ sorted_empty).ext (Sorted.foldl_layer _ sorted_empty) fun k => ?_
  have hgroups : ∀ n ∈ groups.map (·.foldl (layer f) empty), n.Sorted := by
    intro n hn
    obtain ⟨group, -, rfl⟩ := List.mem_map.mp hn
    exact Sorted.foldl_layer _ sorted_empty
  have hall : ∀ n ∈ groups.flatten, n.Sorted := by
    intro n hn
    obtain ⟨group, hgroup, hn⟩ := List.mem_flatten.mp hn
    exact h group hgroup n hn
  have hlookup : (groups.map (·.foldl (layer f) empty)).map (·.get? k) =
      (groups.map (·.map (·.get? k))).map (·.foldl (overlay f) none) := by
    rw [List.map_map, List.map_map]
    exact List.map_congr_left fun group hgroup => get?_foldl_layer group (h group hgroup) empty k
  rw [get?_foldl_layer _ hgroups, get?_foldl_layer _ hall, hlookup, List.map_flatten, get?_empty,
    hf.foldl_flatten]

end OrdMap

end Recompile
