import Recompile.Data.OrdMap

/-!
Lookups in ordered maps. What is stored and what is found do not depend on the order of the
entries; that an entry is found under its own key does.
-/

namespace Recompile

universe u v w

namespace OrdMap

variable {κ : Type u} {α : Type v} {β : Type w} [Ord κ]

theorem get?_mem {m : OrdMap κ α} {k : κ} {a : α} [Std.LawfulEqOrd κ] (h : m.get? k = some a) :
    (k, a) ∈ m.entries := by
  obtain ⟨e, he, rfl⟩ := Option.map_eq_some_iff.mp h
  have hk : compare k e.1 = .eq := by simpa using List.find?_some he
  rw [Std.LawfulEqOrd.eq_of_compare hk]
  exact List.mem_of_find?_eq_some he

@[simp] theorem get?_empty (k : κ) : (empty : OrdMap κ α).get? k = none := rfl

theorem contains_eq_isSome (m : OrdMap κ α) (k : κ) : m.contains k = (m.get? k).isSome := by
  simp [contains, get?]

theorem contains_iff {m : OrdMap κ α} {k : κ} : m.contains k = true ↔ ∃ a, m.get? k = some a := by
  rw [contains_eq_isSome, Option.isSome_iff_exists]

theorem get?_eq_none_of_not_contains {m : OrdMap κ α} {k : κ} (h : m.contains k = false) :
    m.get? k = none := by
  rw [contains_eq_isSome] at h
  exact Option.isNone_iff_eq_none.mp (by simpa using h)

theorem find?_put [Std.TransOrd κ] (k j : κ) (a : α) (entries : List (κ × α)) :
    ((put k a entries).find? fun e => compare j e.1 == .eq).map (·.2) =
      if compare j k = .eq then some a
      else (entries.find? fun e => compare j e.1 == .eq).map (·.2) := by
  induction entries with
  | nil => by_cases h : compare j k = .eq <;> simp [put, h]
  | cons e rest ih =>
    obtain ⟨i, b⟩ := e
    rw [put]
    cases hki : compare k i with
    | lt => by_cases h : compare j k = .eq <;> simp [List.find?_cons, h]
    | eq =>
      -- the stored key stays, but no lookup tells it from the new one
      have hji : compare j i = compare j k := by
        rw [Std.TransCmp.congr_right hki]
      by_cases h : compare j k = .eq <;> simp [hji, h]
    | gt =>
      by_cases hji : compare j i = .eq
      · have hjk : compare j k ≠ .eq := by
          intro hjk
          rw [Std.TransCmp.congr_left hjk, hki] at hji
          cases hji
        simp [hji, hjk]
      · simp [hji, ih]

theorem get?_insert [Std.TransOrd κ] (m : OrdMap κ α) (k j : κ) (a : α) :
    (m.insert k a).get? j = if compare j k = .eq then some a else m.get? j :=
  find?_put k j a m.entries

@[simp] theorem get?_insert_self [Std.TransOrd κ] (m : OrdMap κ α) (k : κ) (a : α) :
    (m.insert k a).get? k = some a := by
  rw [get?_insert, if_pos Std.ReflOrd.compare_self]

theorem get?_insert_of_ne [Std.TransOrd κ] [Std.LawfulEqOrd κ] {m : OrdMap κ α} {k j : κ} {a : α}
    (h : j ≠ k) : (m.insert k a).get? j = m.get? j := by
  rw [get?_insert, if_neg (fun hc => h (Std.LawfulEqOrd.eq_of_compare hc))]

theorem contains_insert [Std.TransOrd κ] (m : OrdMap κ α) (k j : κ) (a : α) :
    (m.insert k a).contains j = (compare j k == .eq || m.contains j) := by
  rw [contains_eq_isSome, contains_eq_isSome, get?_insert]
  by_cases h : compare j k = .eq <;> simp [h]

theorem contains_insert_of_contains [Std.TransOrd κ] {m : OrdMap κ α} {k j : κ} {a : α}
    (h : m.contains j = true) : (m.insert k a).contains j = true := by
  rw [contains_insert, h, Bool.or_true]

@[simp] theorem get?_map (f : κ → α → β) [Std.LawfulEqOrd κ] (m : OrdMap κ α) (k : κ) :
    (m.map f).get? k = (m.get? k).map (f k) := by
  obtain ⟨entries⟩ := m
  induction entries with
  | nil => rfl
  | cons e rest ih =>
    simp only [get?, entry?, map, List.map_cons] at ih ⊢
    by_cases h : compare k e.1 = .eq
    · simp [Std.LawfulEqOrd.eq_of_compare h]
    · simpa [List.find?_cons, h] using ih

theorem get?_filter [Std.LawfulEqOrd κ] [Std.ReflOrd κ] (p : κ → Bool) (m : OrdMap κ α) (k : κ) :
    (m.filter fun k _ => p k).get? k = if p k then m.get? k else none := by
  obtain ⟨entries⟩ := m
  induction entries with
  | nil => simp [get?, entry?, filter]
  | cons e rest ih =>
    simp only [get?, entry?, filter, List.filter_cons] at ih ⊢
    by_cases h : compare k e.1 = .eq
    · have hk := Std.LawfulEqOrd.eq_of_compare h
      subst hk
      by_cases hp : p e.1 <;> simp [hp]
      simpa [hp] using ih
    · by_cases hp : p e.1 <;> simpa [hp, h, List.find?_cons] using ih

theorem mem_keys_iff [Std.LawfulEqOrd κ] [Std.ReflOrd κ] {m : OrdMap κ α} {k : κ} :
    k ∈ m.keys ↔ m.contains k = true := by
  rw [contains_iff]
  constructor
  · intro h
    obtain ⟨e, he, rfl⟩ := List.mem_map.mp h
    have hs : (m.entries.find? fun x => compare e.1 x.1 == .eq).isSome := by
      rw [List.find?_isSome]
      exact ⟨e, he, by simp [Std.ReflOrd.compare_self]⟩
    obtain ⟨x, hx⟩ := Option.isSome_iff_exists.mp hs
    exact ⟨x.2, by simp [get?, entry?, hx]⟩
  · rintro ⟨a, ha⟩
    exact List.mem_map.mpr ⟨(k, a), get?_mem ha, rfl⟩

def Sorted (m : OrdMap κ α) : Prop := m.entries.Pairwise fun a b => compare a.1 b.1 = .lt

theorem sorted_empty : (empty : OrdMap κ α).Sorted := .nil

theorem mem_put {k : κ} {a : α} {entries : List (κ × α)} {e : κ × α} (h : e ∈ put k a entries) :
    (compare k e.1 = .eq ∧ e.2 = a) ∨ e.1 = k ∨ e ∈ entries := by
  induction entries with
  | nil => exact .inr (.inl (by simp_all [put]))
  | cons f rest ih =>
    obtain ⟨j, b⟩ := f
    rw [put] at h
    split at h
    · rcases List.mem_cons.mp h with rfl | h
      · exact .inr (.inl rfl)
      · exact .inr (.inr h)
    · rename_i heq
      rcases List.mem_cons.mp h with rfl | h
      · exact .inl ⟨heq, rfl⟩
      · exact .inr (.inr (List.mem_cons_of_mem _ h))
    · rcases List.mem_cons.mp h with rfl | h
      · exact .inr (.inr (by simp))
      · rcases ih h with h | h | h
        · exact .inl h
        · exact .inr (.inl h)
        · exact .inr (.inr (List.mem_cons_of_mem _ h))

theorem sorted_put [Std.TransOrd κ] (k : κ) (a : α) {entries : List (κ × α)}
    (h : entries.Pairwise fun a b => compare a.1 b.1 = .lt) :
    (put k a entries).Pairwise fun a b => compare a.1 b.1 = .lt := by
  induction entries with
  | nil => simp [put]
  | cons f rest ih =>
    obtain ⟨j, b⟩ := f
    obtain ⟨hj, hrest⟩ := List.pairwise_cons.mp h
    rw [put]
    split
    · rename_i hlt
      refine List.pairwise_cons.mpr ⟨fun e he => ?_, h⟩
      rcases List.mem_cons.mp he with rfl | he
      · exact hlt
      · exact Std.TransCmp.lt_trans hlt (hj e he)
    · exact List.pairwise_cons.mpr ⟨hj, hrest⟩
    · rename_i hgt
      refine List.pairwise_cons.mpr ⟨fun e he => ?_, ih hrest⟩
      have hjk : compare j k = .lt := Std.OrientedCmp.lt_of_gt hgt
      rcases mem_put he with ⟨heq, -⟩ | hek | he
      · rw [← Std.TransCmp.congr_right heq]
        exact hjk
      · simpa [hek] using hjk
      · exact hj e he

theorem Sorted.insert [Std.TransOrd κ] {m : OrdMap κ α} (h : m.Sorted) (k : κ) (a : α) :
    (m.insert k a).Sorted := sorted_put k a h

theorem Sorted.filter {m : OrdMap κ α} (h : m.Sorted) (p : κ → α → Bool) : (m.filter p).Sorted :=
  List.Pairwise.filter _ h

theorem Sorted.map {m : OrdMap κ α} (h : m.Sorted) (f : κ → α → β) : (m.map f).Sorted :=
  List.pairwise_map.mpr h

theorem Sorted.erase {m : OrdMap κ α} (h : m.Sorted) (k : κ) : (m.erase k).Sorted :=
  List.Pairwise.filter _ h

theorem sorted_foldl_insert [Std.TransOrd κ] (pairs : List (κ × α)) :
    ∀ {m : OrdMap κ α}, m.Sorted → (pairs.foldl (fun m e => m.insert e.1 e.2) m).Sorted := by
  induction pairs with
  | nil => exact fun h => h
  | cons e rest ih => exact fun h => ih (h.insert e.1 e.2)

theorem sorted_ofList [Std.TransOrd κ] (pairs : List (κ × α)) : (ofList pairs).Sorted :=
  sorted_foldl_insert pairs sorted_empty

theorem Sorted.get?_of_mem [Std.TransOrd κ] {m : OrdMap κ α} (h : m.Sorted) {k : κ} {a : α}
    (hm : (k, a) ∈ m.entries) : m.get? k = some a := by
  obtain ⟨entries⟩ := m
  induction entries with
  | nil => cases hm
  | cons e rest ih =>
    obtain ⟨he, hrest⟩ := List.pairwise_cons.mp h
    simp only [get?, entry?, List.find?_cons] at ih ⊢
    rcases List.mem_cons.mp hm with rfl | hm
    · simp [Std.ReflOrd.compare_self]
    · have hlt : compare e.1 k = .lt := he _ hm
      have hgt : compare k e.1 = .gt := Std.OrientedCmp.gt_of_lt hlt
      simpa [hgt] using ih hrest hm

theorem Sorted.mem_iff [Std.TransOrd κ] [Std.LawfulEqOrd κ] {m : OrdMap κ α} (h : m.Sorted)
    {k : κ} {a : α} : (k, a) ∈ m.entries ↔ m.get? k = some a :=
  ⟨h.get?_of_mem, get?_mem⟩

theorem Sorted.mem_values [Std.TransOrd κ] [Std.LawfulEqOrd κ] {m : OrdMap κ α} (h : m.Sorted)
    {a : α} : a ∈ m.values ↔ ∃ k, m.get? k = some a := by
  constructor
  · intro ha
    obtain ⟨e, he, rfl⟩ := List.mem_map.mp ha
    exact ⟨e.1, h.get?_of_mem he⟩
  · rintro ⟨k, hk⟩
    exact List.mem_map.mpr ⟨(k, a), get?_mem hk, rfl⟩

theorem Sorted.nodup_keys [Std.TransOrd κ] {m : OrdMap κ α} (h : m.Sorted) : m.keys.Nodup := by
  refine List.pairwise_map.mpr (List.Pairwise.imp ?_ h)
  intro a b hab heq
  rw [heq, Std.ReflOrd.compare_self] at hab
  cases hab

theorem Sorted.nodup_entries [Std.TransOrd κ] {m : OrdMap κ α} (h : m.Sorted) :
    m.entries.Nodup := by
  refine List.Pairwise.imp ?_ h
  intro a b hab heq
  rw [heq, Std.ReflOrd.compare_self] at hab
  cases hab

theorem Sorted.ext [Std.TransOrd κ] [Std.LawfulEqOrd κ] {m n : OrdMap κ α} (hm : m.Sorted)
    (hn : n.Sorted) (h : ∀ k, m.get? k = n.get? k) : m = n := by
  obtain ⟨xs⟩ := m
  obtain ⟨ys⟩ := n
  have hperm : xs.Perm ys := by
    refine (List.perm_ext_iff_of_nodup hm.nodup_entries hn.nodup_entries).mpr fun e => ?_
    have hx := hm.mem_iff (k := e.1) (a := e.2)
    have hy := hn.mem_iff (k := e.1) (a := e.2)
    rw [h] at hx
    exact hx.trans hy.symm
  have hanti : ∀ a b, a ∈ xs → b ∈ ys → compare a.1 b.1 = .lt → compare b.1 a.1 = .lt → a = b :=
    fun a b _ _ hab hba => absurd hba (Std.OrientedCmp.not_lt_of_lt hab)
  rw [List.Perm.eq_of_pairwise hanti hm hn hperm]

theorem get?_foldl_insert [Std.TransOrd κ] [Std.LawfulEqOrd κ] (pairs : List (κ × α)) :
    ∀ {m : OrdMap κ α} {k : κ}, k ∉ pairs.map (·.1) →
      (pairs.foldl (fun m e => m.insert e.1 e.2) m).get? k = m.get? k := by
  induction pairs with
  | nil => exact fun _ => rfl
  | cons e rest ih =>
    intro m k h
    simp only [List.map_cons, List.mem_cons, not_or] at h
    rw [List.foldl_cons, ih h.2, get?_insert_of_ne h.1]

theorem get?_foldl_insert_of_mem [Std.TransOrd κ] [Std.LawfulEqOrd κ] (pairs : List (κ × α)) :
    ∀ {m : OrdMap κ α} {k : κ} {a : α}, (pairs.map (·.1)).Nodup → (k, a) ∈ pairs →
      (pairs.foldl (fun m e => m.insert e.1 e.2) m).get? k = some a := by
  induction pairs with
  | nil => exact fun _ h => by cases h
  | cons e rest ih =>
    intro m k a hnodup h
    simp only [List.map_cons, List.nodup_cons] at hnodup
    rw [List.foldl_cons]
    rcases List.mem_cons.mp h with rfl | h
    · rw [get?_foldl_insert rest hnodup.1, get?_insert_self]
    · exact ih hnodup.2 h

theorem get?_ofList [Std.TransOrd κ] [Std.LawfulEqOrd κ] {pairs : List (κ × α)}
    (hnodup : (pairs.map (·.1)).Nodup) {k : κ} {a : α} :
    (ofList pairs).get? k = some a ↔ (k, a) ∈ pairs := by
  constructor
  · intro h
    by_cases hk : k ∈ pairs.map (·.1)
    · obtain ⟨⟨j, b⟩, he, rfl⟩ := List.mem_map.mp hk
      have hb := get?_foldl_insert_of_mem pairs (m := empty) hnodup he
      rw [ofList, hb] at h
      cases h
      exact he
    · rw [ofList, get?_foldl_insert pairs hk] at h
      cases h
  · exact fun h => get?_foldl_insert_of_mem pairs hnodup h

theorem mem_of_get?_foldl_insert [Std.TransOrd κ] [Std.LawfulEqOrd κ] (pairs : List (κ × α)) :
    ∀ {m : OrdMap κ α} {k : κ} {a : α},
      (pairs.foldl (fun m e => m.insert e.1 e.2) m).get? k = some a → m.get? k = some a ∨ (k, a) ∈ pairs := by
  induction pairs with
  | nil => exact fun h => .inl h
  | cons e rest ih =>
    intro m k a h
    rcases ih h with h | h
    · rw [get?_insert] at h
      split at h
      · rename_i hk
        cases h
        rw [Std.LawfulEqOrd.eq_of_compare hk]
        exact .inr (by simp)
      · exact .inl h
    · exact .inr (by simp [h])

theorem mem_of_get?_ofList [Std.TransOrd κ] [Std.LawfulEqOrd κ] {pairs : List (κ × α)} {k : κ} {a : α}
    (h : (ofList pairs).get? k = some a) : (k, a) ∈ pairs :=
  (mem_of_get?_foldl_insert pairs h).resolve_left fun hempty => by cases hempty

theorem get?_ofList_ne_none [Std.TransOrd κ] {pairs : List (κ × α)} {e : κ × α} (h : e ∈ pairs) :
    (ofList pairs).get? e.1 ≠ none := by
  have hkept : ∀ (rest : List (κ × α)) {m : OrdMap κ α}, m.get? e.1 ≠ none →
      (rest.foldl (fun m e => m.insert e.1 e.2) m).get? e.1 ≠ none := by
    intro rest
    induction rest with
    | nil => exact fun h => h
    | cons e' rest ih =>
      intro m hm
      refine ih ?_
      rw [get?_insert]
      split
      · exact Option.some_ne_none _
      · exact hm
  obtain ⟨before, after, rfl⟩ := List.append_of_mem h
  unfold ofList
  rw [List.foldl_append, List.foldl_cons]
  refine hkept after ?_
  rw [get?_insert_self]
  exact Option.some_ne_none _

theorem get?_ofList_eq [Std.TransOrd κ] [Std.LawfulEqOrd κ] {pairs : List (κ × α)} {k : κ} {found : Option α}
    (hall : ∀ a, (k, a) ∈ pairs → found = some a) (hsome : found ≠ none → ∃ a, (k, a) ∈ pairs) :
    (ofList pairs).get? k = found := by
  cases hget : (ofList pairs).get? k with
  | some a => exact (hall a (mem_of_get?_ofList hget)).symm
  | none =>
    cases found with
    | none => rfl
    | some b =>
      obtain ⟨a, ha⟩ := hsome (Option.some_ne_none b)
      exact absurd hget (get?_ofList_ne_none ha)

theorem Sorted.ofList_entries [Std.TransOrd κ] [Std.LawfulEqOrd κ] {m : OrdMap κ α}
    (h : m.Sorted) : ofList m.entries = m := by
  refine (sorted_ofList _).ext h fun k => ?_
  have hlookup : ∀ a, (ofList m.entries).get? k = some a ↔ m.get? k = some a :=
    fun a => (get?_ofList h.nodup_keys).trans h.mem_iff
  cases hm : m.get? k with
  | some a => exact (hlookup a).mpr hm
  | none =>
    cases ho : (ofList m.entries).get? k with
    | none => rfl
    | some a => rw [(hlookup a).mp ho] at hm; cases hm

end OrdMap

namespace OrdSet

variable {κ : Type u} [Ord κ]

theorem contains_add [Std.TransOrd κ] (s : OrdSet κ) (k j : κ) :
    (add s k).contains j = (compare j k == .eq || s.contains j) := by
  unfold add
  by_cases hk : s.contains k
  · rw [if_pos hk]
    by_cases hj : compare j k = .eq
    · have hjs : s.contains j = s.contains k := by
        simp only [OrdMap.contains, OrdMap.entry?]
        congr 2
        funext e
        rw [Std.TransCmp.congr_left hj]
      simp [hjs, hk]
    · simp [hj]
  · rw [if_neg hk, OrdMap.contains_eq_isSome, OrdMap.contains_eq_isSome, OrdMap.get?_insert]
    by_cases hj : compare j k = .eq <;> simp [hj]

theorem contains_addAll [Std.TransOrd κ] (ks : List κ) (j : κ) :
    ∀ s : OrdSet κ, (addAll s ks).contains j =
      (s.contains j || ks.any fun k => compare j k == .eq) := by
  induction ks with
  | nil => simp [addAll]
  | cons k rest ih =>
    intro s
    have h := ih (add s k)
    simp only [addAll, List.foldl_cons] at h ⊢
    rw [h, contains_add, List.any_cons, Bool.or_left_comm, Bool.or_assoc]

theorem mem_addAll [Std.TransOrd κ] [Std.LawfulEqOrd κ] {s : OrdSet κ} {ks : List κ} {j : κ} :
    (addAll s ks).contains j = true ↔ s.contains j = true ∨ j ∈ ks := by
  simp [contains_addAll]

theorem mem_ofList [Std.TransOrd κ] [Std.LawfulEqOrd κ] {ks : List κ} {j : κ} :
    (ofList ks).contains j = true ↔ j ∈ ks := by
  rw [ofList, mem_addAll]
  simp [OrdMap.contains_eq_isSome]

theorem mem_toList [Std.TransOrd κ] [Std.LawfulEqOrd κ] {s : OrdSet κ} {j : κ} :
    j ∈ toList s ↔ s.contains j = true := OrdMap.mem_keys_iff

theorem mem_toList_ofList [Std.TransOrd κ] [Std.LawfulEqOrd κ] {ks : List κ} {j : κ} :
    j ∈ toList (ofList ks) ↔ j ∈ ks := by
  rw [mem_toList, mem_ofList]

theorem sorted_add [Std.TransOrd κ] {s : OrdSet κ} (h : s.Sorted) (k : κ) : (add s k).Sorted := by
  unfold add
  split
  · exact h
  · exact h.insert k ()

theorem sorted_addAll [Std.TransOrd κ] (ks : List κ) :
    ∀ {s : OrdSet κ}, s.Sorted → (addAll s ks).Sorted := by
  induction ks with
  | nil => exact fun h => h
  | cons k rest ih => exact fun h => ih (sorted_add h k)

theorem sorted_ofList [Std.TransOrd κ] (ks : List κ) : (ofList ks).Sorted :=
  sorted_addAll ks OrdMap.sorted_empty

theorem get?_eq_some [Std.TransOrd κ] {s : OrdSet κ} {k : κ} :
    s.get? k = some () ↔ s.contains k = true := by
  rw [OrdMap.contains_iff]
  constructor
  · exact fun h => ⟨(), h⟩
  · rintro ⟨⟨⟩, h⟩
    exact h

theorem ext_of_sorted [Std.TransOrd κ] [Std.LawfulEqOrd κ] {s t : OrdSet κ} (hs : s.Sorted)
    (ht : t.Sorted) (h : ∀ k, s.contains k = true ↔ t.contains k = true) : s = t := by
  refine hs.ext ht fun k => ?_
  cases hk : s.get? k with
  | some u => exact ((get?_eq_some.mpr ((h k).mp (get?_eq_some.mp hk))).symm)
  | none =>
    cases hk' : t.get? k with
    | none => rfl
    | some u => rw [get?_eq_some.mpr ((h k).mpr (get?_eq_some.mp hk'))] at hk; cases hk

theorem mem_keys_put {k j : κ} {entries : List (κ × Unit)}
    (h : j ∈ (OrdMap.put k () entries).map (·.1)) : j = k ∨ j ∈ entries.map (·.1) := by
  induction entries with
  | nil => exact .inl (by simpa [OrdMap.put] using h)
  | cons e rest ih =>
    obtain ⟨i, b⟩ := e
    rw [OrdMap.put] at h
    split at h
    · simpa using h
    · exact .inr (by simpa using h)
    · simp only [List.map_cons, List.mem_cons] at h ⊢
      rcases h with h | h
      · exact .inr (.inl h)
      · exact (ih h).imp_right .inr

theorem mem_of_mem_toList_addAll {j : κ} (ks : List κ) :
    ∀ {s : OrdSet κ}, j ∈ toList (addAll s ks) → j ∈ toList s ∨ j ∈ ks := by
  induction ks with
  | nil => exact fun h => .inl h
  | cons k ks ih =>
    intro s h
    rcases ih h with h | h
    · unfold add at h
      split at h
      · exact .inl h
      · rcases mem_keys_put h with rfl | h
        · exact .inr List.mem_cons_self
        · exact .inl h
    · exact .inr (List.mem_cons_of_mem _ h)

theorem mem_toList_ofList_of_faithful [Std.TransOrd κ] {ks : List κ}
    (h : ∀ a ∈ ks, ∀ b ∈ ks, compare a b = .eq → a = b) {j : κ} : j ∈ toList (ofList ks) ↔ j ∈ ks := by
  have hsub : ∀ {i}, i ∈ toList (ofList ks) → i ∈ ks := fun hi =>
    (mem_of_mem_toList_addAll ks hi).resolve_left fun hnil => by cases hnil
  refine ⟨hsub, fun hj => ?_⟩
  have hcontains : (ofList ks).contains j = true := by
    unfold ofList
    rw [contains_addAll]
    exact Bool.or_eq_true_iff.mpr (.inr (List.any_eq_true.mpr ⟨j, hj, by simp⟩))
  obtain ⟨e, he⟩ := Option.isSome_iff_exists.mp hcontains
  have hmem : e.1 ∈ toList (ofList ks) := List.mem_map.mpr ⟨e, List.mem_of_find?_eq_some he, rfl⟩
  have hsame : compare j e.1 = .eq := by simpa using List.find?_some he
  rwa [h j hj e.1 (hsub hmem) hsame]

theorem ext_of_toList [Std.TransOrd κ] {s t : OrdSet κ} (hs : s.Sorted) (ht : t.Sorted)
    (h : ∀ k, k ∈ toList s ↔ k ∈ toList t) : s = t := by
  have hperm : (toList s).Perm (toList t) :=
    (List.perm_ext_iff_of_nodup hs.nodup_keys ht.nodup_keys).mpr h
  have hanti : ∀ a b, a ∈ toList s → b ∈ toList t → compare a b = .lt → compare b a = .lt → a = b :=
    fun a b _ _ hab hba => absurd hba (Std.OrientedCmp.not_lt_of_lt hab)
  have hkeys : toList s = toList t := List.Perm.eq_of_pairwise hanti (List.pairwise_map.mpr hs)
    (List.pairwise_map.mpr ht) hperm
  obtain ⟨xs⟩ := s
  obtain ⟨ys⟩ := t
  exact congrArg OrdMap.mk ((List.map_inj_right fun _ _ heq => Prod.ext heq rfl).mp hkeys)

end OrdSet

end Recompile
