import Mathlib.Data.List.Basic
import Mathlib.Logic.Relation
import Recompile.Program.Basic
import Recompile.Proofs.Data.Closure
import Recompile.Proofs.Data.OrdMap
import Recompile.Proofs.Text.Cuts

/-!
The names that a module exports. They are its own and, except for default exports, those of every
module behind a chain of star re-exports. A depth-first search that visits no module twice finds them
too, whatever circles the re-exports form.
-/

namespace Recompile.Program

/-- A module passes on all names of a file: a re-export of it names none, and its specifier stands
for the file. -/
def PassesAll (p : Program) (a b : FileId) : Prop :=
  ∃ m i r, p.module? a = some m ∧ m.outline.reexports[i]? = some r ∧ r.names = none ∧
    m.resolutions[m.outline.imports.length + i]? = some (.file b)

/-- The names that a module exports, depth first, with the modules visited on the way: one visited
before adds nothing. The first argument bounds the depth. -/
def collectNames (p : Program) :
    Nat → List FileId → FileId → Checked (List String × List FileId)
  | 0, _, _ => .error .unfinished
  | fuel + 1, visited, id =>
      if id ∈ visited then return ([], visited)
      else
        (p.starTargets id).foldlM (fun state target => do
          let (more, visited) ← collectNames p fuel state.2 target
          return (state.1 ++ more.filter (· ≠ "default"), visited)) (p.directExports id, id :: visited)

variable {p : Program} {a b id : FileId}

theorem mem_starTargets : b ∈ p.starTargets a ↔ p.PassesAll a b := by
  have htarget : ∀ x : Resolution, x.target? = some b ↔ x = .file b := by
    intro x
    cases x <;> simp [Resolution.target?]
  unfold starTargets
  split
  · rename_i hm
    refine iff_of_false List.not_mem_nil ?_
    rintro ⟨m, i, r, hm', -⟩
    rw [hm] at hm'
    cases hm'
  · rename_i m hm
    simp only [Module.starTargets, Module.reexports, List.mem_filterMap, List.mem_filter, htarget,
      Option.isNone_iff_eq_none]
    constructor
    · rintro ⟨x, ⟨hx, hnames⟩, hfile⟩
      obtain ⟨i, hi⟩ := List.mem_iff_getElem?.mp hx
      obtain ⟨hr, hres⟩ := List.getElem?_zip_eq_some.mp hi
      rw [List.getElem?_drop, hfile] at hres
      exact ⟨m, i, x.1, hm, hr, hnames, hres⟩
    · rintro ⟨m', i, r, hm', hr, hnames, hres⟩
      rw [hm] at hm'
      cases hm'
      refine ⟨(r, .file b), ⟨?_, hnames⟩, rfl⟩
      rw [← List.getElem?_drop] at hres
      exact List.mem_iff_getElem?.mpr ⟨i, List.getElem?_zip_eq_some.mpr ⟨hr, hres⟩⟩

theorem starTargets_sources (p : Program) (h : p.starTargets a ≠ []) : a ∈ p.modules.keys := by
  unfold starTargets at h
  split at h
  · exact absurd rfl h
  · rename_i m hm
    exact OrdMap.mem_keys_iff.mpr (OrdMap.contains_iff.mpr ⟨m, hm⟩)

theorem closed_starTargets (p : Program) (id : FileId) :
    Closure.Closed p.starTargets (Closure.closure p.starTargets p.modules.size (p.starTargets id)) :=
  Closure.closed_closure_of_sources (fun _ => p.starTargets_sources)
    (by simp [OrdMap.keys, OrdMap.size]) _

theorem mem_behind_iff : b ∈ Closure.closure p.starTargets p.modules.size (p.starTargets id) ↔
    Relation.TransGen p.PassesAll id b := by
  constructor
  · refine Closure.closure_induction (P := Relation.TransGen p.PassesAll id) (fun a ha => ?_)
      fun a ha b hb => ?_
    · exact .single (mem_starTargets.mp ha)
    · exact ha.tail (mem_starTargets.mp hb)
  · intro h
    induction h with
    | single h => exact Closure.subset_closure _ _ (mem_starTargets.mpr h)
    | tail _ h ih => exact p.closed_starTargets id _ ih _ (mem_starTargets.mpr h)

theorem contains_exportedNames {name : String} : (p.exportedNames id).contains name = true ↔
    name ∈ p.directExports id ∨
      name ≠ "default" ∧ ∃ b, Relation.TransGen p.PassesAll id b ∧ name ∈ p.directExports b := by
  unfold exportedNames
  simp only [OrdSet.mem_ofList, List.mem_append, List.mem_filter, List.mem_flatMap, mem_behind_iff,
    decide_eq_true_eq]
  rw [and_comm]

/-- What a search from some files has visited, beyond what was visited before it. -/
structure Searched (p : Program) (visited froms after : List FileId) : Prop where
  kept : ∀ a ∈ visited, a ∈ after
  taken : ∀ a ∈ froms, a ∈ after
  framed : ∀ a ∈ after, a ∉ visited → ∀ b ∈ p.starTargets a, b ∈ after
  reached : ∀ a ∈ after, a ∉ visited → ∃ f ∈ froms, Relation.ReflTransGen p.PassesAll f a

def NewName (p : Program) (visited after : List FileId) (name : String) : Prop :=
  ∃ a ∈ after, a ∉ visited ∧ name ∈ p.directExports a

variable {visited middle after froms rest : List FileId} {name : String}

theorem Searched.refl (p : Program) (visited : List FileId) : Searched p visited [] visited where
  kept _ ha := ha
  taken _ ha := (List.not_mem_nil ha).elim
  framed _ ha hnew := absurd ha hnew
  reached _ ha hnew := absurd ha hnew

theorem Searched.trans (h : Searched p visited froms middle) (h' : Searched p middle rest after) :
    Searched p visited (froms ++ rest) after where
  kept a ha := h'.kept a (h.kept a ha)
  taken a ha := (List.mem_append.mp ha).elim (fun ha => h'.kept a (h.taken a ha)) (h'.taken a)
  framed a ha hnew b hb := by
    by_cases hmiddle : a ∈ middle
    · exact h'.kept b (h.framed a hmiddle hnew b hb)
    · exact h'.framed a ha hmiddle b hb
  reached a ha hnew := by
    by_cases hmiddle : a ∈ middle
    · obtain ⟨f, hf, hpath⟩ := h.reached a hmiddle hnew
      exact ⟨f, List.mem_append_left _ hf, hpath⟩
    · obtain ⟨f, hf, hpath⟩ := h'.reached a ha hmiddle
      exact ⟨f, List.mem_append_right _ hf, hpath⟩

theorem NewName.trans_iff (h : Searched p visited froms middle) (h' : Searched p middle rest after) :
    p.NewName visited after name ↔ p.NewName visited middle name ∨ p.NewName middle after name := by
  constructor
  · rintro ⟨a, ha, hnew, hname⟩
    by_cases hmiddle : a ∈ middle
    · exact .inl ⟨a, hmiddle, hnew, hname⟩
    · exact .inr ⟨a, ha, hmiddle, hname⟩
  · rintro (⟨a, ha, hnew, hname⟩ | ⟨a, ha, hnew, hname⟩)
    · exact ⟨a, h'.kept a ha, hnew, hname⟩
    · exact ⟨a, ha, fun hold => hnew (h.kept a hold), hname⟩

theorem Searched.visit (h : Searched p (id :: visited) (p.starTargets id) after) :
    Searched p visited [id] after where
  kept a ha := h.kept a (List.mem_cons_of_mem id ha)
  taken a ha := by
    rw [List.mem_singleton.mp ha]
    exact h.kept id List.mem_cons_self
  framed a ha hnew' b hb := by
    by_cases hid : a = id
    · exact h.taken b (hid ▸ hb)
    · exact h.framed a ha (by simp [hid, hnew']) b hb
  reached a ha hnew' := by
    refine ⟨id, List.mem_cons_self, ?_⟩
    by_cases hid : a = id
    · rw [hid]
    · obtain ⟨f, hf, hpath⟩ := h.reached a ha (by simp [hid, hnew'])
      exact .head (mem_starTargets.mp hf) hpath

theorem left_le {known : List FileId} (h : ∀ a ∈ visited, a ∈ after) :
    (Closure.left known after).length ≤ (Closure.left known visited).length := by
  refine (List.monotone_filter_right known fun a ha => ?_).length_le
  simp only [Bool.not_eq_true', List.contains_eq_mem, decide_eq_false_iff_not] at ha ⊢
  exact fun hold => ha (h a hold)

/-- A search of one file that comes to its end, and finds the names of the files it visits. -/
def Collects (p : Program) (run : List FileId → FileId → Checked (List String × List FileId))
    (visited : List FileId) (id : FileId) : Prop :=
  ∃ names after, run visited id = .ok (names, after) ∧ Searched p visited [id] after ∧
    ∀ name, name ∈ names ↔ id ∉ visited ∧ name ∈ p.directExports id ∨
      name ≠ "default" ∧ p.NewName visited after name

theorem foldlM_collects {run : List FileId → FileId → Checked (List String × List FileId)} {bound : Nat}
    (hrun : ∀ {visited id}, (Closure.left p.modules.keys visited).length < bound →
      p.Collects run visited id) (ts : List FileId) :
    ∀ {found : List String} {visited : List FileId},
      (ts ≠ [] → (Closure.left p.modules.keys visited).length < bound) →
      ∃ names after, ts.foldlM (fun state target => do
          let (more, visited) ← run state.2 target
          return (state.1 ++ more.filter (· ≠ "default"), visited)) (found, visited) =
            (.ok (names, after) : Checked (List String × List FileId)) ∧
        Searched p visited ts after ∧
        ∀ name, name ∈ names ↔ name ∈ found ∨ name ≠ "default" ∧ p.NewName visited after name := by
  induction ts with
  | nil =>
    intro found visited _
    refine ⟨found, visited, rfl, .refl p visited, fun name => (or_iff_left ?_).symm⟩
    rintro ⟨-, a, ha, hnew, -⟩
    exact hnew ha
  | cons t ts ih =>
    intro found visited hleft
    have hshort := hleft (List.cons_ne_nil t ts)
    have hcollects : p.Collects run visited t := hrun hshort
    obtain ⟨more, middle, hmore, hsearch, hmem⟩ := hcollects
    obtain ⟨names, after, hrest, hsearch', hnames⟩ :=
      @ih (found ++ more.filter (· ≠ "default")) middle fun _ =>
        Nat.lt_of_le_of_lt (left_le hsearch.kept) hshort
    refine ⟨names, after, ?_, hsearch.trans hsearch', fun name => ?_⟩
    · rw [List.foldlM_cons, hmore]
      exact hrest
    · have hdirect : t ∉ visited ∧ name ∈ p.directExports t → p.NewName visited middle name :=
        fun h => ⟨t, hsearch.taken t List.mem_cons_self, h.1, h.2⟩
      have hpassed : (name ∈ more ∧ name ≠ "default") ↔
          name ≠ "default" ∧ p.NewName visited middle name := by
        rw [hmem, and_comm]
        exact and_congr_right fun hne => ⟨fun h => h.elim hdirect And.right, fun h => .inr ⟨hne, h⟩⟩
      rw [hnames, NewName.trans_iff hsearch hsearch', List.mem_append, List.mem_filter,
        decide_eq_true_eq, hpassed, or_assoc, and_or_left]

theorem NewName.visit_iff (hnew : id ∉ visited) (h : id ∈ after) :
    p.NewName visited after name ↔ name ∈ p.directExports id ∨ p.NewName (id :: visited) after name := by
  constructor
  · rintro ⟨a, ha, hnew', hname⟩
    by_cases hid : a = id
    · exact .inl (hid ▸ hname)
    · exact .inr ⟨a, ha, by simp [hid, hnew'], hname⟩
  · rintro (hname | ⟨a, ha, hnew', hname⟩)
    · exact ⟨id, h, hnew, hname⟩
    · exact ⟨a, ha, fun hold => hnew' (List.mem_cons_of_mem id hold), hname⟩

/-- A depth-first search comes to its end when it may go as deep as there are modules left. -/
theorem collectNames_collects (p : Program) (fuel : Nat) : ∀ {visited : List FileId} {id : FileId},
    (Closure.left p.modules.keys visited).length < fuel → p.Collects (p.collectNames fuel) visited id := by
  induction fuel with
  | zero => exact fun hfuel => absurd hfuel (Nat.not_lt_zero _)
  | succ fuel ih =>
    intro visited id hfuel
    unfold Collects
    rw [collectNames]
    by_cases hseen : id ∈ visited
    · rw [if_pos hseen]
      refine ⟨[], visited, rfl, ⟨fun _ ha => ha, ?_, ?_, ?_⟩, fun name => ?_⟩
      · simpa using hseen
      · exact fun a ha hnew => absurd ha hnew
      · exact fun a ha hnew => absurd ha hnew
      · refine iff_of_false List.not_mem_nil ?_
        rintro (⟨hnew, -⟩ | ⟨-, a, ha, hnew, -⟩)
        · exact hnew hseen
        · exact hnew ha
    · rw [if_neg hseen]
      -- only a module passes names on, and then there is one module less to be visited
      have hleft : p.starTargets id ≠ [] →
          (Closure.left p.modules.keys (id :: visited)).length < fuel := by
        intro hsome
        have hself : id ∈ [id] := List.mem_cons_self
        have hlt := Closure.left_lt hself (p.starTargets_sources hsome) hseen
        have hsame : (Closure.left p.modules.keys (id :: visited)).length ≤
            (Closure.left p.modules.keys (visited ++ [id])).length := left_le fun a ha => by
          simpa [or_comm] using ha
        omega
      obtain ⟨names, after, hfold, hsearch, hnames⟩ :=
        @foldlM_collects p _ _ (fun h => ih h) (p.starTargets id) (p.directExports id) (id :: visited) hleft
      refine ⟨names, after, hfold, hsearch.visit, fun name => ?_⟩
      rw [hnames, NewName.visit_iff hseen (hsearch.kept id List.mem_cons_self), and_iff_right hseen,
        and_or_left, ← or_assoc, or_iff_left_of_imp And.right]

theorem Searched.mem_iff (h : Searched p [] [id] after) :
    b ∈ after ↔ Relation.ReflTransGen p.PassesAll id b := by
  constructor
  · intro hb
    obtain ⟨f, hf, hpath⟩ := h.reached b hb List.not_mem_nil
    rwa [List.mem_singleton.mp hf] at hpath
  · intro hpath
    induction hpath with
    | refl => exact h.taken id List.mem_cons_self
    | tail _ hstep ih => exact h.framed _ ih List.not_mem_nil _ (mem_starTargets.mpr hstep)

/-- A module exports its own names, and the names other than `default` that the modules behind
non-empty chains of star re-exports export themselves. The depth-first search for them comes to its
end, in every program, and finds the same. -/
theorem exportedNames_eq_closure (p : Program) (id : FileId) :
    (∃ names visited, p.collectNames (p.modules.size + 1) [] id = .ok (names, visited) ∧
      OrdSet.ofList names = p.exportedNames id) ∧
    ∀ name, (p.exportedNames id).contains name = true ↔ name ∈ p.directExports id ∨
      name ≠ "default" ∧ ∃ b, Relation.TransGen p.PassesAll id b ∧ name ∈ p.directExports b := by
  refine ⟨?_, fun name => contains_exportedNames⟩
  have hfuel : (Closure.left p.modules.keys []).length < p.modules.size + 1 := by
    have hle : (Closure.left p.modules.keys []).length ≤ p.modules.keys.length :=
      List.length_filter_le _ _
    rw [OrdMap.keys, List.length_map] at hle
    exact Nat.lt_succ_of_le hle
  obtain ⟨names, after, hcollect, hsearch, hnames⟩ := @collectNames_collects p _ [] id hfuel
  refine ⟨names, after, hcollect, ?_⟩
  refine OrdSet.ext_of_sorted (OrdSet.sorted_ofList _) (OrdSet.sorted_ofList _) fun name => ?_
  rw [contains_exportedNames, OrdSet.mem_ofList, hnames]
  -- The file itself is visited first, so its default export is not lost on the way.
  have hnew : p.NewName [] after name ↔ name ∈ p.directExports id ∨
      ∃ b, Relation.TransGen p.PassesAll id b ∧ name ∈ p.directExports b := by
    simp only [NewName, hsearch.mem_iff, List.not_mem_nil, not_false_eq_true, true_and,
      Relation.reflTransGen_iff_eq_or_transGen]
    constructor
    · rintro ⟨b, rfl | hb, hname⟩
      · exact .inl hname
      · exact .inr ⟨b, hb, hname⟩
    · rintro (hname | ⟨b, hb, hname⟩)
      · exact ⟨id, .inl rfl, hname⟩
      · exact ⟨b, .inr hb, hname⟩
  rw [hnew, and_iff_right List.not_mem_nil, and_or_left, ← or_assoc, or_iff_left_of_imp And.right]

end Recompile.Program
