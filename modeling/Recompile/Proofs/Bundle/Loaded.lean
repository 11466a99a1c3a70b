import Recompile.Bundle.Classification
import Recompile.Proofs.Data.OrdMap
import Recompile.Proofs.Path.Tidy

/-!
What loads with the entry points of a bundle. The initial files are the outputs of declared entry points
and what is imported statically from there, each with the record that its way in gives it, and nothing
else.
-/

namespace Recompile.Bundle

namespace Metafile

def staticImports (m : Metafile) : List ImportEdge :=
  (m.outputs.values.flatMap fun e => e.imports).filter fun e => e.kind.isStatic

def inner (m : Metafile) : List String :=
  m.outputs.keys ++ (m.staticImports.filter fun e => !e.external).map (·.path)

def outer (m : Metafile) : List String :=
  (m.staticImports.filter fun e => e.external).map (·.path)

theorem mem_staticImports {m : Metafile} {output : String} {entry : OutputEntry} {e : ImportEdge}
    (hentry : m.outputs.get? output = some entry) (he : e ∈ entry.imports)
    (hstatic : e.kind.isStatic = true) : e ∈ m.staticImports := by
  have hvalue : entry ∈ m.outputs.values := List.mem_map.mpr ⟨_, OrdMap.get?_mem hentry, rfl⟩
  exact List.mem_filter.mpr ⟨List.mem_flatMap.mpr ⟨entry, hvalue, he⟩, hstatic⟩

theorem mem_inner_of_import {m : Metafile} {e : ImportEdge} (he : e ∈ m.staticImports)
    (hinner : e.external = false) : e.path ∈ m.inner := by
  apply List.mem_append_right
  exact List.mem_map.mpr ⟨e, List.mem_filter.mpr ⟨he, by simp [hinner]⟩, rfl⟩

end Metafile

/-- Keys tell the paths inside a bundle apart, and from the specifiers outside it. -/
structure Scope.Separates (s : Scope) (m : Metafile) : Prop where
  inner : ∀ p ∈ m.inner, ∀ q ∈ m.inner, s.key p = s.key q → p = q
  outer : ∀ p ∈ m.inner, s.key p ∉ m.outer

def IsSeed (s : Scope) (m : Metafile) (output : String) : Prop :=
  ∃ entry input, (output, entry) ∈ m.outputs.entries ∧ entry.entryPoint = some input ∧
    ∃ p ∈ s.entries, s.workingDir.resolve p = s.workingDir.resolve ⟨input⟩

/-- Static imports of an output that are kept. -/
structure Imports (s : Scope) (m : Metafile) (output : String) (e : ImportEdge) : Prop where
  listed : ∃ entry, m.outputs.get? output = some entry ∧ e ∈ entry.imports
  static : e.kind.isStatic = true
  kept : s.keep (s.edgeKey e) (reachedFile e) = true

/-- The paths that load with the declared entry points. -/
inductive Loaded (s : Scope) (m : Metafile) : String → Prop where
  | seed {output : String} : IsSeed s m output → Loaded s m output
  | imported {output : String} {e : ImportEdge} :
      Loaded s m output → Imports s m output e → e.external = false → Loaded s m e.path

/-- The files that a pass loads, each with its record. -/
inductive Initial (s : Scope) (m : Metafile) : String → InitialFile → Prop where
  | seed {output : String} :
      IsSeed s m output →
      Initial s m (s.key output) ⟨some (entryName output), FileType.ofPath output, true, none⟩
  | loaded {path : String} :
      Loaded s m path → ¬ IsSeed s m path →
      Initial s m (s.key path) ⟨none, FileType.ofPath path, false, none⟩
  | external {output : String} {e : ImportEdge} :
      Loaded s m output → Imports s m output e → e.external = true →
      Initial s m e.path ⟨none, FileType.ofPath e.path, false, some true⟩

section Seeds

variable {s : Scope} {m : Metafile}

theorem isEntry_iff {input : String} :
    s.isEntry input = true ↔ ∃ p ∈ s.entries, s.workingDir.resolve p = s.workingDir.resolve ⟨input⟩ := by
  unfold Scope.isEntry
  rw [List.any_eq_true]
  apply exists_congr
  intro p
  apply and_congr_right
  intro _
  constructor
  · intro hsame
    exact Path.eq_of_components_eq (Path.tidy_resolve _ _) (Path.tidy_resolve _ _) (of_decide_eq_true hsame)
  · intro heq
    rw [heq]
    simp [Path.same]

theorem mem_seeds_iff {output : String} : output ∈ seeds s m ↔ IsSeed s m output := by
  unfold seeds IsSeed
  constructor
  · intro h
    obtain ⟨⟨output, entry⟩, he, rfl⟩ := List.mem_map.mp h
    obtain ⟨hmem, hentry⟩ := List.mem_filter.mp he
    cases hinput : entry.entryPoint with
    | none => simp [hinput] at hentry
    | some input =>
      have hdeclared : s.isEntry input = true := by simpa [hinput] using hentry
      exact ⟨entry, input, hmem, hinput, isEntry_iff.mp hdeclared⟩
  · rintro ⟨entry, input, hmem, hinput, hdeclared⟩
    refine List.mem_map.mpr ⟨(output, entry), List.mem_filter.mpr ⟨hmem, ?_⟩, rfl⟩
    simpa [hinput] using isEntry_iff.mpr hdeclared

theorem IsSeed.mem_inner {output : String} (h : IsSeed s m output) : output ∈ m.inner := by
  obtain ⟨entry, -, hmem, -⟩ := h
  apply List.mem_append_left
  exact List.mem_map.mpr ⟨_, hmem, rfl⟩

theorem Imports.mem_staticImports {output : String} {e : ImportEdge} (h : Imports s m output e) :
    e ∈ m.staticImports := by
  obtain ⟨entry, hentry, he⟩ := h.listed
  exact Metafile.mem_staticImports hentry he h.static

theorem Imports.mem_outer {output : String} {e : ImportEdge} (h : Imports s m output e)
    (houter : e.external = true) : e.path ∈ m.outer :=
  List.mem_map.mpr ⟨e, List.mem_filter.mpr ⟨h.mem_staticImports, houter⟩, rfl⟩

theorem Loaded.mem_inner {path : String} (h : Loaded s m path) : path ∈ m.inner := by
  cases h with
  | seed hseed => exact hseed.mem_inner
  | imported _ himport hinner => exact Metafile.mem_inner_of_import himport.mem_staticImports hinner

theorem Initial.unique (hs : s.Separates m) {key : String} {a b : InitialFile} (ha : Initial s m key a)
    (hb : Initial s m key b) : a = b := by
  cases ha with
  | @seed output hseed =>
    generalize hkey : s.key output = key at hb
    cases hb with
    | seed hseed' => rw [hs.inner _ hseed.mem_inner _ hseed'.mem_inner hkey]
    | loaded hloaded hnot => exact absurd (hs.inner _ hseed.mem_inner _ hloaded.mem_inner hkey ▸ hseed) hnot
    | external _ himport houter =>
      exact absurd (hkey ▸ himport.mem_outer houter) (hs.outer _ hseed.mem_inner)
  | @loaded path hloaded hnot =>
    generalize hkey : s.key path = key at hb
    cases hb with
    | seed hseed => exact absurd (hs.inner _ hloaded.mem_inner _ hseed.mem_inner hkey ▸ hseed) hnot
    | loaded hloaded' _ => rw [hs.inner _ hloaded.mem_inner _ hloaded'.mem_inner hkey]
    | external _ himport houter =>
      exact absurd (hkey ▸ himport.mem_outer houter) (hs.outer _ hloaded.mem_inner)
  | @external output e hloaded himport houter =>
    generalize hkey : e.path = key at hb
    cases hb with
    | seed hseed => exact absurd (hkey ▸ himport.mem_outer houter) (hs.outer _ hseed.mem_inner)
    | loaded hloaded' _ => exact absurd (hkey ▸ himport.mem_outer houter) (hs.outer _ hloaded'.mem_inner)
    | external _ _ _ => rfl

end Seeds

def Scope.Keeps (s : Scope) (e : ImportEdge) : Prop :=
  e.kind.isStatic = true ∧ s.keep (s.edgeKey e) (reachedFile e) = true

theorem takeImports_induction {s : Scope} {P : InitialFiles → List ImportEdge → List String → Prop}
    {edges : List ImportEdge}
    (hskip : ∀ {found e left queue}, e ∈ edges →
      ¬ (e.kind.isStatic && !found.contains (s.edgeKey e) && s.keep (s.edgeKey e) (reachedFile e)) = true →
        P found (e :: left) queue → P found left queue)
    (htake : ∀ {found e left queue}, e ∈ edges → s.Keeps e → found.contains (s.edgeKey e) = false →
      P found (e :: left) queue → P (found.insert (s.edgeKey e) (reachedFile e)) left
        (if e.external then queue else queue ++ [e.path])) :
    ∀ {found : InitialFiles} {queue : List String}, P found edges queue →
      P (takeImports s found edges).1 [] (queue ++ (takeImports s found edges).2) := by
  induction edges with
  | nil =>
    intro found queue h
    rw [takeImports, List.append_nil]
    exact h
  | cons e edges ih =>
    intro found queue h
    have hrest := @ih (fun he => hskip (List.mem_cons_of_mem _ he)) (fun he => htake (List.mem_cons_of_mem _ he))
    rw [takeImports]
    split
    · rename_i hnext
      simp only [Bool.and_eq_true, Bool.not_eq_true'] at hnext
      obtain ⟨⟨hstatic, hnew⟩, hkept⟩ := hnext
      have htaken := hrest (htake List.mem_cons_self ⟨hstatic, hkept⟩ hnew h)
      cases hexternal : e.external with
      | true => simpa [hexternal] using htaken
      | false => simpa [hexternal] using htaken
    · rename_i hnext
      exact hrest (hskip List.mem_cons_self hnext h)

/-- A classification underway: the imports `left` of the output at hand and the paths in `queue` have not
been followed yet. -/
structure Explored (s : Scope) (m : Metafile) (found : InitialFiles) (left : List ImportEdge)
    (queue : List String) : Prop where
  sorted : found.Sorted
  sound : ∀ {key file}, found.get? key = some file → Initial s m key file
  seeds : ∀ {output}, IsSeed s m output → found.contains (s.key output) = true
  queued : ∀ {p}, p ∈ queue → Loaded s m p
  spread : ∀ {p e}, Loaded s m p → found.contains (s.key p) = true → Imports s m p e →
    p ∈ queue ∨ e ∈ left ∨ found.contains (s.edgeKey e) = true

section Exploration

variable {s : Scope} {m : Metafile} {found : InitialFiles} {left : List ImportEdge} {queue : List String}
variable {e : ImportEdge} {output : String}

theorem Explored.skip (h : Explored s m found (e :: left) queue)
    (hskip : ¬ (e.kind.isStatic && !found.contains (s.edgeKey e) && s.keep (s.edgeKey e) (reachedFile e)) = true) :
    Explored s m found left queue where
  sorted := h.sorted
  sound := h.sound
  seeds := h.seeds
  queued := h.queued
  spread {p e'} hp hfound himport := by
    rcases h.spread hp hfound himport with hqueue | hleft | hcontains
    · exact .inl hqueue
    · rcases List.mem_cons.mp hleft with rfl | hleft
      · -- what is kept and passed over has a record already
        simp only [himport.static, himport.kept, Bool.true_and, Bool.and_true] at hskip
        exact .inr (.inr (by simpa using hskip))
      · exact .inr (.inl hleft)
    · exact .inr (.inr hcontains)

theorem initial_reachedFile (h : Explored s m found (e :: left) queue) (hloaded : Loaded s m output)
    (himport : Imports s m output e) (hnew : found.contains (s.edgeKey e) = false) :
    Initial s m (s.edgeKey e) (reachedFile e) := by
  cases hexternal : e.external with
  | true =>
    rw [show s.edgeKey e = e.path by simp [Scope.edgeKey, hexternal], reachedFile, hexternal]
    exact .external hloaded himport hexternal
  | false =>
    have hkey : s.edgeKey e = s.key e.path := by simp [Scope.edgeKey, hexternal]
    rw [hkey, reachedFile, hexternal]
    refine .loaded (.imported hloaded himport hexternal) fun hseed => ?_
    rw [hkey, h.seeds hseed] at hnew
    cases hnew

theorem Explored.take (h : Explored s m found (e :: left) queue) (hs : s.Separates m)
    (hloaded : Loaded s m output) (himport : Imports s m output e)
    (hnew : found.contains (s.edgeKey e) = false) :
    Explored s m (found.insert (s.edgeKey e) (reachedFile e)) left
      (if e.external then queue else queue ++ [e.path]) where
  sorted := h.sorted.insert _ _
  sound {key file} hget := by
    rw [OrdMap.get?_insert] at hget
    split at hget
    · rename_i hkey
      cases hget
      rw [Std.LawfulEqOrd.eq_of_compare hkey]
      exact initial_reachedFile h hloaded himport hnew
    · exact h.sound hget
  seeds hseed := OrdMap.contains_insert_of_contains (h.seeds hseed)
  queued {p} hp := by
    split at hp
    · exact h.queued hp
    · rename_i hinner
      rcases List.mem_append.mp hp with hp | hp
      · exact h.queued hp
      · rw [List.mem_singleton.mp hp]
        exact .imported hloaded himport (by simpa using hinner)
  spread {p e'} hp hfound himport' := by
    rw [OrdMap.contains_insert] at hfound
    rcases Bool.or_eq_true_iff.mp hfound with hkey | hfound
    · have hkey := Std.LawfulEqOrd.eq_of_compare (beq_iff_eq.mp hkey)
      left
      cases hexternal : e.external with
      | true =>
        rw [Scope.edgeKey, hexternal, if_pos rfl] at hkey
        exact absurd (hkey ▸ himport.mem_outer hexternal) (hs.outer p hp.mem_inner)
      | false =>
        rw [Scope.edgeKey, hexternal, if_neg (by simp)] at hkey
        have hinner := Metafile.mem_inner_of_import himport.mem_staticImports hexternal
        rw [hs.inner p hp.mem_inner _ hinner hkey]
        simp
    · rcases h.spread hp hfound himport' with hqueue | hleft | hcontains
      · left
        split
        · exact hqueue
        · exact List.mem_append_left _ hqueue
      · rcases List.mem_cons.mp hleft with rfl | hleft
        · right; right
          rw [OrdMap.contains_insert]
          simp
        · exact .inr (.inl hleft)
      · exact .inr (.inr (OrdMap.contains_insert_of_contains hcontains))

theorem explored_takeImports (hs : s.Separates m) (hloaded : Loaded s m output) {entry : OutputEntry}
    (hentry : m.outputs.get? output = some entry) (h : Explored s m found entry.imports queue) :
    Explored s m (takeImports s found entry.imports).1 [] (queue ++ (takeImports s found entry.imports).2) :=
  takeImports_induction (fun _ hskip h => h.skip hskip)
    (fun he hkeeps hnew h => h.take hs hloaded ⟨⟨entry, hentry, he⟩, hkeeps.1, hkeeps.2⟩ hnew) h

theorem Explored.pop (h : Explored s m found [] (output :: queue)) {entry : OutputEntry}
    (hentry : m.outputs.get? output = some entry) : Explored s m found entry.imports queue where
  sorted := h.sorted
  sound := h.sound
  seeds := h.seeds
  queued hp := h.queued (List.mem_cons_of_mem _ hp)
  spread {p e} hp hfound himport := by
    rcases h.spread hp hfound himport with hqueue | hnone | hcontains
    · rcases List.mem_cons.mp hqueue with rfl | hqueue
      · obtain ⟨entry', hentry', he⟩ := himport.listed
        rw [hentry] at hentry'
        cases hentry'
        exact .inr (.inl he)
      · exact .inl hqueue
    · cases hnone
    · exact .inr (.inr hcontains)

theorem Explored.drop (h : Explored s m found [] (output :: queue)) (hentry : m.outputs.get? output = none) :
    Explored s m found [] queue where
  sorted := h.sorted
  sound := h.sound
  seeds := h.seeds
  queued hp := h.queued (List.mem_cons_of_mem _ hp)
  spread {p e} hp hfound himport := by
    rcases h.spread hp hfound himport with hqueue | hrest
    · rcases List.mem_cons.mp hqueue with rfl | hqueue
      · obtain ⟨entry', hentry', -⟩ := himport.listed
        rw [hentry] at hentry'
        cases hentry'
      · exact .inl hqueue
    · exact .inr hrest

end Exploration

def unseen (s : Scope) (m : Metafile) (found : InitialFiles) : Nat :=
  ((m.outputs.values.flatMap fun e => e.imports).filter fun e => !found.contains (s.edgeKey e)).length

section Follow

variable {s : Scope} {m : Metafile}

theorem unseen_insert {found : InitialFiles} {e : ImportEdge} (he : e ∈ m.outputs.values.flatMap fun e => e.imports)
    (hnew : found.contains (s.edgeKey e) = false) (file : InitialFile) :
    unseen s m (found.insert (s.edgeKey e) file) < unseen s m found := by
  have hfilter : ∀ edges : List ImportEdge,
      edges.filter (fun x => !(found.insert (s.edgeKey e) file).contains (s.edgeKey x)) =
        (edges.filter fun x => !found.contains (s.edgeKey x)).filter
          fun x => !(compare (s.edgeKey x) (s.edgeKey e) == .eq) := by
    intro edges
    rw [List.filter_filter]
    refine List.filter_congr fun x _ => ?_
    rw [OrdMap.contains_insert, Bool.not_or]
  unfold unseen
  rw [hfilter, List.length_filter_lt_length_iff_exists]
  exact ⟨e, List.mem_filter.mpr ⟨he, by simp [hnew]⟩, by simp⟩

theorem unseen_takeImports (edges : List ImportEdge) :
    ∀ found : InitialFiles, (∀ e ∈ edges, e ∈ m.outputs.values.flatMap fun e => e.imports) →
      (takeImports s found edges).2.length + unseen s m (takeImports s found edges).1 ≤ unseen s m found := by
  induction edges with
  | nil =>
    intro found _
    simp [takeImports]
  | cons e edges ih =>
    intro found hedges
    obtain ⟨he, hrest⟩ := List.forall_mem_cons.mp hedges
    rw [takeImports]
    split
    · rename_i htake
      simp only [Bool.and_eq_true, Bool.not_eq_true'] at htake
      have hless := unseen_insert he htake.1.2 (reachedFile e)
      have hnext := ih (found.insert (s.edgeKey e) (reachedFile e)) hrest
      cases hexternal : e.external <;> simp <;> omega
    · exact ih found hrest

theorem unseen_scan {output : String} {entry : OutputEntry} (hentry : m.outputs.get? output = some entry)
    (found : InitialFiles) (queue : List String) :
    (queue ++ (takeImports s found entry.imports).2).length + unseen s m (takeImports s found entry.imports).1 ≤
      queue.length + unseen s m found := by
  have hedges : ∀ e ∈ entry.imports, e ∈ m.outputs.values.flatMap fun e => e.imports :=
    fun e he => List.mem_flatMap.mpr ⟨entry, List.mem_map.mpr ⟨_, OrdMap.get?_mem hentry, rfl⟩, he⟩
  have hless := unseen_takeImports (s := s) entry.imports found hedges
  rw [List.length_append]
  omega

theorem follow_induction {P : InitialFiles → List String → Prop}
    (hdrop : ∀ {found output queue}, m.outputs.get? output = none → P found (output :: queue) → P found queue)
    (hscan : ∀ {found output queue entry}, m.outputs.get? output = some entry → P found (output :: queue) →
      P (takeImports s found entry.imports).1 (queue ++ (takeImports s found entry.imports).2))
    (fuel : Nat) : ∀ {found : InitialFiles} {queue : List String}, P found queue →
      queue.length + unseen s m found ≤ fuel → P (follow s m fuel found queue) [] := by
  induction fuel with
  | zero =>
    intro found queue h hfuel
    have hqueue : queue = [] := List.length_eq_zero_iff.mp (by omega)
    rw [hqueue] at h
    exact h
  | succ fuel ih =>
    intro found queue h hfuel
    cases queue with
    | nil => exact h
    | cons output queue =>
      rw [List.length_cons] at hfuel
      rw [follow]
      cases hentry : m.outputs.get? output with
      | none => exact ih (hdrop hentry h) (by omega)
      | some entry =>
        have hless := unseen_scan (s := s) hentry found queue
        exact ih (hscan hentry h) (by omega)

end Follow

section Start

variable {s : Scope} {m : Metafile}

def seeded (s : Scope) (found : InitialFiles) (outputs : List String) : InitialFiles :=
  outputs.foldl (fun found output => found.insert (s.key output) (seedFile output)) found

theorem get?_seeded (outputs : List String) : ∀ {found : InitialFiles} {key : String} {file : InitialFile},
    (seeded s found outputs).get? key = some file →
      found.get? key = some file ∨ ∃ output ∈ outputs, s.key output = key ∧ seedFile output = file := by
  induction outputs with
  | nil => exact fun h => .inl h
  | cons output rest ih =>
    intro found key file h
    rcases ih h with h | ⟨o, ho, hkey, hfile⟩
    · rw [OrdMap.get?_insert] at h
      split at h
      · rename_i hkey
        cases h
        exact .inr ⟨output, List.mem_cons_self, (Std.LawfulEqOrd.eq_of_compare hkey).symm, rfl⟩
      · exact .inl h
    · exact .inr ⟨o, List.mem_cons_of_mem _ ho, hkey, hfile⟩

theorem contains_seeded (outputs : List String) : ∀ {found : InitialFiles} {key : String},
    (found.contains key = true ∨ ∃ output ∈ outputs, s.key output = key) →
      (seeded s found outputs).contains key = true := by
  induction outputs with
  | nil =>
    rintro found key (h | ⟨_, ho, _⟩)
    · exact h
    · cases ho
  | cons output rest ih =>
    rintro found key (h | ⟨o, ho, hkey⟩)
    · exact ih (.inl (OrdMap.contains_insert_of_contains h))
    · rcases List.mem_cons.mp ho with rfl | ho
      · refine ih (.inl ?_)
        rw [OrdMap.contains_insert, hkey]
        simp
      · exact ih (.inr ⟨o, ho, hkey⟩)

theorem sorted_seeded (outputs : List String) : ∀ {found : InitialFiles}, found.Sorted →
    (seeded s found outputs).Sorted := by
  induction outputs with
  | nil => exact fun h => h
  | cons output rest ih => exact fun h => ih (h.insert _ _)

theorem explored_seeds (hs : s.Separates m) :
    Explored s m (seeded s OrdMap.empty (seeds s m)) [] (seeds s m) where
  sorted := sorted_seeded _ OrdMap.sorted_empty
  sound {key file} h := by
    rcases get?_seeded _ h with h | ⟨output, houtput, rfl, rfl⟩
    · cases h
    · exact .seed (mem_seeds_iff.mp houtput)
  seeds {output} hseed := contains_seeded _ (.inr ⟨output, mem_seeds_iff.mpr hseed, rfl⟩)
  queued hp := .seed (mem_seeds_iff.mp hp)
  spread {p e} hp hfound _ := by
    obtain ⟨file, hfile⟩ := OrdMap.contains_iff.mp hfound
    rcases get?_seeded _ hfile with hfile | ⟨output, houtput, hkey, -⟩
    · cases hfile
    · rw [← hs.inner _ (mem_seeds_iff.mp houtput).mem_inner _ hp.mem_inner hkey]
      exact .inl houtput

theorem unseen_seeded_le :
    (seeds s m).length + unseen s m (seeded s OrdMap.empty (seeds s m)) ≤ followBound m := by
  have hseeds : (seeds s m).length ≤ m.outputs.size := by
    rw [seeds, List.length_map]
    exact List.length_filter_le _ _
  have hunseen : unseen s m (seeded s OrdMap.empty (seeds s m)) ≤
      (m.outputs.values.flatMap fun e => e.imports).length := List.length_filter_le _ _
  rw [followBound]
  exact Nat.add_le_add hseeds hunseen

theorem explored_classify (hs : s.Separates m) : Explored s m (classify s m) [] [] := by
  refine follow_induction (P := fun found queue => Explored s m found [] queue) (fun hentry h => h.drop hentry)
    (fun hentry h => ?_) _ (explored_seeds hs) unseen_seeded_le
  have hloaded := h.queued List.mem_cons_self
  exact explored_takeImports hs hloaded hentry (h.pop hentry)

end Start

section Closure

variable {s : Scope} {m : Metafile} {found : InitialFiles}

/-- Once nothing is left to follow, all paths that load have a record. -/
theorem Explored.contains_key (h : Explored s m found [] []) {path : String} (hp : Loaded s m path) :
    found.contains (s.key path) = true := by
  induction hp with
  | seed hseed => exact h.seeds hseed
  | @imported output e hloaded himport hinner ih =>
    have hkey : s.edgeKey e = s.key e.path := by simp [Scope.edgeKey, hinner]
    rcases h.spread hloaded ih himport with hqueue | hleft | hcontains
    · cases hqueue
    · cases hleft
    · rwa [hkey] at hcontains

theorem Explored.contains_of_initial (h : Explored s m found [] []) {key : String} {file : InitialFile}
    (hinitial : Initial s m key file) : found.contains key = true := by
  cases hinitial with
  | seed hseed => exact h.seeds hseed
  | loaded hloaded _ => exact h.contains_key hloaded
  | @external output e hloaded himport houter =>
    have hkey : s.edgeKey e = e.path := by simp [Scope.edgeKey, houter]
    rcases h.spread hloaded (h.contains_key hloaded) himport with hqueue | hleft | hcontains
    · cases hqueue
    · cases hleft
    · rwa [hkey] at hcontains

/-- A pass has exactly the initial files that load with its entry points, each listed once. -/
theorem mem_classify_iff (hs : s.Separates m) :
    (classify s m).keys.Nodup ∧
      ∀ key file, (key, file) ∈ (classify s m).entries ↔ Initial s m key file := by
  have h := explored_classify hs
  refine ⟨h.sorted.nodup_keys, fun key file => ?_⟩
  rw [h.sorted.mem_iff]
  constructor
  · exact h.sound
  · intro hinitial
    obtain ⟨found, hfound⟩ := OrdMap.contains_iff.mp (h.contains_of_initial hinitial)
    rw [hfound, (h.sound hfound).unique hs hinitial]

end Closure

set_option maxRecDepth 100000

def cyclicOutputs : Metafile := ⟨OrdMap.empty, .ofList [
  ("dist/lazy.js", ⟨0, none, [⟨"dist/deep.js", .importStatement, false⟩]⟩),
  ("dist/lib.js", ⟨0, none,
    [⟨"dist/main.js", .importStatement, false⟩, ⟨"dist/gone.css", .importRule, false⟩]⟩),
  ("dist/main.js", ⟨0, some "src/main.ts",
    [⟨"dist/lib.js", .importStatement, false⟩, ⟨"dist/lazy.js", .dynamicImport, false⟩,
      ⟨"@scope/pkg", .importStatement, true⟩, ⟨"dist/left.js", .importStatement, false⟩]⟩)]⟩

theorem mem_classify_cyclicOutputs :
    let s : Scope := ⟨[⟨"/ws/src/../src/main.ts"⟩], ⟨"/ws"⟩, ⟨"/ws/dist"⟩, fun key _ => key ≠ "left.js"⟩
    s.Separates cyclicOutputs ∧
      (∀ key file, (key, file) ∈ (classify s cyclicOutputs).entries ↔ Initial s cyclicOutputs key file) ∧
      (classify s cyclicOutputs).entries = [
        ("@scope/pkg", ⟨none, .script, false, some true⟩), ("gone.css", ⟨none, .style, false, none⟩),
        ("lib.js", ⟨none, .script, false, none⟩), ("main.js", ⟨some "main", .script, true, none⟩)] := by
  intro s
  have hs : s.Separates cyclicOutputs := ⟨by decide +kernel, by decide +kernel⟩
  exact ⟨hs, (mem_classify_iff hs).2, by decide +kernel⟩

end Recompile.Bundle
