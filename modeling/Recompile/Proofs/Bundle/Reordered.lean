import Recompile.Proofs.Bundle.Loaded
import Mathlib.Data.List.Forall2

/-!
The order of imports. Of several imports of one key, the first one that comes along gives the record and the
path that is followed. As long as these are the same for all of them, their order is of no account.
-/

namespace Recompile.Bundle

/-- The same output, with its imports in another order. -/
structure SameImports (a b : OutputEntry) : Prop where
  bytes : a.bytes = b.bytes
  entryPoint : a.entryPoint = b.entryPoint
  imports : a.imports.Perm b.imports

def SameOutput (a b : String × OutputEntry) : Prop :=
  a.1 = b.1 ∧ SameImports a.2 b.2

theorem SameImports.refl (a : OutputEntry) : SameImports a a :=
  ⟨rfl, rfl, .refl _⟩

theorem SameImports.symm {a b : OutputEntry} (h : SameImports a b) : SameImports b a :=
  ⟨h.bytes.symm, h.entryPoint.symm, h.imports.symm⟩

/-- The same metafile, with the imports of its outputs in another order. -/
structure Reordered (m m' : Metafile) : Prop where
  inputs : m.inputs = m'.inputs
  outputs : List.Forall₂ SameOutput m.outputs.entries m'.outputs.entries

def SeedKey (s : Scope) (m : Metafile) (key : String) : Prop :=
  ∃ output, IsSeed s m output ∧ s.key output = key

/-- The paths that are followed, in some order of the imports. -/
inductive Followed (s : Scope) (m : Metafile) : String → Prop where
  | seed {output : String} : IsSeed s m output → Followed s m output
  | imported {output : String} {e : ImportEdge} :
      Followed s m output → Imports s m output e → e.external = false → ¬ SeedKey s m (s.edgeKey e) →
        Followed s m e.path

def Reached (s : Scope) (m : Metafile) (e : ImportEdge) : Prop :=
  ∃ output, Followed s m output ∧ Imports s m output e

def ImportsKey (s : Scope) (m : Metafile) (output key : String) : Prop :=
  ∃ e, Imports s m output e ∧ s.edgeKey e = key

/-- Imports of one key give it one record, and lead to the same keys from there. -/
def Scope.Agrees (s : Scope) (m : Metafile) : Prop :=
  ∀ e f, Reached s m e → Reached s m f → s.edgeKey e = s.edgeKey f → ¬ SeedKey s m (s.edgeKey e) →
    reachedFile e = reachedFile f ∧
      (e.external = false → ∀ key, ImportsKey s m e.path key → ImportsKey s m f.path key)

inductive Due (s : Scope) (m : Metafile) : String → InitialFile → Prop where
  | seed {key : String} {file : InitialFile} :
      SeedKey s m key → (seeded s OrdMap.empty (seeds s m)).get? key = some file → Due s m key file
  | reached {e : ImportEdge} :
      Reached s m e → ¬ SeedKey s m (s.edgeKey e) → Due s m (s.edgeKey e) (reachedFile e)

section Keys

variable {s : Scope} {m : Metafile}

theorem edgeKey_internal {e : ImportEdge} (h : e.external = false) : s.edgeKey e = s.key e.path := by
  simp [Scope.edgeKey, h]

theorem external_eq_of_reachedFile_eq {e f : ImportEdge} (h : reachedFile e = reachedFile f) :
    e.external = f.external := by
  have hexternal := congrArg InitialFile.external h
  cases he : e.external <;> cases hf : f.external <;> simp_all [reachedFile]

theorem Imports.keeps {output : String} {e : ImportEdge} (h : Imports s m output e) : s.Keeps e :=
  ⟨h.static, h.kept⟩

theorem contains_seeds_iff {key : String} :
    (seeded s OrdMap.empty (seeds s m)).contains key = true ↔ SeedKey s m key := by
  constructor
  · intro h
    obtain ⟨file, hfile⟩ := OrdMap.contains_iff.mp h
    rcases get?_seeded _ hfile with hnone | ⟨output, houtput, hkey, -⟩
    · cases hnone
    · exact ⟨output, mem_seeds_iff.mp houtput, hkey⟩
  · rintro ⟨output, hseed, hkey⟩
    exact contains_seeded _ (.inr ⟨output, mem_seeds_iff.mpr hseed, hkey⟩)

theorem Scope.Agrees.importsKey (hs : s.Agrees m) {e : ImportEdge} (hreached : Reached s m e)
    (hfree : ¬ SeedKey s m (s.edgeKey e)) {p key : String} (hp : Followed s m p) (hsame : s.key p = s.edgeKey e)
    (hkey : ImportsKey s m p key) : e.external = false ∧ ImportsKey s m e.path key := by
  cases hp with
  | seed hseed => exact absurd ⟨p, hseed, hsame⟩ hfree
  | @imported output f hfollowed himport hinner hfree' =>
    rw [← edgeKey_internal hinner] at hsame
    obtain ⟨hrecord, hkeys⟩ := hs f e ⟨output, hfollowed, himport⟩ hreached hsame hfree'
    exact ⟨(external_eq_of_reachedFile_eq hrecord).symm.trans hinner, hkeys hinner key hkey⟩

end Keys

/-- A classification underway, told by keys: the imports `left` of the output at hand and the paths in `queue`
have not been followed yet. -/
structure Gathered (s : Scope) (m : Metafile) (found : InitialFiles) (left : List ImportEdge)
    (queue : List String) : Prop where
  sorted : found.Sorted
  seeds : ∀ {key}, SeedKey s m key → found.get? key = (seeded s OrdMap.empty (seeds s m)).get? key
  sound : ∀ {key file}, found.get? key = some file → Due s m key file
  queued : ∀ {p}, p ∈ queue → Followed s m p
  spread : ∀ {p key}, Followed s m p → found.contains (s.key p) = true → ImportsKey s m p key →
    found.contains key = true ∨ (∃ e ∈ left, s.Keeps e ∧ s.edgeKey e = key) ∨ ∃ q ∈ queue, ImportsKey s m q key

section Gathering

variable {s : Scope} {m : Metafile} {found : InitialFiles} {left : List ImportEdge} {queue : List String}
variable {e : ImportEdge} {output : String}

theorem Gathered.contains_seedKey (h : Gathered s m found left queue) {key : String} (hkey : SeedKey s m key) :
    found.contains key = true := by
  rw [OrdMap.contains_eq_isSome, h.seeds hkey, ← OrdMap.contains_eq_isSome]
  exact contains_seeds_iff.mpr hkey

theorem Gathered.skip (h : Gathered s m found (e :: left) queue)
    (hskip : ¬ (e.kind.isStatic && !found.contains (s.edgeKey e) && s.keep (s.edgeKey e) (reachedFile e)) = true) :
    Gathered s m found left queue where
  sorted := h.sorted
  seeds := h.seeds
  sound := h.sound
  queued := h.queued
  spread {p key} hp hfound hkey := by
    rcases h.spread hp hfound hkey with hcontains | ⟨x, hx, hkeeps, hxkey⟩ | hqueue
    · exact .inl hcontains
    · rcases List.mem_cons.mp hx with rfl | hx
      · -- what is kept and passed over has a record already
        simp only [hkeeps.1, hkeeps.2, Bool.true_and, Bool.and_true] at hskip
        exact .inl (by simpa [hxkey] using hskip)
      · exact .inr (.inl ⟨x, hx, hkeeps, hxkey⟩)
    · exact .inr (.inr hqueue)

theorem Gathered.take (h : Gathered s m found (e :: left) queue) (hs : s.Agrees m) (hfollowed : Followed s m output)
    (himport : Imports s m output e) (hnew : found.contains (s.edgeKey e) = false) :
    Gathered s m (found.insert (s.edgeKey e) (reachedFile e)) left
      (if e.external then queue else queue ++ [e.path]) := by
  have hfree : ¬ SeedKey s m (s.edgeKey e) := by
    intro hkey
    rw [h.contains_seedKey hkey] at hnew
    cases hnew
  have hreached : Reached s m e := ⟨output, hfollowed, himport⟩
  refine ⟨h.sorted.insert _ _, fun {key} hkey => ?_, fun {key file} hget => ?_, fun {p} hp => ?_,
    fun {p key} hp hfound hkey => ?_⟩
  · have hne : key ≠ s.edgeKey e := fun heq => hfree (heq ▸ hkey)
    rw [OrdMap.get?_insert_of_ne hne]
    exact h.seeds hkey
  · rw [OrdMap.get?_insert] at hget
    split at hget
    · rename_i hkey
      cases hget
      rw [Std.LawfulEqOrd.eq_of_compare hkey]
      exact .reached hreached hfree
    · exact h.sound hget
  · split at hp
    · exact h.queued hp
    · rename_i hinner
      rcases List.mem_append.mp hp with hp | hp
      · exact h.queued hp
      · rw [List.mem_singleton.mp hp]
        exact .imported hfollowed himport (by simpa using hinner) hfree
  · rw [OrdMap.contains_insert] at hfound
    rcases Bool.or_eq_true_iff.mp hfound with hsame | hfound
    · -- a path under the new key leads to the same keys as the one that joins the queue for it
      have hsame := Std.LawfulEqOrd.eq_of_compare (beq_iff_eq.mp hsame)
      obtain ⟨hinner, hkey⟩ := hs.importsKey hreached hfree hp hsame hkey
      exact .inr (.inr ⟨e.path, by simp [hinner], hkey⟩)
    · rcases h.spread hp hfound hkey with hcontains | ⟨x, hx, hkeeps, hxkey⟩ | ⟨q, hq, hqkey⟩
      · exact .inl (OrdMap.contains_insert_of_contains hcontains)
      · rcases List.mem_cons.mp hx with rfl | hx
        · left
          rw [OrdMap.contains_insert, hxkey]
          simp
        · exact .inr (.inl ⟨x, hx, hkeeps, hxkey⟩)
      · refine .inr (.inr ⟨q, ?_, hqkey⟩)
        split
        · exact hq
        · exact List.mem_append_left _ hq

theorem gathered_takeImports (hs : s.Agrees m) (hfollowed : Followed s m output) {entry : OutputEntry}
    (hentry : m.outputs.get? output = some entry) (h : Gathered s m found entry.imports queue) :
    Gathered s m (takeImports s found entry.imports).1 [] (queue ++ (takeImports s found entry.imports).2) :=
  takeImports_induction (fun _ hskip h => h.skip hskip)
    (fun he hkeeps hnew h => h.take hs hfollowed ⟨⟨entry, hentry, he⟩, hkeeps.1, hkeeps.2⟩ hnew) h

theorem Gathered.pop (h : Gathered s m found [] (output :: queue)) {entry : OutputEntry}
    (hentry : m.outputs.get? output = some entry) : Gathered s m found entry.imports queue where
  sorted := h.sorted
  seeds := h.seeds
  sound := h.sound
  queued hp := h.queued (List.mem_cons_of_mem _ hp)
  spread {p key} hp hfound hkey := by
    rcases h.spread hp hfound hkey with hcontains | ⟨x, hx, -⟩ | ⟨q, hq, e, himport, hekey⟩
    · exact .inl hcontains
    · cases hx
    · rcases List.mem_cons.mp hq with rfl | hq
      · obtain ⟨entry', hentry', he⟩ := himport.listed
        rw [hentry] at hentry'
        cases hentry'
        exact .inr (.inl ⟨e, he, himport.keeps, hekey⟩)
      · exact .inr (.inr ⟨q, hq, e, himport, hekey⟩)

theorem Gathered.drop (h : Gathered s m found [] (output :: queue)) (hentry : m.outputs.get? output = none) :
    Gathered s m found [] queue where
  sorted := h.sorted
  seeds := h.seeds
  sound := h.sound
  queued hp := h.queued (List.mem_cons_of_mem _ hp)
  spread {p key} hp hfound hkey := by
    rcases h.spread hp hfound hkey with hcontains | ⟨x, hx, -⟩ | ⟨q, hq, e, himport, hekey⟩
    · exact .inl hcontains
    · cases hx
    · rcases List.mem_cons.mp hq with rfl | hq
      · obtain ⟨entry', hentry', -⟩ := himport.listed
        rw [hentry] at hentry'
        cases hentry'
      · exact .inr (.inr ⟨q, hq, e, himport, hekey⟩)

theorem gathered_seeds : Gathered s m (seeded s OrdMap.empty (seeds s m)) [] (seeds s m) where
  sorted := sorted_seeded _ OrdMap.sorted_empty
  seeds _ := rfl
  sound {key file} hget := .seed (contains_seeds_iff.mp (OrdMap.contains_iff.mpr ⟨file, hget⟩)) hget
  queued hp := .seed (mem_seeds_iff.mp hp)
  spread {p key} hp hfound hkey := by
    cases hp with
    | seed hseed => exact .inr (.inr ⟨p, mem_seeds_iff.mpr hseed, hkey⟩)
    | imported _ _ hinner hfree =>
      rw [edgeKey_internal hinner] at hfree
      exact absurd (contains_seeds_iff.mp hfound) hfree

theorem gathered_classify (hs : s.Agrees m) : Gathered s m (classify s m) [] [] := by
  refine follow_induction (P := fun found queue => Gathered s m found [] queue) (fun hentry h => h.drop hentry)
    (fun hentry h => ?_) _ gathered_seeds unseen_seeded_le
  have hfollowed := h.queued List.mem_cons_self
  exact gathered_takeImports hs hfollowed hentry (h.pop hentry)

theorem Gathered.contains_edgeKey (h : Gathered s m found [] []) (hfollowed : Followed s m output)
    (hfound : found.contains (s.key output) = true) (himport : Imports s m output e) :
    found.contains (s.edgeKey e) = true := by
  rcases h.spread hfollowed hfound ⟨e, himport, rfl⟩ with hcontains | ⟨_, hnone, -⟩ | ⟨_, hnone, -⟩
  · exact hcontains
  · cases hnone
  · cases hnone

theorem Gathered.contains_key (h : Gathered s m found [] []) {p : String} (hp : Followed s m p) :
    found.contains (s.key p) = true := by
  induction hp with
  | @seed output hseed => exact h.contains_seedKey ⟨output, hseed, rfl⟩
  | imported hfollowed himport hinner _ ih =>
    rw [← edgeKey_internal hinner]
    exact h.contains_edgeKey hfollowed ih himport

theorem get?_classify_iff (hs : s.Agrees m) {key : String} {file : InitialFile} :
    (classify s m).get? key = some file ↔ Due s m key file := by
  have h := gathered_classify hs
  constructor
  · exact h.sound
  · intro hdue
    cases hdue with
    | seed hkey hget => exact (h.seeds hkey).trans hget
    | @reached e hreached hfree =>
      obtain ⟨output, hfollowed, himport⟩ := hreached
      have hcontains := h.contains_edgeKey hfollowed (h.contains_key hfollowed) himport
      obtain ⟨file, hget⟩ := OrdMap.contains_iff.mp hcontains
      rw [hget]
      have hdue := h.sound hget
      generalize hkey : s.edgeKey e = key at hdue
      cases hdue with
      | seed hseed _ => exact absurd (hkey ▸ hseed) hfree
      | reached hreached' _ => rw [(hs e _ ⟨output, hfollowed, himport⟩ hreached' hkey hfree).1]

end Gathering

section Reordering

variable {s : Scope} {m m' : Metafile}

theorem Reordered.symm (h : Reordered m m') : Reordered m' m where
  inputs := h.inputs.symm
  outputs := h.outputs.flip.imp fun _ _ hsame => ⟨hsame.1.symm, hsame.2.symm⟩

theorem Reordered.get? (h : Reordered m m') {output : String} {entry : OutputEntry}
    (hentry : m.outputs.get? output = some entry) :
    ∃ entry', m'.outputs.get? output = some entry' ∧ SameImports entry entry' := by
  have houtputs := h.outputs
  unfold OrdMap.get? OrdMap.entry? at *
  generalize m.outputs.entries = xs at *
  generalize m'.outputs.entries = ys at *
  induction houtputs with
  | nil => cases hentry
  | @cons a b _ _ hsame _ ih =>
    rw [List.find?_cons] at hentry ⊢
    rw [← hsame.1]
    split at hentry
    · obtain rfl : a.2 = entry := by simpa using hentry
      exact ⟨b.2, rfl, hsame.2⟩
    · exact ih hentry

theorem Reordered.seeds (h : Reordered m m') : seeds s m = seeds s m' := by
  have houtputs := h.outputs
  unfold Bundle.seeds
  generalize m.outputs.entries = xs at *
  generalize m'.outputs.entries = ys at *
  induction houtputs with
  | nil => rfl
  | @cons a b _ _ hsame _ ih =>
    rw [List.filter_cons, List.filter_cons, hsame.2.entryPoint]
    split
    · rw [List.map_cons, List.map_cons, ih, hsame.1]
    · exact ih

theorem Reordered.isSeed (h : Reordered m m') {output : String} (hseed : IsSeed s m output) :
    IsSeed s m' output :=
  mem_seeds_iff.mp (h.seeds ▸ mem_seeds_iff.mpr hseed)

theorem Reordered.imports (h : Reordered m m') {output : String} {e : ImportEdge} (himport : Imports s m output e) :
    Imports s m' output e := by
  obtain ⟨entry, hentry, he⟩ := himport.listed
  obtain ⟨entry', hentry', hsame⟩ := h.get? hentry
  exact ⟨⟨entry', hentry', hsame.imports.mem_iff.mp he⟩, himport.static, himport.kept⟩

theorem Reordered.seedKey (h : Reordered m m') {key : String} (hkey : SeedKey s m key) : SeedKey s m' key :=
  hkey.imp fun _ hseed => ⟨h.isSeed hseed.1, hseed.2⟩

theorem Reordered.followed (h : Reordered m m') {p : String} (hp : Followed s m p) : Followed s m' p := by
  induction hp with
  | seed hseed => exact .seed (h.isSeed hseed)
  | imported _ himport hinner hfree ih =>
    exact .imported ih (h.imports himport) hinner fun hkey => hfree (h.symm.seedKey hkey)

theorem Reordered.reached (h : Reordered m m') {e : ImportEdge} (he : Reached s m e) : Reached s m' e :=
  he.imp fun _ hreached => ⟨h.followed hreached.1, h.imports hreached.2⟩

theorem Reordered.importsKey (h : Reordered m m') {output key : String} (hkey : ImportsKey s m output key) :
    ImportsKey s m' output key :=
  hkey.imp fun _ himport => ⟨h.imports himport.1, himport.2⟩

theorem Reordered.agrees (h : Reordered m m') (hs : s.Agrees m) : s.Agrees m' := by
  intro e f he hf hsame hfree
  obtain ⟨hrecord, hkeys⟩ := hs e f (h.symm.reached he) (h.symm.reached hf) hsame fun hkey => hfree (h.seedKey hkey)
  exact ⟨hrecord, fun hinner key hkey => h.importsKey (hkeys hinner key (h.symm.importsKey hkey))⟩

theorem Reordered.due (h : Reordered m m') {key : String} {file : InitialFile} (hdue : Due s m key file) :
    Due s m' key file := by
  cases hdue with
  | seed hkey hget => exact .seed (h.seedKey hkey) (h.seeds ▸ hget)
  | reached hreached hfree => exact .reached (h.reached hreached) fun hkey => hfree (h.symm.seedKey hkey)

theorem classify_eq_of_reordered (hs : s.Agrees m) (h : Reordered m m') : classify s m = classify s m' := by
  refine (gathered_classify hs).sorted.ext (gathered_classify (h.agrees hs)).sorted fun key => ?_
  apply Option.ext
  intro file
  rw [get?_classify_iff hs, get?_classify_iff (h.agrees hs)]
  exact ⟨h.due, h.symm.due⟩

end Reordering

section Agreement

variable {s : Scope} {m : Metafile}

theorem agrees_of_staticImports (h : ∀ e ∈ m.staticImports, ∀ f ∈ m.staticImports, s.edgeKey e = s.edgeKey f →
    reachedFile e = reachedFile f ∧ m.outputs.get? e.path = m.outputs.get? f.path) : s.Agrees m := by
  rintro e f ⟨_, _, he⟩ ⟨_, _, hf⟩ hsame -
  obtain ⟨hrecord, houtput⟩ := h e he.mem_staticImports f hf.mem_staticImports hsame
  refine ⟨hrecord, fun _ key hkey => ?_⟩
  obtain ⟨x, himport, hxkey⟩ := hkey
  exact ⟨x, ⟨houtput ▸ himport.listed, himport.static, himport.kept⟩, hxkey⟩

theorem Scope.Separates.internal (hs : s.Separates m) {e f : ImportEdge} (he : e ∈ m.staticImports)
    (hf : f ∈ m.staticImports) (hsame : s.edgeKey e = s.edgeKey f) (hinner : e.external = false) :
    f.external = false ∧ e.path = f.path := by
  have hemem := Metafile.mem_inner_of_import he hinner
  rw [edgeKey_internal hinner] at hsame
  cases houter : f.external with
  | false =>
    rw [edgeKey_internal houter] at hsame
    exact ⟨rfl, hs.inner _ hemem _ (Metafile.mem_inner_of_import hf houter) hsame⟩
  | true =>
    rw [Scope.edgeKey, houter, if_pos rfl] at hsame
    have hfmem : f.path ∈ m.outer := List.mem_map.mpr ⟨f, List.mem_filter.mpr ⟨hf, houter⟩, rfl⟩
    exact absurd (hsame ▸ hfmem) (hs.outer _ hemem)

theorem Scope.Separates.agrees (hs : s.Separates m) : s.Agrees m := by
  refine agrees_of_staticImports fun e he f hf hsame => ?_
  have hboth : e.external = f.external ∧ e.path = f.path := by
    cases hinner : e.external with
    | false =>
      obtain ⟨hfinner, hpath⟩ := hs.internal he hf hsame hinner
      exact ⟨hfinner.symm, hpath⟩
    | true =>
      cases hfinner : f.external with
      | false => exact absurd (hs.internal hf he hsame.symm hfinner).1 (by simp [hinner])
      | true => exact ⟨rfl, by simpa [Scope.edgeKey, hinner, hfinner] using hsame⟩
  rw [reachedFile, reachedFile, hboth.1, hboth.2]
  exact ⟨rfl, rfl⟩

end Agreement

/-- The records and the queue of a classification, for as long as an output has not been followed. -/
inductive Before (s : Scope) (m : Metafile) (output : String) : InitialFiles → List String → Prop where
  | start : Before s m output (seeded s OrdMap.empty (seeds s m)) (seeds s m)
  | drop {found : InitialFiles} {p : String} {queue : List String} :
      Before s m output found (p :: queue) → p ≠ output → m.outputs.get? p = none → Before s m output found queue
  | scan {found : InitialFiles} {p : String} {queue : List String} {entry : OutputEntry} :
      Before s m output found (p :: queue) → p ≠ output → m.outputs.get? p = some entry →
        Before s m output (takeImports s found entry.imports).1 (queue ++ (takeImports s found entry.imports).2)

def putFirst (e : ImportEdge) (imports : List ImportEdge) : List ImportEdge :=
  if e ∈ imports then e :: imports.erase e else imports

def Metafile.withFirst (m : Metafile) (output : String) (e : ImportEdge) : Metafile :=
  ⟨m.inputs, m.outputs.map fun name entry =>
    if name = output then { entry with imports := putFirst e entry.imports } else entry⟩

section First

variable {s : Scope} {m : Metafile} {output : String} {e : ImportEdge}

theorem perm_putFirst (imports : List ImportEdge) : imports.Perm (putFirst e imports) := by
  rw [putFirst]
  split
  · rename_i he
    exact List.perm_cons_erase he
  · exact .refl _

theorem reordered_withFirst : Reordered m (m.withFirst output e) := by
  refine ⟨rfl, List.forall₂_map_right_iff.mpr (List.forall₂_same.mpr fun x _ => ⟨rfl, ?_⟩)⟩
  show SameImports x.2 (if x.1 = output then _ else _)
  split
  · exact ⟨rfl, rfl, perm_putFirst _⟩
  · exact .refl _

theorem get?_withFirst_of_ne {p : String} (h : p ≠ output) :
    (m.withFirst output e).outputs.get? p = m.outputs.get? p := by
  rw [Metafile.withFirst, OrdMap.get?_map]
  simp [h]

theorem Before.withFirst {found : InitialFiles} {queue : List String} (h : Before s m output found queue) :
    Before s (m.withFirst output e) output found queue := by
  induction h with
  | start =>
    have hsame : Reordered m (m.withFirst output e) := reordered_withFirst
    rw [hsame.seeds]
    exact .start
  | drop _ hne hentry ih => exact .drop ih hne (by rw [get?_withFirst_of_ne hne, hentry])
  | scan _ hne hentry ih => exact .scan ih hne (by rw [get?_withFirst_of_ne hne, hentry])

theorem Before.resume {found : InitialFiles} {queue : List String} (h : Before s m output found queue) :
    ∃ fuel, classify s m = follow s m fuel found queue ∧ queue.length + unseen s m found ≤ fuel := by
  induction h with
  | start => exact ⟨_, rfl, unseen_seeded_le⟩
  | drop _ _ hentry ih =>
    obtain ⟨fuel, hfollow, hfuel⟩ := ih
    rw [List.length_cons] at hfuel
    obtain ⟨fuel, rfl⟩ := Nat.exists_eq_add_of_lt (show 0 < fuel by omega)
    refine ⟨fuel, ?_, by omega⟩
    rw [hfollow, Nat.zero_add, follow, hentry]
  | @scan found _ queue _ _ _ hentry ih =>
    obtain ⟨fuel, hfollow, hfuel⟩ := ih
    rw [List.length_cons] at hfuel
    obtain ⟨fuel, rfl⟩ := Nat.exists_eq_add_of_lt (show 0 < fuel by omega)
    have hless := unseen_scan (s := s) hentry found queue
    refine ⟨fuel, ?_, by omega⟩
    rw [hfollow, Nat.zero_add, follow, hentry]

theorem get?_takeImports (edges : List ImportEdge) : ∀ {found : InitialFiles} {key : String} {file : InitialFile},
    found.get? key = some file → (takeImports s found edges).1.get? key = some file := by
  induction edges with
  | nil => exact fun h => h
  | cons e edges ih =>
    intro found key file h
    rw [takeImports]
    split
    · rename_i htake
      simp only [Bool.and_eq_true, Bool.not_eq_true'] at htake
      have hne : key ≠ s.edgeKey e := by
        rintro rfl
        rw [OrdMap.contains_eq_isSome, h] at htake
        cases htake.1.2
      exact ih ((OrdMap.get?_insert_of_ne hne).trans h)
    · exact ih h

theorem get?_takeImports_first {found : InitialFiles} (hkeeps : s.Keeps e)
    (hnew : found.contains (s.edgeKey e) = false) (edges : List ImportEdge) :
    (takeImports s found (e :: edges)).1.get? (s.edgeKey e) = some (reachedFile e) := by
  rw [takeImports, if_pos (by simp [hkeeps.1, hkeeps.2, hnew])]
  exact get?_takeImports _ (OrdMap.get?_insert_self _ _ _)

theorem get?_follow (fuel : Nat) : ∀ {found : InitialFiles} {queue : List String} {key : String} {file : InitialFile},
    found.get? key = some file → (follow s m fuel found queue).get? key = some file := by
  induction fuel with
  | zero => exact fun h => h
  | succ fuel ih =>
    intro found queue key file h
    cases queue with
    | nil => exact h
    | cons output queue =>
      rw [follow]
      split
      · exact ih h
      · exact ih (get?_takeImports _ h)

theorem get?_classify_withFirst {found : InitialFiles} {queue : List String}
    (h : Before s m output found (output :: queue)) (himport : Imports s m output e)
    (hnew : found.contains (s.edgeKey e) = false) :
    (classify s (m.withFirst output e)).get? (s.edgeKey e) = some (reachedFile e) := by
  obtain ⟨fuel, hfollow, hfuel⟩ := (h.withFirst (e := e)).resume
  rw [List.length_cons] at hfuel
  obtain ⟨fuel, rfl⟩ := Nat.exists_eq_add_of_lt (show 0 < fuel by omega)
  obtain ⟨entry, hentry, he⟩ := himport.listed
  have hfirst : (m.withFirst output e).outputs.get? output =
      some { entry with imports := e :: entry.imports.erase e } := by
    rw [Metafile.withFirst, OrdMap.get?_map, hentry]
    simp [putFirst, he]
  rw [hfollow, Nat.zero_add, follow, hfirst]
  exact get?_follow _ (get?_takeImports_first himport.keeps hnew _)

theorem exists_reordered_ne {found : InitialFiles} {queue : List String} {f : ImportEdge}
    (h : Before s m output found (output :: queue)) (he : Imports s m output e) (hf : Imports s m output f)
    (hsame : s.edgeKey e = s.edgeKey f) (hnew : found.contains (s.edgeKey e) = false)
    (hne : reachedFile e ≠ reachedFile f) : ∃ m', Reordered m m' ∧ classify s m ≠ classify s m' := by
  -- one of the two orders with `e` and with `f` in front has another record under their key than `m`
  by_cases heq : classify s m = classify s (m.withFirst output e)
  · refine ⟨m.withFirst output f, reordered_withFirst, fun heq' => hne ?_⟩
    have hgete := get?_classify_withFirst h he hnew
    have hgetf := get?_classify_withFirst h hf (hsame ▸ hnew)
    rw [← heq, heq', hsame, hgetf] at hgete
    exact (Option.some.inj hgete).symm
  · exact ⟨_, reordered_withFirst, heq⟩

/-- The order of imports is of no account where all imports of a key agree, as they do where keys tell paths
apart, and decides where an output has two imports of a new key that do not. -/
theorem classify_reordered (s : Scope) (m : Metafile) :
    (s.Separates m → s.Agrees m) ∧
    (s.Agrees m → ∀ m', Reordered m m' → classify s m = classify s m') ∧
    ∀ output found queue e f, Before s m output found (output :: queue) →
      Imports s m output e → Imports s m output f → s.edgeKey e = s.edgeKey f →
      found.contains (s.edgeKey e) = false → reachedFile e ≠ reachedFile f →
        ∃ m', Reordered m m' ∧ classify s m ≠ classify s m' := by
  refine ⟨fun hs => hs.agrees, fun hs m' h => classify_eq_of_reordered hs h, ?_⟩
  intro output found queue e f hbefore he hf hsame hnew hne
  exact exists_reordered_ne hbefore he hf hsame hnew hne

end First

section Cases

set_option maxRecDepth 100000

def plainScope : Scope := ⟨[⟨"main.ts"⟩], ⟨"/ws"⟩, ⟨"/ws"⟩, fun _ _ => true⟩

def mainImporting (imports : List ImportEdge) : Metafile := ⟨OrdMap.empty, ⟨[
  ("deep.js", ⟨0, none, []⟩),
  ("lib.js", ⟨0, none, [⟨"deep.js", .importStatement, false⟩]⟩),
  ("main.js", ⟨0, some "main.ts", imports⟩)]⟩⟩

theorem reordered_mainImporting {a b : List ImportEdge} (h : a.Perm b) :
    Reordered (mainImporting a) (mainImporting b) :=
  ⟨rfl, .cons ⟨rfl, .refl _⟩ (.cons ⟨rfl, .refl _⟩ (.cons ⟨rfl, rfl, rfl, h⟩ .nil))⟩

/-- A stylesheet in two spellings and a repeated external import agree; an external import that has the text of
a key does not agree with the import of the output. -/
theorem classify_reordered_mainImporting :
    let theme : ImportEdge := ⟨"theme.css", .importRule, false⟩
    let dotted : ImportEdge := ⟨"./theme.css", .importRule, false⟩
    let package : ImportEdge := ⟨"@scope/pkg", .importStatement, true⟩
    let lib : ImportEdge := ⟨"lib.js", .importStatement, false⟩
    let outer : ImportEdge := ⟨"lib.js", .importStatement, true⟩
    plainScope.Agrees (mainImporting [dotted, package, lib, theme, package]) ∧
    classify plainScope (mainImporting [dotted, package, lib, theme, package]) =
      classify plainScope (mainImporting [package, theme, package, lib, dotted]) ∧
    ∃ m', Reordered (mainImporting [outer, lib]) m' ∧
      classify plainScope (mainImporting [outer, lib]) ≠ classify plainScope m' := by
  intro theme dotted package lib outer
  have hagrees : plainScope.Agrees (mainImporting [dotted, package, lib, theme, package]) :=
    agrees_of_staticImports (by decide +kernel)
  have himports : ∀ e ∈ [outer, lib], Imports plainScope (mainImporting [outer, lib]) "main.js" e := by
    intro e he
    refine ⟨⟨⟨0, some "main.ts", [outer, lib]⟩, by decide +kernel, he⟩, ?_, rfl⟩
    revert e
    decide
  refine ⟨hagrees, (classify_reordered _ _).2.1 hagrees _ (reordered_mainImporting (by decide)), ?_⟩
  refine (classify_reordered _ _).2.2 "main.js" _ [] outer lib .start (himports _ ?_) (himports _ ?_) ?_ ?_ ?_
  all_goals decide +kernel

/-- The first of two spellings decides whether an output is followed, and so does the first of an external and an
internal import of one key, with the record as well. -/
theorem order_of_imports_decides :
    let lib : ImportEdge := ⟨"lib.js", .importStatement, false⟩
    let dotted : ImportEdge := ⟨"./lib.js", .importStatement, false⟩
    let outer : ImportEdge := ⟨"lib.js", .importStatement, true⟩
    (Reordered (mainImporting [lib, dotted]) (mainImporting [dotted, lib]) ∧
      (classify plainScope (mainImporting [lib, dotted])).entries = [
        ("deep.js", ⟨none, .script, false, none⟩), ("lib.js", ⟨none, .script, false, none⟩),
        ("main.js", ⟨some "main", .script, true, none⟩)] ∧
      (classify plainScope (mainImporting [dotted, lib])).entries = [
        ("lib.js", ⟨none, .script, false, none⟩), ("main.js", ⟨some "main", .script, true, none⟩)]) ∧
    Reordered (mainImporting [lib, outer]) (mainImporting [outer, lib]) ∧
      (classify plainScope (mainImporting [lib, outer])).entries = [
        ("deep.js", ⟨none, .script, false, none⟩), ("lib.js", ⟨none, .script, false, none⟩),
        ("main.js", ⟨some "main", .script, true, none⟩)] ∧
      (classify plainScope (mainImporting [outer, lib])).entries = [
        ("lib.js", ⟨none, .script, false, some true⟩), ("main.js", ⟨some "main", .script, true, none⟩)] := by
  refine ⟨⟨reordered_mainImporting (by decide), ?_, ?_⟩, reordered_mainImporting (by decide), ?_, ?_⟩
  all_goals decide +kernel

end Cases

end Recompile.Bundle
