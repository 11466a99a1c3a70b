import Recompile.Proofs.Program.Closed
import Recompile.Proofs.Program.Identities
import Recompile.Proofs.Program.ShadowText

/-!
Which files shadows take the place of. A shadow stands at a path made of the name of its script, and
a file that is read from there is no longer in the program; two scripts whose names differ in `.ts`
only share one shadow.
-/

namespace Recompile

namespace Path

theorem join_name_inj {p q : Path} {name : String} (hp : p.Normal) (hq : q.Normal)
    (hslash : '/' ∉ name.toList) (h : p.join ⟨name⟩ = q.join ⟨name⟩) : p = q := by
  have hrel : ¬ isAbsolute ⟨name⟩ = true := by
    intro habs
    obtain ⟨cs, hcs⟩ := isAbsolute_iff.mp habs
    exact hslash (by simp [show name.toList = '/' :: cs from hcs])
  -- the root is the only normal path that ends with a slash
  have htext : ∀ {p : Path}, p.Normal → ∃ front, (p.join ⟨name⟩).text.toList = front ++ '/' :: name.toList ∧
      (p.text.toList = front ∨ p.text.toList = ['/'] ∧ front = []) := by
    intro p hp
    unfold join
    rw [if_neg hrel]
    split
    · rename_i hends
      have hempty : p.text.isEmpty = false := by simpa using hp.plain.1
      rw [hempty, Bool.false_or] at hends
      obtain ⟨front, hfront⟩ := Text.endsWith_iff.mp hends
      have htidy := hp.tidy
      rw [hfront] at htidy
      obtain rfl := eq_slash_of_tidy_of_endsWith htidy
      exact ⟨[], by simp [hfront], .inr ⟨by simpa using hfront, rfl⟩⟩
    · exact ⟨p.text.toList, by simp, .inl rfl⟩
  obtain ⟨front, hjoin, hfront⟩ := htext hp
  obtain ⟨front', hjoin', hfront'⟩ := htext hq
  obtain rfl : front = front' := by
    rw [h, hjoin'] at hjoin
    exact (List.append_cancel_right hjoin).symm
  have hsame : p.text.toList = q.text.toList := by
    rcases hfront with hfront | ⟨hroot, rfl⟩
    · rcases hfront' with hfront' | ⟨-, rfl⟩
      · exact hfront.trans hfront'.symm
      · exact absurd hfront hp.plain.1
    · rcases hfront' with hfront' | ⟨hroot', -⟩
      · exact absurd hfront' hq.plain.1
      · exact hroot.trans hroot'.symm
  cases p
  cases q
  exact congrArg Path.mk (String.toList_inj.mp hsame)

theorem placed_inj {p q : Path} (hp : p.Normal ∨ p.Dotted) (hq : q.Normal ∨ q.Dotted)
    (h : p.components = q.components) : p = q :=
  eq_of_placed hp (hq.elim Normal.tidy Dotted.tidy) h

theorem beside_inj {p q : Path} {ending : String} (hp : p.dirname.Normal) (hq : q.dirname.Normal)
    (hslash : '/' ∉ ending.toList) (hlong : 3 ≤ ending.toList.length) :
    p.beside ending = q.beside ending ↔ p.dirname = q.dirname ∧ p.stem = q.stem := by
  have hbeside : ∀ p : Path, p.beside ending = p.dirname.join ⟨String.ofList p.stem ++ ending⟩ := fun _ => rfl
  constructor
  · intro h
    have hname := p.fileName?_beside hslash hlong
    rw [h, q.fileName?_beside hslash hlong, Option.some.injEq, ← String.toList_inj] at hname
    simp only [String.toList_append, String.toList_ofList] at hname
    have hstem : p.stem = q.stem := (List.append_cancel_right hname).symm
    refine ⟨?_, hstem⟩
    rw [hbeside, hbeside, hstem] at h
    refine join_name_inj hp hq ?_ h
    simpa using ⟨q.slash_not_mem_stem, hslash⟩
  · rintro ⟨hdir, hstem⟩
    rw [hbeside, hbeside, hdir, hstem]

end Path

namespace BuildState

variable {σ : Type} [FileSystem σ]

def Shadowed (c : BuildContext σ) (queue : List Path) (script : Path) : Prop :=
  Reached c queue script ∧ SourceKind.ofPath script = .script ∧
    ∃ text, c.host.read c.fs script = .ok (some text) ∧
      (Script.analyze 0 (Script.scan 0 text)).components ≠ []

def Hidden (c : BuildContext σ) (queue : List Path) (q : Path) : Prop :=
  ∃ script, Shadowed c queue script ∧ Shadow.path script = q

end BuildState

namespace Shadow

/-- The shadows of some scripts are in a program, each under the identity of its path. -/
structure Cast (base : Program) (done : List FileId) (state : Program × Registry) : Prop where
  maker : ∀ {id o}, state.1.origins.get? id = some o → o ∈ done ∧ ∃ f text, base.file? o = some f ∧
    state.2.lookup? (path f.path) = some id ∧
      state.1.file? id = some ⟨id, path f.path, text, .typeCheckShadow⟩
  shadow : ∀ {o f}, o ∈ done → base.file? o = some f →
    ∃ id, state.2.lookup? (path f.path) = some id ∧ state.1.origins.contains id = true

variable {base : Program} {r : Registry} {state : Program × Registry} {done : List FileId}

theorem Cast.add (h : Cast base done state) (hext : Extends base r state) (hkeeps : Keeps base r state)
    {origin : FileId} {f : SourceFile} {m : Module} (hf : base.file? origin = some f)
    (hm : base.module? origin = some m) : Cast base (done ++ [origin]) (add state origin) := by
  obtain ⟨g, hg, hpath⟩ := hkeeps.stays hf
  have hmodule : state.1.module? origin = some m := by
    unfold Program.module?
    rw [hext.modules]
    exact hm
  have hin := Registry.within_intern state.2 (path f.path)
  have hlookup := Registry.lookup?_intern state.2 (path f.path)
  rw [add_eq hg hmodule, hpath]
  generalize (state.2.intern (path f.path)).1 = new at hlookup
  generalize (state.2.intern (path f.path)).2 = registry at hin hlookup
  constructor
  · intro id o ho
    simp only [OrdMap.get?_insert, Std.LawfulEqOrd.compare_eq_iff_eq] at ho
    rw [file?_withShadow]
    split at ho
    · rename_i hid
      cases ho
      subst hid
      exact ⟨by simp, f, _, hf, hlookup, if_pos rfl⟩
    · rename_i hid
      obtain ⟨hdone, f', text, hf', hl, hfile⟩ := h.maker ho
      exact ⟨List.mem_append_left _ hdone, f', text, hf', hin.lookup? hl, by rw [if_neg hid, hfile]⟩
  · intro o f' ho hf'
    rcases List.mem_append.mp ho with ho | ho
    · obtain ⟨id, hl, hcontains⟩ := h.shadow ho hf'
      exact ⟨id, hin.lookup? hl, OrdMap.contains_insert_of_contains hcontains⟩
    · obtain rfl := List.mem_singleton.mp ho
      obtain rfl := Option.some.inj (hf.symm.trans hf')
      exact ⟨new, hlookup, OrdMap.contains_iff.mpr ⟨o, by simp⟩⟩

theorem Cast.foldl_add (hbase : Ready base r) (hsorted : base.modules.Sorted) (todo : List FileId) :
    ∀ {done : List FileId} {state : Program × Registry}, Cast base done state → Extends base r state →
      Keeps base r state → (∀ o ∈ todo, o ∈ origins base) →
        Cast base (done ++ todo) (todo.foldl Shadow.add state) := by
  induction todo with
  | nil =>
    intro done state h _ _ _
    rwa [List.append_nil]
  | cons o rest ih =>
    intro done state h hext hkeeps htodo
    obtain ⟨f, m, hf, -, hm, -⟩ := (mem_origins hsorted).mp (htodo o List.mem_cons_self)
    have hlast := ih (h.add hext hkeeps hf hm) (extends_add hext o) (keeps_add hbase hkeeps hf)
      fun o' ho' => htodo o' (List.mem_cons_of_mem _ ho')
    rwa [List.append_assoc] at hlast

theorem cast_addAll (hbase : Ready base r) (hsorted : base.modules.Sorted)
    (hself : Extends base r (base, r)) (hempty : base.origins = OrdMap.empty) :
    Cast base (origins base) (addAll base r) := by
  have hnone : Cast base [] (base, r) := by
    refine ⟨fun ho => ?_, fun ho => by cases ho⟩
    rw [show (base, r).1.origins = OrdMap.empty from hempty] at ho
    cases ho
  exact Cast.foldl_add hbase hsorted (origins base) hnone hself
    ⟨.refl r, fun hf => ⟨_, hf, rfl⟩, fun _ hq => .inl hq⟩ fun _ ho => ho

end Shadow

namespace Program

open BuildState

variable {σ : Type} [FileSystem σ] {c : BuildContext σ} {queue : List Path} {s : BuildState}

theorem closed_outcome (hqueue : StartsFrom c queue) {registry : Registry} (hr : registry.Distinct)
    (hfault : (outcome c registry queue).fault = none) :
    Closed c queue (settle (outcome c registry queue).program) := by
  have hinit : Sound c ⟨registry, empty, OrdMap.empty, none⟩ := sound_initial hr
  obtain ⟨hsound, -, hcovered⟩ := sound_rounds (c.host.capacity c.fs + 1) hinit hqueue.tidy
  have htraced := traced_rounds hqueue (c.host.capacity c.fs + 1) (traced_initial registry) hinit
    (fun q hq => .root hq) hfault
  exact closed_settle hsound htraced hqueue hfault ((hcovered hfault).2 fun id f hf => by cases hf)
    (visited_queue hinit hqueue.tidy hfault)

theorem file_reached (hs : Sound c s) (hclosed : Closed c queue (settle s.program)) {q : Path} {text : String}
    (hq : Reached c queue q) (hread : c.host.read c.fs q = .ok (some text)) :
    ∃ id, s.registry.lookup? q = some id ∧ s.program.file? id = some (fileAt id q text) := by
  obtain ⟨f, hf, rfl⟩ := (hclosed.member_iff q).mpr ⟨hq, text, hread⟩
  have hfile := (mem_members_settle hs).mp hf
  obtain ⟨heq, -, hlookup, -, hread'⟩ := hs.file_read hfile
  obtain rfl : f.text = text := by simpa [hread] using hread'.symm
  exact ⟨f.id, hlookup, by rw [hfile, ← heq]⟩

theorem mem_origins_settle (hs : Sound c s) (hclosed : Closed c queue (settle s.program)) {o : FileId} :
    o ∈ Shadow.origins (settle s.program) ↔
      ∃ script, Shadowed c queue script ∧ s.registry.lookup? script = some o := by
  have hcomponents : ∀ {id : FileId} {text : String} {m : Module},
      m.outline = Script.analyze id (Script.scan id text) →
        (m.outline.components ≠ [] ↔ (Script.analyze 0 (Script.scan 0 text)).components ≠ []) := by
    intro id text m hm
    rw [hm, Script.analyze_moved 0 id]
    simp [Script.Outline.moved]
  rw [Shadow.mem_origins (hs.modules_sorted.map _)]
  constructor
  · rintro ⟨f, m, hf, hkind, hm, hnonempty⟩
    obtain ⟨heq, -, hlookup, -, hread⟩ := hs.file_read hf
    have hmem : f ∈ (settle s.program).members := by
      rw [mem_members_settle hs, show f.id = o from congrArg SourceFile.id heq]
      exact hf
    refine ⟨f.path, ⟨((hclosed.member_iff f.path).mp ⟨f, hmem, rfl⟩).1, ?_, f.text, hread, ?_⟩, hlookup⟩
    · rwa [← (hclosed.member f hmem).2.1]
    · exact (hcomponents (hclosed.outline hf hm)).mp hnonempty
  · rintro ⟨script, ⟨hreached, hkind, text, hread, hnonempty⟩, hlookup⟩
    obtain ⟨id, hl, hfile⟩ := file_reached hs hclosed hreached hread
    obtain rfl := Option.some.inj (hl.symm.trans hlookup)
    rw [← fileAt_kind id script text] at hkind
    obtain ⟨m, hm⟩ := (hclosed.module_iff id).mpr ⟨_, hfile, congrArg SourceKind.isModule hkind⟩
    exact ⟨_, m, hfile, hkind, hm, (hcomponents (hclosed.outline hfile hm)).mpr hnonempty⟩

section Built

variable {p : Program} {r : Registry}

theorem placed_shadow (hnormal : ∀ q ∈ queue, q.Normal) {script : Path} (h : Reached c queue script) :
    (Shadow.path script).Normal ∨ (Shadow.path script).Dotted :=
  (normal_shadow hnormal h).imp_right And.right

theorem shadow_path_eq (hnormal : ∀ q ∈ queue, q.Normal) {a b : Path} (ha : Reached c queue a)
    (hb : Reached c queue b) {id : FileId} (hla : r.lookup? (Shadow.path a) = some id)
    (hlb : r.lookup? (Shadow.path b) = some id) : Shadow.path a = Shadow.path b :=
  Path.placed_inj (placed_shadow hnormal ha) (placed_shadow hnormal hb)
    (Registry.components_eq_of_lookup? hla hlb)

namespace Built

theorem reached (h : Built c s p r) (hclosed : Closed c queue (settle s.program)) {id : FileId} {f : SourceFile}
    (hf : s.program.file? id = some f) : Reached c queue f.path := by
  have hid : f.id = id := congrArg SourceFile.id (h.sound.file_read hf).1
  have hmem : f ∈ (settle s.program).members := by rwa [mem_members_settle h.sound, hid]
  exact ((hclosed.member_iff f.path).mp ⟨f, hmem, rfl⟩).1

theorem cast (h : Built c s p r) (hfull : c.full = true) (hnormal : ∀ q ∈ queue, q.Normal)
    (hclosed : Closed c queue (settle s.program)) :
    Shadow.Cast (settle s.program) (Shadow.origins (settle s.program)) (p, r) := by
  have hfinish := h.finish
  rw [if_pos hfull] at hfinish
  rw [hfinish]
  exact Shadow.cast_addAll (ready_settle h.sound hnormal (h.reached hclosed)) (h.sound.modules_sorted.map _)
    (Shadow.extends_self h.sound.files_sorted h.sound.origins_empty h.sound.distinct) h.sound.origins_empty

theorem script_of_origin (h : Built c s p r) (hfull : c.full = true) (hnormal : ∀ q ∈ queue, q.Normal)
    (hclosed : Closed c queue (settle s.program)) {id o : FileId} (ho : p.origins.get? id = some o) :
    ∃ script text, Shadowed c queue script ∧ r.lookup? script = some o ∧
      r.lookup? (Shadow.path script) = some id ∧
        p.file? id = some ⟨id, Shadow.path script, text, .typeCheckShadow⟩ := by
  obtain ⟨hin, f, text, hf, hl, hfile⟩ := (h.cast hfull hnormal hclosed).maker ho
  obtain ⟨script, hscript, hlookup⟩ := (mem_origins_settle h.sound hclosed).mp hin
  obtain ⟨-, htidy, hlookup', -⟩ := h.sound.file_read hf
  obtain rfl : f.path = script := Path.eq_of_components_eq htidy
    (hscript.1.tidy fun q hq => (hnormal q hq).tidy) (Registry.components_eq_of_lookup? hlookup' hlookup)
  exact ⟨f.path, text, hscript, h.shadows.within.lookup? hlookup, hl, hfile⟩

theorem shadow_of_script (h : Built c s p r) (hfull : c.full = true) (hnormal : ∀ q ∈ queue, q.Normal)
    (hclosed : Closed c queue (settle s.program)) {script : Path} (hscript : Shadowed c queue script) :
    ∃ id text, r.lookup? (Shadow.path script) = some id ∧ p.origins.contains id = true ∧
      p.file? id = some ⟨id, Shadow.path script, text, .typeCheckShadow⟩ := by
  obtain ⟨text, hread, -⟩ := hscript.2.2
  obtain ⟨o, hlookup, hfile⟩ := file_reached h.sound hclosed hscript.1 hread
  obtain ⟨id, hl, hcontains⟩ := (h.cast hfull hnormal hclosed).shadow
    ((mem_origins_settle h.sound hclosed).mpr ⟨script, hscript, hlookup⟩) hfile
  obtain ⟨o', ho'⟩ := OrdMap.contains_iff.mp hcontains
  obtain ⟨script', shadow, hscript', -, hl', hfile'⟩ := h.script_of_origin hfull hnormal hclosed ho'
  rw [shadow_path_eq hnormal hscript'.1 hscript.1 hl' hl] at hfile'
  exact ⟨id, shadow, hl, hcontains, hfile'⟩

theorem contains_origins_iff (h : Built c s p r) (hfull : c.full = true) (hnormal : ∀ q ∈ queue, q.Normal)
    (hclosed : Closed c queue (settle s.program)) {q : Path} (hq : Reached c queue q) {id : FileId}
    (hl : r.lookup? q = some id) : p.origins.contains id = true ↔ Hidden c queue q := by
  constructor
  · intro hcontains
    obtain ⟨o, ho⟩ := OrdMap.contains_iff.mp hcontains
    obtain ⟨script, -, hscript, -, hl', -⟩ := h.script_of_origin hfull hnormal hclosed ho
    exact ⟨script, hscript, Path.eq_of_placed (placed_shadow hnormal hscript.1)
      (hq.tidy fun q hq => (hnormal q hq).tidy) (Registry.components_eq_of_lookup? hl' hl)⟩
  · rintro ⟨script, hscript, rfl⟩
    obtain ⟨id', -, hl', hcontains, -⟩ := h.shadow_of_script hfull hnormal hclosed hscript
    obtain rfl := Option.some.inj (hl'.symm.trans hl)
    exact hcontains

/-- A file that is read is kept as it is, unless a shadow stands at its path. -/
theorem kept_or_hidden (h : Built c s p r) (hfull : c.full = true) (hnormal : ∀ q ∈ queue, q.Normal)
    (hclosed : Closed c queue (settle s.program)) {q : Path} {text : String} (hq : Reached c queue q)
    (hread : c.host.read c.fs q = .ok (some text)) : ∃ id, r.lookup? q = some id ∧
      (p.origins.contains id = true ↔ Hidden c queue q) ∧
      (¬ Hidden c queue q → p.file? id = some (fileAt id q text)) ∧
      (Hidden c queue q → ∃ shadow, p.file? id = some ⟨id, q, shadow, .typeCheckShadow⟩) := by
  obtain ⟨id, hlookup, hfile⟩ := file_reached h.sound hclosed hq hread
  have hl := h.shadows.within.lookup? hlookup
  have hiff := h.contains_origins_iff hfull hnormal hclosed hq hl
  refine ⟨id, hl, hiff, fun hnot => ?_, ?_⟩
  · cases ho : p.origins.get? id with
    | none => rw [h.file?_eq ho, hfile]
    | some o => exact absurd (hiff.mp (OrdMap.contains_iff.mpr ⟨o, ho⟩)) hnot
  · rintro ⟨script, hscript, rfl⟩
    obtain ⟨id', shadow, hl', -, hfile'⟩ := h.shadow_of_script hfull hnormal hclosed hscript
    obtain rfl := Option.some.inj (hl'.symm.trans hl)
    exact ⟨shadow, hfile'⟩

/-- Scripts share a shadow when they lie in one directory and have one name without `.ts`. -/
theorem shared_shadow_iff (h : Built c s p r) (hfull : c.full = true) (hnormal : ∀ q ∈ queue, q.Normal)
    (hclosed : Closed c queue (settle s.program)) {a b : Path} (ha : Shadowed c queue a)
    (hb : Shadowed c queue b) :
    r.lookup? (Shadow.path a) = r.lookup? (Shadow.path b) ↔ a.dirname = b.dirname ∧ a.stem = b.stem := by
  obtain ⟨id, -, hl, -⟩ := h.shadow_of_script hfull hnormal hclosed ha
  have hpath : Shadow.path a = Shadow.path b ↔ a.dirname = b.dirname ∧ a.stem = b.stem :=
    Path.beside_inj (ha.1.normal_dirname hnormal) (hb.1.normal_dirname hnormal) (by decide) (by decide)
  rw [← hpath]
  constructor
  · exact fun hsame => shadow_path_eq hnormal ha.1 hb.1 hl (hsame ▸ hl)
  · exact fun hsame => congrArg r.lookup? hsame

end Built

end Built

/-- Shadows hide the files that are read from their paths, and no others. A build with shadows makes
one for every script with components; the file that is read from a path is kept exactly when the path
is not that of a shadow, and two scripts share a shadow exactly when they lie in one directory under
names that are the same without `.ts`. -/
theorem shadow_hides_iff (options : Options) (host : Host) (fs : σ) (roots : List Path)
    {registry : Registry} (hr : registry.Distinct) {p : Program} {r : Registry}
    (hbuild : build options host fs true registry roots = (.ok p, r)) :
    let queue := roots.map Path.normalize
    let c : BuildContext σ := ⟨options, host, fs, true, OrdSet.ofList queue⟩
    (∀ q text, Reached c queue q → host.read fs q = .ok (some text) → ∃ id, r.lookup? q = some id ∧
      (p.origins.contains id = true ↔ Hidden c queue q) ∧
      (¬ Hidden c queue q → p.file? id = some (fileAt id q text)) ∧
      (Hidden c queue q → ∃ shadow, p.file? id = some ⟨id, q, shadow, .typeCheckShadow⟩)) ∧
    (∀ script, Shadowed c queue script → ∃ id shadow, r.lookup? (Shadow.path script) = some id ∧
      p.origins.contains id = true ∧
        p.file? id = some ⟨id, Shadow.path script, shadow, .typeCheckShadow⟩) ∧
    (∀ id o, p.origins.get? id = some o → ∃ script, Shadowed c queue script ∧
      r.lookup? script = some o ∧ r.lookup? (Shadow.path script) = some id) ∧
    ∀ a b, Shadowed c queue a → Shadowed c queue b →
      (r.lookup? (Shadow.path a) = r.lookup? (Shadow.path b) ↔ a.dirname = b.dirname ∧ a.stem = b.stem) := by
  intro queue c
  have hnormal : ∀ q ∈ queue, q.Normal := by
    intro q hq
    obtain ⟨root, -, rfl⟩ := List.mem_map.mp hq
    exact Path.normal_normalize root
  obtain ⟨-, -, ⟨e, -, heq⟩ | ⟨hfault, p', r', heq, hbuilt⟩⟩ := build_outcome options host fs true roots hr
  · rw [hbuild] at heq
    cases heq
  · rw [hbuild] at heq
    cases heq
    have hclosed := closed_outcome (startsFrom_roots options host fs true roots) hr hfault
    refine ⟨fun q text => hbuilt.kept_or_hidden rfl hnormal hclosed,
      fun script => hbuilt.shadow_of_script rfl hnormal hclosed, fun id o ho => ?_,
      fun a b => hbuilt.shared_shadow_iff rfl hnormal hclosed⟩
    obtain ⟨script, -, hscript, hl, hl', -⟩ := hbuilt.script_of_origin rfl hnormal hclosed ho
    exact ⟨script, hscript, hl, hl'⟩

set_option maxRecDepth 100000

def namedAlike : Volume := .ofTexts [
  (⟨"/a.ts"⟩, "@Component(\x7btemplate: ''\x7d)\nexport class A \x7b\x7d\n"), (⟨"/a.typecheck.ts"⟩, "export const t = 1;\n")]

theorem shadow_hides_iff_namedAlike :
    let roots : List Path := [⟨"/a.ts"⟩, ⟨"/a.typecheck.ts"⟩]
    let options := Options.ofConfigPath ⟨"/k"⟩
    let host : Host := ⟨OrdMap.empty, .passthrough⟩
    let queue := roots.map Path.normalize
    let c : BuildContext Volume := ⟨options, host, namedAlike, true, OrdSet.ofList queue⟩
    ∃ p r, build options host namedAlike true Registry.empty roots = (.ok p, r) ∧
      p.origins.entries = [(1, 0)] ∧ Hidden c queue ⟨"/a.typecheck.ts"⟩ ∧ ¬ Hidden c queue ⟨"/a.ts"⟩ := by
  intro roots options host queue c
  have hresult : ((build options host namedAlike true Registry.empty roots).1.toOption.map fun p =>
      p.origins.entries) = some [(1, 0)] := by decide +kernel
  have hpaths : (build options host namedAlike true Registry.empty roots).2.paths =
      [⟨"/a.ts"⟩, ⟨"/a.typecheck.ts"⟩] := by decide +kernel
  generalize hbuild : build options host namedAlike true Registry.empty roots = built at hresult hpaths
  obtain ⟨made, r⟩ := built
  cases made with
  | error e => cases hresult
  | ok p =>
    have horigins : p.origins.entries = [(1, 0)] := Option.some.inj hresult
    have hcontains : p.origins.contains 1 = true ∧ p.origins.contains 0 = false := by
      rw [show p.origins = ⟨[(1, 0)]⟩ from congrArg OrdMap.mk horigins]
      decide
    obtain rfl : r = ⟨[⟨"/a.ts"⟩, ⟨"/a.typecheck.ts"⟩]⟩ := congrArg Registry.mk hpaths
    obtain ⟨hkept, -⟩ := shadow_hides_iff options host namedAlike roots Registry.distinct_empty hbuild
    obtain ⟨id, hl, hiff, -⟩ := hkept ⟨"/a.typecheck.ts"⟩ "export const t = 1;\n" (.root (by decide))
      (by decide +kernel)
    obtain ⟨id', hl', hiff', -⟩ :=
      hkept ⟨"/a.ts"⟩ "@Component(\x7btemplate: ''\x7d)\nexport class A \x7b\x7d\n" (.root (by decide))
      (by decide +kernel)
    obtain rfl : 1 = id := Option.some.inj ((by decide : Registry.lookup? _ _ = some 1).symm.trans hl)
    obtain rfl : 0 = id' := Option.some.inj ((by decide : Registry.lookup? _ _ = some 0).symm.trans hl')
    refine ⟨p, _, rfl, horigins, hiff.mp hcontains.1, fun hhidden => ?_⟩
    rw [hiff'.mpr hhidden] at hcontains
    cases hcontains.2

/-- A script that has the name of a shadow is no longer in the program. -/
theorem shadow_replaces_script :
    let built := build (Options.ofConfigPath ⟨"/k"⟩) ⟨OrdMap.empty, .passthrough⟩ namedAlike true
      Registry.empty [⟨"/a.ts"⟩, ⟨"/a.typecheck.ts"⟩]
    namedAlike.read ⟨"/a.typecheck.ts"⟩ = .ok "export const t = 1;\n" ∧
      built.1.toOption.map (fun p => (p.origins.entries, p.members.map fun f => (f.id, f.path, f.kind))) =
        some ([(1, 0)], [(0, ⟨"/a.ts"⟩, .script), (1, ⟨"/a.typecheck.ts"⟩, .typeCheckShadow)]) ∧
      built.1.toOption.bind (fun p => (p.file? 1).map (·.text)) ≠ some "export const t = 1;\n" := by
  decide +kernel

end Program

end Recompile
