import Mathlib.Data.List.TakeWhile
import Recompile.Proofs.Path.Beside

/-!
Rooted paths: absolute, and without steps up. Whatever is resolved against a rooted directory is
rooted, and the way from such a directory to a rooted path leads there.
-/

namespace Recompile.Path

def Rooted (cs : List Char) : Prop := (∃ body, cs = '/' :: body) ∧ ['.', '.'] ∉ segments cs

theorem ofSegment?_of_isName {seg : List Char} (h : IsName seg) :
    Component.ofSegment? seg = some (.name (String.ofList seg)) := by
  unfold Component.ofSegment?
  rw [if_neg (by simp [h.1.1, h.1.2]), if_neg h.2.1]

theorem exists_names {cs : List Component} (h : ∀ c ∈ cs, ∃ s : String, c = .name s ∧ IsName s.toList) :
    ∃ names : List String, cs = names.map .name ∧ ∀ n ∈ names, IsName n.toList := by
  induction cs with
  | nil => exact ⟨[], rfl, fun _ hn => (List.not_mem_nil hn).elim⟩
  | cons c cs ih =>
    obtain ⟨s, rfl, hs⟩ := h c List.mem_cons_self
    obtain ⟨names, rfl, hnames⟩ := ih fun d hd => h d (List.mem_cons_of_mem _ hd)
    refine ⟨s :: names, rfl, fun n hn => ?_⟩
    rcases List.mem_cons.mp hn with rfl | hn
    · exact hs
    · exact hnames n hn

theorem components_of_slash {p : Path} {body : List Char} (h : p.text.toList = '/' :: body) :
    p.components = .root :: (segments body).filterMap Component.ofSegment? := by
  unfold components
  rw [h]
  rfl

theorem components_of_rooted {p : Path} (h : Rooted p.text.toList) : ∃ names : List String,
    p.components = .root :: names.map .name ∧ ∀ n ∈ names, IsName n.toList := by
  obtain ⟨⟨body, hbody⟩, hup⟩ := h
  rw [hbody, segments_slash] at hup
  obtain ⟨names, hcs, hnames⟩ := @exists_names ((segments body).filterMap Component.ofSegment?) fun c hc => by
    have hstep := isStep_of_mem_filterMap hc
    cases c with
    | root => cases hstep
    | here => cases hstep
    | name s => exact ⟨s, rfl, hstep⟩
    | up =>
      obtain ⟨seg, hseg, heq⟩ := List.mem_filterMap.mp hc
      unfold Component.ofSegment? at heq
      split at heq
      · cases heq
      · split at heq
        · rename_i hdots
          exact absurd (List.mem_cons_of_mem _ (hdots ▸ hseg)) hup
        · cases heq
  exact ⟨names, by rw [components_of_slash hbody, hcs], hnames⟩

theorem isStep_names {names : List String} (h : ∀ n ∈ names, IsName n.toList) :
    ∀ c ∈ names.map Component.name, c.IsStep := by
  intro c hc
  obtain ⟨n, hn, rfl⟩ := List.mem_map.mp hc
  exact h n hn

theorem rooted_render {names : List String} (h : ∀ n ∈ names, IsName n.toList) :
    Rooted (render (.root :: names.map .name)).toList := by
  rw [toList_render_root]
  refine ⟨⟨_, rfl⟩, ?_⟩
  rw [segments_slash]
  by_cases hne : names.map Component.name = []
  · rw [hne]
    decide
  · rw [segments_steps (isStep_names h) hne]
    intro hup
    rcases List.mem_cons.mp hup with hup | hup
    · cases hup
    · obtain ⟨c, hc, heq⟩ := List.mem_map.mp hup
      obtain ⟨n, hn, rfl⟩ := List.mem_map.mp hc
      exact (h n hn).2.1 heq

theorem filterMap_steps {steps : List Component} (h : ∀ c ∈ steps, c.IsStep) :
    (steps.map fun c => c.text.toList).filterMap Component.ofSegment? = steps := by
  induction steps with
  | nil => rfl
  | cons c steps ih =>
    have hc : Component.ofSegment? c.text.toList = some c := by
      have hstep := h c List.mem_cons_self
      cases c with
      | root => cases hstep
      | here => cases hstep
      | up => rfl
      | name s =>
        rw [show (Component.name s).text = s from rfl, ofSegment?_of_isName hstep, String.ofList_toList]
    rw [List.map_cons, List.filterMap_cons_some hc, ih fun d hd => h d (List.mem_cons_of_mem _ hd)]

theorem components_render_root {steps : List Component} (h : ∀ c ∈ steps, c.IsStep) :
    (ofComponents (.root :: steps)).components = .root :: steps := by
  have htext : (ofComponents (.root :: steps)).text.toList =
      '/' :: ['/'].intercalate (steps.map fun c => c.text.toList) := toList_render_root _
  rw [components_of_slash htext]
  by_cases hne : steps = []
  · rw [hne]
    rfl
  · rw [segments_steps h hne, filterMap_steps h]

theorem components_render_steps {steps : List Component} (h : ∀ c ∈ steps, c.IsStep) (hne : steps ≠ []) :
    (ofComponents steps).components = steps := by
  have hlist : (ofComponents steps).text.toList = ['/'].intercalate (steps.map fun c => c.text.toList) :=
    toList_render fun hroot => (h _ hroot).solid.2.2 rfl
  have hsegments := segments_steps h hne
  rw [← hlist] at hsegments
  have hsolid : ∀ seg ∈ segments (ofComponents steps).text.toList, Solid seg := by
    rw [hlist]
    exact solid_steps h hne
  have hlead : lead (ofComponents steps).text.toList = ([], (ofComponents steps).text.toList) := by
    refine lead_of_plain ?_ ?_ ?_
    · rintro t ht
      rw [ht] at hsolid
      exact (hsolid [] (by simp)).1 rfl
    · intro ht
      rw [ht] at hsolid
      exact (hsolid ['.'] (by decide)).2 rfl
    · rintro t ht
      rw [ht] at hsolid
      exact (hsolid ['.'] (by simp [segments_cons (show '.' ≠ '/' by decide)])).2 rfl
  unfold components
  rw [hlead]
  dsimp only
  rw [hsegments, filterMap_steps h, List.nil_append]

theorem foldComponent_name (done : List Component) (s : String) :
    foldComponent done (.name s) = .name s :: done := by
  cases done with
  | nil => rfl
  | cons d done => cases d <;> rfl

theorem foldl_names (names : List String) : ∀ done : List Component,
    (names.map Component.name).foldl foldComponent done = (names.map Component.name).reverse ++ done := by
  induction names with
  | nil => exact fun _ => rfl
  | cons n names ih =>
    intro done
    rw [List.map_cons, List.foldl_cons, foldComponent_name, ih, List.reverse_cons, List.append_assoc]
    rfl

theorem foldl_ups (names : List String) : ∀ done : List Component,
    (names.map fun _ => Component.up).foldl foldComponent (names.map Component.name ++ done) = done := by
  induction names with
  | nil => exact fun _ => rfl
  | cons n names ih => exact fun done => ih done

theorem normalComponents_names (names : List String) :
    normalComponents (.root :: names.map .name) = .root :: names.map .name := by
  rw [normalComponents, List.foldl_cons]
  show ((names.map Component.name).foldl foldComponent [Component.root]).reverse = _
  rw [foldl_names]
  simp

theorem foldl_floor {Floor : List Component → Prop}
    (hfloor : ∀ {floor}, Floor floor → Floor (foldComponent floor .up)) : ∀ {steps : List Component},
      (∀ c ∈ steps, c.IsStep) → ∀ {names : List String} {floor : List Component},
        (∀ n ∈ names, IsName n.toList) → Floor floor → ∃ (names' : List String) (floor' : List Component),
          (∀ n ∈ names', IsName n.toList) ∧ Floor floor' ∧
            steps.foldl foldComponent (names.map .name ++ floor) = names'.map .name ++ floor'
  | [], _, names, floor, hnames, h => ⟨names, floor, hnames, h, rfl⟩
  | c :: steps, hsteps, names, floor, hnames, h => by
    have hrest : ∀ d ∈ steps, d.IsStep := fun d hd => hsteps d (List.mem_cons_of_mem _ hd)
    have hstep := hsteps c List.mem_cons_self
    rw [List.foldl_cons]
    cases c with
    | root => cases hstep
    | here => cases hstep
    | up =>
      cases names with
      | nil => exact @foldl_floor _ hfloor _ hrest [] _ hnames (hfloor h)
      | cons n names => exact foldl_floor hfloor hrest (fun m hm => hnames m (List.mem_cons_of_mem _ hm)) h
    | name s =>
      rw [foldComponent_name, ← List.cons_append, ← List.map_cons]
      refine foldl_floor hfloor hrest (fun n hn => ?_) h
      rcases List.mem_cons.mp hn with rfl | hn
      · exact hstep
      · exact hnames n hn

theorem normalComponents_of_absolute {p : Path} (h : p.isAbsolute = true) : ∃ names : List String,
    (∀ n ∈ names, IsName n.toList) ∧ normalComponents p.components = .root :: names.map .name := by
  obtain ⟨body, hbody⟩ := isAbsolute_iff.mp h
  obtain ⟨names, floor, hnames, rfl, heq⟩ := @foldl_floor (· = [.root])
    (fun hfloor => by rw [hfloor]; rfl) _ (fun c hc => isStep_of_mem_filterMap hc) [] [.root]
    (fun _ hn => (List.not_mem_nil hn).elim) rfl
  refine ⟨names.reverse, fun n hn => hnames n (List.mem_reverse.mp hn), ?_⟩
  rw [components_of_slash hbody, normalComponents, List.foldl_cons]
  show (((segments body).filterMap Component.ofSegment?).foldl foldComponent
    ([].map Component.name ++ [Component.root])).reverse = _
  rw [heq]
  simp

theorem rooted_normalize {p : Path} (h : p.isAbsolute = true) : Rooted p.normalize.text.toList := by
  obtain ⟨names, hnames, hnormal⟩ := normalComponents_of_absolute h
  unfold normalize
  rw [hnormal]
  exact rooted_render hnames

theorem Rooted.isAbsolute {p : Path} (h : Rooted p.text.toList) : p.isAbsolute = true :=
  isAbsolute_iff.mpr h.1

theorem Rooted.ne_nil {cs : List Char} (h : Rooted cs) : cs ≠ [] := by
  obtain ⟨⟨body, rfl⟩, -⟩ := h
  exact List.cons_ne_nil _ _

theorem isAbsolute_join {base : Path} (h : base.isAbsolute = true) (q : Path) :
    (base.join q).isAbsolute = true := by
  obtain ⟨body, hbody⟩ := isAbsolute_iff.mp h
  unfold join
  split
  · assumption
  · split <;> exact isAbsolute_iff.mpr ⟨_, by simp [hbody]; rfl⟩

theorem rooted_resolve_absolute {base : Path} (h : base.isAbsolute = true) (q : Path) :
    Rooted (base.resolve q).text.toList := by
  unfold resolve
  split
  · exact rooted_normalize ‹_›
  · exact rooted_normalize (isAbsolute_join h q)

theorem rooted_resolve {base : Path} (h : Rooted base.text.toList) (q : Path) :
    Rooted (base.resolve q).text.toList := rooted_resolve_absolute h.isAbsolute q

theorem rooted_append {cs tail : List Char} (h : Rooted cs) (htail : '/' ∉ tail)
    (hname : ∀ seg, seg ++ tail ≠ ['.', '.']) : Rooted (cs ++ tail) := by
  obtain ⟨⟨body, rfl⟩, hup⟩ := h
  obtain ⟨pre, last, hcs, happend⟩ := segments_append htail ('/' :: body)
  refine ⟨⟨body ++ tail, rfl⟩, ?_⟩
  rw [happend]
  rw [hcs] at hup
  intro hmem
  rcases List.mem_append.mp hmem with hmem | hmem
  · exact hup (List.mem_append_left _ hmem)
  · exact hname last (List.mem_singleton.mp hmem).symm

theorem rooted_join_name {p : Path} {name : String} (h : Rooted p.text.toList)
    (hslash : '/' ∉ name.toList) (hlong : 3 ≤ name.toList.length) :
    Rooted (p.join ⟨name⟩).text.toList := by
  have hname : ∀ seg, seg ++ name.toList ≠ ['.', '.'] := by
    intro seg heq
    have := congrArg List.length heq
    simp only [List.length_append, List.length_cons, List.length_nil] at this
    omega
  have hrel : isAbsolute ⟨name⟩ = false := by
    rw [Bool.eq_false_iff]
    intro habs
    obtain ⟨body, hbody⟩ := isAbsolute_iff.mp habs
    have hbody : name.toList = '/' :: body := hbody
    rw [hbody] at hslash
    exact hslash List.mem_cons_self
  unfold join
  rw [if_neg (by simp [hrel])]
  split
  · rw [String.toList_append]
    exact rooted_append h hslash hname
  · obtain ⟨⟨body, hbody⟩, hup⟩ := h
    rw [String.toList_append, String.toList_append, List.append_assoc]
    refine ⟨⟨_, by rw [hbody]; rfl⟩, ?_⟩
    show ['.', '.'] ∉ segments (p.text.toList ++ '/' :: name.toList)
    rw [segments_append_slash, segments_of_not_mem hslash]
    intro hmem
    rcases List.mem_append.mp hmem with hmem | hmem
    · exact hup hmem
    · exact hname [] (List.mem_singleton.mp hmem).symm

theorem rooted_candidates {base : Path} (h : Rooted base.text.toList) :
    ∀ c ∈ Specifier.candidates base, Rooted c.text.toList := by
  -- An ending makes no segment a step up.
  have hts : ∀ seg, seg ++ ['.', 't', 's'] ≠ ['.', '.'] := by
    intro seg heq
    have := congrArg List.getLast? heq
    simp at this
  have hdts : ∀ seg, seg ++ ['.', 'd', '.', 't', 's'] ≠ ['.', '.'] := by
    intro seg heq
    have := congrArg List.getLast? heq
    simp at this
  intro c hc
  unfold Specifier.candidates at hc
  simp only at hc
  split at hc
  · rw [List.mem_singleton.mp hc]
    exact h
  · split at hc
    · rename_i stem hstem
      rw [List.mem_singleton.mp hc]
      have htext := Text.stripTail?_eq_some hstem
      obtain ⟨⟨body, hbody⟩, hup⟩ := h
      obtain ⟨pre, last, hcs, happend⟩ := @segments_append ".js".toList (by decide) stem
      obtain ⟨pre', last', hcs', happend'⟩ := @segments_append ".ts".toList (by decide) stem
      obtain ⟨rfl, hlast⟩ := List.append_inj' (hcs.symm.trans hcs') rfl
      have hstart : ∃ rest, stem = '/' :: rest := by
        rw [htext] at hbody
        cases stem with
        | nil => simp at hbody
        | cons c rest =>
          rw [List.cons_append, List.cons.injEq] at hbody
          exact ⟨rest, by rw [hbody.1]⟩
      obtain ⟨rest, rfl⟩ := hstart
      rw [String.toList_append, String.toList_ofList]
      refine ⟨⟨rest ++ ".ts".toList, rfl⟩, ?_⟩
      rw [happend']
      rw [htext, happend] at hup
      intro hmem
      rcases List.mem_append.mp hmem with hmem | hmem
      · exact hup (List.mem_append_left _ hmem)
      · exact hts last' (List.mem_singleton.mp hmem).symm
    · simp only [List.mem_cons, List.not_mem_nil, or_false] at hc
      rcases hc with rfl | rfl | rfl | rfl
      · simpa using rooted_append h (by decide) hts
      · simpa using rooted_append h (by decide) hdts
      · exact rooted_join_name h (by decide) (by decide)
      · exact rooted_join_name h (by decide) (by decide)

theorem segments_trimSegments {segs : List (List Char)} {seg : List Char} (h : seg ∈ trimSegments segs) :
    seg ∈ segs := by
  unfold trimSegments at h
  exact List.mem_reverse.mp ((List.dropWhile_sublist _).mem (List.mem_reverse.mp h))

theorem rooted_dirname {p : Path} (h : Rooted p.text.toList) (hname : p.components ≠ [.root]) :
    Rooted p.dirname.text.toList := by
  obtain ⟨⟨body, hbody⟩, hup⟩ := h
  rw [hbody, segments_slash] at hup
  have hkept : (trimSegments (segments body)).isEmpty = false := by
    rw [Bool.eq_false_iff]
    intro hempty
    refine hname ?_
    rw [components_of_slash hbody]
    have hskip : ∀ seg ∈ segments body, Component.ofSegment? seg = none := by
      rw [List.isEmpty_iff, trimSegments, List.reverse_eq_nil_iff] at hempty
      intro seg hseg
      simpa using List.dropWhile_eq_nil_iff.mp hempty seg (List.mem_reverse.mpr hseg)
    rw [List.filterMap_eq_nil_iff.mpr hskip]
  have hparent : p.parent? = some ⟨"/" ++ String.ofList (['/'].intercalate
      (trimSegments (trimSegments (segments body)).dropLast))⟩ := by
    unfold parent?
    rw [hbody]
    show (if (trimSegments (segments body)).isEmpty then _ else _) = _
    rw [hkept]
    rfl
  -- The directory consists of segments of the path, so there is no step up among them.
  have hmem : ∀ seg ∈ trimSegments (trimSegments (segments body)).dropLast, seg ∈ segments body :=
    fun seg hseg => segments_trimSegments (List.dropLast_subset _ (segments_trimSegments hseg))
  generalize trimSegments (trimSegments (segments body)).dropLast = segs at hparent hmem
  unfold dirname
  rw [hparent]
  dsimp only
  rw [if_neg (by simp)]
  have htext : ("/" ++ String.ofList (['/'].intercalate segs)).toList = '/' :: ['/'].intercalate segs := by
    simp
  rw [htext]
  refine ⟨⟨_, rfl⟩, ?_⟩
  rw [segments_slash]
  by_cases hne : segs = []
  · subst hne
    decide
  · rw [segments_intercalate (fun seg hseg => slash_not_mem_of_mem_segments (hmem seg hseg)) hne]
    intro hdots
    rcases List.mem_cons.mp hdots with hdots | hdots
    · cases hdots
    · exact hup (List.mem_cons_of_mem _ (hmem _ hdots))

theorem rooted_beside {p : Path} (h : Rooted p.text.toList) (hname : p.components ≠ [.root])
    {ending : String} (hslash : '/' ∉ ending.toList) (hlength : 3 ≤ ending.toList.length) :
    Rooted (p.beside ending).text.toList := by
  refine rooted_join_name (rooted_dirname h hname) ?_ ?_
  · simpa using ⟨p.slash_not_mem_stem, hslash⟩
  · simp only [String.toList_append, List.length_append]
    omega

theorem dropShared_names : ∀ as bs : List String, ∃ shared rise descent : List String,
    as = shared ++ rise ∧ bs = shared ++ descent ∧
      dropShared (as.map .name) (bs.map .name) = (rise.map .name, descent.map .name)
  | [], bs => ⟨[], [], bs, rfl, rfl, by cases bs <;> rfl⟩
  | a :: as, [] => ⟨[], a :: as, [], rfl, rfl, rfl⟩
  | a :: as, b :: bs => by
    by_cases hab : a = b
    · subst hab
      obtain ⟨shared, rise, descent, rfl, rfl, hdrop⟩ := dropShared_names as bs
      refine ⟨a :: shared, rise, descent, rfl, rfl, ?_⟩
      rw [List.map_cons, List.map_cons, dropShared, if_pos rfl, hdrop]
    · refine ⟨[], a :: as, b :: bs, rfl, rfl, ?_⟩
      rw [List.map_cons, List.map_cons, dropShared, if_neg (by simpa using hab)]

def stepsOf (cs : List Char) : List Component := (segments cs).filterMap Component.ofSegment?

theorem components_of_append_slash {p : Path} {cs ds : List Char} (htext : p.text.toList = cs ++ '/' :: ds)
    (hne : cs ≠ []) : p.components = (⟨String.ofList cs⟩ : Path).components ++ stepsOf ds := by
  have hskip : Component.ofSegment? [] = none := rfl
  unfold components
  rw [htext, String.toList_ofList]
  by_cases hroot : ∃ t, cs = '/' :: t
  · obtain ⟨t, rfl⟩ := hroot
    simp [lead, segments_append_slash, stepsOf]
  by_cases hhere : cs = ['.']
  · subst hhere
    simp [lead, hskip, stepsOf]
  by_cases hdot : ∃ t, cs = '.' :: '/' :: t
  · obtain ⟨t, rfl⟩ := hdot
    simp [lead, hskip, segments_append_slash, stepsOf]
  have hplain : ∀ t, cs ≠ '.' :: '/' :: t := fun t ht => hdot ⟨t, ht⟩
  have hlead : lead (cs ++ '/' :: ds) = ([], cs ++ '/' :: ds) := by
    refine lead_of_plain (fun t ht => ?_) (fun ht => ?_) (plain_append hne hhere hplain)
    · obtain ⟨c, cs, rfl⟩ := List.exists_cons_of_ne_nil hne
      exact hroot ⟨cs, by rw [(List.cons.inj ht).1]⟩
    · have := congrArg List.length ht
      rw [List.length_append, List.length_cons, List.length_singleton] at this
      exact hne (List.eq_nil_of_length_eq_zero (by omega))
  rw [hlead, lead_of_plain (fun t ht => hroot ⟨t, ht⟩) hhere hplain]
  dsimp only
  rw [segments_append_slash, List.filterMap_append, stepsOf]
  rfl

theorem components_join {base q : Path} (h : base.text.toList ≠ []) (hq : q.isAbsolute = false) :
    (base.join q).components = base.components ++ stepsOf q.text.toList := by
  unfold join
  rw [if_neg (by simp [hq])]
  split
  · rename_i hend
    have hends : Text.endsWith ['/'] base.text.toList = true := by
      simpa [String.isEmpty_iff, ← String.toList_inj, h] using hend
    obtain ⟨front, hfront⟩ := Text.endsWith_iff.mp hends
    have htext : (⟨base.text ++ q.text⟩ : Path).text.toList = front ++ '/' :: q.text.toList := by
      simp [hfront]
    by_cases hnil : front = []
    · subst hnil
      rw [components_of_slash htext, components_of_slash hfront]
      rfl
    · have hskip : stepsOf [] = [] := rfl
      rw [components_of_append_slash htext hnil, components_of_append_slash hfront hnil, hskip,
        List.append_nil]
  · have htext : (⟨base.text ++ "/" ++ q.text⟩ : Path).text.toList =
        base.text.toList ++ '/' :: q.text.toList := by simp
    rw [components_of_append_slash htext h, String.ofList_toList]

theorem stepsOf_render {steps : List Component} (h : ∀ c ∈ steps, c.IsStep) (hne : steps ≠ []) :
    stepsOf (render steps).toList = steps := by
  rw [toList_render fun hroot => (h _ hroot).solid.2.2 rfl, stepsOf, segments_steps h hne,
    filterMap_steps h]

theorem steps_relative {base p : Path} {names names' : List String}
    (hbase : base.components = .root :: names.map .name)
    (hp : p.components = .root :: names'.map .name) (hnames : ∀ n ∈ names', IsName n.toList) :
    ∃ shared rise descent : List String, names = shared ++ rise ∧ names' = shared ++ descent ∧
      (⟨(base.relative p).toSlash⟩ : Path).isAbsolute = false ∧
      stepsOf (base.relative p).toSlash.toList =
        (rise.map fun _ => Component.up) ++ descent.map Component.name := by
  obtain ⟨shared, rise, descent, hrise, hdescent, hdrop⟩ := dropShared_names names names'
  refine ⟨shared, rise, descent, hrise, hdescent, ?_⟩
  have hsteps : ∀ c ∈ (rise.map fun _ => Component.up) ++ descent.map Component.name, c.IsStep := by
    intro c hc
    rcases List.mem_append.mp hc with hc | hc
    · obtain ⟨n, -, rfl⟩ := List.mem_map.mp hc
      trivial
    · obtain ⟨n, hn, rfl⟩ := List.mem_map.mp hc
      exact hnames n (hdescent ▸ List.mem_append_right _ hn)
  have hrelative : base.relative p = if (rise.map fun _ => Component.up) ++ descent.map Component.name = []
      then ⟨"."⟩ else ofComponents ((rise.map fun _ => Component.up) ++ descent.map Component.name) := by
    unfold relative
    simp only [hbase, hp, normalComponents_names, dropShared, if_pos, hdrop]
    cases descent with
    | nil => cases rise <;> simp [Function.comp_def]
    | cons d descent => cases rise <;> simp [Function.comp_def]
  generalize (rise.map fun _ => Component.up) ++ descent.map Component.name = steps at hsteps hrelative ⊢
  rw [hrelative]
  by_cases hne : steps = []
  · subst hne
    exact ⟨rfl, rfl⟩
  · rw [if_neg hne]
    have htext : (ofComponents steps).toSlash = render steps := by
      rw [toSlash, components_render_steps hsteps hne]
    rw [htext]
    refine ⟨?_, stepsOf_render hsteps hne⟩
    rw [Bool.eq_false_iff]
    intro habs
    obtain ⟨body, hbody⟩ := isAbsolute_iff.mp habs
    have hbody : (render steps).toList = '/' :: body := hbody
    have hsolid := solid_steps hsteps hne
    rw [← toList_render fun hroot => (hsteps _ hroot).solid.2.2 rfl, hbody] at hsolid
    exact (hsolid [] (by simp)).1 rfl

/-- The way from a rooted directory to a rooted path leads there. -/
theorem resolve_relative {base p : Path} (hb : Rooted base.text.toList) (hp : Rooted p.text.toList) :
    (base.resolve ⟨(base.relative p).toSlash⟩).components = p.components := by
  obtain ⟨names, hbase, -⟩ := components_of_rooted hb
  obtain ⟨names', hcomponents, hnames'⟩ := components_of_rooted hp
  obtain ⟨shared, rise, descent, hrise, hdescent, hrel, hsteps⟩ :=
    steps_relative hbase hcomponents hnames'
  have hnormal : normalComponents (base.join ⟨(base.relative p).toSlash⟩).components =
      .root :: names'.map .name := by
    have hups : (rise.map fun _ => Component.up) = rise.reverse.map fun _ => Component.up := by
      rw [List.map_const', List.map_const', List.length_reverse]
    have hdone : (names.map Component.name).foldl foldComponent [Component.root] =
        rise.reverse.map .name ++ ((shared.map .name).reverse ++ [Component.root]) := by
      rw [foldl_names, hrise]
      simp
    rw [components_join hb.ne_nil hrel, hsteps, hbase, normalComponents, List.cons_append, List.foldl_cons,
      List.foldl_append, List.foldl_append]
    show ((descent.map Component.name).foldl foldComponent ((rise.map fun _ => Component.up).foldl
      foldComponent ((names.map Component.name).foldl foldComponent [Component.root]))).reverse = _
    rw [hdone, hups, foldl_ups, foldl_names, hdescent]
    simp
  unfold resolve
  rw [if_neg (by simp [hrel])]
  unfold normalize
  rw [hnormal, hcomponents]
  exact components_render_root (isStep_names hnames')

theorem relative_congr (base : Path) {p q : Path} (h : p.components = q.components) :
    base.relative p = base.relative q := by
  unfold relative
  dsimp only
  rw [h]

end Recompile.Path
