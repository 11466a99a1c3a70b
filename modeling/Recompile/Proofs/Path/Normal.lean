import Recompile.Proofs.Path.Level
import Recompile.Proofs.Path.Rooted

/-!
Normal paths: those that are their own normal form. A path is normal when it is tidy, climbs at its
start only, and does not start with a dot that stands for nothing. Every file that a normal module
path may stand for is normal, and so is a file beside a normal one, unless they lie in the directory
that is written as a dot.
-/

namespace Recompile.Path

def Normal (p : Path) : Prop := p.normalize = p

instance (p : Path) : Decidable p.Normal := inferInstanceAs (Decidable (p.normalize = p))

theorem foldl_climbs : ∀ {steps done : List Component}, (∀ c ∈ steps, c.IsStep) →
    (∀ s : String, done.head? = some (.name s) → IsName s.toList) →
    ((done.head?.toList ++ steps).map fun c => c.text.toList).IsChain Climbs →
      steps.foldl foldComponent done = steps.reverse ++ done
  | [], _, _, _, _ => rfl
  | c :: steps, done, hsteps, hname, hchain => by
    have hc := hsteps c List.mem_cons_self
    have hpush : foldComponent done c = c :: done := by
      cases c with
      | root => cases hc
      | here => cases hc
      | name s => exact foldComponent_name done s
      | up => cases done with
        | nil => rfl
        | cons d rest =>
          have hfirst : Climbs d.text.toList ['.', '.'] := (List.isChain_cons_cons.mp hchain).1
          cases d with
          | root => rcases hfirst rfl with h | h <;> simp [Component.text] at h
          | here => rfl
          | up => rfl
          | name s =>
            have hs := hname s rfl
            rcases hfirst rfl with h | h
            · exact absurd h hs.2.1
            · exact absurd h hs.1.2
    rw [List.foldl_cons, hpush, foldl_climbs (fun d hd => hsteps d (List.mem_cons_of_mem _ hd))]
    · simp
    · intro s hs
      cases hs
      exact hc
    · cases done with
      | nil => exact hchain
      | cons d rest => exact (List.isChain_cons_cons.mp hchain).2

theorem normal_of_rooted {p : Path} {body : List Char} (htext : p.text.toList = '/' :: body)
    (hsolid : body = [] ∨ ∀ seg ∈ segments body, Solid seg) (hlevel : p.Level) : p.Normal := by
  have hcomponents := components_of_slash htext
  have htidy : Tidy p.text.toList := by
    rw [htext]
    exact hsolid
  unfold Level at hlevel
  rw [htext, segments_slash] at hlevel
  have hsteps : ((segments body).filterMap Component.ofSegment?).foldl foldComponent [Component.root] =
      ((segments body).filterMap Component.ofSegment?).reverse ++ [Component.root] := by
    refine foldl_climbs (fun c hc => isStep_of_mem_filterMap hc) (fun s hs => by cases hs) ?_
    rcases hsolid with rfl | hsolid
    · exact .singleton _
    · show List.IsChain Climbs (['/'] :: ((segments body).filterMap Component.ofSegment?).map
        fun c => c.text.toList)
      rw [texts_filterMap_ofSegment? hsolid]
      refine List.isChain_cons.mpr ⟨fun seg hseg hup => ?_, hlevel.tail⟩
      rcases (List.isChain_cons.mp hlevel).1 seg hseg hup with h | h <;> cases h
  have hnormal : normalComponents p.components = p.components := by
    rw [normalComponents, hcomponents, List.foldl_cons]
    show (((segments body).filterMap Component.ofSegment?).foldl foldComponent [Component.root]).reverse = _
    rw [hsteps]
    simp
  unfold Normal normalize
  rw [hnormal]
  split
  · rename_i hnil
    rw [hcomponents] at hnil
    cases hnil
  · rw [ofComponents, render_components_of_tidy htidy]

theorem lead_of_solid {cs : List Char} (h : ∀ seg ∈ segments cs, Solid seg) : lead cs = ([], cs) := by
  refine lead_of_plain ?_ ?_ ?_
  · rintro t rfl
    exact (h [] (by simp)).1 rfl
  · rintro rfl
    exact (h ['.'] (by decide)).2 rfl
  · rintro t rfl
    exact (h ['.'] (by simp [segments_cons (show '.' ≠ '/' by decide)])).2 rfl

theorem normal_of_solid {p : Path} (hsolid : ∀ seg ∈ segments p.text.toList, Solid seg)
    (hlevel : p.Level) : p.Normal := by
  have hlead : lead p.text.toList = ([], p.text.toList) := lead_of_solid hsolid
  have hcomponents : p.components = (segments p.text.toList).filterMap Component.ofSegment? := by
    unfold components
    rw [hlead]
    rfl
  have htexts := texts_filterMap_ofSegment? hsolid
  have hnormal : normalComponents p.components = p.components := by
    rw [normalComponents, hcomponents, foldl_climbs (fun c hc => isStep_of_mem_filterMap hc)
      (fun s hs => by cases hs)]
    · simp
    · show List.IsChain Climbs (((segments p.text.toList).filterMap Component.ofSegment?).map
        fun c => c.text.toList)
      rw [htexts]
      exact hlevel
  unfold Normal normalize
  rw [hnormal]
  split
  · rename_i hnil
    rw [← hcomponents, hnil] at htexts
    exact absurd htexts.symm (segments_ne_nil _)
  · rw [ofComponents, render_components_of_tidy (tidy_of_solid hsolid)]

theorem normalize_cases (p : Path) : p.normalize = ⟨"."⟩ ∨
    (∃ body, p.normalize.text.toList = '/' :: body ∧ (body = [] ∨ ∀ seg ∈ segments body, Solid seg)) ∨
    ∀ seg ∈ segments p.normalize.text.toList, Solid seg := by
  obtain ⟨steps, hsteps, hshape⟩ := normalComponents_shape p
  unfold normalize
  split
  · exact .inl rfl
  · rename_i hne
    rcases hshape with hshape | hshape
    · refine .inr (.inr ?_)
      rw [hshape] at hne ⊢
      rw [ofComponents, toList_render fun hroot => (hsteps _ hroot).solid.2.2 rfl]
      exact solid_steps hsteps hne
    · rw [hshape]
      refine .inr (.inl ⟨_, toList_render_root steps, ?_⟩)
      by_cases hnil : steps = []
      · subst hnil
        exact .inl rfl
      · exact .inr (solid_steps hsteps hnil)

theorem normal_normalize (p : Path) : p.normalize.Normal := by
  rcases normalize_cases p with h | ⟨body, htext, hsolid⟩ | hsolid
  · rw [h]
    decide
  · exact normal_of_rooted htext hsolid (level_normalize p)
  · exact normal_of_solid hsolid (level_normalize p)

theorem normal_resolve (base p : Path) : (base.resolve p).Normal := by
  unfold resolve
  split <;> exact normal_normalize _

namespace Normal

variable {p : Path}

theorem level (h : p.Normal) : p.Level := by
  rw [← h]
  exact level_normalize p

theorem tidy (h : p.Normal) : Tidy p.text.toList := by
  rw [← h]
  exact tidy_normalize p

theorem cases (h : p.Normal) : p = ⟨"."⟩ ∨
    (∃ body, p.text.toList = '/' :: body ∧ (body = [] ∨ ∀ seg ∈ segments body, Solid seg)) ∨
    ∀ seg ∈ segments p.text.toList, Solid seg := by
  have := normalize_cases p
  rwa [h] at this

theorem plain (h : p.Normal) : p.text.toList ≠ [] ∧ ∀ t, p.text.toList ≠ '.' :: '/' :: t := by
  rcases h.cases with rfl | ⟨body, htext, -⟩ | hsolid
  · simp
  · simp [htext]
  · constructor
    · intro hnil
      rw [hnil] at hsolid
      exact (hsolid [] (by simp)).1 rfl
    · intro t ht
      rw [ht] at hsolid
      exact (hsolid ['.'] (by simp [segments_cons (show '.' ≠ '/' by decide)])).2 rfl

end Normal

theorem normal_of_tidy {p : Path} (htidy : Tidy p.text.toList) (hlevel : p.Level)
    (hne : p.text.toList ≠ []) (hdot : ∀ t, p.text.toList ≠ '.' :: '/' :: t) : p.Normal := by
  unfold Tidy at htidy
  split at htidy
  · rename_i body htext
    exact normal_of_rooted htext htidy hlevel
  · rename_i htext
    obtain ⟨text⟩ := p
    obtain rfl : text = "." := String.toList_inj.mp htext
    decide
  · rename_i t ht
    exact absurd ht (hdot t)
  · exact normal_of_solid (htidy.resolve_left hne) hlevel

theorem text_ne_here {p : Path} (h : p ≠ ⟨"."⟩) : p.text.toList ≠ ['.'] := by
  intro htext
  obtain ⟨text⟩ := p
  exact h (congrArg Path.mk (String.toList_inj.mp htext))

theorem text_join_name {p : Path} {name : String} (hslash : '/' ∉ name.toList) :
    ∃ tail, (p.join ⟨name⟩).text.toList = p.text.toList ++ tail ∧ name.toList.length ≤ tail.length := by
  have hrel : ¬ isAbsolute ⟨name⟩ = true := by
    intro habs
    obtain ⟨cs, hcs⟩ := isAbsolute_iff.mp habs
    exact hslash (by simp [show name.toList = '/' :: cs from hcs])
  unfold join
  rw [if_neg hrel]
  split
  · exact ⟨name.toList, by simp, Nat.le_refl _⟩
  · exact ⟨'/' :: name.toList, by simp, Nat.le_succ _⟩

theorem normal_join_name {p : Path} {name : String} (h : p.Normal) (hhere : p ≠ ⟨"."⟩)
    (hslash : '/' ∉ name.toList) (hlong : 3 ≤ name.toList.length) : (p.join ⟨name⟩).Normal := by
  obtain ⟨tail, htext, hlength⟩ := @text_join_name p name hslash
  have hsolid : Solid name.toList := solid_of_length (by omega)
  refine normal_of_tidy (tidy_join_name hsolid hslash h.tidy) (level_join_name hslash hlong h.level) ?_ ?_
  · rw [htext]
    exact fun hnil => h.plain.1 (List.append_eq_nil_iff.mp hnil).1
  · rw [htext]
    exact plain_append h.plain.1 (text_ne_here hhere) h.plain.2

theorem plain_candidates {base : Path} (h : base.Normal) (hhere : base ≠ ⟨"."⟩) {p : Path}
    (hp : p ∈ Specifier.candidates base) :
    p.text.toList ≠ [] ∧ ∀ t, p.text.toList ≠ '.' :: '/' :: t := by
  have happend : ∀ tail, base.text.toList ++ tail ≠ [] ∧
      ∀ t, base.text.toList ++ tail ≠ '.' :: '/' :: t := fun tail =>
    ⟨fun hnil => h.plain.1 (List.append_eq_nil_iff.mp hnil).1,
      plain_append h.plain.1 (text_ne_here hhere) h.plain.2⟩
  have hjoin : ∀ name : String, '/' ∉ name.toList → (base.join ⟨name⟩).text.toList ≠ [] ∧
      ∀ t, (base.join ⟨name⟩).text.toList ≠ '.' :: '/' :: t := by
    intro name hslash
    obtain ⟨tail, htext, -⟩ := @text_join_name base name hslash
    rw [htext]
    exact happend tail
  unfold Specifier.candidates at hp
  simp only at hp
  split at hp
  · rw [List.mem_singleton.mp hp]
    exact h.plain
  · split at hp
    · rename_i stem hstem
      have hdot := h.plain.2
      rw [Text.stripTail?_eq_some hstem] at hdot
      rw [List.mem_singleton.mp hp]
      refine ⟨by simp, fun t ht => ?_⟩
      match stem with
      | [] => simp at ht
      | [c] => simp at ht
      | c :: d :: rest =>
        simp only [String.toList_append, String.toList_ofList, List.cons_append, List.cons.injEq] at ht
        exact hdot _ (by rw [ht.1, ht.2.1]; rfl)
    · simp only [List.mem_cons, List.not_mem_nil, or_false] at hp
      rcases hp with rfl | rfl | rfl | rfl
      · simpa using happend ".ts".toList
      · simpa using happend ".d.ts".toList
      · exact hjoin "index.ts" (by decide)
      · exact hjoin "index.d.ts" (by decide)

theorem normal_candidates {base : Path} (h : base.Normal) {p : Path} (hp : p ∈ Specifier.candidates base) :
    p.Normal ∨ p = ⟨"./index.ts"⟩ ∨ p = ⟨"./index.d.ts"⟩ := by
  by_cases hhere : base = ⟨"."⟩
  · subst hhere
    have hlist : Specifier.candidates ⟨"."⟩ =
        [⟨"..ts"⟩, ⟨"..d.ts"⟩, ⟨"./index.ts"⟩, ⟨"./index.d.ts"⟩] := by decide
    rw [hlist] at hp
    simp only [List.mem_cons, List.not_mem_nil, or_false] at hp
    rcases hp with rfl | rfl | hp
    · exact .inl (by decide)
    · exact .inl (by decide)
    · exact .inr hp
  · obtain ⟨hne, hdot⟩ := plain_candidates h hhere hp
    exact .inl (normal_of_tidy (tidy_candidates h.tidy p hp) (level_candidates h.level p hp) hne hdot)

theorem trimSegments_of_solid {segs : List (List Char)} (h : ∀ seg ∈ segs, Solid seg) :
    trimSegments segs = segs := by
  have hkeep : (segs.reverse.dropWhile fun s => (Component.ofSegment? s).isNone) = segs.reverse := by
    cases hrev : segs.reverse with
    | nil => rfl
    | cons seg rest =>
      have hseg : seg ∈ segs := List.mem_reverse.mp (hrev ▸ List.mem_cons_self)
      obtain ⟨c, hc, -⟩ := ofSegment?_of_solid (h seg hseg)
      rw [List.dropWhile_cons_of_neg (by simp [hc])]
  rw [trimSegments, hkeep, List.reverse_reverse]

theorem parent?_of_solid {p : Path} {start : List Component} {body : List Char}
    (hlead : lead p.text.toList = (start, body)) (hsolid : ∀ seg ∈ segments body, Solid seg) :
    p.parent? = some ⟨render start ++ String.ofList (['/'].intercalate (segments body).dropLast)⟩ := by
  have hdrop : ∀ seg ∈ (segments body).dropLast, Solid seg := fun seg hseg =>
    hsolid seg (List.dropLast_subset _ hseg)
  unfold parent?
  rw [hlead]
  dsimp only
  rw [trimSegments_of_solid hsolid, trimSegments_of_solid hdrop,
    if_neg (by simpa using segments_ne_nil body)]

theorem segments_dropLast {cs : List Char} (h : (segments cs).dropLast ≠ []) :
    segments (['/'].intercalate (segments cs).dropLast) = (segments cs).dropLast :=
  segments_intercalate (fun _ hseg => slash_not_mem_of_mem_segments (List.dropLast_subset _ hseg)) h

theorem chain_dropLast {segs : List (List Char)} (h : segs.IsChain Climbs) :
    segs.dropLast.IsChain Climbs := by
  rcases List.eq_nil_or_concat segs with rfl | ⟨front, last, rfl⟩
  · exact .nil
  · rw [List.concat_eq_append] at h ⊢
    rw [List.dropLast_concat]
    exact h.left_of_append

theorem normal_dirname {p : Path} (h : p.Normal) : p.dirname.Normal := by
  have hlevel := h.level
  unfold Level at hlevel
  rcases h.cases with rfl | ⟨body, htext, rfl | hsolid⟩ | hsolid
  · decide
  · obtain ⟨text⟩ := p
    obtain rfl : text = "/" := String.toList_inj.mp htext
    decide
  · have hlead : lead p.text.toList = ([.root], body) := by
      rw [htext]
      rfl
    unfold dirname
    rw [parent?_of_solid hlead hsolid]
    dsimp only
    rw [htext, segments_slash] at hlevel
    -- What is left of the text are all segments but the last.
    have hdir : (⟨render [.root] ++ String.ofList (['/'].intercalate (segments body).dropLast)⟩ :
        Path).text.toList = '/' :: ['/'].intercalate (segments body).dropLast := by simp [render]
    rw [if_neg (by simp [render])]
    by_cases hnil : (segments body).dropLast = []
    · rw [hnil]
      decide
    · refine normal_of_rooted hdir (.inr fun seg hseg => ?_) ?_
      · rw [segments_dropLast hnil] at hseg
        exact hsolid seg (List.dropLast_subset _ hseg)
      · unfold Level
        rw [hdir, segments_slash, segments_dropLast hnil,
          ← List.dropLast_cons_of_ne_nil (segments_ne_nil body)]
        exact chain_dropLast hlevel
  · unfold dirname
    rw [parent?_of_solid (lead_of_solid hsolid) hsolid]
    dsimp only
    have hdir : (⟨render [] ++ String.ofList (['/'].intercalate (segments p.text.toList).dropLast)⟩ :
        Path).text.toList = ['/'].intercalate (segments p.text.toList).dropLast := by simp [render]
    split
    · decide
    · rename_i hne
      have hnil : (segments p.text.toList).dropLast ≠ [] := by
        intro hnil
        rw [hnil] at hne
        exact hne rfl
      refine normal_of_solid (fun seg hseg => ?_) ?_
      · rw [hdir, segments_dropLast hnil] at hseg
        exact hsolid seg (List.dropLast_subset _ hseg)
      · unfold Level
        rw [hdir, segments_dropLast hnil]
        exact chain_dropLast hlevel

def Dotted (p : Path) : Prop := ∃ name : String, IsName name.toList ∧ p = ⟨"./" ++ name⟩

namespace Dotted

variable {name : String}

theorem normalize_eq (h : IsName name.toList) : (⟨"./" ++ name⟩ : Path).normalize = ⟨name⟩ := by
  have hskip : Component.ofSegment? [] = none := rfl
  have hcomponents : (⟨"./" ++ name⟩ : Path).components = [.here, .name name] := by
    have htext : ("./" ++ name).toList = '.' :: '/' :: name.toList := by simp
    unfold components
    rw [htext]
    show Component.here :: (segments ('/' :: name.toList)).filterMap Component.ofSegment? = _
    rw [segments_slash, segments_of_not_mem h.2.2, List.filterMap_cons, hskip, List.filterMap_cons,
      ofSegment?_of_isName h, String.ofList_toList]
    rfl
  unfold Path.normalize
  rw [hcomponents]
  show ofComponents [.name name] = _
  simp [ofComponents, render, Component.text]

theorem tidy {p : Path} (h : p.Dotted) : Tidy p.text.toList := by
  obtain ⟨name, hname, rfl⟩ := h
  have htext : ("./" ++ name).toList = '.' :: '/' :: name.toList := by simp
  show Tidy ("./" ++ name).toList
  rw [htext]
  intro seg hseg
  rw [segments_of_not_mem hname.2.2] at hseg
  rw [List.mem_singleton.mp hseg]
  exact hname.1

theorem dirname_eq {p : Path} (h : p.Dotted) : p.dirname = ⟨"."⟩ := by
  obtain ⟨name, hname, rfl⟩ := h
  have htext : ("./" ++ name).toList = '.' :: '/' :: name.toList := by simp
  have hkept : trimSegments [[], name.toList] = [[], name.toList] := by
    rw [trimSegments]
    show (([name.toList, []] : List (List Char)).dropWhile _).reverse = _
    rw [List.dropWhile_cons_of_neg (by simp [ofSegment?_of_isName hname])]
    rfl
  unfold dirname parent?
  rw [htext]
  have hlead : lead ('.' :: '/' :: name.toList) = ([.here], '/' :: name.toList) := rfl
  rw [hlead]
  dsimp only
  rw [segments_slash, segments_of_not_mem hname.2.2, hkept]
  rfl

theorem not_normal {p : Path} (h : p.Dotted) : ¬ p.Normal := by
  obtain ⟨name, -, rfl⟩ := h
  exact fun hnormal => hnormal.plain.2 name.toList (by simp)

end Dotted

theorem normal_beside {p : Path} (h : p.dirname.Normal) {ending : String} (hslash : '/' ∉ ending.toList)
    (hlong : 3 ≤ ending.toList.length) :
    (p.beside ending).Normal ∨ p.dirname = ⟨"."⟩ ∧ (p.beside ending).Dotted := by
  have hnot : '/' ∉ (String.ofList p.stem ++ ending).toList := by
    simpa using ⟨p.slash_not_mem_stem, hslash⟩
  have hlength : 3 ≤ (String.ofList p.stem ++ ending).toList.length := by
    simp only [String.toList_append, List.length_append]
    omega
  have hbeside : p.beside ending = p.dirname.join ⟨String.ofList p.stem ++ ending⟩ := rfl
  by_cases hhere : p.dirname = ⟨"."⟩
  · refine .inr ⟨hhere, String.ofList p.stem ++ ending, ⟨solid_of_length (by omega), ?_, hnot⟩, ?_⟩
    · intro heq
      rw [heq] at hlength
      simp at hlength
    · rw [hbeside, hhere]
      have hrel : ¬ isAbsolute ⟨String.ofList p.stem ++ ending⟩ = true := by
        intro habs
        obtain ⟨cs, hcs⟩ := isAbsolute_iff.mp habs
        exact hnot (by simp [show (String.ofList p.stem ++ ending).toList = '/' :: cs from hcs])
      unfold join
      rw [if_neg hrel, if_neg (by decide)]
      rfl
  · refine .inl ?_
    rw [hbeside]
    exact normal_join_name h hhere hnot hlength

theorem eq_of_placed {p q : Path} (hp : p.Normal ∨ p.Dotted) (hq : Tidy q.text.toList)
    (hsame : p.components = q.components) : p = q :=
  eq_of_components_eq (hp.elim Normal.tidy Dotted.tidy) hq hsame

theorem beside_eq {p q : Path} (h : p.dirname.Normal) {ending : String} (hslash : '/' ∉ ending.toList)
    (hlong : 3 ≤ ending.toList.length) (hq : Tidy q.text.toList)
    (hsame : (p.beside ending).components = q.components) : p.beside ending = q :=
  eq_of_placed ((normal_beside h hslash hlong).imp_right And.right) hq hsame

theorem Rooted.not_dotted {p : Path} (h : Rooted p.text.toList) : ¬ p.Dotted := by
  rintro ⟨name, -, rfl⟩
  obtain ⟨⟨body, hbody⟩, -⟩ := h
  simp at hbody

theorem resolve_way {dir p : Path} (hdir : Rooted dir.text.toList) (hp : Rooted p.text.toList)
    (hnormal : p.Normal) : dir.resolve ⟨(dir.relative p).toSlash⟩ = p :=
  eq_of_placed (.inl (normal_resolve _ _)) hnormal.tidy (resolve_relative hdir hp)

end Recompile.Path
