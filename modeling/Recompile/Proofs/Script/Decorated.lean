import Recompile.Proofs.Script.Annotations

/-!
Components are recorded for annotated classes, unless a decorator without arguments stands right before
the class, or the annotation stands in the braces of an import or export statement, where nothing is
looked at.
-/

namespace Recompile.Script

variable {file : FileId} {source : String} {a b i j : Nat}

/-- A stretch of tokens with annotation marks between braces only. -/
structure Fenced (s : Stream) (first stop : Nat) : Prop where
  le : first ≤ stop
  braces : ∀ p, first ≤ p → p < stop → s.punct p '@' = true → ∃ opening close,
    s.punct opening '\x7b' = true ∧ s.partner? opening = some close ∧ first ≤ opening ∧ opening < p ∧
      p < close ∧ close < stop

namespace Fenced

variable {s : Stream} {first mid stop : Nat}

theorem refl (s : Stream) (first : Nat) : Fenced s first first :=
  ⟨Nat.le_refl first, fun _ hp hlt => absurd hlt (Nat.not_lt_of_le hp)⟩

theorem trans (h : Fenced s first mid) (h' : Fenced s mid stop) : Fenced s first stop := by
  refine ⟨h.le.trans h'.le, fun p hp hlt hmark => ?_⟩
  rcases Nat.lt_or_ge p mid with hmid | hmid
  · obtain ⟨opening, close, hopening, hclose, hle, hlt, hp, hstop⟩ := h.braces p hp hmid hmark
    exact ⟨opening, close, hopening, hclose, hle, hlt, hp, Nat.lt_of_lt_of_le hstop h'.le⟩
  · obtain ⟨opening, close, hopening, hclose, hle, hlt, hp, hstop⟩ := h'.braces p hmid hlt hmark
    exact ⟨opening, close, hopening, hclose, h.le.trans hle, hlt, hp, hstop⟩

theorem one (h : s.punct first '@' = false) : Fenced s first (first + 1) := by
  refine ⟨Nat.le_succ first, fun p hp hlt hmark => ?_⟩
  obtain rfl := Nat.le_antisymm (Nat.le_of_lt_succ hlt) hp
  rw [h] at hmark
  cases hmark

theorem ident (h : s.ident first = true) : Fenced s first (first + 1) :=
  one (by simp [Stream.punct, Token.isPunct, kind_of_ident h])

theorem word {w : String} (h : s.word first w = true) : Fenced s first (first + 1) := ident (text_of_word h).1

theorem string (h : s.isString first = true) : Fenced s first (first + 1) := by
  refine one ?_
  have hkind : (s.token first).kind = .string := by simpa [Stream.isString] using h
  simp [Stream.punct, Token.isPunct, hkind]

theorem punct {mark : Char} (h : s.punct first mark = true) (hmark : mark ≠ '@') : Fenced s first (first + 1) :=
  one (Bool.eq_false_iff.mpr fun hat => hmark (punct_unique h hat))

theorem comma (s : Stream) (first : Nat) : Fenced s first (s.skipComma first) := by
  unfold Stream.skipComma
  split
  · exact punct ‹_› (by decide)
  · exact refl s first

theorem semicolon (s : Stream) (first : Nat) : Fenced s first (s.skipSemicolon first) := by
  unfold Stream.skipSemicolon
  split
  · exact punct ‹_› (by decide)
  · exact refl s first

theorem fromClause (h : s.fromClause first = true) : Fenced s first (first + 2) := by
  obtain ⟨hword, hstring⟩ := Bool.and_eq_true_iff.mp h
  exact (word hword).trans (string hstring)

theorem asName (h : (s.word (first + 1) "as" && s.ident (first + 2)) = true) : Fenced s (first + 1) (first + 3) := by
  obtain ⟨hword, hident⟩ := Bool.and_eq_true_iff.mp h
  exact (word hword).trans (ident hident)

theorem group (hopening : (streamOf file source).punct first '\x7b' = true)
    (hclose : (streamOf file source).partner? first = some j) : Fenced (streamOf file source) first (j + 1) := by
  refine ⟨Nat.le_succ_of_le (Nat.le_of_lt (ordered_streamOf file source hclose)), fun p hp hlt hmark => ?_⟩
  have hne : p ≠ first := by
    rintro rfl
    exact absurd (punct_unique hopening hmark) (by decide)
  have hne' : p ≠ j := ne_closer hclose (by decide) hmark
  exact ⟨first, j, hopening, hclose, Nat.le_refl _, by omega, by omega, Nat.lt_succ_self j⟩

theorem defaultImport (s : Stream) (typeOnly : Bool) (j : Nat) :
    Fenced s j (Script.defaultImport s typeOnly j).2 := by
  unfold Script.defaultImport
  split
  · rename_i h
    exact (ident (Bool.and_eq_true_iff.mp h).1).trans (comma s _)
  · exact refl s j

theorem namespaceImport (s : Stream) (typeOnly : Bool) (j : Nat) :
    Fenced s j (Script.namespaceImport s typeOnly j).2 := by
  unfold Script.namespaceImport
  split
  · rename_i h
    rw [Bool.and_assoc] at h
    obtain ⟨hstar, hname⟩ := Bool.and_eq_true_iff.mp h
    exact (punct hstar (by decide)).trans (asName hname)
  · exact refl s j

theorem bracedImports {typeOnly : Bool} {r : List ImportBinding × Nat}
    (h : Script.bracedImports (streamOf file source) typeOnly j = some r) : Fenced (streamOf file source) j r.2 := by
  unfold Script.bracedImports at h
  split at h
  · obtain ⟨close, hclose, rfl⟩ := Option.map_eq_some_iff.mp h
    exact group ‹_› hclose
  · cases h
    exact refl _ j

theorem importAt {o o' : Outline} {stop : Nat} (hident : (streamOf file source).ident i = true)
    (h : Script.importAt (streamOf file source) i o = some (o', stop)) : Fenced (streamOf file source) i stop := by
  unfold Script.importAt at h
  dsimp only at h
  generalize htype : ((streamOf file source).word (i + 1) "type" && !(streamOf file source).punct (i + 2) ',' &&
    !(streamOf file source).word (i + 2) "from") = typeOnly at h
  generalize hj : (if typeOnly = true then i + 2 else i + 1) = j at h
  have hstart : Fenced (streamOf file source) i j := by
    subst hj
    split
    · rename_i htrue
      rw [htrue, Bool.and_assoc] at htype
      exact (ident hident).trans (word (Bool.and_eq_true_iff.mp htype).1)
    · exact ident hident
  split at h
  · obtain ⟨specifier, -, heq⟩ := Option.map_eq_some_iff.mp h
    cases heq
    exact hstart.trans ((string ‹_›).trans (semicolon _ _))
  · obtain ⟨⟨named, k⟩, hnamed, h⟩ := Option.bind_eq_some_iff.mp h
    dsimp only at h
    split at h
    · cases h
    · rename_i hfrom
      obtain ⟨specifier, -, h⟩ := Option.bind_eq_some_iff.mp h
      cases h
      have hlist := ((defaultImport _ typeOnly j).trans (namespaceImport _ typeOnly _)).trans (bracedImports hnamed)
      exact (hstart.trans hlist).trans ((fromClause (by simpa using hfrom)).trans (semicolon _ _))

theorem exportAllAt {j stop : Nat} {typeOnly : Bool} {o o' : Outline}
    (hstar : (streamOf file source).punct j '*' = true)
    (h : Script.exportAllAt (streamOf file source) i j typeOnly o = some (o', stop)) :
    Fenced (streamOf file source) j stop := by
  unfold Script.exportAllAt at h
  dsimp only at h
  generalize hk : (if ((streamOf file source).word (j + 1) "as" && (streamOf file source).ident (j + 2)) = true
    then j + 3 else j + 1) = k at h
  have hname : Fenced (streamOf file source) j k := by
    subst hk
    split
    · exact (punct hstar (by decide)).trans (asName ‹_›)
    · exact punct hstar (by decide)
  split at h
  · cases h
  · rename_i hfrom
    obtain ⟨specifier, -, h⟩ := Option.bind_eq_some_iff.mp h
    cases h
    exact hname.trans ((fromClause (by simpa using hfrom)).trans (semicolon _ _))

theorem exportListAt {j stop : Nat} {typeOnly : Bool} {o o' : Outline}
    (hopening : (streamOf file source).punct j '\x7b' = true)
    (h : Script.exportListAt (streamOf file source) i j typeOnly o = some (o', stop)) :
    Fenced (streamOf file source) j stop := by
  obtain ⟨close, hclose, h⟩ := Option.bind_eq_some_iff.mp h
  have hlist := group hopening hclose
  dsimp only at h
  split at h
  · obtain ⟨specifier, -, h⟩ := Option.bind_eq_some_iff.mp h
    cases h
    exact hlist.trans ((fromClause ‹_›).trans (semicolon _ _))
  · cases h
    exact hlist.trans (semicolon _ _)

theorem exportAt {o o' : Outline} {stop : Nat} (hident : (streamOf file source).ident i = true)
    (h : Script.exportAt (streamOf file source) i o = some (o', stop)) : Fenced (streamOf file source) i stop := by
  unfold Script.exportAt at h
  dsimp only at h
  generalize htype : ((streamOf file source).word (i + 1) "type" &&
    ((streamOf file source).punct (i + 2) '\x7b' || (streamOf file source).punct (i + 2) '*')) = typeOnly at h
  generalize hj : (if typeOnly = true then i + 2 else i + 1) = j at h
  have hstart : Fenced (streamOf file source) i j := by
    subst hj
    split
    · rename_i htrue
      rw [htrue] at htype
      exact (ident hident).trans (word (Bool.and_eq_true_iff.mp htype).1)
    · exact ident hident
  split at h
  · exact hstart.trans (exportAllAt ‹_› h)
  split at h
  · exact hstart.trans (exportListAt ‹_› h)
  split at h
  · rename_i hdefault
    obtain ⟨-, rfl⟩ := Prod.mk.inj (Option.some.inj h)
    exact hstart.trans (word hdefault)
  · obtain ⟨-, rfl⟩ := Prod.mk.inj (Option.some.inj h)
    exact hstart

theorem statement {x : Nat × Nat} (h : x ∈ statements (streamOf file source)) :
    Fenced (streamOf file source) x.1 x.2 := by
  obtain ⟨hident, hstop⟩ := statement_of_mem h
  unfold statementStop? at hstop
  split at hstop
  · split at hstop
    · split at hstop
      · cases hstop
      · obtain ⟨r, hr, heq⟩ := Option.map_eq_some_iff.mp hstop
        exact heq ▸ importAt hident hr
    split at hstop
    · obtain ⟨r, hr, heq⟩ := Option.map_eq_some_iff.mp hstop
      exact heq ▸ exportAt hident hr
    · cases hstop
  · cases hstop

end Fenced

theorem length_ofTokens (file : FileId) (source : String) :
    (streamOf file source).size = (scan file source).length := by
  simp [streamOf, Stream.size, Stream.ofTokens]

theorem lt_size_of_kind (h : ((streamOf file source).token i).kind ≠ .eof) : i + 1 < (streamOf file source).size := by
  refine Nat.lt_of_not_le fun hle => h ?_
  simpa [Stream.atEnd] using (atEnd_iff file source i).mpr hle

theorem position_of_span (hi : (streamOf file source).ident i = true) (hj : (streamOf file source).ident j = true)
    (hspan : ((streamOf file source).token i).span = ((streamOf file source).token j).span) : i = j := by
  have hlt : ∀ {i j}, (streamOf file source).ident i = true → (streamOf file source).ident j = true → i < j →
      ((streamOf file source).token i).span ≠ ((streamOf file source).token j).span := by
    intro i j hi hj hij heq
    have hsize : j + 1 < (streamOf file source).size := lt_size_of_kind (by simp [kind_of_ident hj])
    have hnext := @stop_le_start file source i j hij (by rw [← length_ofTokens]; omega)
    have hwidth := start_lt_stop ((tiles_scan file source).token_mem file i)
      (by rw [show (Stream.ofTokens file (scan file source)).token i = _ from rfl, ← streamOf, kind_of_ident hi]; simp)
    rw [← heq] at hnext
    exact absurd hwidth (Nat.not_lt_of_le hnext)
  rcases Nat.lt_trichotomy i j with h | h | h
  · exact absurd hspan (hlt hi hj h)
  · exact h
  · exact absurd hspan.symm (hlt hj hi h)

theorem step_component {close : Nat} (hmark : (streamOf file source).punct i '@' = true)
    (hword : (streamOf file source).word (i + 1) "Component" = true)
    (hopening : (streamOf file source).punct (i + 2) '(' = true)
    (hclose : (streamOf file source).partner? (i + 2) = some close) :
    ClassStep (streamOf file source) i (close + 1) := by
  have hident : (streamOf file source).inName (i + 1) = true := by
    rw [Stream.inName, (text_of_word hword).1, Bool.true_or]
  have hsize : 0 < (streamOf file source).size := by
    rw [length_ofTokens]
    exact List.length_pos_iff.mpr (tiles_scan file source).ne_nil
  have hskip : (streamOf file source).skipDotted (streamOf file source).size (i + 1) = i + 2 := by
    refine Nat.le_antisymm (skipDotted_le (inName_of_punct hopening (by decide)) (Nat.le_succ _)) ?_
    refine le_skipDotted_of_inName (fun k hk hlt => ?_) (Nat.le_succ _) (by omega)
    obtain rfl := Nat.le_antisymm (Nat.le_of_lt_succ hlt) hk
    exact hident
  exact .call hmark (hskip ▸ hopening) (hskip ▸ hclose)

theorem steps_of_annotated {c : Component} (h : c ∈ annotated (streamOf file source) i) : ∃ q,
    (streamOf file source).punct i '@' = true ∧ Relation.ReflTransGen (ClassStep (streamOf file source)) i q ∧
      (streamOf file source).word q "class" = true ∧ (streamOf file source).ident (q + 1) = true ∧
      c.classSpan = ((streamOf file source).token (q + 1)).span := by
  unfold annotated at h
  split at h
  · rename_i hannotation
    obtain ⟨hmark, hword⟩ := Bool.and_eq_true_iff.mp hannotation
    have h := Option.mem_toList.mp h
    unfold componentAt? at h
    split at h
    · cases h
    · rename_i hopening
      obtain ⟨callClose, hclose, h⟩ := Option.bind_eq_some_iff.mp h
      obtain ⟨objectClose, -, h⟩ := Option.bind_eq_some_iff.mp h
      obtain ⟨q, hq, h⟩ := Option.bind_eq_some_iff.mp h
      obtain ⟨hsteps, hclass⟩ := classWord?_steps hq
      split at h
      · cases h
      · rename_i hident
        obtain ⟨opening, -, h⟩ := Option.bind_eq_some_iff.mp h
        obtain ⟨close, -, h⟩ := Option.bind_eq_some_iff.mp h
        cases h
        have hparen : (streamOf file source).punct (i + 2) '(' = true := by
          simp only [Bool.not_eq_true', Bool.not_eq_false] at hopening
          exact (Bool.and_eq_true_iff.mp hopening).1
        exact ⟨q, hmark, .head (step_component hmark hword hparen hclose) hsteps, hclass, by simpa using hident, rfl⟩
  · cases h

namespace AnnotatedClass

variable {a : AnnotatedClass} {after : List Token}

def classAt (a : AnnotatedClass) (i : Nat) : Nat := i + a.call.length + a.between.length

theorem follows_between (h : Follows (scan file source) i (a.tokens ++ after)) :
    Follows (scan file source) (i + a.call.length)
      (a.between ++ (a.keyword :: a.name :: (a.head ++ (a.body.tokens ++ after)))) := by
  rw [tokens, List.append_assoc] at h
  simpa using h.skip

theorem follows_class (h : Follows (scan file source) i (a.tokens ++ after)) :
    Follows (scan file source) (a.classAt i)
      (a.keyword :: a.name :: (a.head ++ (a.body.tokens ++ after))) :=
  (follows_between h).skip

structure Starts (a : AnnotatedClass) (s : Stream) (i : Nat) : Prop where
  mark : s.punct i '@' = true
  word : s.word (i + 1) "Component" = true
  opening : s.punct (i + 2) '(' = true
  object : s.punct (i + 3) '\x7b' = true
  closing : ∃ close, s.partner? (i + 2) = some close ∧ close + 1 = i + a.call.length
  objectClosing : ∃ close, s.partner? (i + 3) = some close

theorem starts (h : Follows (scan file source) i (a.tokens ++ after)) : a.Starts (streamOf file source) i := by
  have hcall : Follows (scan file source) i (a.mark :: a.word :: (a.argument.tokens ++ (a.between ++
      (a.keyword :: a.name :: (a.head ++ (a.body.tokens ++ after)))))) := by
    simpa [tokens, call] using h
  have hgroup := hcall.next.next
  have hobject : ∃ rest, Follows (scan file source) (i + 3) (a.object.tokens ++ rest) := by
    have hinner := hgroup.inside
    rw [a.inner_eq, List.append_assoc] at hinner
    exact ⟨_, hinner⟩
  obtain ⟨rest, hobject⟩ := hobject
  constructor
  · exact punct_of_kind (hcall.token ▸ a.mark_kind)
  · rw [Stream.word, hcall.next.token]
    exact a.word_text
  · exact hgroup.opener
  · exact hobject.opener
  · refine ⟨_, hgroup.partner? (by decide), ?_⟩
    simp only [call, Group.tokens, List.length_cons, List.length_append, List.length_nil]
    omega
  · exact ⟨_, hobject.partner? (by decide)⟩

theorem steps (h : Follows (scan file source) i (a.tokens ++ after)) (hbare : ¬ a.EndsBare) :
    Relation.ReflTransGen (ClassStep (streamOf file source)) (i + a.call.length) (a.classAt i) := by
  have hbetween := follows_between h
  unfold classAt
  rw [between, List.append_assoc] at hbetween
  rw [between, List.length_append, ← Nat.add_assoc]
  refine (steps_decorators hbetween fun d hd hnone => hbare ⟨d, hd, hnone⟩).trans ?_
  exact steps_leads hbetween.skip a.lead_words

theorem exists_component (h : Follows (scan file source) i (a.tokens ++ after)) (hbare : ¬ a.EndsBare) :
    ∃ c, componentAt? (streamOf file source) i = some c ∧ c.className = a.name.text ∧ c.classSpan = a.name.span := by
  have hstarts := starts h
  obtain ⟨callClose, hcall, hstop⟩ := hstarts.closing
  obtain ⟨objectClose, hobject⟩ := hstarts.objectClosing
  have hclass := follows_class h
  have hkeyword : (streamOf file source).word (a.classAt i) "class" = true := by
    rw [Stream.word, hclass.token]
    exact a.keyword_text
  have hsearch : classWord? (streamOf file source) ((streamOf file source).size + 1) (callClose + 1) =
      some (a.classAt i) := by
    rw [hstop]
    exact classWord?_of_steps (ordered_streamOf file source) (atEnd_iff file source) (steps h hbare) hkeyword
      (by omega)
  have hname := hclass.next.token
  have hident : (streamOf file source).ident (a.classAt i + 1) = true := ident_of_kind (hname ▸ a.name_kind)
  obtain ⟨opening, close, hopening, hclose⟩ := bodyOpen_head a.head_parts hclass.next.next
    (Nat.lt_add_of_pos_right (Nat.succ_pos _))
  let metadata := metadataFrom (streamOf file source) objectClose (streamOf file source).size (i + 4)
    ⟨none, [], none, none, [], none⟩
  refine ⟨{ metadata with
    className := (streamOf file source).text (a.classAt i + 1)
    classSpan := ((streamOf file source).token (a.classAt i + 1)).span
    members := classMembers (streamOf file source) opening close }, ?_, ?_, ?_⟩
  · have hbody : (streamOf file source).bodyOpen (a.classAt i + 2) = some opening := hopening
    unfold componentAt?
    rw [hstarts.opening, hstarts.object, hcall, hobject]
    simp only [Bool.and_self, Bool.not_true, Bool.false_eq_true, ↓reduceIte, Option.bind_eq_bind, Option.bind_some,
      hsearch, hident, hbody, hclose]
    rfl
  · exact congrArg Token.text hname
  · exact congrArg Token.span hname

theorem shut_of_endsBare (h : Follows (scan file source) i (a.tokens ++ after)) (hbare : a.EndsBare) :
    ∃ first < a.classAt i, Shut (streamOf file source) first (a.classAt i) ∧
      ∀ k, first < k → k ≤ a.classAt i → (streamOf file source).inName k = true := by
  obtain ⟨d, hlast, hnone⟩ := hbare
  obtain ⟨ds, hds⟩ := List.getLast?_eq_some_iff.mp hlast
  have htokens : a.between = ds.flatMap Decorator.tokens ++ (d.mark :: (d.name ++ a.leads)) := by
    simp [between, hds, Decorator.tokens, hnone]
  have hbetween := follows_between h
  rw [htokens, List.append_assoc] at hbetween
  have hmark := hbetween.skip
  have hlength : a.classAt i = i + a.call.length + (ds.flatMap Decorator.tokens).length + 1 + d.name.length +
      a.leads.length := by
    simp only [classAt, htokens, List.length_append, List.length_cons]
    omega
  generalize i + a.call.length + (ds.flatMap Decorator.tokens).length = first at hmark hlength
  have hname : ∀ k, first < k → k ≤ a.classAt i → (streamOf file source).inName k = true := by
    intro k hk hle
    have hwords : Follows (scan file source) (first + 1) ((d.name ++ a.leads ++ [a.keyword]) ++
        (a.name :: (a.head ++ (a.body.tokens ++ after)))) := by
      have hnext := (show Follows _ _ (d.mark :: _) from hmark).next
      simpa using hnext
    have hmem := hwords.token_mem hk (by
      simp only [List.length_append, List.length_singleton]
      omega)
    refine inName_of_kind ?_
    rcases List.mem_append.mp hmem with hmem | hmem
    · rcases List.mem_append.mp hmem with hmem | hmem
      · exact d.dotted.inName _ hmem
      · exact .inl (a.lead_words _ hmem).1
    · rw [List.mem_singleton.mp hmem]
      exact .inl (by simpa [Token.isWord] using (Bool.and_eq_true_iff.mp a.keyword_text).1)
  refine ⟨first, by omega, shut_bare ?_ hname (by omega) (follows_class h).lt_size, hname⟩
  exact punct_of_kind ((show Follows _ _ (d.mark :: _) from hmark).token ▸ d.mark_kind)

theorem not_steps_of_endsBare (h : Follows (scan file source) i (a.tokens ++ after)) (hbare : a.EndsBare) {p : Nat}
    (hmark : (streamOf file source).punct p '@' = true)
    (hsteps : Relation.ReflTransGen (ClassStep (streamOf file source)) p (a.classAt i)) : False := by
  obtain ⟨first, hlt, hshut, hname⟩ := shut_of_endsBare h hbare
  have hle := steps_le (ordered_streamOf file source) hsteps
  have hp : p ≤ first := by
    refine Nat.le_of_not_lt fun hfirst => ?_
    have hnot := inName_of_punct hmark (by decide)
    rw [hname p hfirst hle] at hnot
    cases hnot
  rcases steps_outside (ordered_streamOf file source) hshut hsteps (.inl hp) with h | h
  · exact absurd hlt (Nat.not_lt_of_le h)
  · exact Nat.lt_irrefl _ h

end AnnotatedClass

theorem not_takenUp_of_steps {p q : Nat} (hmark : (streamOf file source).punct i '@' = true)
    (hi : Relation.ReflTransGen (ClassStep (streamOf file source)) i q)
    (hp : Relation.ReflTransGen (ClassStep (streamOf file source)) p q)
    (hvisit : ¬ TakenUp (streamOf file source) p) : ¬ TakenUp (streamOf file source) i := by
  rintro ⟨x, hx, hle, hlt⟩
  obtain ⟨opening, close, hopening, hclose, hfirst, hbefore, hbehind, hstop⟩ :=
    (Fenced.statement hx).braces i hle hlt hmark
  have hinside := steps_inside hclose hi ⟨hbefore, Nat.le_of_lt hbehind⟩
  have hp' : p ≤ opening ∨ close < p := by
    refine (Nat.lt_or_ge close p).symm.imp (fun hpc => ?_) id
    refine Nat.le_of_not_lt fun hop => hvisit ⟨x, hx, by omega, by omega⟩
  have houtside := steps_outside (ordered_streamOf file source) (shut_braces hopening hclose) hp hp'
  omega

/-- For an annotated class a component is recorded exactly when no decorator without arguments stands
right before the class and the annotation is not part of an import or export statement. -/
theorem component_recorded_iff (file : FileId) (source : String) {before after : List Token} (a : AnnotatedClass)
    (hscan : scan file source = before ++ (a.tokens ++ after)) :
    (∃ c ∈ (analyze file (scan file source)).components,
        c.className = a.name.text ∧ c.classSpan = a.name.span) ↔
      ¬ a.EndsBare ∧ ¬ TakenUp (streamOf file source) before.length := by
  have h : Follows (scan file source) before.length (a.tokens ++ after) := ⟨before, hscan, rfl⟩
  have hstarts := AnnotatedClass.starts h
  rw [show analyze file (scan file source) = outlineOf (streamOf file source) from rfl, components_outlineOf]
  generalize before.length = i at h hstarts
  constructor
  · rintro ⟨c, hc, -, hspan⟩
    obtain ⟨p, hp, hc⟩ := List.mem_flatMap.mp hc
    obtain ⟨-, hvisit⟩ := mem_visits.mp hp
    obtain ⟨q, hmark, hsteps, -, hident, hspan'⟩ := steps_of_annotated hc
    have hname := (AnnotatedClass.follows_class h).next.token
    have hq : q = a.classAt i := by
      refine Nat.succ.inj (position_of_span hident (ident_of_kind (hname ▸ a.name_kind)) ?_)
      exact hspan'.symm.trans (hspan.trans (congrArg Token.span hname).symm)
    subst hq
    have hbare : ¬ a.EndsBare := fun hbare => AnnotatedClass.not_steps_of_endsBare h hbare hmark hsteps
    obtain ⟨close, hclose, hstop⟩ := hstarts.closing
    have hown : Relation.ReflTransGen (ClassStep (streamOf file source)) i (a.classAt i) := by
      refine .head (step_component hstarts.mark hstarts.word hstarts.opening hclose) ?_
      rw [hstop]
      exact AnnotatedClass.steps h hbare
    exact ⟨hbare, not_takenUp_of_steps hstarts.mark hown hsteps hvisit⟩
  · rintro ⟨hbare, hout⟩
    obtain ⟨c, hc, hname, hspan⟩ := AnnotatedClass.exists_component h hbare
    refine ⟨c, List.mem_flatMap.mpr ⟨i, mem_visits.mpr ⟨?_, hout⟩, ?_⟩, hname, hspan⟩
    · simp [Stream.atEnd, kind_of_punct hstarts.mark]
    · rw [annotated, hstarts.mark, hstarts.word, hc]
      exact List.mem_singleton.mpr rfl

set_option maxRecDepth 100000

def decorated : AnnotatedClass where
  mark := ⟨.punct '@', ⟨0, 0, 1⟩, "@", "", none, true⟩
  word := ⟨.ident, ⟨0, 1, 10⟩, "Component", "", none, true⟩
  argument := ⟨⟨.punct '(', ⟨0, 10, 11⟩, "(", "", none, true⟩,
    [⟨.punct '\x7b', ⟨0, 11, 12⟩, "\x7b", "", none, true⟩, ⟨.punct '\x7d', ⟨0, 12, 13⟩, "\x7d", "", none, true⟩],
    ⟨.punct ')', ⟨0, 13, 14⟩, ")", "", none, true⟩, rfl, rfl, .enclose (by decide) .nil .nil⟩
  object := ⟨⟨.punct '\x7b', ⟨0, 11, 12⟩, "\x7b", "", none, true⟩, [],
    ⟨.punct '\x7d', ⟨0, 12, 13⟩, "\x7d", "", none, true⟩, rfl, rfl, .nil⟩
  others := []
  decorators := [
    ⟨⟨.punct '@', ⟨0, 15, 16⟩, "@", " ", none, true⟩, [⟨.ident, ⟨0, 16, 17⟩, "a", "", none, true⟩,
      ⟨.punct '.', ⟨0, 17, 18⟩, ".", "", none, true⟩, ⟨.ident, ⟨0, 18, 19⟩, "b", "", none, true⟩], none, rfl,
      .dot rfl rfl (.word rfl)⟩,
    ⟨⟨.punct '@', ⟨0, 20, 21⟩, "@", " ", none, true⟩, [⟨.ident, ⟨0, 21, 22⟩, "c", "", none, true⟩],
      some ⟨⟨.punct '(', ⟨0, 22, 23⟩, "(", "", none, true⟩, [], ⟨.punct ')', ⟨0, 23, 24⟩, ")", "", none, true⟩,
        rfl, rfl, .nil⟩, rfl, .word rfl⟩]
  leads := [⟨.ident, ⟨0, 25, 31⟩, "export", " ", none, true⟩]
  keyword := ⟨.ident, ⟨0, 32, 37⟩, "class", " ", none, true⟩
  name := ⟨.ident, ⟨0, 38, 39⟩, "A", " ", none, true⟩
  head := []
  body := ⟨⟨.punct '\x7b', ⟨0, 40, 41⟩, "\x7b", " ", none, true⟩, [],
    ⟨.punct '\x7d', ⟨0, 41, 42⟩, "\x7d", "", none, true⟩, rfl, rfl, .nil⟩
  mark_kind := rfl
  word_text := rfl
  inner_eq := rfl
  lead_words := by decide
  keyword_text := rfl
  name_kind := rfl
  head_parts := .nil

theorem component_recorded_iff_decorated :
    let source := "@Component(\x7b\x7d) @a.b @c() export class A \x7b\x7d"
    scan 0 source = [] ++ (decorated.tokens ++ [⟨.eof, ⟨0, 42, 42⟩, "", "", none, true⟩]) ∧
      ∃ c ∈ (analyze 0 (scan 0 source)).components, c.className = "A" ∧ c.classSpan = ⟨0, 38, 39⟩ := by
  intro source
  have hscan : scan 0 source = [] ++ (decorated.tokens ++ [⟨.eof, ⟨0, 42, 42⟩, "", "", none, true⟩]) := by
    decide
  refine ⟨hscan, (component_recorded_iff 0 source decorated hscan).mpr ⟨?_, ?_⟩⟩
  · rintro ⟨d, hd, hnone⟩
    cases hd
    cases hnone
  · unfold TakenUp
    decide

def hidden : AnnotatedClass where
  mark := ⟨.punct '@', ⟨0, 0, 1⟩, "@", "", none, true⟩
  word := ⟨.ident, ⟨0, 1, 10⟩, "Component", "", none, true⟩
  argument := decorated.argument
  object := decorated.object
  others := []
  decorators := [⟨⟨.punct '@', ⟨0, 15, 16⟩, "@", " ", none, true⟩,
    [⟨.ident, ⟨0, 16, 26⟩, "Injectable", "", none, true⟩], none, rfl, .word rfl⟩]
  leads := []
  keyword := ⟨.ident, ⟨0, 27, 32⟩, "class", " ", none, true⟩
  name := ⟨.ident, ⟨0, 33, 34⟩, "A", " ", none, true⟩
  head := []
  body := ⟨⟨.punct '\x7b', ⟨0, 35, 36⟩, "\x7b", " ", none, true⟩, [],
    ⟨.punct '\x7d', ⟨0, 36, 37⟩, "\x7d", "", none, true⟩, rfl, rfl, .nil⟩
  mark_kind := rfl
  word_text := rfl
  inner_eq := rfl
  lead_words := by decide
  keyword_text := rfl
  name_kind := rfl
  head_parts := .nil

theorem component_hidden_behind_decorator :
    let source := "@Component(\x7b\x7d) @Injectable class A \x7b\x7d"
    scan 0 source = hidden.tokens ++ [⟨.eof, ⟨0, 37, 37⟩, "", "", none, true⟩] ∧
      faults (scan 0 source) = [] ∧ (analyze 0 (scan 0 source)).components = [] := by
  decide

end Recompile.Script
