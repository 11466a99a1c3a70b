import Mathlib.Algebra.Group.Nat.Defs
import Recompile.Proofs.Script.Bytes

/-!
Scanning loses nothing. The gaps and the texts of the tokens make up the source, a gap holds blanks
and comments only, and just the last gap may leave a comment open, which is then reported.
-/

namespace Recompile.Script

open Text (width Place)

/-- How skipped text ends: after all of its comments, in one that ends with the line, or in one that
lacks its closing mark. -/
inductive Ending where
  | clean
  | line
  | block
deriving DecidableEq

/-- Text that is skipped: blanks and comments. -/
inductive Skipped : Ending → List Char → Prop where
  | nil : Skipped .clean []
  | blank {e : Ending} {c : Char} {cs : List Char} (blank : Text.isAsciiBlank c = true)
      (rest : Skipped e cs) : Skipped e (c :: cs)
  | line {e : Ending} {body cs : List Char} (within : '\n' ∉ body) (rest : Skipped e cs) :
      Skipped e ('/' :: '/' :: (body ++ '\n' :: cs))
  | block {e : Ending} {body cs : List Char} (within : ¬ ['*', '/'] <:+: body)
      (rest : Skipped e cs) : Skipped e ('/' :: '*' :: (body ++ '*' :: '/' :: cs))
  | lastLine {body : List Char} (within : '\n' ∉ body) : Skipped .line ('/' :: '/' :: body)
  | openBlock {body : List Char} (within : ¬ ['*', '/'] <:+: body) :
      Skipped .block ('/' :: '*' :: body)

variable {e : Ending} {c : Char} {cs : List Char}

theorem Skipped.grow_line (h : Skipped e ('/' :: '/' :: cs)) (hc : c ≠ '\n') :
    Skipped e ('/' :: '/' :: c :: cs) := by
  have hcons : ∀ {body : List Char}, '\n' ∉ body → '\n' ∉ c :: body := fun hbody => by
    simp [hbody, hc.symm]
  cases h with
  | blank blank => cases blank
  | line within rest => exact .line (hcons within) rest
  | lastLine within => exact .lastLine (hcons within)

theorem Skipped.grow_block (h : Skipped e ('/' :: '*' :: cs)) (hc : c = '*' → cs.head? ≠ some '/') :
    Skipped e ('/' :: '*' :: c :: cs) := by
  have hcons : ∀ {body : List Char}, (c = '*' → body.head? ≠ some '/') → ¬ ['*', '/'] <:+: body →
      ¬ ['*', '/'] <:+: c :: body := by
    intro body hhead hbody hinfix
    rcases List.infix_cons_iff.mp hinfix with hprefix | hinfix
    · obtain ⟨tail, htail⟩ := hprefix
      cases htail
      exact hhead rfl rfl
    · exact hbody hinfix
  cases h with
  | blank blank => cases blank
  | @block _ body cs within rest =>
    have hhead : c = '*' → body.head? ≠ some '/' := by
      intro hstar hslash
      refine hc hstar ?_
      obtain ⟨tail, rfl⟩ := List.head?_eq_some_iff.mp hslash
      rfl
    exact .block (hcons hhead within) rest
  | openBlock within => exact .openBlock (hcons hc within)

def GapMode.opening : GapMode → List Char
  | .plain => []
  | .line => ['/', '/']
  | .block _ => ['/', '*']

theorem skipped_skipGap (pos : Nat) (mode : GapMode) (cs : List Char) :
    ∃ e, Skipped e (mode.opening ++ (skipGap pos mode cs).text) ∧
      ((skipGap pos mode cs).openComment.isSome = true ↔ e = .block) ∧
      (e ≠ .clean → (skipGap pos mode cs).rest = []) := by
  fun_induction skipGap pos mode cs with
  | case1 pos rest ih => exact ih
  | case2 pos rest ih => exact ih
  | case3 pos c rest _ _ hblank ih =>
    obtain ⟨e, h, hopen, hrest⟩ := ih
    exact ⟨e, .blank hblank h, hopen, hrest⟩
  | case4 => exact ⟨.clean, .nil, by simp, fun h => absurd rfl h⟩
  | case5 pos rest ih =>
    obtain ⟨e, h, hopen, hrest⟩ := ih
    exact ⟨e, @Skipped.line e [] _ List.not_mem_nil h, hopen, hrest⟩
  | case6 pos c rest hc ih =>
    obtain ⟨e, h, hopen, hrest⟩ := ih
    exact ⟨e, h.grow_line hc, hopen, hrest⟩
  | case7 pos start rest ih =>
    obtain ⟨e, h, hopen, hrest⟩ := ih
    exact ⟨e, @Skipped.block e [] _ (by simp) h, hopen, hrest⟩
  | case8 pos start c rest hend ih =>
    obtain ⟨e, h, hopen, hrest⟩ := ih
    change Skipped e ('/' :: '*' :: (skipGap (pos + c.utf8Size) (.block start) rest).text) at h
    refine ⟨e, h.grow_block ?_, hopen, hrest⟩
    rintro rfl hslash
    obtain ⟨tail, htail⟩ := List.head?_eq_some_iff.mp hslash
    have happend := skipGap_append (pos + '*'.utf8Size) (.block start) rest
    rw [htail] at happend
    exact hend _ rfl happend.symm
  | case9 => exact ⟨.block, .openBlock (by simp), by simp, fun _ => rfl⟩
  | case10 => exact ⟨.clean, .nil, by simp, fun h => absurd rfl h⟩
  | case11 => exact ⟨.line, .lastLine List.not_mem_nil, by simp, fun _ => rfl⟩

theorem blockTail_close (h : ¬ ['*', '/'] <:+: cs) (rest : List Char) :
    blockTail (cs ++ '*' :: '/' :: rest) = (cs ++ ['*', '/'], rest, true) := by
  induction cs with
  | nil => rfl
  | cons c cs ih =>
    rw [List.infix_cons_iff, not_or] at h
    have hne : ∀ tail, c = '*' → cs ++ '*' :: '/' :: rest = '/' :: tail → False := by
      rintro tail rfl htail
      cases cs with
      | nil => cases htail
      | cons d ds =>
        cases htail
        exact h.1 ⟨ds, rfl⟩
    rw [List.cons_append, blockTail_cons hne, ih h.2]
    rfl

theorem blockTail_open (h : ¬ ['*', '/'] <:+: cs) : blockTail cs = (cs, [], false) := by
  induction cs with
  | nil => rfl
  | cons c cs ih =>
    rw [List.infix_cons_iff, not_or] at h
    have hne : ∀ tail, c = '*' → cs = '/' :: tail → False := by
      rintro tail rfl rfl
      exact h.1 ⟨tail, rfl⟩
    rw [blockTail_cons hne, ih h.2]

/-- Skipped text read from its start leaves a comment open only when it ends in one. -/
theorem Skipped.openComment_iff (h : Skipped e cs) :
    ∀ pos, (skipGap pos .plain cs).openComment.isSome = true ↔ e = .block := by
  have hline : ∀ {body : List Char}, '\n' ∉ body → ∀ c ∈ body, (c != '\n') = true := by
    intro body hbody c hc
    simp only [bne_iff_ne, ne_eq]
    rintro rfl
    exact hbody hc
  induction h with
  | nil => simp [skipGap_nil]
  | @blank e c cs hblank _ ih =>
    intro pos
    rw [skipGap_blank pos cs hblank]
    exact ih _
  | @line e body cs within _ ih =>
    intro pos
    rw [skipGap_lineOpen, skipGap_line, List.dropWhile_append_of_pos (hline within)]
    exact ih _
  | @block e body cs within _ ih =>
    intro pos
    rw [skipGap_blockOpen, skipGap_block, blockTail_close within]
    exact ih _
  | @lastLine body within =>
    intro pos
    rw [skipGap_lineOpen, skipGap_line, List.dropWhile_eq_nil_iff.mpr (hline within)]
    simp [Gap.grow, skipGap_nil]
  | openBlock within =>
    intro pos
    rw [skipGap_blockOpen, skipGap_block, blockTail_open within]
    simp [Gap.grow]

theorem lexeme_kind (previous : Option Token) (c : Char) (rest : List Char) :
    (lexeme previous c rest).kind ≠ .eof := by
  rw [lexeme]
  split
  · exact TokenKind.noConfusion
  split
  · exact TokenKind.noConfusion
  split
  · exact TokenKind.noConfusion
  split
  · exact TokenKind.noConfusion
  split
  · exact TokenKind.noConfusion
  · exact TokenKind.noConfusion

structure Token.Solid (file : FileId) (t : Token) : Prop where
  kind : t.kind ≠ .eof
  text : t.text ≠ ""
  file : t.span.file = file
  gap : Skipped .clean t.gap.toList
  comment : t.openComment = none

structure Token.Final (file : FileId) (t : Token) : Prop where
  kind : t.kind = .eof
  text : t.text = ""
  file : t.span.file = file
  gap : ∃ e, Skipped e t.gap.toList
  comment : Skipped .block t.gap.toList ↔ t.openComment.isSome = true

/-- Scanning comes to the end of the text, and to no end before. -/
theorem scanFrom_ends (file : FileId) (fuel : Nat) : ∀ {pos : Nat} {previous : Option Token}
    {cs : List Char}, cs.length < fuel → ∃ ts last, scanFrom file fuel pos previous cs = ts ++ [last] ∧
      (∀ t ∈ ts, t.Solid file) ∧ last.Final file := by
  induction fuel with
  | zero => exact fun hfuel => absurd hfuel (Nat.not_lt_zero _)
  | succ fuel ih =>
    intro pos previous cs hfuel
    obtain ⟨e, hskipped, hopen, hclean⟩ := skipped_skipGap pos .plain cs
    have happend := skipGap_append pos .plain cs
    change Skipped e (skipGap pos .plain cs).text at hskipped
    rw [scanFrom]
    dsimp only
    cases hrest : (skipGap pos .plain cs).rest with
    | nil =>
      refine ⟨[], _, rfl, fun t ht => (List.not_mem_nil ht).elim, rfl, rfl, rfl, ⟨e, ?_⟩, ?_⟩
      · simpa using hskipped
      · rw [hrest, List.append_nil] at happend
        -- At the end of the text the gap tells by itself how it ends.
        have hread : ∀ {e}, Skipped e (skipGap pos .plain cs).text →
            ((skipGap pos .plain cs).openComment.isSome = true ↔ e = .block) := fun h => by
          have := h.openComment_iff pos
          rwa [happend] at this
        constructor
        · intro h
          exact (hread (by simpa using h)).mpr rfl
        · intro hsome
          obtain rfl := hopen.mp hsome
          simpa using hskipped
    | cons c rest =>
      obtain ⟨tail, htext, htail⟩ := lexeme_append previous c rest
      have hshort : (lexeme previous c rest).rest.length < fuel := by
        rw [← happend, hrest, ← htail] at hfuel
        simp only [List.length_append, List.length_cons] at hfuel
        omega
      obtain ⟨ts, last, hscan, hsolid, hfinal⟩ := ih hshort
      dsimp only
      rw [hscan]
      refine ⟨_ :: ts, last, rfl, fun t ht => ?_, hfinal⟩
      rcases List.mem_cons.mp ht with rfl | ht
      · obtain rfl : e = .clean := Decidable.byContradiction fun hne => by
          rw [hclean hne] at hrest
          cases hrest
        refine ⟨lexeme_kind previous c rest, ?_, rfl, by simpa using hskipped, ?_⟩
        · simp [htext]
        · exact Option.not_isSome_iff_eq_none.mp fun hsome => Ending.noConfusion (hopen.mp hsome)
      · exact hsolid t ht

/-- The text that tokens stand for, with the gaps before them. -/
def covered (ts : List Token) : List Char := ts.flatMap fun t => t.gap.toList ++ t.text.toList

theorem rest_eq_of_place {text rest rest' : List Char} {pos : Nat} (h : Place text pos rest)
    (h' : Place text pos rest') : rest = rest' := by
  obtain ⟨mid, rfl, hmid⟩ := h.slice?_of_le h' (Nat.le_refl pos)
  rw [Text.width_eq_zero (by omega : width mid = 0), List.nil_append]

namespace Tiles

variable {text : List Char} {pos : Nat} {ts before after : List Token} {t : Token}

theorem covered_place (h : Tiles text pos ts) : Place text pos (covered ts) := by
  induction h with
  | last gap kind empty start stop => simpa [covered, empty] using gap
  | cons place start stop tail ih =>
    have hrest := rest_eq_of_place place.skip.skip (by rw [← start, ← stop]; exact ih)
    rw [hrest] at place
    simpa [covered] using place

theorem split_span (h : Tiles text pos (before ++ t :: after)) :
    t.span.start = pos + width (covered before ++ t.gap.toList) ∧
      t.span.stop = t.span.start + width t.text.toList := by
  induction before generalizing pos with
  | nil =>
    cases h with
    | last gap kind empty start stop =>
      refine ⟨?_, by rw [start, stop, empty]; rfl⟩
      rw [start, ← gap.pos_add_width]
      rfl
    | cons place start stop tail => exact ⟨start, stop⟩
  | cons u before ih =>
    rw [List.cons_append] at h
    generalize hrest : before ++ t :: after = us at h
    cases h with
    | last => exact absurd hrest (by simp)
    | cons place start stop tail =>
      subst hrest
      obtain ⟨hstart, hstop⟩ := ih tail
      refine ⟨?_, hstop⟩
      rw [hstart, stop, start]
      simp only [covered, List.flatMap_cons, Text.width_append]
      omega

end Tiles

theorem start_lt_stop {file : FileId} {source : String} {t : Token} (ht : t ∈ scan file source)
    (hkind : t.kind ≠ .eof) : t.span.start < t.span.stop := by
  obtain ⟨ts, last, hscan, hsolid, hfinal⟩ :=
    @scanFrom_ends file (source.toList.length + 1) 0 none _ (Nat.lt_succ_self source.toList.length)
  obtain ⟨rest, -, hstop⟩ := (tiles_scan file source).text_place ht
  rw [scan, hscan, List.mem_append, List.mem_singleton] at ht
  rcases ht with ht | rfl
  · have hwidth : width t.text.toList ≠ 0 := fun hzero =>
      (hsolid t ht).text (String.toList_eq_nil_iff.mp (Text.width_eq_zero hzero))
    omega
  · exact absurd hfinal.kind hkind

/-- Tokens, and a mark after them, that a text is cut into with nothing left out. -/
structure Lossless (file : FileId) (source : String) (ts : List Token) (last : Token) : Prop where
  text : source.toList = covered ts ++ last.gap.toList
  place : ∀ {before t after}, ts = before ++ t :: after →
    t.span.start = width (covered before ++ t.gap.toList) ∧
      t.span.stop = width (covered before ++ t.gap.toList ++ t.text.toList)
  cut : ∀ t ∈ ts, Text.slice? source.toList t.span.start t.span.stop = some t.text.toList
  nonempty : ∀ t ∈ ts, t.span.file = file ∧ t.kind ≠ .eof ∧ t.span.start < t.span.stop ∧
    t.span.stop < 2 ^ 32
  ordered : ts.Pairwise fun a b => a.span.stop ≤ b.span.start
  final : last.kind = .eof ∧ last.text = "" ∧
    last.span = ⟨file, width source.toList, width source.toList⟩
  gaps : ∀ t ∈ ts, Skipped .clean t.gap.toList
  lastGap : ∃ e, Skipped e last.gap.toList
  openComment : Skipped .block last.gap.toList ↔
    ∃ d ∈ faults (ts ++ [last]), d.code = unterminatedComment

theorem code_unclosed {bs : List OpenBracket} : ∀ d ∈ bs.map unclosed, d.code = delimiterExpected := by
  intro d hd
  obtain ⟨b, -, rfl⟩ := List.mem_map.mp hd
  rfl

theorem code_trackDelimiter (stack : List OpenBracket) (t : Token) :
    ∀ d ∈ (trackDelimiter stack t).2, d.code = delimiterExpected ∨ d.code = unexpectedDelimiter := by
  intro d hd
  rw [trackDelimiter] at hd
  split at hd
  · split at hd
    · cases hd
    · split at hd
      · dsimp only at hd
        split at hd
        · rw [List.mem_singleton.mp hd]
          exact .inr rfl
        · exact .inl (code_unclosed d hd)
      · cases hd
  · cases hd

theorem openComment_reported (t : Token) :
    (∃ d ∈ tokenFaults t, d.code = unterminatedComment) ↔ t.openComment.isSome = true := by
  have hliteral : ∀ d ∈ (if t.closed then [] else if t.kind = .template then
      [Diagnostic.error unterminatedTemplate "Unterminated template literal." t.span]
      else [Diagnostic.error unterminatedString "Unterminated string literal." t.span]),
      d.code ≠ unterminatedComment := by
    intro d hd
    split at hd
    · cases hd
    · split at hd
      · rw [List.mem_singleton.mp hd]
        exact (by decide : unterminatedTemplate ≠ unterminatedComment)
      · rw [List.mem_singleton.mp hd]
        exact (by decide : unterminatedString ≠ unterminatedComment)
  rw [tokenFaults]
  cases t.openComment with
  | none =>
    constructor
    · rintro ⟨d, hd, hcode⟩
      exact absurd hcode (hliteral d hd)
    · exact fun h => by cases h
  | some start => exact ⟨fun _ => rfl, fun _ => ⟨_, List.mem_append_left _ List.mem_cons_self, rfl⟩⟩

theorem openComment_faultsFrom (ts : List Token) : ∀ stack : List OpenBracket,
    (∃ d ∈ faultsFrom stack ts, d.code = unterminatedComment) ↔
      ∃ t ∈ ts, t.openComment.isSome = true := by
  have hne : delimiterExpected ≠ unterminatedComment ∧ unexpectedDelimiter ≠ unterminatedComment := by
    decide
  induction ts with
  | nil =>
    intro stack
    constructor
    · rintro ⟨d, hd, hcode⟩
      exact absurd ((code_unclosed d hd).symm.trans hcode) hne.1
    · rintro ⟨t, ht, -⟩
      cases ht
  | cons t ts ih =>
    intro stack
    have htrack : ¬ ∃ d ∈ (trackDelimiter stack t).2, d.code = unterminatedComment := by
      rintro ⟨d, hd, hcode⟩
      rcases code_trackDelimiter stack t d hd with hcode' | hcode'
      · exact hne.1 (hcode'.symm.trans hcode)
      · exact hne.2 (hcode'.symm.trans hcode)
    rw [faultsFrom]
    simp only [List.mem_append, List.mem_cons, or_and_right, exists_or, exists_eq_left, htrack, or_false,
      ih, openComment_reported]

/-- Scanning is lossless: gaps and tokens make up the text in order and without overlap, cut between
characters, and nothing but blanks and comments is skipped. Reading the text byte by byte comes to
the same tokens. -/
theorem scan_lossless (file : FileId) (source : String) (h : width source.toList < 2 ^ 32) :
    ∃ ts last, scan file source = ts ++ [last] ∧
      scanBytes file source.toList = .ok ((ts ++ [last]).map Token.mark) ∧
      Lossless file source ts last := by
  obtain ⟨ts, last, hscan, hsolid, hfinal⟩ :=
    @scanFrom_ends file (source.toList.length + 1) 0 none _ (Nat.lt_succ_self source.toList.length)
  have htiles : Tiles source.toList 0 (ts ++ [last]) := hscan ▸ tiles_scan file source
  have htext : source.toList = covered ts ++ last.gap.toList := by
    rw [rest_eq_of_place (Place.start source.toList) htiles.covered_place]
    simp [covered, hfinal.text]
  have hplace : ∀ {before t after}, ts ++ [last] = before ++ t :: after →
      t.span.start = width (covered before ++ t.gap.toList) ∧
        t.span.stop = width (covered before ++ t.gap.toList ++ t.text.toList) := by
    intro before t after hsplit
    obtain ⟨hstart, hstop⟩ := (hsplit ▸ htiles).split_span
    rw [Text.width_append (covered before ++ t.gap.toList), hstop, hstart, Nat.zero_add]
    exact ⟨rfl, rfl⟩
  -- Only the gap before the mark at the end can leave a comment open.
  have hreported : (∃ d ∈ faults (ts ++ [last]), d.code = unterminatedComment) ↔
      last.openComment.isSome = true := by
    rw [faults, openComment_faultsFrom]
    constructor
    · rintro ⟨t, ht, hopen⟩
      rcases List.mem_append.mp ht with ht | ht
      · rw [(hsolid t ht).comment] at hopen
        cases hopen
      · rwa [← List.mem_singleton.mp ht]
    · exact fun hopen => ⟨last, by simp, hopen⟩
  refine ⟨ts, last, hscan, ?_, ?_⟩
  · rw [scanBytes_eq, ← hscan]
    rfl
  exact {
    text := htext
    place := fun {before t after} hsplit => @hplace before t (after ++ [last]) (by simp [hsplit])
    cut := by
      intro t ht
      obtain ⟨rest, hcut, hstop⟩ := htiles.text_place (List.mem_append_left _ ht)
      rw [hstop, hcut.slice?]
    nonempty := by
      intro t ht
      obtain ⟨rest, hcut, hstop⟩ := htiles.text_place (List.mem_append_left _ ht)
      have hmem : t ∈ scan file source := by
        rw [scan, hscan]
        exact List.mem_append_left _ ht
      have hle := hcut.skip.pos_le
      exact ⟨(hsolid t ht).file, (hsolid t ht).kind, start_lt_stop hmem (hsolid t ht).kind, by omega⟩
    ordered := (List.pairwise_append.mp htiles.pairwise).1
    final := by
      obtain ⟨hstart, hstop⟩ := @hplace ts last [] rfl
      rw [← htext] at hstart hstop
      rw [hfinal.text, String.toList_empty, List.append_nil] at hstop
      refine ⟨hfinal.kind, hfinal.text, ?_⟩
      calc last.span = ⟨last.span.file, last.span.start, last.span.stop⟩ := rfl
        _ = ⟨file, width source.toList, width source.toList⟩ := by rw [hfinal.file, hstart, hstop]
    gaps := fun t ht => (hsolid t ht).gap
    lastGap := hfinal.gap
    openComment := hfinal.comment.trans hreported.symm }

def openQuotient : String := "a/'\\é'//*\n/*/"

theorem scan_lossless_openQuotient :
    width openQuotient.toList < 2 ^ 32 ∧ ∃ ts last, scan 0 openQuotient = ts ++ [last] ∧
      scanBytes 0 openQuotient.toList = .ok ((ts ++ [last]).map Token.mark) ∧
      Lossless 0 openQuotient ts last ∧ ts.map (·.text) = ["a", "/", "'\\é'"] ∧
      Skipped .block last.gap.toList := by
  have hwidth : width openQuotient.toList < 2 ^ 32 := by decide
  have htexts : (scan 0 openQuotient).map (·.text) = ["a", "/", "'\\é'"] ++ [""] := by decide
  have hfault : ∃ d ∈ faults (scan 0 openQuotient), d.code = unterminatedComment := by decide
  obtain ⟨ts, last, hscan, hbytes, hlossless⟩ := scan_lossless 0 openQuotient hwidth
  rw [hscan] at htexts hfault
  rw [List.map_append] at htexts
  exact ⟨hwidth, ts, last, hscan, hbytes, hlossless, (List.append_inj' htexts rfl).1,
    hlossless.openComment.mpr hfault⟩

end Recompile.Script
