import Recompile.Proofs.Script.Lossless

/-!
Which slashes start a regular expression. One that may stand for a value does so when a closing slash
follows on its line, outside of brackets and not escaped. A backslash takes whatever follows it, a line
break too, so with a backslash at its end a line goes on in the next one.
-/

namespace Recompile.Script

open Text (width Place)

/-- Whether a character after which a class is open, or is not, leaves one open. -/
def classAfter (inClass : Bool) (c : Char) : Bool :=
  if c = '[' then true else if c = ']' then false else inClass

/-- A part of a regular expression before its closing slash, with whether a class is open at its start
and at its end. -/
inductive Pattern : Bool → Bool → List Char → Prop where
  | nil {k : Bool} : Pattern k k []
  | escape {k l : Bool} {c : Char} {cs : List Char} (rest : Pattern k l cs) :
      Pattern k l ('\\' :: c :: cs)
  | plain {k l : Bool} {c : Char} {cs : List Char} (backslash : c ≠ '\\') (newline : c ≠ '\n')
      (slash : c = '/' → k = true) (rest : Pattern (classAfter k c) l cs) : Pattern k l (c :: cs)

def Closes (inClass : Bool) (cs : List Char) : Prop :=
  ∃ body rest, cs = body ++ '/' :: rest ∧ Pattern inClass false body

/-- The line ends in a backslash with nothing closed before, and a closing slash follows in what is
beyond it. -/
def ClosesPast (inClass : Bool) (line beyond : List Char) : Prop :=
  ∃ lead m more, line = lead ++ ['\\'] ∧ beyond = '\n' :: more ∧ Pattern inClass m lead ∧ Closes m more

variable {k l : Bool} {c : Char} {cs text rest line beyond : List Char}

theorem pattern_nil_iff : Pattern k l [] ↔ k = l := by
  constructor
  · intro h
    cases h
    rfl
  · rintro rfl
    exact .nil

theorem pattern_escape_iff : Pattern k l ('\\' :: c :: cs) ↔ Pattern k l cs := by
  constructor
  · intro h
    cases h with
    | escape rest => exact rest
    | plain backslash => exact absurd rfl backslash
  · exact .escape

theorem pattern_plain_iff (h : c ≠ '\\') : Pattern k l (c :: cs) ↔
    c ≠ '\n' ∧ (c = '/' → k = true) ∧ Pattern (classAfter k c) l cs := by
  constructor
  · intro hpattern
    cases hpattern with
    | escape => exact absurd rfl h
    | plain _ newline slash rest => exact ⟨newline, slash, rest⟩
  · rintro ⟨newline, slash, rest⟩
    exact .plain h newline slash rest

theorem not_pattern_backslash : ¬ Pattern k l ['\\'] := by
  intro h
  cases h with
  | plain backslash => exact backslash rfl

theorem exists_body_cons {P : List Char → Prop} :
    (∃ body, P body ∧ c :: cs = body ++ '/' :: rest) ↔
      (P [] ∧ c = '/' ∧ cs = rest) ∨ ∃ body, P (c :: body) ∧ cs = body ++ '/' :: rest := by
  constructor
  · rintro ⟨body, hbody, heq⟩
    cases body with
    | nil =>
      obtain ⟨rfl, rfl⟩ := List.cons.inj heq
      exact .inl ⟨hbody, rfl, rfl⟩
    | cons d body =>
      obtain ⟨rfl, rfl⟩ := List.cons.inj heq
      exact .inr ⟨body, hbody, rfl⟩
  · rintro (⟨hnil, rfl, rfl⟩ | ⟨body, hbody, rfl⟩)
    · exact ⟨[], hnil, rfl⟩
    · exact ⟨c :: body, hbody, rfl⟩

theorem map_regexTail_eq_some {f : List Char → List Char}
    (h : ∀ text rest, regexTail k cs = some (text, rest) ↔
      ∃ body, (text = body ++ ['/'] ∧ Pattern k false body) ∧ cs = body ++ '/' :: rest) :
    ((regexTail k cs).map fun r => (f r.1, r.2)) = some (text, rest) ↔
      ∃ body, (text = f (body ++ ['/']) ∧ Pattern k false body) ∧ cs = body ++ '/' :: rest := by
  rw [Option.map_eq_some_iff]
  constructor
  · rintro ⟨⟨text', rest'⟩, hread, heq⟩
    cases heq
    obtain ⟨body, ⟨rfl, hbody⟩, heq⟩ := (h _ _).mp hread
    exact ⟨body, ⟨rfl, hbody⟩, heq⟩
  · rintro ⟨body, ⟨rfl, hbody⟩, heq⟩
    exact ⟨(body ++ ['/'], rest), (h _ _).mpr ⟨body, ⟨rfl, hbody⟩, heq⟩, rfl⟩

theorem regexTail_eq_some : regexTail k cs = some (text, rest) ↔
    ∃ body, (text = body ++ ['/'] ∧ Pattern k false body) ∧ cs = body ++ '/' :: rest := by
  fun_induction regexTail k cs generalizing text rest with
  | case1 => simp
  | case2 =>
    rw [exists_body_cons]
    simp
  | case3 k c cs ih =>
    -- What is escaped is passed over with its backslash, a slash too.
    refine (map_regexTail_eq_some (f := fun text => '\\' :: c :: text) fun _ _ => ih).trans ?_
    rw [exists_body_cons, exists_body_cons]
    simp [pattern_escape_iff, not_pattern_backslash]
  | case4 =>
    rw [exists_body_cons]
    simp [pattern_plain_iff]
  | case5 k c cs hlast hescape hline hclose =>
    obtain ⟨rfl, rfl⟩ := hclose
    rw [exists_body_cons]
    simp [pattern_nil_iff, pattern_plain_iff, eq_comm]
  | case6 k c cs hlast hescape hline hclose =>
    rename_i ih
    have hbackslash : c ≠ '\\' := fun hc => by
      cases cs with
      | nil => exact hlast hc rfl
      | cons d cs => exact hescape d cs hc rfl
    have hplain : ∀ body, Pattern k false (c :: body) ↔ Pattern (classAfter k c) false body :=
      fun body => (pattern_plain_iff hbackslash).trans
        ⟨fun h => h.2.2, fun h => ⟨hline, fun hc => by simpa [hc] using hclose, h⟩⟩
    have hnil : ¬ ((text = ['/'] ∧ Pattern k false []) ∧ c = '/' ∧ cs = rest) :=
      fun h => hclose ⟨h.2.1, pattern_nil_iff.mp h.1.2⟩
    refine (map_regexTail_eq_some (f := (c :: ·)) fun _ _ => ih).trans ?_
    simp only [exists_body_cons, List.nil_append, hnil, false_or, hplain, List.cons_append]
    rfl

theorem Pattern.append {m : Bool} (h : Pattern k l cs) (h' : Pattern l m text) : Pattern k m (cs ++ text) := by
  induction h with
  | nil => exact h'
  | escape _ ih => exact .escape (ih h')
  | plain backslash newline slash _ ih => exact .plain backslash newline slash (ih h')

theorem Pattern.of_newline (hline : '\n' ∉ line) (h : Pattern k l (line ++ '\n' :: cs)) :
    ∃ lead m, line = lead ++ ['\\'] ∧ Pattern k m lead ∧ Pattern m l cs := by
  generalize htext : line ++ '\n' :: cs = text at h
  induction h generalizing line with
  | nil => simp at htext
  | @escape k l c text rest ih =>
    cases line with
    | nil => cases htext
    | cons d line =>
      cases line with
      | nil =>
        cases htext
        exact ⟨[], k, rfl, .nil, rest⟩
      | cons e line =>
        cases htext
        obtain ⟨lead, m, rfl, hlead, hcs⟩ :=
          ih (fun h => hline (List.mem_cons_of_mem _ (List.mem_cons_of_mem _ h))) rfl
        exact ⟨'\\' :: c :: lead, m, rfl, .escape hlead, hcs⟩
  | @plain k l c text backslash newline slash rest ih =>
    cases line with
    | nil =>
      cases htext
      exact absurd rfl newline
    | cons d line =>
      cases htext
      obtain ⟨lead, m, rfl, hlead, hcs⟩ := ih (List.not_mem_of_not_mem_cons hline) rfl
      exact ⟨c :: lead, m, rfl, .plain backslash newline slash hlead, hcs⟩

theorem Pattern.body_unique {body body' tail tail' : List Char} (h : Pattern k false body)
    (h' : Pattern k false body') (heq : body ++ '/' :: tail = body' ++ '/' :: tail') : body = body' := by
  have hread : regexTail k (body ++ '/' :: tail) = some (body ++ ['/'], tail) :=
    regexTail_eq_some.mpr ⟨body, ⟨rfl, h⟩, rfl⟩
  rw [heq, regexTail_eq_some.mpr ⟨body', ⟨rfl, h'⟩, rfl⟩] at hread
  exact (List.append_cancel_right (Prod.mk.inj (Option.some.inj hread)).1).symm

theorem Closes.exists_body (h : Closes k line) (hline : '\n' ∉ line) (beyond : List Char) :
    ∃ body tail, line ++ beyond = body ++ '/' :: tail ∧ Pattern k false body ∧ '\n' ∉ body := by
  obtain ⟨body, tail, rfl, hbody⟩ := h
  exact ⟨body, tail ++ beyond, by simp, hbody, fun h => hline (List.mem_append_left _ h)⟩

theorem ClosesPast.exists_body (h : ClosesPast k line beyond) :
    ∃ body tail, line ++ beyond = body ++ '/' :: tail ∧ Pattern k false body ∧ '\n' ∈ body := by
  obtain ⟨lead, m, _, rfl, rfl, hlead, body, tail, rfl, hbody⟩ := h
  exact ⟨lead ++ '\\' :: '\n' :: body, tail, by simp, hlead.append (.escape hbody), by simp⟩

theorem closes_cases (hline : '\n' ∉ line) (hbeyond : beyond = [] ∨ beyond.head? = some '\n')
    {body : List Char} (heq : line ++ beyond = body ++ '/' :: rest) (hbody : Pattern k false body) :
    '\n' ∉ body ∧ Closes k line ∨ '\n' ∈ body ∧ ClosesPast k line beyond := by
  rcases List.append_eq_append_iff.mp heq with ⟨mid, rfl, hmid⟩ | ⟨mid, rfl, hmid⟩
  · cases mid with
    | nil =>
      -- the slash itself would be the first character behind the line
      rcases hbeyond with rfl | hnewline
      · cases hmid
      · rw [hmid] at hnewline
        cases hnewline
    | cons c mid =>
      obtain rfl : c = '\n' := by
        rcases hbeyond with rfl | hnewline
        · cases hmid
        · rw [hmid] at hnewline
          exact Option.some.inj hnewline
      obtain ⟨lead, m, hlead, hpattern, hmore⟩ := hbody.of_newline hline
      exact .inr ⟨by simp, lead, m, mid ++ '/' :: rest, hlead, hmid, hpattern, mid, rest, rfl, hmore⟩
  · cases mid with
    | nil =>
      rcases hbeyond with rfl | hnewline
      · cases hmid
      · rw [← List.nil_append beyond, ← hmid] at hnewline
        cases hnewline
    | cons c mid =>
      obtain ⟨rfl, -⟩ := List.cons.inj hmid
      exact .inl ⟨fun h => hline (List.mem_append_left _ h), body, mid, rfl, hbody⟩

theorem lexeme_regex {previous : Option Token} {tail : List Char} (hallowed : regexAllowed previous = true)
    (hread : regexTail false rest = some (text, tail)) : lexeme previous '/' rest =
      ⟨.regex, '/' :: text ++ tail.takeWhile isNameChar, tail.dropWhile isNameChar, true⟩ := by
  rw [lexeme, if_neg (by decide), if_neg (by simp [startsNumber, Text.isAsciiDigit]), if_neg (by decide),
    if_neg (by decide), if_pos ⟨rfl, hallowed⟩, hread]

theorem lexeme_punct {previous : Option Token}
    (hread : regexAllowed previous = true → regexTail false rest = none) :
    lexeme previous '/' rest = ⟨.punct '/', ['/'], rest, true⟩ := by
  have hnone : (if '/' = '/' ∧ regexAllowed previous = true then regexTail false rest else none) = none := by
    split
    · rename_i hallowed
      exact hread hallowed.2
    · rfl
  rw [lexeme, if_neg (by decide), if_neg (by simp [startsNumber, Text.isAsciiDigit]), if_neg (by decide),
    if_neg (by decide), hnone]

theorem slash_of_regex {previous : Option Token} (h : (lexeme previous c rest).kind = .regex) : c = '/' := by
  rw [lexeme] at h
  split at h
  · cases h
  split at h
  · cases h
  split at h
  · cases h
  split at h
  · cases h
  split at h
  · rename_i hread
    split at hread
    · rename_i hslash
      exact hslash.1
    · cases hread
  · cases h

theorem scanFrom_lexeme (file : FileId) {source : List Char} (fuel : Nat) : ∀ {pos : Nat}
    {previous : Option Token} {cs : List Char} {before after : List Token} {t : Token},
    Place source pos cs → cs.length < fuel → scanFrom file fuel pos previous cs = before ++ t :: after →
    t.kind = .eof ∧ t.span.start = width source ∨ ∃ c rest, Place source t.span.start (c :: rest) ∧
      t.kind = (lexeme (before.getLast?.or previous) c rest).kind ∧
      t.text.toList = (lexeme (before.getLast?.or previous) c rest).text := by
  induction fuel with
  | zero => exact fun _ hfuel => absurd hfuel (Nat.not_lt_zero _)
  | succ fuel ih =>
    intro pos previous cs before after t hplace hfuel hscan
    have hgap := skipGap_append pos .plain cs
    rw [scanFrom] at hscan
    dsimp only at hscan
    split at hscan
    · rename_i hrest
      rw [hrest, List.append_nil] at hgap
      rw [← hgap] at hplace
      cases before with
      | nil =>
        obtain ⟨rfl, -⟩ := List.cons.inj hscan
        exact .inl ⟨rfl, hplace.pos_add_width⟩
      | cons u before => simp at hscan
    · rename_i c rest hrest
      obtain ⟨tail, htext, htail⟩ := lexeme_append previous c rest
      rw [hrest] at hgap
      rw [← hgap] at hplace
      cases before with
      | nil =>
        obtain ⟨rfl, -⟩ := List.cons.inj hscan
        exact .inr ⟨c, rest, hplace.skip, rfl, by simp⟩
      | cons u before =>
        obtain ⟨rfl, hafter⟩ := List.cons.inj hscan
        have hnext : Place source (pos + width (skipGap pos .plain cs).text + width (lexeme previous c rest).text)
            (lexeme previous c rest).rest := by
          rw [← htail, ← List.cons_append, ← htext] at hplace
          exact hplace.skip.skip
        have hshort : (lexeme previous c rest).rest.length < fuel := by
          rw [← hgap, ← htail] at hfuel
          simp only [List.length_append, List.length_cons] at hfuel
          omega
        have hread := ih hnext hshort hafter
        rw [List.getLast?_cons, Option.some_or]
        rwa [Option.or_some] at hread

theorem newline_notMem_flags (cs : List Char) : '\n' ∉ cs.takeWhile isNameChar := by
  intro h
  have hname := List.mem_takeWhile_imp h
  revert hname
  decide

theorem lexeme_slash_cases (previous : Option Token) (rest : List Char) :
    (∃ body tail, rest = body ++ '/' :: tail ∧ regexAllowed previous = true ∧ Pattern false false body ∧
        (lexeme previous '/' rest).kind = .regex ∧
        ('\n' ∈ (lexeme previous '/' rest).text ↔ '\n' ∈ body)) ∨
      ¬ (regexAllowed previous = true ∧ Closes false rest) ∧
        (lexeme previous '/' rest).kind = .punct '/' ∧ (lexeme previous '/' rest).text = ['/'] := by
  by_cases hcloses : regexAllowed previous = true ∧ Closes false rest
  · obtain ⟨hallowed, body, tail, rfl, hbody⟩ := hcloses
    rw [lexeme_regex hallowed (regexTail_eq_some.mpr ⟨body, ⟨rfl, hbody⟩, rfl⟩)]
    refine .inl ⟨body, tail, rfl, hallowed, hbody, rfl, ?_⟩
    have hflags := newline_notMem_flags tail
    simp [hflags]
  · have hnone : regexAllowed previous = true → regexTail false rest = none := by
      intro hallowed
      refine Option.eq_none_iff_forall_ne_some.mpr fun r hread => hcloses ⟨hallowed, ?_⟩
      obtain ⟨body, ⟨-, hbody⟩, hrest⟩ := regexTail_eq_some.mp (hread : _ = some (r.1, r.2))
      exact ⟨body, r.2, hrest, hbody⟩
    rw [lexeme_punct hnone]
    exact .inr ⟨hcloses, rfl, rfl⟩

/-- A token that starts with a slash is a regular expression or a slash of its own. It is a regular
expression on one line exactly when one may stand there and closes before the line ends. It goes on in
the next line exactly when nothing closes it up to a backslash at the end of the line, which takes the
line break with it, and it closes behind that. -/
theorem regex_lines (file : FileId) (source : String) {before after : List Token} {t : Token}
    (hscan : scan file source = before ++ t :: after) :
    (t.kind = .regex → ∃ rest, Place source.toList t.span.start ('/' :: rest)) ∧
      ∀ {line beyond : List Char}, Place source.toList t.span.start ('/' :: (line ++ beyond)) →
        '\n' ∉ line → beyond = [] ∨ beyond.head? = some '\n' →
        (t.kind = .regex ∨ t.kind = .punct '/' ∧ t.text = "/") ∧
        (t.kind = .regex ∧ '\n' ∉ t.text.toList ↔ regexAllowed before.getLast? = true ∧ Closes false line) ∧
        (t.kind = .regex ∧ '\n' ∈ t.text.toList ↔ regexAllowed before.getLast? = true ∧
          ClosesPast false line beyond) := by
  have hread := scanFrom_lexeme file _ (Place.start _) (Nat.lt_succ_self _) hscan
  rw [Option.or_none] at hread
  constructor
  · intro hkind
    rcases hread with ⟨heof, -⟩ | ⟨c, rest, hplace, hkind', -⟩
    · rw [heof] at hkind
      cases hkind
    · obtain rfl := slash_of_regex (hkind'.symm.trans hkind)
      exact ⟨rest, hplace⟩
  intro line beyond hplace hline hbeyond
  rcases hread with ⟨-, hstart⟩ | ⟨c, rest, hplace', hkind, htext⟩
  · -- the mark at the end has no slash behind it
    exact absurd hstart (Nat.ne_of_lt (hplace.lt_iff.mpr (List.cons_ne_nil _ _)))
  obtain ⟨rfl, rfl⟩ := List.cons.inj (rest_eq_of_place hplace' hplace)
  rw [hkind, htext, ← String.toList_inj, htext]
  rcases lexeme_slash_cases before.getLast? (line ++ beyond) with
    ⟨body, tail, heq, hallowed, hbody, hregex, hnewline⟩ | ⟨hnot, hpunct, hslash⟩
  · simp only [hregex, hnewline, hallowed, true_and, true_or]
    have hcases := closes_cases hline hbeyond heq hbody
    constructor
    · refine ⟨fun hout => (hcases.resolve_right fun h => hout h.1).2, fun hcloses => ?_⟩
      obtain ⟨body', tail', heq', hbody', hout⟩ := hcloses.exists_body hline beyond
      rwa [hbody.body_unique hbody' (heq.symm.trans heq')]
    · refine ⟨fun hin => (hcases.resolve_left fun h => h.1 hin).2, fun hcloses => ?_⟩
      obtain ⟨body', tail', heq', hbody', hin⟩ := hcloses.exists_body
      rwa [hbody.body_unique hbody' (heq.symm.trans heq')]
  · rw [hpunct, hslash]
    refine ⟨.inr ⟨rfl, rfl⟩, iff_of_false nofun ?_, iff_of_false nofun ?_⟩
    · rintro ⟨hallowed, hcloses⟩
      obtain ⟨body, tail, heq, hbody, -⟩ := hcloses.exists_body hline beyond
      exact hnot ⟨hallowed, body, tail, heq, hbody⟩
    · rintro ⟨hallowed, hcloses⟩
      obtain ⟨body, tail, heq, hbody, -⟩ := hcloses.exists_body
      exact hnot ⟨hallowed, body, tail, heq, hbody⟩

/-- A class that is open at the end of a line, behind a backslash. -/
theorem regex_lines_openClass :
    let t : Token := ⟨.regex, ⟨0, 4, 12⟩, "/[/\\\n/]/", " ", none, true⟩
    scan 0 "x = /[/\\\n/]/" = [⟨.ident, ⟨0, 0, 1⟩, "x", "", none, true⟩,
        ⟨.punct '=', ⟨0, 2, 3⟩, "=", " ", none, true⟩] ++ t :: [⟨.eof, ⟨0, 12, 12⟩, "", "", none, true⟩] ∧
      Place "x = /[/\\\n/]/".toList t.span.start ('/' :: (['[', '/', '\\'] ++ ['\n', '/', ']', '/'])) ∧
      ClosesPast false ['[', '/', '\\'] ['\n', '/', ']', '/'] := by
  intro t
  have hscan : scan 0 "x = /[/\\\n/]/" = [⟨.ident, ⟨0, 0, 1⟩, "x", "", none, true⟩,
      ⟨.punct '=', ⟨0, 2, 3⟩, "=", " ", none, true⟩] ++ t :: [⟨.eof, ⟨0, 12, 12⟩, "", "", none, true⟩] := by
    decide
  have hplace : Place "x = /[/\\\n/]/".toList t.span.start
      ('/' :: (['[', '/', '\\'] ++ ['\n', '/', ']', '/'])) := ⟨['x', ' ', '=', ' '], rfl, rfl⟩
  exact ⟨hscan, hplace, (((regex_lines 0 _ hscan).2 hplace (by decide) (.inr rfl)).2.2.mp (by decide)).2⟩

/-- A slash, a backslash at the end of the line and a slash at the start of the next one are one token. -/
theorem regex_spans_lines : ¬ ∀ (file : FileId) (source : String), ∀ t ∈ scan file source,
    t.kind = .regex → '\n' ∉ t.text.toList := by
  intro h
  have hscan : scan 0 "/\\\n/" = [⟨.regex, ⟨0, 0, 4⟩, "/\\\n/", "", none, true⟩,
      ⟨.eof, ⟨0, 4, 4⟩, "", "", none, true⟩] := by decide
  exact h 0 "/\\\n/" ⟨.regex, ⟨0, 0, 4⟩, "/\\\n/", "", none, true⟩ (by simp [hscan]) rfl (by decide)

end Recompile.Script
