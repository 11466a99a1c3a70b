import Recompile.Json.Parser
import Recompile.Json.Printer

/-!
Reading back what is written: the indented form of a value is read as that value.
-/

namespace Recompile.Json

theorem hexValue?_hexDigit : ∀ n < 16, hexValue? (hexDigit n) = some n := by
  decide

theorem hex4?_control (n : Nat) (h : n < 0x20) :
    hex4? '0' '0' (hexDigit (n / 16)) (hexDigit (n % 16)) = some n := by
  have hzero : hexValue? '0' = some 0 := by decide
  unfold hex4?
  rw [hzero, hexValue?_hexDigit _ (by omega), hexValue?_hexDigit _ (by omega)]
  simp only [Option.bind_eq_bind, Option.bind_some, Option.pure_def, Option.some.injEq]
  omega

theorem stringUnits_escape (c : Char) (rest : List Char) :
    stringUnits (escape c ++ rest) = (stringUnits rest).map fun r => (c.toNat :: r.1, r.2) := by
  have hletter : ∀ {e : Char} {n : Nat}, e ≠ 'u' → escapeValue? e = some n →
      stringUnits ('\\' :: e :: rest) = (stringUnits rest).map fun r => (n :: r.1, r.2) := by
    intro e n hne hvalue
    rw [stringUnits.eq_3 _ _ (by rintro a b d f r rfl; exact absurd rfl hne), hvalue]
    cases stringUnits rest <;> rfl
  unfold escape
  -- Seven characters have an escape of one letter.
  iterate 7
    split
    · rename_i h
      subst h
      exact hletter (by decide) rfl
  split
  · rename_i h
    show stringUnits ('\\' :: 'u' :: '0' :: '0' :: _ :: _ :: rest) = _
    rw [stringUnits, hex4?_control _ h]
    cases stringUnits rest <;> rfl
  · rename_i hquote hback _ _ _ _ _ hplain
    show stringUnits (c :: rest) = _
    rw [stringUnits.eq_4 _ _ hquote (by rintro a b d e f rfl; exact absurd rfl hback)
      (by rintro e r rfl; exact absurd rfl hback), if_neg hplain]
    cases stringUnits rest <;> rfl

theorem stringUnits_quote (cs rest : List Char) :
    stringUnits (cs.flatMap escape ++ '"' :: rest) = some (cs.map Char.toNat, rest) := by
  induction cs with
  | nil => rfl
  | cons c cs ih =>
    rw [List.flatMap_cons, List.append_assoc, stringUnits_escape, ih]
    rfl

theorem joinUnits_toNat (cs : List Char) : joinUnits (cs.map Char.toNat) = some cs := by
  have hsurrogate : ∀ c : Char, ¬ (0xD800 ≤ c.toNat ∧ c.toNat ≤ 0xDFFF) := by
    rintro c ⟨hlow, hhigh⟩
    rcases c.valid with h | ⟨h, -⟩
    · exact absurd h (by unfold Char.toNat at hlow; omega)
    · exact absurd h (by unfold Char.toNat at hhigh; omega)
  induction cs with
  | nil => rfl
  | cons c cs ih =>
    have hc := hsurrogate c
    cases cs with
    | nil =>
      simp only [List.map_cons, List.map_nil, joinUnits, if_neg hc, Char.ofNat_toNat]
    | cons d cs =>
      simp only [List.map_cons] at ih ⊢
      rw [joinUnits, if_neg (by omega), if_neg (by omega), ih, Char.ofNat_toNat]
      rfl

theorem stringBody_quote (s : String) (rest : List Char) :
    stringBody (s.toList.flatMap escape ++ '"' :: rest) = some (some s, rest) := by
  unfold stringBody
  rw [stringUnits_quote]
  simp only [Option.map_some, joinUnits_toNat, String.ofList_toList]

def Ends (rest : List Char) : Prop := rest = [] ∨ ∃ more, rest = ',' :: more ∨ rest = '\n' :: more

def IsNatural (lexeme : String) : Prop :=
  lexeme = "0" ∨ ∃ d ds, lexeme.toList = d :: ds ∧ d ≠ '0' ∧
    (d :: ds).all Text.isAsciiDigit = true

theorem spanDigits_append {ds rest : List Char} (hds : ds.all Text.isAsciiDigit = true)
    (hrest : Ends rest) : spanDigits (ds ++ rest) = (ds, rest) := by
  have hstop : rest.takeWhile Text.isAsciiDigit = [] ∧ rest.dropWhile Text.isAsciiDigit = rest := by
    rcases hrest with rfl | ⟨more, rfl | rfl⟩
    · exact ⟨rfl, rfl⟩
    · exact ⟨rfl, rfl⟩
    · exact ⟨rfl, rfl⟩
  have hall : ∀ c ∈ ds, Text.isAsciiDigit c = true := List.all_eq_true.mp hds
  unfold spanDigits
  rw [List.takeWhile_append_of_pos hall, List.dropWhile_append_of_pos hall, hstop.1, hstop.2,
    List.append_nil]

theorem fractionPart_ends {rest : List Char} (h : Ends rest) : fractionPart rest = some ([], rest) := by
  rcases h with rfl | ⟨more, rfl | rfl⟩ <;> rfl

theorem exponentPart_ends {rest : List Char} (h : Ends rest) : exponentPart rest = some ([], rest) := by
  rcases h with rfl | ⟨more, rfl | rfl⟩ <;> rfl

theorem numberLexeme_natural {lexeme : String} (h : IsNatural lexeme) {rest : List Char}
    (hrest : Ends rest) : numberLexeme (lexeme.toList ++ rest) = some (.number lexeme, rest) := by
  have hparts : ∃ whole, lexeme.toList = whole ∧ numberSign (whole ++ rest) = ([], whole ++ rest) ∧
      wholePart (whole ++ rest) = some (whole, rest) := by
    rcases h with rfl | ⟨d, ds, hl, hne, hall⟩
    · exact ⟨['0'], rfl, rfl, rfl⟩
    · refine ⟨d :: ds, hl, ?_, ?_⟩
      · have hminus : d ≠ '-' := by
          rintro rfl
          simp [Text.isAsciiDigit] at hall
        rw [List.cons_append, numberSign.eq_2 _ (by rintro r heq; cases heq; exact hminus rfl)]
      · rw [List.cons_append, wholePart.eq_2 _ (by rintro r heq; cases heq; exact hne rfl),
          ← List.cons_append, spanDigits_append hall hrest]
  obtain ⟨whole, hl, hsign, hwhole⟩ := hparts
  unfold numberLexeme
  rw [hl, hsign]
  simp only [hwhole, Option.bind_eq_bind, Option.bind_some, fractionPart_ends hrest,
    exponentPart_ends hrest, List.nil_append, List.append_nil, Option.pure_def]
  rw [← hl, String.ofList_toList]

theorem prettyItems_eq (level : Nat) (items : List Json) :
    prettyItems level items = items.map (prettyChars level) := by
  induction items with
  | nil => rfl
  | cons v rest ih => rw [prettyItems_cons, ih, List.map_cons]

theorem prettyFields_eq (level : Nat) (fields : List (Option String × Json)) :
    prettyFields level fields =
      fields.map fun f => quoteKey f.1 ++ ':' :: ' ' :: prettyChars level f.2 := by
  induction fields with
  | nil => rfl
  | cons f rest ih => rw [prettyFields_cons, ih, List.map_cons]

theorem skipBlank_newline (level : Nat) (cs : List Char) :
    skipBlank (newline level ++ cs) = skipBlank cs := by
  have hblanks : ∀ n, skipBlank (List.replicate n ' ' ++ cs) = skipBlank cs := by
    intro n
    induction n with
    | zero => rfl
    | succ n ih =>
      rw [List.replicate_succ, List.cons_append]
      exact ih
  exact hblanks (2 * level)

theorem skipBlank_skipBlank (cs : List Char) : skipBlank (skipBlank cs) = skipBlank cs := by
  unfold skipBlank
  induction cs with
  | nil => rfl
  | cons c cs ih =>
    by_cases h : isJsonBlank c = true
    · rw [List.dropWhile_cons_of_pos h, ih]
    · rw [List.dropWhile_cons_of_neg h, List.dropWhile_cons_of_neg h]

theorem parseValue_skipBlank (fuel : Nat) (cs : List Char) :
    parseValue fuel (skipBlank cs) = parseValue fuel cs := by
  cases fuel with
  | zero => rfl
  | succ fuel => rw [parseValue, parseValue, skipBlank_skipBlank]

theorem parseItems_skipBlank (fuel : Nat) (cs : List Char) :
    parseItems fuel (skipBlank cs) = parseItems fuel cs := by
  cases fuel with
  | zero => rfl
  | succ fuel => rw [parseItems_succ, parseItems_succ, parseValue_skipBlank]

theorem parseFields_skipBlank (fuel : Nat) (cs : List Char) :
    parseFields fuel (skipBlank cs) = parseFields fuel cs := by
  cases fuel with
  | zero => rfl
  | succ fuel => rw [parseFields, parseFields, skipBlank_skipBlank]

theorem parseItems_newline (fuel level : Nat) (cs : List Char) :
    parseItems fuel (newline level ++ cs) = parseItems fuel cs := by
  rw [← parseItems_skipBlank, skipBlank_newline, parseItems_skipBlank]

theorem parseFields_newline (fuel level : Nat) (cs : List Char) :
    parseFields fuel (newline level ++ cs) = parseFields fuel cs := by
  rw [← parseFields_skipBlank, skipBlank_newline, parseFields_skipBlank]

/-- What it takes for a value to be read back from its indented form, at every level. -/
def ReadBack (v : Json) : Prop :=
  ∀ level rest fuel, Ends rest → 2 * (prettyChars level v).length ≤ fuel →
    parseValue fuel (prettyChars level v ++ rest) = some (v, rest)

def lines (level : Nat) (closer : Char) (items : List (List Char)) (rest : List Char) : List Char :=
  commas (items.map fun item => newline (level + 1) ++ item) ++ newline level ++ closer :: rest

theorem lines_single (level : Nat) (closer : Char) (item rest : List Char) :
    lines level closer [item] rest = newline (level + 1) ++ (item ++ (newline level ++ closer :: rest)) := by
  simp [lines, commas]

theorem lines_cons (level : Nat) (closer : Char) (item next : List Char) (items : List (List Char))
    (rest : List Char) : lines level closer (item :: next :: items) rest =
      newline (level + 1) ++ (item ++ ',' :: lines level closer (next :: items) rest) := by
  simp [lines, commas]

theorem ends_newline (level : Nat) (cs : List Char) : Ends (newline level ++ cs) :=
  .inr ⟨_, .inr rfl⟩

theorem ends_comma (cs : List Char) : Ends (',' :: cs) := .inr ⟨_, .inl rfl⟩

theorem parseItems_lines {level : Nat} {rest : List Char} (items : List Json) :
    ∀ {v : Json} {fuel : Nat}, (∀ w ∈ v :: items, ReadBack w) →
      2 * (lines level ']' ((v :: items).map (prettyChars (level + 1))) []).length ≤ fuel →
      parseItems fuel (lines level ']' ((v :: items).map (prettyChars (level + 1))) rest) =
        some (v :: items, rest) := by
  induction items with
  | nil =>
    intro v fuel h hfuel
    simp only [List.map_cons, List.map_nil, lines_single, List.length_append, List.length_cons] at hfuel ⊢
    obtain ⟨fuel, rfl⟩ : ∃ n, fuel = n + 1 := ⟨fuel - 1, by omega⟩
    have hv := h v (by simp) (level + 1) (newline level ++ ']' :: rest) fuel (ends_newline _ _)
      (by omega)
    rw [parseItems_newline, parseItems_succ, hv]
    simp only [Option.bind_some, skipBlank_newline]
    rfl
  | cons w items ih =>
    intro v fuel h hfuel
    simp only [List.map_cons] at hfuel ih ⊢
    simp only [lines_cons, List.length_append, List.length_cons] at hfuel ⊢
    obtain ⟨fuel, rfl⟩ : ∃ n, fuel = n + 1 := ⟨fuel - 1, by omega⟩
    have hv := h v (by simp) (level + 1) (',' :: lines level ']' (prettyChars (level + 1) w ::
      items.map (prettyChars (level + 1))) rest) fuel (ends_comma _) (by omega)
    have hrest := @ih w fuel (fun u hu => h u (by simp [List.mem_cons.mp hu])) (by omega)
    rw [parseItems_newline, parseItems_succ, hv]
    show (parseItems fuel _).bind _ = _
    rw [hrest]
    rfl

def fieldChars (level : Nat) (f : String × Json) : List Char :=
  quote f.1.toList ++ ':' :: ' ' :: prettyChars level f.2

theorem parseValue_field {level fuel : Nat} {f : String × Json} (h : ReadBack f.2) {rest : List Char}
    (hrest : Ends rest) (hfuel : 2 * (fieldChars level f).length ≤ fuel + 1) :
    parseValue fuel (' ' :: (prettyChars level f.2 ++ rest)) = some (f.2, rest) := by
  have hlength : 2 * (prettyChars level f.2).length ≤ fuel := by
    simp only [fieldChars, quote, List.length_append, List.length_cons] at hfuel
    omega
  have hv := h level rest fuel hrest hlength
  rw [← parseValue_skipBlank] at hv ⊢
  exact hv

theorem parseFields_close {level outer fuel : Nat} {f : String × Json} (h : ReadBack f.2)
    (rest : List Char) (hfuel : 2 * (fieldChars level f).length ≤ fuel + 1) :
    parseFields (fuel + 1) (fieldChars level f ++ (newline outer ++ '\x7d' :: rest)) =
      some ([(some f.1, f.2)], rest) := by
  have hvalue := parseValue_field h (ends_newline outer ('\x7d' :: rest)) hfuel
  unfold fieldChars quote
  simp only [List.cons_append, List.append_assoc, List.nil_append]
  rw [parseFields_quote, stringBody_quote]
  show (parseValue fuel (' ' :: (prettyChars level f.2 ++ _))).bind _ = _
  rw [hvalue]
  simp only [Option.bind_some, skipBlank_newline]
  rfl

theorem parseFields_comma {level fuel : Nat} {f : String × Json} (h : ReadBack f.2)
    {more rest : List Char} {fields : List (Option String × Json)}
    (hfuel : 2 * (fieldChars level f).length ≤ fuel + 1)
    (hmore : parseFields fuel more = some (fields, rest)) :
    parseFields (fuel + 1) (fieldChars level f ++ ',' :: more) =
      some ((some f.1, f.2) :: fields, rest) := by
  have hvalue := parseValue_field h (ends_comma more) hfuel
  unfold fieldChars quote
  simp only [List.cons_append, List.append_assoc, List.nil_append]
  rw [parseFields_quote, stringBody_quote]
  show (parseValue fuel (' ' :: (prettyChars level f.2 ++ _))).bind _ = _
  rw [hvalue]
  show (parseFields fuel more).bind _ = _
  rw [hmore]
  rfl

theorem parseFields_lines {level : Nat} {rest : List Char} (fields : List (String × Json)) :
    ∀ {f : String × Json} {fuel : Nat}, (∀ g ∈ f :: fields, ReadBack g.2) →
      2 * (lines level '\x7d' ((f :: fields).map (fieldChars (level + 1))) []).length ≤ fuel →
      parseFields fuel (lines level '\x7d' ((f :: fields).map (fieldChars (level + 1))) rest) =
        some ((f :: fields).map fun g => (some g.1, g.2), rest) := by
  induction fields with
  | nil =>
    intro f fuel h hfuel
    simp only [List.map_cons, List.map_nil, lines_single, List.length_append, List.length_cons] at hfuel ⊢
    obtain ⟨fuel, rfl⟩ : ∃ n, fuel = n + 1 := ⟨fuel - 1, by omega⟩
    rw [parseFields_newline]
    exact parseFields_close (h f (by simp)) rest (by omega)
  | cons g fields ih =>
    intro f fuel h hfuel
    simp only [List.map_cons] at hfuel ih ⊢
    simp only [lines_cons, List.length_append, List.length_cons] at hfuel ⊢
    obtain ⟨fuel, rfl⟩ : ∃ n, fuel = n + 1 := ⟨fuel - 1, by omega⟩
    have hrest := @ih g fuel (fun u hu => h u (by simp [List.mem_cons.mp hu])) (by omega)
    rw [parseFields_newline]
    exact parseFields_comma (h f (by simp)) (by omega) hrest

theorem parseItems_closed (fuel : Nat) (rest : List Char) : parseItems fuel (']' :: rest) = none := by
  rcases fuel with _ | _ | fuel <;> rfl

theorem parseFields_closed (fuel : Nat) (rest : List Char) :
    parseFields fuel ('\x7d' :: rest) = none := by
  cases fuel <;> rfl

theorem parseValue_items {fuel : Nat} {cs rest : List Char} {items : List Json}
    (h : parseItems fuel cs = some (items, rest)) :
    parseValue (fuel + 1) ('[' :: cs) = some (.array items, rest) := by
  rw [← parseItems_skipBlank] at h
  rw [parseValue_bracket]
  split
  · rename_i heq
    rw [heq, parseItems_closed] at h
    cases h
  · rw [h]
    rfl

theorem parseValue_fields {fuel : Nat} {cs rest : List Char} {fields : List (Option String × Json)}
    (h : parseFields fuel cs = some (fields, rest)) :
    parseValue (fuel + 1) ('\x7b' :: cs) = some (.object fields, rest) := by
  rw [← parseFields_skipBlank] at h
  rw [parseValue_brace]
  split
  · rename_i heq
    rw [heq, parseFields_closed] at h
    cases h
  · rw [h]
    rfl

theorem readBack_array {items : List Json} (h : ∀ v ∈ items, ReadBack v) :
    ReadBack (.array items) := by
  intro level rest fuel hrest hfuel
  cases items with
  | nil =>
    have hlength : (prettyChars level (.array [])).length = 2 := rfl
    obtain ⟨fuel, rfl⟩ : ∃ n, fuel = n + 1 := ⟨fuel - 1, by omega⟩
    rfl
  | cons v items =>
    have hchars : ∀ tail, prettyChars level (.array (v :: items)) ++ tail =
        '[' :: lines level ']' ((v :: items).map (prettyChars (level + 1))) tail := by
      intro tail
      rw [prettyChars_array, prettyItems_eq]
      simp [block, lines]
    have hlength := congrArg List.length (hchars [])
    simp only [List.append_nil, List.length_cons] at hlength
    obtain ⟨fuel, rfl⟩ : ∃ n, fuel = n + 1 := ⟨fuel - 1, by omega⟩
    rw [hchars]
    exact parseValue_items (parseItems_lines items h (by omega))

theorem readBack_record {fields : List (String × Json)} (h : ∀ f ∈ fields, ReadBack f.2) :
    ReadBack (record fields) := by
  intro level rest fuel hrest hfuel
  cases fields with
  | nil =>
    have hlength : (prettyChars level (record [])).length = 2 := rfl
    obtain ⟨fuel, rfl⟩ : ∃ n, fuel = n + 1 := ⟨fuel - 1, by omega⟩
    rfl
  | cons f fields =>
    have hchars : ∀ tail, prettyChars level (record (f :: fields)) ++ tail =
        '\x7b' :: lines level '\x7d' ((f :: fields).map (fieldChars (level + 1))) tail := by
      intro tail
      rw [record, prettyChars_object, prettyFields_eq, List.map_map]
      simp [block, lines, fieldChars, quoteKey, Function.comp_def]
    have hlength := congrArg List.length (hchars [])
    simp only [List.append_nil, List.length_cons] at hlength
    obtain ⟨fuel, rfl⟩ : ∃ n, fuel = n + 1 := ⟨fuel - 1, by omega⟩
    rw [hchars]
    exact parseValue_fields (parseFields_lines fields h (by omega))

theorem readBack_number {lexeme : String} (h : IsNatural lexeme) : ReadBack (.number lexeme) := by
  intro level rest fuel hrest hfuel
  have hdigit : ∃ d ds, lexeme.toList = d :: ds ∧ Text.isAsciiDigit d = true := by
    rcases h with rfl | ⟨d, ds, hl, -, hall⟩
    · exact ⟨'0', [], rfl, rfl⟩
    · exact ⟨d, ds, hl, by simp at hall; exact hall.1⟩
  obtain ⟨d, ds, hl, hd⟩ := hdigit
  have hlength : (prettyChars level (.number lexeme)).length = ds.length + 1 := by
    rw [prettyChars_number, hl]
    rfl
  obtain ⟨fuel, rfl⟩ : ∃ n, fuel = n + 1 := ⟨fuel - 1, by omega⟩
  rw [prettyChars_number, ← numberLexeme_natural h hrest, hl]
  exact parseValue_digit fuel (ds ++ rest) hd

theorem readBack_text (s : String) : ReadBack (text s) := by
  intro level rest fuel hrest hfuel
  have hchars : prettyChars level (text s) ++ rest =
      '"' :: (s.toList.flatMap escape ++ '"' :: rest) := by
    simp [text, prettyChars_string, quoteKey, quote]
  have hlength : 2 ≤ (prettyChars level (text s)).length := by
    simp [text, prettyChars_string, quoteKey, quote]
  obtain ⟨fuel, rfl⟩ : ∃ n, fuel = n + 1 := ⟨fuel - 1, by omega⟩
  rw [hchars, parseValue_quote, stringBody_quote]
  rfl

theorem parse?_pretty {v : Json} (h : ReadBack v) : parse? v.pretty = some v := by
  have hread := h 0 [] (2 * (prettyChars 0 v).length + 2) (.inl rfl) (by omega)
  unfold parse? pretty
  simp only [String.toList_ofList]
  rw [List.append_nil] at hread
  rw [hread]
  rfl

end Recompile.Json
