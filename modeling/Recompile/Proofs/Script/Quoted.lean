import Recompile.Json.Printer
import Recompile.Proofs.Script.Escapes
import Recompile.Script.Delimiters

/-!
Texts written into a script as quoted strings. Scanning such a string comes to one literal and the
end, whatever the text is, and the value of the literal is the text unless that holds a control
character other than a line break, a carriage return or a tab.
-/

namespace Recompile

open Script (Body Within Token unescape escaped)

namespace Json

def Rereads (c : Char) : Prop := 0x20 ≤ c.toNat ∨ c ∈ ['\n', '\r', '\t']

theorem hexDigit_plain : ∀ n < 16, hexDigit n ≠ '\\' ∧ hexDigit n ≠ '"' ∧ hexDigit n ≠ '\n' ∧
    0x20 ≤ (hexDigit n).toNat := by
  decide

inductive Written (c : Char) : List Char → Prop where
  | letter {e : Char} (reads : Rereads c → escaped e = [c]) (kept : ∀ x ∈ escaped e, Rereads x) :
      Written c ['\\', e]
  | code {a b : Char} (control : ¬ Rereads c) (first : ∃ n < 16, a = hexDigit n)
      (second : ∃ n < 16, b = hexDigit n) : Written c ['\\', 'u', '0', '0', a, b]
  | plain (unescaped : c ≠ '\\') (within : Within '"' false c) (kept : Rereads c) : Written c [c]

theorem written_escape (c : Char) : Written c (escape c) := by
  have hcode : ∀ d : Char, d.toNat < 0x20 → d ∉ ['\n', '\r', '\t'] → ¬ Rereads d := by
    rintro d hlow hnot (hle | hmem)
    · omega
    · exact hnot hmem
  have hletter : ∀ {e : Char}, escaped e = [c] → Rereads c → Written c ['\\', e] :=
    fun heq hc => .letter (fun _ => heq) fun x hx => by
      rw [heq, List.mem_singleton] at hx
      exact hx ▸ hc
  unfold escape
  split
  · rename_i h
    exact hletter (by subst h; rfl) (.inl (by subst h; decide))
  split
  · rename_i h
    exact hletter (by subst h; rfl) (.inl (by subst h; decide))
  split
  · rename_i h
    exact hletter (by subst h; rfl) (.inr (by simp [h]))
  split
  · rename_i h
    exact hletter (by subst h; rfl) (.inr (by simp [h]))
  split
  · rename_i h
    exact hletter (by subst h; rfl) (.inr (by simp [h]))
  split
  · rename_i h
    subst h
    exact .letter (fun hc => absurd hc (hcode _ (by decide) (by decide))) fun x hx => by
      rw [List.mem_singleton.mp hx]
      exact .inl (by decide)
  split
  · rename_i h
    subst h
    exact .letter (fun hc => absurd hc (hcode _ (by decide) (by decide))) fun x hx => by
      rw [List.mem_singleton.mp hx]
      exact .inl (by decide)
  split
  · rename_i hn hr ht _ _ h
    exact .code (hcode c h (by simp [hn, hr, ht])) ⟨_, by omega, rfl⟩ ⟨_, by omega, rfl⟩
  · rename_i hquote hback hn _ _ _ _ h
    exact .plain hback ⟨hquote, fun h => absurd h hn⟩ (.inl (Nat.le_of_not_lt h))

variable {c : Char} {cs : List Char}

theorem Written.body (h : Written c cs) : Body (Within '"' false) cs := by
  cases h with
  | letter => exact .escape .nil
  | code _ first second =>
    obtain ⟨n, hn, rfl⟩ := first
    obtain ⟨m, hm, rfl⟩ := second
    obtain ⟨hback, hquote, hline, -⟩ := hexDigit_plain n hn
    obtain ⟨hback', hquote', hline', -⟩ := hexDigit_plain m hm
    have hzero : Within '"' false '0' := ⟨by decide, fun h => absurd h (by decide)⟩
    exact .escape (.plain (by decide) hzero (.plain (by decide) hzero
      (.plain hback ⟨hquote, fun h => absurd h hline⟩
        (.plain hback' ⟨hquote', fun h => absurd h hline'⟩ .nil))))
  | plain unescaped within => exact .plain unescaped within .nil

theorem Written.unescape_eq (h : Written c cs) (hc : Rereads c) : unescape cs = [c] := by
  cases h with
  | letter reads => rw [Script.unescape_escape, reads hc, Script.unescape_nil, List.append_nil]
  | code control => exact absurd hc control
  | plain unescaped => rw [Script.unescape_plain unescaped, Script.unescape_nil]

theorem Written.rereads (h : Written c cs) : ∀ x ∈ unescape cs, Rereads x := by
  cases h with
  | letter _ kept =>
    rw [Script.unescape_escape, Script.unescape_nil, List.append_nil]
    exact kept
  | code _ first second =>
    obtain ⟨n, hn, rfl⟩ := first
    obtain ⟨m, hm, rfl⟩ := second
    obtain ⟨hback, -, -, hlow⟩ := hexDigit_plain n hn
    obtain ⟨hback', -, -, hlow'⟩ := hexDigit_plain m hm
    have hvalue : unescape ['\\', 'u', '0', '0', hexDigit n, hexDigit m] =
        ['u', '0', '0', hexDigit n, hexDigit m] := by
      rw [Script.unescape_escape, Script.unescape_plain (by decide), Script.unescape_plain (by decide),
        Script.unescape_plain hback, Script.unescape_plain hback']
      rfl
    intro x hx
    simp only [hvalue, List.mem_cons, List.not_mem_nil, or_false] at hx
    rcases hx with rfl | rfl | rfl | rfl | rfl
    · exact .inl (by decide)
    · exact .inl (by decide)
    · exact .inl (by decide)
    · exact .inl hlow
    · exact .inl hlow'
  | plain unescaped _ kept =>
    rw [Script.unescape_plain unescaped, Script.unescape_nil]
    intro x hx
    exact List.mem_singleton.mp hx ▸ kept

theorem unescape_flatMap_escape_iff (cs : List Char) :
    unescape (cs.flatMap escape) = cs ↔ ∀ c ∈ cs, Rereads c := by
  rw [Body.unescape_flatMap (fun c => (written_escape c).body)]
  constructor
  · intro h c hc
    rw [← h] at hc
    obtain ⟨d, -, hmem⟩ := List.mem_flatMap.mp hc
    exact (written_escape d).rereads c hmem
  · intro h
    induction cs with
    | nil => rfl
    | cons c cs ih =>
      rw [List.flatMap_cons, (written_escape c).unescape_eq (h c List.mem_cons_self),
        ih fun d hd => h d (List.mem_cons_of_mem c hd), List.singleton_append]

end Json

namespace Script

open Text (width)

theorem scan_string (file : FileId) {source : String} {text : List Char}
    (hsource : source.toList = '"' :: text) (h : quotedTail '"' false text = (text, [], true)) :
    scan file source = [⟨.string, ⟨file, 0, width source.toList⟩, source, "", none, true⟩,
      ⟨.eof, ⟨file, width source.toList, width source.toList⟩, "", "", none, true⟩] := by
  have hlexeme : lexeme none '"' text = ⟨.string, '"' :: text, [], true⟩ := by
    rw [lexeme, if_neg (by decide), if_neg (by simp [startsNumber, Text.isAsciiDigit]),
      if_pos (.inl rfl), h]
  have hgap : ∀ pos, skipGap pos .plain ('"' :: text) = ⟨[], '"' :: text, none⟩ :=
    fun _ => rfl
  have hlist : String.ofList ('"' :: text) = source := by rw [← hsource, String.ofList_toList]
  rw [scan, hsource, List.length_cons, scanFrom, hgap]
  dsimp only
  rw [hlexeme]
  dsimp only
  rw [scanFrom, hlist]
  simp [skipGap_nil]

/-- A text cannot break out of its quoted form. Scanning the form gives no findings, one closed
string literal that is all of it, and the end. The value of the literal is the text exactly when no
character of the text is a control character but for line breaks, carriage returns and tabs. -/
theorem scan_quoted (file : FileId) (t : String) :
    let literal := Json.quoted t
    let size := width literal.toList
    let token : Token := ⟨.string, ⟨file, 0, size⟩, literal, "", none, true⟩
    scan file literal = [token, ⟨.eof, ⟨file, size, size⟩, "", "", none, true⟩] ∧
      faults (scan file literal) = [] ∧
      (token.literal? = some t ↔ ∀ c ∈ t.toList, 0x20 ≤ c.toNat ∨ c ∈ ['\n', '\r', '\t']) := by
  intro literal size token
  have hbody : Body (Within '"' false) (t.toList.flatMap Json.escape) :=
    .flatMap (fun c => (Json.written_escape c).body) _
  have htext : literal.toList = '"' :: (t.toList.flatMap Json.escape ++ ['"']) := by
    simp [literal, Json.quoted, Json.quote]
  have hscan := scan_string file htext (quotedTail_body (by decide) (by decide) hbody [])
  refine ⟨hscan, ?_, ?_⟩
  · rw [hscan]
    rfl
  · have hvalue : literalBody literal.toList = t.toList.flatMap Json.escape := by
      have hplace : Text.Place literal.toList 1 (t.toList.flatMap Json.escape ++ ['"']) :=
        ⟨['"'], htext, rfl⟩
      have hsize : width literal.toList - 1 = 1 + width (t.toList.flatMap Json.escape) := by
        have := hplace.pos_add_width
        rw [Text.width_append] at this
        have hone : width ['"'] = 1 := rfl
        omega
      rw [literalBody, hsize, hplace.slice?]
      rfl
    have hread : token.literal? = some (String.ofList (unescape (literalBody literal.toList))) := rfl
    rw [hread, hvalue, Option.some.injEq, ← String.toList_inj, String.toList_ofList]
    exact Json.unescape_flatMap_escape_iff t.toList

end Script

end Recompile
