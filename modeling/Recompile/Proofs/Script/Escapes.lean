import Recompile.Proofs.Text.Cuts
import Recompile.Script.Literal
import Recompile.Script.Scanner

/-!
The bodies of quoted texts. A body is a sequence of plain characters and of escapes of one character
each, and its value is made up in the same order. A quoted text is closed exactly when it is a body
followed by its quote.
-/

namespace Recompile.Script

open Text (width)

/-- The text between two quotes: escapes, and plain characters that pass a test. -/
inductive Body (plain : Char → Prop) : List Char → Prop where
  | nil : Body plain []
  | plain {c : Char} {cs : List Char} (unescaped : c ≠ '\\') (passes : plain c) (rest : Body plain cs) :
      Body plain (c :: cs)
  | escape {c : Char} {cs : List Char} (rest : Body plain cs) : Body plain ('\\' :: c :: cs)

variable {plain : Char → Prop} {c quote : Char} {cs : List Char}

theorem Body.append (h : Body plain cs) {ds : List Char} (h' : Body plain ds) : Body plain (cs ++ ds) := by
  induction h with
  | nil => exact h'
  | plain unescaped passes _ ih => exact .plain unescaped passes ih
  | escape _ ih => exact .escape ih

theorem Body.flatMap {f : Char → List Char} (h : ∀ c, Body plain (f c)) (cs : List Char) :
    Body plain (cs.flatMap f) := by
  induction cs with
  | nil => exact .nil
  | cons c cs ih => exact (h c).append ih

def escaped (c : Char) : List Char :=
  if c = 'n' then ['\n']
  else if c = 'r' then ['\r']
  else if c = 't' then ['\t']
  else if c = '0' then ['\x00']
  else if c = '\n' then []
  else [c]

theorem unescape_plain (hc : c ≠ '\\') (cs : List Char) : unescape (c :: cs) = c :: unescape cs := by
  rw [unescape]
  · rintro rfl
    exact absurd rfl hc
  · rintro _ _ rfl
    exact absurd rfl hc

theorem unescape_escape (c : Char) (cs : List Char) :
    unescape ('\\' :: c :: cs) = escaped c ++ unescape cs := by
  rw [unescape_backslash, escaped]
  repeat' split
  all_goals rfl

theorem Body.unescape_append (h : Body plain cs) (ds : List Char) :
    unescape (cs ++ ds) = unescape cs ++ unescape ds := by
  induction h with
  | nil => rfl
  | plain unescaped _ _ ih =>
    rw [List.cons_append, unescape_plain unescaped, unescape_plain unescaped, ih, List.cons_append]
  | escape _ ih =>
    rw [List.cons_append, List.cons_append, unescape_escape, unescape_escape, ih, List.append_assoc]

theorem Body.unescape_flatMap {f : Char → List Char} (h : ∀ c, Body plain (f c)) (cs : List Char) :
    unescape (cs.flatMap f) = cs.flatMap fun c => unescape (f c) := by
  induction cs with
  | nil => rfl
  | cons c cs ih => rw [List.flatMap_cons, (h c).unescape_append, ih, List.flatMap_cons]

theorem unescape_eq_self (h : '\\' ∉ cs) : unescape cs = cs := by
  induction cs with
  | nil => rfl
  | cons c cs ih =>
    obtain ⟨hc, hcs⟩ := not_or.mp (List.mem_cons.not.mp h)
    rw [unescape_plain (Ne.symm hc), ih hcs]

theorem escaped_cases (c : Char) :
    escaped c = [] ∨ ∃ d, escaped c = [d] ∧ d.utf8Size ≤ c.utf8Size := by
  unfold escaped
  split
  · exact .inr ⟨'\n', rfl, c.utf8Size_pos⟩
  split
  · exact .inr ⟨'\r', rfl, c.utf8Size_pos⟩
  split
  · exact .inr ⟨'\t', rfl, c.utf8Size_pos⟩
  split
  · exact .inr ⟨'\x00', rfl, c.utf8Size_pos⟩
  split
  · exact .inl rfl
  · exact .inr ⟨c, rfl, Nat.le_refl _⟩

theorem Body.split (h : Body plain cs) : ∀ {xs ys : List Char}, unescape cs = xs ++ ys →
    ∃ lead rest, cs = lead ++ rest ∧ Body plain lead ∧ Body plain rest ∧ unescape lead = xs ∧
      unescape rest = ys := by
  induction h with
  | nil =>
    intro xs ys hvalue
    obtain ⟨rfl, rfl⟩ := List.append_eq_nil_iff.mp hvalue.symm
    exact ⟨[], [], rfl, .nil, .nil, rfl, rfl⟩
  | @plain c cs unescaped passes rest ih =>
    intro xs ys hvalue
    rw [unescape_plain unescaped] at hvalue
    rcases List.cons_eq_append_iff.mp hvalue with ⟨rfl, rfl⟩ | ⟨xs', rfl, hrest⟩
    · exact ⟨[], c :: cs, rfl, .nil, .plain unescaped passes rest, rfl, unescape_plain unescaped cs⟩
    · obtain ⟨lead, tail, rfl, hlead, htail, rfl, rfl⟩ := ih hrest
      exact ⟨c :: lead, tail, rfl, .plain unescaped passes hlead, htail, unescape_plain unescaped lead, rfl⟩
  | @escape c cs rest ih =>
    intro xs ys hvalue
    rw [unescape_escape] at hvalue
    -- The cut is before the escape or after it, since it stands for one character at most.
    have hcut : xs = [] ∨ ∃ xs', xs = escaped c ++ xs' ∧ unescape cs = xs' ++ ys := by
      rcases escaped_cases c with hnone | ⟨d, hone, -⟩
      · rw [hnone] at hvalue ⊢
        exact .inr ⟨xs, rfl, hvalue⟩
      · rw [hone] at hvalue ⊢
        rcases List.cons_eq_append_iff.mp hvalue with ⟨rfl, -⟩ | ⟨xs', rfl, hrest⟩
        · exact .inl rfl
        · exact .inr ⟨xs', rfl, hrest⟩
    rcases hcut with rfl | ⟨xs', rfl, hrest⟩
    · exact ⟨[], _, rfl, .nil, .escape rest, rfl, (unescape_escape c cs).trans hvalue⟩
    · obtain ⟨lead, tail, rfl, hlead, htail, rfl, rfl⟩ := ih hrest
      exact ⟨'\\' :: c :: lead, tail, rfl, .escape hlead, htail, unescape_escape c lead, rfl⟩

/-- A value takes as many bytes as its body when nothing is escaped, and fewer otherwise. -/
theorem Body.width_unescape (h : Body plain cs) : width (unescape cs) ≤ width cs ∧
    (width (unescape cs) = width cs ↔ '\\' ∉ cs) := by
  induction h with
  | nil => simp
  | @plain c cs unescaped _ _ ih =>
    obtain ⟨hle, hiff⟩ := ih
    have hmem : '\\' ∉ c :: cs ↔ '\\' ∉ cs := by simp [Ne.symm unescaped]
    rw [unescape_plain unescaped, Text.width_cons, Text.width_cons, hmem, ← hiff]
    omega
  | @escape c cs _ ih =>
    have hshort : width (escaped c) ≤ c.utf8Size := by
      rcases escaped_cases c with hnone | ⟨d, hone, hle⟩
      · simp [hnone]
      · simpa [hone] using hle
    have hlt : width (unescape ('\\' :: c :: cs)) < width ('\\' :: c :: cs) := by
      rw [unescape_escape, Text.width_append, Text.width_cons, Text.width_cons]
      have hone : Char.utf8Size '\\' = 1 := rfl
      omega
    exact ⟨Nat.le_of_lt hlt, fun heq => absurd heq (Nat.ne_of_lt hlt),
      fun hno => absurd List.mem_cons_self hno⟩

theorem exists_body : ∀ cs : List Char, ∃ body tail, cs = body ++ tail ∧ Body (fun _ => True) body ∧
    (tail = [] ∨ tail = ['\\'])
  | [] => ⟨[], [], rfl, .nil, .inl rfl⟩
  | [c] => by
    by_cases hc : c = '\\'
    · exact ⟨[], [c], rfl, .nil, .inr (by rw [hc])⟩
    · exact ⟨[c], [], rfl, .plain hc trivial .nil, .inl rfl⟩
  | c :: d :: cs => by
    by_cases hc : c = '\\'
    · obtain ⟨body, tail, rfl, hbody, htail⟩ := exists_body cs
      exact ⟨c :: d :: body, tail, rfl, hc ▸ .escape hbody, htail⟩
    · obtain ⟨body, tail, heq, hbody, htail⟩ := exists_body (d :: cs)
      exact ⟨c :: body, tail, by rw [heq, List.cons_append], .plain hc trivial hbody, htail⟩

theorem exists_spelling {before name after : List Char} (h : unescape cs = before ++ (name ++ after))
    (hne : name ≠ []) (hname : '\\' ∉ name) : ∃ lead written rest, cs = lead ++ (written ++ rest) ∧
      Body (fun _ => True) lead ∧ Body (fun _ => True) written ∧ unescape lead = before ∧
      unescape written = name := by
  obtain ⟨body, tail, rfl, hbody, htail⟩ := exists_body cs
  -- A backslash at the end of the text is a character of the value, after the part.
  have hvalue : ∃ after', unescape body = before ++ (name ++ after') := by
    rw [hbody.unescape_append] at h
    rcases htail with rfl | rfl
    · exact ⟨after, by simpa [unescape] using h⟩
    · rw [show unescape ['\\'] = ['\\'] from rfl] at h
      rcases List.eq_nil_or_concat after with rfl | ⟨after', c, rfl⟩
      · obtain ⟨init, c, rfl⟩ := (List.eq_nil_or_concat name).resolve_left hne
        rw [List.concat_eq_append] at h hname
        rw [List.append_nil, ← List.append_assoc] at h
        obtain ⟨-, hlast⟩ := List.append_inj' h rfl
        rw [← List.cons.inj hlast |>.1] at hname
        exact absurd (List.mem_append_right init List.mem_cons_self) hname
      · rw [List.concat_eq_append, ← List.append_assoc, ← List.append_assoc] at h
        obtain ⟨hinit, -⟩ := List.append_inj' h rfl
        exact ⟨after', by rw [hinit, List.append_assoc]⟩
  obtain ⟨after', hvalue⟩ := hvalue
  obtain ⟨lead, cs, rfl, hlead, hcs, rfl, hrest⟩ := hbody.split hvalue
  obtain ⟨written, rest, rfl, hwritten, -, rfl, -⟩ := hcs.split hrest
  exact ⟨lead, written, rest ++ tail, by simp, hlead, hwritten, rfl, rfl⟩

def Within (quote : Char) (multiline : Bool) (c : Char) : Prop :=
  c ≠ quote ∧ (c = '\n' → multiline = true)

theorem quotedTail_body {multiline : Bool} (hquote : quote ≠ '\\') (hline : quote ≠ '\n')
    (h : Body (Within quote multiline) cs) (rest : List Char) :
    quotedTail quote multiline (cs ++ quote :: rest) = (cs ++ [quote], rest, true) := by
  induction h with
  | nil =>
    rw [List.nil_append, quotedTail, if_neg fun h => hline h.1, if_pos rfl, List.nil_append]
    · rintro rfl
      exact absurd rfl hquote
    · rintro _ _ rfl
      exact absurd rfl hquote
  | @plain c cs unescaped passes _ ih =>
    have hopen : ¬ (c = '\n' ∧ multiline = false) := by
      rintro ⟨hc, hmultiline⟩
      rw [passes.2 hc] at hmultiline
      cases hmultiline
    rw [List.cons_append, quotedTail, if_neg hopen, if_neg passes.1, ih]
    · rfl
    · rintro rfl
      exact absurd rfl unescaped
    · rintro _ _ rfl
      exact absurd rfl unescaped
  | escape _ ih =>
    rw [List.cons_append, List.cons_append, quotedTail, ih]
    rfl

end Recompile.Script
