import Recompile.Proofs.Script.Tiling
import Recompile.Proofs.Text.Octets

/-!
Scanning byte by byte. The bytes of a character outside the ASCII range never start or end anything,
so a scanner that looks at single bytes, and may stop in the middle of a character, finds the same
tokens as one that looks at characters.
-/

namespace Recompile

/-- Repeats a step until it gives a result. -/
def repeatStep {σ α : Type} (step : σ → Checked (σ ⊕ α)) : Nat → σ → Checked α
  | 0, _ => .error .unfinished
  | fuel + 1, state => do
      match ← step state with
      | .inl next => repeatStep step fuel next
      | .inr result => return result

section

variable {σ α : Type} {step : σ → Checked (σ ⊕ α)}

theorem repeatStep_next {state next : σ} (h : step state = .ok (.inl next)) (fuel : Nat) :
    repeatStep step (fuel + 1) state = repeatStep step fuel next := by
  rw [repeatStep, h]
  rfl

theorem repeatStep_done {state : σ} {result : α} (h : step state = .ok (.inr result)) (fuel : Nat) :
    repeatStep step (fuel + 1) state = .ok result := by
  rw [repeatStep, h]
  rfl

theorem repeatStep_pass {state : Nat → σ} {pos : Nat} (n fuel : Nat)
    (h : ∀ k < n, step (state (pos + k)) = .ok (.inl (state (pos + k + 1)))) :
    repeatStep step (fuel + n) (state pos) = repeatStep step fuel (state (pos + n)) := by
  induction n generalizing pos with
  | zero => rfl
  | succ n ih =>
    have hfirst : step (state pos) = .ok (.inl (state (pos + 1))) := h 0 (Nat.succ_pos n)
    have hrest : ∀ k < n, step (state (pos + 1 + k)) = .ok (.inl (state (pos + 1 + k + 1))) := by
      intro k hk
      rw [Nat.add_right_comm pos 1 k]
      exact h (k + 1) (by omega)
    rw [← Nat.add_assoc, repeatStep_next hfirst, ih hrest, Nat.add_right_comm, Nat.add_assoc]

end

namespace Script

open Text (width octets isAscii Place Coarse passWhile charOctets)

def peek (bytes : List Char) (pos : Nat) : Char := (bytes[pos]?).getD '\x00'

/-- Goes over a comment that runs up to its closing mark; also says whether there is one. -/
def blockStep (bytes : List Char) (pos : Nat) : Checked (Nat ⊕ Nat × Bool) :=
  if bytes.length ≤ pos then return .inr (pos, false)
  else do
    if (← Checked.get bytes pos) = '*' && peek bytes (pos + 1) = '/' then return .inr (pos + 2, true)
    else return .inl (pos + 1)

/-- Goes over a quoted text after its opening quote; also says whether there is a closing one. -/
def quotedStep (quote : Char) (multiline : Bool) (bytes : List Char) (pos : Nat) :
    Checked (Nat ⊕ Nat × Bool) :=
  if bytes.length ≤ pos then return .inr (pos, false)
  else do
    let b ← Checked.get bytes pos
    if b = '\n' && !multiline then return .inr (pos, false)
    else if b = '\\' then return .inl (min (pos + 2) bytes.length)
    else if b = quote then return .inr (pos + 1, true)
    else return .inl (pos + 1)

/-- Goes over a regular expression after its opening slash; no result if the line ends first. -/
def regexStep (bytes : List Char) (state : Nat × Bool) : Checked ((Nat × Bool) ⊕ Option Nat) :=
  match bytes[state.1]? with
  | none => return .inr none
  | some b =>
      if b = '\n' then return .inr none
      else if b = '\\' then return .inl (state.1 + 2, state.2)
      else if b = '[' then return .inl (state.1 + 1, true)
      else if b = ']' then return .inl (state.1 + 1, false)
      else if b = '/' && !state.2 then return .inr (some (state.1 + 1))
      else return .inl (state.1 + 1, state.2)

/-- Goes over blanks and comments; also says where a comment starts that is left open. -/
def gapEnd (bytes : List Char) : Nat → Nat → Checked (Nat × Option Nat)
  | 0, _ => .error .unfinished
  | fuel + 1, pos => do
      let pos ← passWhile Text.isAsciiBlank bytes (bytes.length + 1) pos
      if peek bytes pos = '/' && peek bytes (pos + 1) = '/' then
        gapEnd bytes fuel (← passWhile (· != '\n') bytes (bytes.length + 1) pos)
      else if peek bytes pos = '/' && peek bytes (pos + 1) = '*' then
        let (stop, closed) ← repeatStep (blockStep bytes) (bytes.length + 1) (pos + 2)
        let (stop, comment) ← gapEnd bytes fuel stop
        return (stop, if closed then comment else some pos)
      else return (pos, none)

structure Mark where
  kind : TokenKind
  span : Span
  openComment : Option Nat
  closed : Bool
deriving DecidableEq, Repr

def Token.mark (t : Token) : Mark := ⟨t.kind, t.span, t.openComment, t.closed⟩

def regexMayFollow (bytes : List Char) : Option Mark → Checked Bool
  | none => return true
  | some m =>
      match m.kind with
      | .punct mark => return !(mark = ')' || mark = ']' || mark = '\x7d')
      | .ident => do
          let word ← Checked.part bytes m.span.start m.span.stop
          return wordsBeforeValue.any fun w => w.toList = word
      | _ => return false

def lexemeEnd (bytes : List Char) (previous : Option Mark) (pos : Nat) :
    Checked (TokenKind × Nat × Bool) := do
  let b := peek bytes pos
  if isNameStart b then
    return (.ident, ← passWhile isNameChar bytes (bytes.length + 1) pos, true)
  else if Text.isAsciiDigit b || (b = '.' && Text.isAsciiDigit (peek bytes (pos + 1))) then
    return (.number, ← passWhile isNumberChar bytes (bytes.length + 1) pos, true)
  else if b = '"' || b = '\'' then
    let (stop, closed) ← repeatStep (quotedStep b false bytes) (bytes.length + 1) (pos + 1)
    return (.string, stop, closed)
  else if b = '\x60' then
    let (stop, closed) ← repeatStep (quotedStep b true bytes) (bytes.length + 1) (pos + 1)
    return (.template, stop, closed)
  else if b = '/' && (← regexMayFollow bytes previous) then
    match ← repeatStep (regexStep bytes) (bytes.length + 1) (pos + 1, false) with
    | some stop => return (.regex, ← passWhile isNameChar bytes (bytes.length + 1) stop, true)
    | none => return (.punct b, pos + 1, true)
  else return (.punct b, pos + 1, true)

def marksFrom (file : FileId) (bytes : List Char) : Nat → Nat → Option Mark → Checked (List Mark)
  | 0, _, _ => .error .unfinished
  | fuel + 1, pos, previous => do
      let (start, comment) ← gapEnd bytes (bytes.length + 1) pos
      if bytes.length ≤ start then
        return [⟨.eof, ⟨file, bytes.length, bytes.length⟩, comment, true⟩]
      else
        let (kind, stop, closed) ← lexemeEnd bytes previous start
        let m : Mark := ⟨kind, ⟨file, start, stop⟩, comment, closed⟩
        return m :: (← marksFrom file bytes fuel stop (some m))

def scanBytes (file : FileId) (source : List Char) : Checked (List Mark) :=
  marksFrom file (octets source) (source.length + 1) 0 none

theorem coarse_eq {mark : Char} (h : isAscii mark = true) : Coarse fun c => c = mark := by
  intro c d hc hd
  have hne : ∀ {x : Char}, isAscii x = false → x ≠ mark := by
    rintro x hx rfl
    rw [h] at hx
    cases hx
  simp [hne hc, hne hd]

variable {text rest : List Char} {pos : Nat} {c : Char}

theorem byte_at (h : Place text pos (c :: rest)) : ∃ b, (octets text)[pos]? = some b ∧
    Checked.get (octets text) pos = .ok b ∧ peek (octets text) pos = b ∧
    ¬ (octets text).length ≤ pos ∧ (isAscii c = true → b = c) ∧
    (isAscii c = false → isAscii b = false) := by
  obtain ⟨b, hb, -⟩ := h.octet
  refine ⟨b, hb, Checked.get_of_eq_some hb, by rw [peek, hb]; rfl, ?_, ?_, ?_⟩
  · exact Nat.not_le_of_lt (List.getElem?_eq_some_iff.mp hb).1
  · intro hc
    rw [h.getElem?_of_isAscii hc, Option.some.injEq] at hb
    exact hb.symm
  · intro hc
    have hget := h.getElem?_octets 0
    rw [Nat.add_zero, hb, Text.octets_cons] at hget
    have hmem : b ∈ charOctets c := by
      obtain ⟨o, os, hos⟩ := List.exists_cons_of_ne_nil (Text.charOctets_ne_nil c)
      rw [hos, List.cons_append, List.getElem?_cons_zero, Option.some.injEq] at hget
      rw [hget, hos]
      exact List.mem_cons_self
    exact Text.isAscii_charOctets hc hmem

theorem byte_within (h : Place text pos (c :: rest)) (hc : isAscii c = false) {k : Nat}
    (hk : k < c.utf8Size) : ∃ b, (octets text)[pos + k]? = some b ∧ isAscii b = false := by
  rw [h.getElem?_octets, Text.octets_cons, List.getElem?_append_left (by simpa using hk)]
  have hlt : k < (charOctets c).length := by simpa using hk
  exact ⟨(charOctets c)[k], List.getElem?_eq_getElem hlt,
    Text.isAscii_charOctets hc (List.getElem_mem hlt)⟩

theorem byte_eq_iff {mark : Char} (hmark : isAscii mark = true) (h : Place text pos rest) :
    (octets text)[pos]? = some mark ↔ rest.head? = some mark := by
  cases rest with
  | nil => simp [show (octets text)[pos]? = none from h.getElem?_nil 0]
  | cons c rest =>
    obtain ⟨b, hb, -, -, -, hlow, hhigh⟩ := byte_at h
    rw [hb, List.head?_cons, Option.some.injEq, Option.some.injEq]
    cases hc : isAscii c with
    | true => rw [hlow hc]
    | false =>
      have hb := hhigh hc
      constructor
      · rintro rfl
        rw [hb] at hmark
        cases hmark
      · rintro rfl
        rw [hc] at hmark
        cases hmark

theorem peek_eq_iff {mark : Char} (hmark : isAscii mark = true) (hzero : mark ≠ '\x00')
    (h : Place text pos rest) : peek (octets text) pos = mark ↔ rest.head? = some mark := by
  rw [← byte_eq_iff hmark h, peek]
  cases (octets text)[pos]? with
  | none => simp [hzero.symm]
  | some b => simp

/-- Steps that only go on where a byte outside the ASCII range stands. -/
def Steady {σ α : Type} (bytes : List Char) (step : σ → Checked (σ ⊕ α)) (state : Nat → σ) : Prop :=
  ∀ pos b, bytes[pos]? = some b → isAscii b = false → step (state pos) = .ok (.inl (state (pos + 1)))

theorem Steady.pass {σ α : Type} {step : σ → Checked (σ ⊕ α)} {state : Nat → σ}
    (hsteady : Steady (octets text) step state) (h : Place text pos (c :: rest))
    (hc : isAscii c = false) {n k : Nat} (hn : n + k = c.utf8Size) (fuel : Nat) :
    repeatStep step (fuel + k) (state (pos + n)) =
      repeatStep step fuel (state (pos + c.utf8Size)) := by
  rw [← hn, ← Nat.add_assoc]
  refine repeatStep_pass k fuel fun j hj => ?_
  obtain ⟨b, hb, hascii⟩ := byte_within h hc (k := n + j) (by omega)
  rw [← Nat.add_assoc] at hb
  exact hsteady _ b hb hascii

theorem Steady.finish {σ α : Type} {step : σ → Checked (σ ⊕ α)} {state : Nat → σ}
    (hsteady : Steady (octets text) step state) (h : Place text pos (c :: rest)) (left : Nat) :
    repeatStep step (left + c.utf8Size) (state (pos + 1)) =
      repeatStep step (left + 1) (state (pos + c.utf8Size)) := by
  cases hc : isAscii c with
  | true => rw [Text.utf8Size_of_isAscii hc]
  | false =>
    have hpositive := c.utf8Size_pos
    have hinside := hsteady.pass h hc (n := 1) (k := c.utf8Size - 1) (by omega) (left + 1)
    rwa [show left + 1 + (c.utf8Size - 1) = left + c.utf8Size by omega] at hinside

theorem exists_fuel {fuel : Nat} (h : width (c :: rest) < fuel) :
    ∃ left, fuel = left + c.utf8Size ∧ width rest < left := by
  rw [Text.width_cons] at h
  exact ⟨fuel - c.utf8Size, by omega, by omega⟩

def blockTail : List Char → List Char × List Char × Bool
  | '*' :: '/' :: rest => (['*', '/'], rest, true)
  | c :: rest =>
      let (text, rest, closed) := blockTail rest
      (c :: text, rest, closed)
  | [] => ([], [], false)

theorem blockTail_cons {c : Char} {rest : List Char}
    (h : ∀ tail, c = '*' → rest = '/' :: tail → False) :
    blockTail (c :: rest) = (c :: (blockTail rest).1, (blockTail rest).2) := by
  rw [blockTail]
  exact h

theorem blockTail_append (cs : List Char) : (blockTail cs).1 ++ (blockTail cs).2.1 = cs := by
  fun_induction blockTail cs with
  | case1 => rfl
  | case2 c rest _ text' rest' closed heq ih =>
    rw [heq] at ih
    simpa using ih
  | case3 => rfl

theorem not_isAscii_ne {b : Char} (hb : isAscii b = false) (mark : Char) (hmark : isAscii mark = true) :
    b ≠ mark := by
  rintro rfl
  rw [hb] at hmark
  cases hmark

theorem steady_blockStep (bytes : List Char) : Steady bytes (blockStep bytes) id := by
  intro pos b hb hascii
  have hlt := (List.getElem?_eq_some_iff.mp hb).1
  simp only [id_eq]
  rw [blockStep, if_neg (by omega), Checked.get_of_eq_some hb, Checked.ok_bind,
    if_neg (by simp [not_isAscii_ne hascii '*' rfl])]
  rfl

theorem block_end {fuel : Nat} (h : Place text pos rest) (hfuel : width rest < fuel) :
    repeatStep (blockStep (octets text)) fuel pos =
      .ok (pos + width (blockTail rest).1, (blockTail rest).2.2) := by
  fun_induction blockTail rest generalizing pos fuel with
  | case1 rest =>
    obtain ⟨fuel, rfl, -⟩ := exists_fuel hfuel
    obtain ⟨b, -, hget, -, hlt, hlow, -⟩ := byte_at h
    have hnext : Place text (pos + 1) ('/' :: rest) := h.next
    refine repeatStep_done ?_ fuel
    rw [blockStep, if_neg hlt, hget, Checked.ok_bind, hlow rfl,
      if_pos (by simp [(peek_eq_iff rfl (by decide) hnext).mpr rfl])]
    rfl
  | case2 c rest hne text' rest' closed heq ih =>
    rw [heq] at ih
    obtain ⟨left, rfl, hleft⟩ := exists_fuel hfuel
    have hgoal := ih h.next hleft
    rw [Text.width_cons, ← Nat.add_assoc, ← hgoal]
    cases hc : isAscii c with
    | true =>
      obtain ⟨b, -, hget, -, hlt, hlow, -⟩ := byte_at h
      rw [Text.utf8Size_of_isAscii hc]
      refine repeatStep_next ?_ left
      rw [blockStep, if_neg hlt, hget, Checked.ok_bind, hlow hc, if_neg ?_]
      · rfl
      · intro hboth
        simp only [Bool.and_eq_true, decide_eq_true_eq] at hboth
        have hnext := h.next
        rw [Text.utf8Size_of_isAscii hc] at hnext
        obtain ⟨tail, rfl⟩ := List.head?_eq_some_iff.mp ((peek_eq_iff rfl (by decide) hnext).mp hboth.2)
        exact hne tail hboth.1 rfl
    | false => exact (steady_blockStep (octets text)).pass h hc (n := 0) (by omega) left
  | case3 =>
    obtain ⟨fuel, rfl⟩ := Nat.exists_eq_succ_of_ne_zero (Nat.ne_of_gt (Nat.zero_lt_of_lt hfuel))
    refine repeatStep_done ?_ fuel
    have hpos := h.pos_add_width
    rw [Text.width_nil] at hpos
    rw [blockStep, if_pos (by rw [Text.length_octets]; omega)]
    rfl

theorem grow_grow (xs ys : List Char) (g : Gap) : (g.grow ys).grow xs = g.grow (xs ++ ys) := by
  simp [Gap.grow]

theorem grow_nil (g : Gap) : g.grow [] = g := rfl

theorem skipGap_blanks (pos : Nat) (cs : List Char) : skipGap pos .plain cs =
    (skipGap (pos + width (cs.takeWhile Text.isAsciiBlank)) .plain
      (cs.dropWhile Text.isAsciiBlank)).grow (cs.takeWhile Text.isAsciiBlank) := by
  induction cs generalizing pos with
  | nil => rfl
  | cons c cs ih =>
    cases hc : Text.isAsciiBlank c with
    | false => simp [hc, grow_nil]
    | true =>
      rw [skipGap_blank pos cs hc, ih, grow_grow, List.takeWhile_cons_of_pos hc,
        List.dropWhile_cons_of_pos hc, Text.width_cons, ← Nat.add_assoc]
      rfl

theorem skipGap_line (pos : Nat) (cs : List Char) : skipGap pos .line cs =
    (skipGap (pos + width (cs.takeWhile (· != '\n'))) .plain
      (cs.dropWhile (· != '\n'))).grow (cs.takeWhile (· != '\n')) := by
  induction cs generalizing pos with
  | nil => rfl
  | cons c cs ih =>
    by_cases hc : c = '\n'
    · subst hc
      rfl
    · rw [skipGap_lineRest pos cs hc, ih, grow_grow, List.takeWhile_cons_of_pos (by simpa using hc),
        List.dropWhile_cons_of_pos (by simpa using hc), Text.width_cons, ← Nat.add_assoc]
      rfl

theorem skipGap_block (pos start : Nat) (cs : List Char) : skipGap pos (.block start) cs =
    { (skipGap (pos + width (blockTail cs).1) .plain (blockTail cs).2.1).grow (blockTail cs).1 with
      openComment := if (blockTail cs).2.2 then
        (skipGap (pos + width (blockTail cs).1) .plain (blockTail cs).2.1).openComment
      else some start } := by
  fun_induction blockTail cs generalizing pos with
  | case1 rest => rfl
  | case2 c rest hne text' rest' closed heq ih =>
    rw [heq] at ih
    rw [skipGap_blockRest pos start rest hne, ih, Text.width_cons, ← Nat.add_assoc]
    rfl
  | case3 => rfl

theorem coarse_of_const {p : Char → Bool} (value : Bool) (h : ∀ c, isAscii c = false → p c = value) :
    Coarse p :=
  fun c d hc hd => (h c hc).trans (h d hd).symm

theorem isAsciiBlank_of_not_isAscii {c : Char} (hc : isAscii c = false) : Text.isAsciiBlank c = false := by
  have hne : ∀ mark : Char, isAscii mark = true → c ≠ mark := not_isAscii_ne hc
  simp [Text.isAsciiBlank, hne ' ' rfl, hne '\t' rfl, hne '\n' rfl, hne '\x0c' rfl, hne '\r' rfl]

theorem coarse_isAsciiBlank : Coarse Text.isAsciiBlank :=
  coarse_of_const false fun _ hc => isAsciiBlank_of_not_isAscii hc

theorem coarse_ne_newline : Coarse (· != '\n') :=
  coarse_of_const true fun c hc => by
    simpa using not_isAscii_ne hc '\n' rfl

theorem le_toNat {c : Char} (hc : isAscii c = false) : 128 ≤ c.toNat := by
  simpa [isAscii] using hc

theorem coarse_isNameChar : Coarse isNameChar :=
  coarse_of_const true fun c hc => by
    simp [isNameChar, isNameStart, le_toNat hc]

theorem isAsciiAlnum_of_not_isAscii {c : Char} (hc : isAscii c = false) :
    Text.isAsciiAlpha c = false ∧ Text.isAsciiDigit c = false := by
  have hgt : ∀ mark : Char, mark.toNat < 128 → ¬ c ≤ mark := by
    intro mark hmark hle
    have hnat : c.toNat ≤ mark.toNat := hle
    have := le_toNat hc
    omega
  simp [Text.isAsciiAlpha, Text.isAsciiDigit, hgt 'z' (by decide), hgt 'Z' (by decide),
    hgt '9' (by decide)]

theorem coarse_isNumberChar : Coarse isNumberChar :=
  coarse_of_const false fun c hc => by
    obtain ⟨halpha, hdigit⟩ := isAsciiAlnum_of_not_isAscii hc
    have hdot := not_isAscii_ne hc '.' rfl
    have hline := not_isAscii_ne hc '_' rfl
    simp [isNumberChar, Text.isAsciiAlnum, halpha, hdigit, hdot, hline]

theorem width_lt_length_octets (h : Place text pos rest) : width rest < (octets text).length + 1 := by
  have := h.pos_add_width
  rw [Text.length_octets]
  omega

theorem width_grow (pos : Nat) (lead : List Char) (g : Gap) :
    pos + width (g.grow lead).text = pos + width lead + width g.text := by
  rw [Gap.grow, Text.width_append, Nat.add_assoc]

theorem skipGap_slashes (pos : Nat) (rest : List Char) : skipGap pos .plain ('/' :: '/' :: rest) =
    (skipGap (pos + width (('/' :: '/' :: rest).takeWhile (· != '\n'))) .plain
      (('/' :: '/' :: rest).dropWhile (· != '\n'))).grow
        (('/' :: '/' :: rest).takeWhile (· != '\n')) := by
  rw [skipGap_lineOpen, skipGap_line, grow_grow]
  simp only [List.takeWhile_cons_of_pos (p := (· != '\n')) (a := '/') rfl,
    List.dropWhile_cons_of_pos (p := (· != '\n')) (a := '/') rfl, Text.width_cons, ← Nat.add_assoc]
  rfl

theorem skipGap_slash_star (pos : Nat) (rest : List Char) :
    skipGap pos .plain ('/' :: '*' :: rest) =
      { (skipGap (pos + 2 + width (blockTail rest).1) .plain (blockTail rest).2.1).grow
          ('/' :: '*' :: (blockTail rest).1) with
        openComment := if (blockTail rest).2.2 then
          (skipGap (pos + 2 + width (blockTail rest).1) .plain (blockTail rest).2.1).openComment
        else some pos } := by
  rw [skipGap_blockOpen, skipGap_block]
  rfl

theorem skipGap_none {pos : Nat} {cs : List Char}
    (hblank : ∀ c rest, cs = c :: rest → Text.isAsciiBlank c = false)
    (hline : ∀ rest, cs ≠ '/' :: '/' :: rest) (hblock : ∀ rest, cs ≠ '/' :: '*' :: rest) :
    skipGap pos .plain cs = ⟨[], cs, none⟩ := by
  cases cs with
  | nil => rfl
  | cons c cs =>
    rw [skipGap, if_neg (by simp [hblank c cs rfl])]
    · rintro rest rfl rfl
      exact hline rest rfl
    · rintro rest rfl rfl
      exact hblock rest rfl

theorem opens_comment {mark : Char} (hmark : isAscii mark = true) (hzero : mark ≠ '\x00')
    (h : Place text pos cs) :
    (decide (peek (octets text) pos = '/') && decide (peek (octets text) (pos + 1) = mark)) = true ↔
      ∃ rest, cs = '/' :: mark :: rest := by
  rw [Bool.and_eq_true, decide_eq_true_eq, decide_eq_true_eq, peek_eq_iff rfl (by decide) h,
    List.head?_eq_some_iff]
  constructor
  · rintro ⟨⟨rest, rfl⟩, hnext⟩
    have hplace : Place text (pos + 1) rest := h.next
    rw [peek_eq_iff hmark hzero hplace, List.head?_eq_some_iff] at hnext
    obtain ⟨tail, rfl⟩ := hnext
    exact ⟨tail, rfl⟩
  · rintro ⟨rest, rfl⟩
    have hplace : Place text (pos + 1) (mark :: rest) := h.next
    exact ⟨⟨_, rfl⟩, (peek_eq_iff hmark hzero hplace).mpr rfl⟩

theorem gap_end (fuel : Nat) : ∀ {pos : Nat} {cs : List Char}, Place text pos cs → cs.length < fuel →
    gapEnd (octets text) fuel pos = .ok (pos + width (skipGap pos .plain cs).text,
      (skipGap pos .plain cs).openComment) := by
  induction fuel with
  | zero => exact fun _ hfuel => absurd hfuel (Nat.not_lt_zero _)
  | succ fuel ih =>
    intro pos cs h hfuel
    rw [gapEnd, h.passWhile coarse_isAsciiBlank (width_lt_length_octets h), Checked.ok_bind,
      skipGap_blanks, width_grow]
    have hplace : Place text (pos + width (cs.takeWhile Text.isAsciiBlank))
        (cs.dropWhile Text.isAsciiBlank) := Place.skip (by rwa [List.takeWhile_append_dropWhile])
    have hlength : (cs.dropWhile Text.isAsciiBlank).length ≤ cs.length :=
      (List.dropWhile_sublist _).length_le
    have hblank : ∀ c r, cs.dropWhile Text.isAsciiBlank = c :: r → Text.isAsciiBlank c = false := by
      intro c r heq
      have := List.head?_dropWhile_not Text.isAsciiBlank cs
      rw [heq] at this
      simpa using this
    change _ = Except.ok (_, (skipGap (pos + width (cs.takeWhile Text.isAsciiBlank)) .plain
      (cs.dropWhile Text.isAsciiBlank)).openComment)
    -- From here on only the place behind the blanks matters.
    generalize pos + width (cs.takeWhile Text.isAsciiBlank) = mid at hplace ⊢
    generalize cs.dropWhile Text.isAsciiBlank = after at hplace hlength hblank ⊢
    by_cases hline : ∃ rest, after = '/' :: '/' :: rest
    · rw [if_pos ((opens_comment rfl (by decide) hplace).mpr hline),
        hplace.passWhile coarse_ne_newline (width_lt_length_octets hplace), Checked.ok_bind]
      obtain ⟨rest, rfl⟩ := hline
      have hafter : Place text (mid + width (('/' :: '/' :: rest).takeWhile (· != '\n')))
          (('/' :: '/' :: rest).dropWhile (· != '\n')) :=
        Place.skip (by rwa [List.takeWhile_append_dropWhile])
      have hshort : (('/' :: '/' :: rest).dropWhile (· != '\n')).length ≤ rest.length := by
        rw [List.dropWhile_cons_of_pos rfl, List.dropWhile_cons_of_pos rfl]
        exact (List.dropWhile_sublist _).length_le
      simp only [List.length_cons] at hlength
      rw [ih hafter (by omega), skipGap_slashes, width_grow]
      rfl
    rw [if_neg (by rwa [opens_comment rfl (by decide) hplace])]
    by_cases hblock : ∃ rest, after = '/' :: '*' :: rest
    · rw [if_pos ((opens_comment rfl (by decide) hplace).mpr hblock)]
      obtain ⟨rest, rfl⟩ := hblock
      have hinside : Place text (mid + 2) rest := hplace.next.next
      have happend : (blockTail rest).1 ++ (blockTail rest).2.1 = rest := blockTail_append rest
      have hafter : Place text (mid + 2 + width (blockTail rest).1) (blockTail rest).2.1 :=
        Place.skip (by rwa [happend])
      have hshort : (blockTail rest).2.1.length ≤ rest.length := by
        have := congrArg List.length happend
        rw [List.length_append] at this
        omega
      simp only [List.length_cons] at hlength
      rw [block_end hinside (width_lt_length_octets hinside), Checked.ok_bind]
      dsimp only
      rw [ih hafter (by omega), Checked.ok_bind, skipGap_slash_star]
      simp only [Gap.grow, Checked.pure_eq, Text.width_append, Text.width_cons,
        show '/'.utf8Size = 1 from rfl, show '*'.utf8Size = 1 from rfl]
      congr 2
      omega
    · rw [if_neg (by rwa [opens_comment rfl (by decide) hplace]),
        skipGap_none hblank (fun rest heq => hline ⟨rest, heq⟩) fun rest heq => hblock ⟨rest, heq⟩]
      rfl

theorem steady_quotedStep (quote : Char) (hquote : isAscii quote = true) (multiline : Bool)
    (bytes : List Char) : Steady bytes (quotedStep quote multiline bytes) id := by
  intro pos b hb hascii
  have hlt := (List.getElem?_eq_some_iff.mp hb).1
  simp only [id_eq]
  rw [quotedStep, if_neg (by omega), Checked.get_of_eq_some hb, Checked.ok_bind,
    if_neg (by simp [not_isAscii_ne hascii '\n' rfl]),
    if_neg (not_isAscii_ne hascii _ rfl), if_neg (not_isAscii_ne hascii _ hquote)]
  rfl

theorem quoted_pass {quote : Char} (hquote : isAscii quote = true) {multiline : Bool} {left : Nat}
    (h : Place text pos (c :: rest)) (hline : ¬ (c = '\n' ∧ multiline = false)) (hslash : c ≠ '\\')
    (hc : c ≠ quote) : repeatStep (quotedStep quote multiline (octets text)) (left + c.utf8Size) pos =
      repeatStep (quotedStep quote multiline (octets text)) left (pos + c.utf8Size) := by
  cases hascii : isAscii c with
  | true =>
    obtain ⟨b, -, hget, -, hlt, hlow, -⟩ := byte_at h
    rw [Text.utf8Size_of_isAscii hascii]
    refine repeatStep_next ?_ left
    rw [quotedStep, if_neg hlt, hget, Checked.ok_bind, hlow hascii, if_neg (by simpa using hline),
      if_neg hslash, if_neg hc]
    rfl
  | false =>
    exact (steady_quotedStep quote hquote multiline _).pass h hascii (n := 0) (by omega) left

theorem ne_backslash {c : Char} {rest : List Char} (h : c = '\\' → rest = [] → False)
    (h' : ∀ d tail, c = '\\' → rest = d :: tail → False) : c ≠ '\\' := by
  intro hc
  cases rest with
  | nil => exact h hc rfl
  | cons d tail => exact h' d tail hc rfl

theorem quoted_over {quote : Char} {multiline : Bool} {fuel : Nat} (h : Place text pos [])
    (hfuel : 0 < fuel) :
    repeatStep (quotedStep quote multiline (octets text)) fuel pos = .ok (pos, false) := by
  obtain ⟨fuel, rfl⟩ := Nat.exists_eq_succ_of_ne_zero (Nat.ne_of_gt hfuel)
  refine repeatStep_done ?_ fuel
  have hpos := h.pos_add_width
  rw [Text.width_nil] at hpos
  rw [quotedStep, if_pos (by rw [Text.length_octets]; omega)]
  rfl

theorem quotedStep_escape (quote : Char) (multiline : Bool) (h : Place text pos ('\\' :: rest)) :
    quotedStep quote multiline (octets text) pos =
      .ok (.inl (min (pos + 2) (pos + 1 + width rest))) := by
  obtain ⟨b, -, hget, -, hlt, hlow, -⟩ := byte_at h
  have hnext : Place text (pos + 1) rest := h.next
  rw [quotedStep, if_neg hlt, hget, Checked.ok_bind, hlow rfl, if_neg (by simp), if_pos rfl,
    Text.length_octets, ← hnext.pos_add_width]
  rfl

theorem quoted_end {quote : Char} (hquote : isAscii quote = true) {multiline : Bool} {fuel : Nat}
    (h : Place text pos rest) (hfuel : width rest < fuel) :
    repeatStep (quotedStep quote multiline (octets text)) fuel pos =
      .ok (pos + width (quotedTail quote multiline rest).1, (quotedTail quote multiline rest).2.2) := by
  fun_induction quotedTail quote multiline rest generalizing pos fuel with
  | case1 => exact quoted_over h (Nat.zero_lt_of_lt hfuel)
  | case2 =>
    obtain ⟨left, rfl, hleft⟩ := exists_fuel hfuel
    have hnext : Place text (pos + 1) [] := h.next
    have hstep := quotedStep_escape quote multiline h
    rw [Text.width_nil, Nat.min_eq_right (by omega)] at hstep
    rw [show '\\'.utf8Size = 1 from rfl, repeatStep_next hstep, quoted_over hnext hleft]
    rfl
  | case3 c rest text' rest' closed heq ih =>
    -- One step goes over the backslash and the first byte of the character, further ones over
    -- the other bytes.
    rw [heq] at ih
    obtain ⟨left, rfl, hleft⟩ := exists_fuel hfuel
    have hnext : Place text (pos + 1) (c :: rest) := h.next
    have hpositive := c.utf8Size_pos
    have hstep := quotedStep_escape quote multiline h
    rw [Text.width_cons, Nat.min_eq_left (by omega)] at hstep
    obtain ⟨left', rfl, hleft'⟩ := exists_fuel hleft
    have hpass := (steady_quotedStep quote hquote multiline (octets text)).finish hnext left'
    simp only [id_eq] at hpass
    rw [show '\\'.utf8Size = 1 from rfl, repeatStep_next hstep, hpass,
      ih hnext.next (show width rest < left' + 1 by omega)]
    simp only [Text.width_cons, show '\\'.utf8Size = 1 from rfl]
    congr 2
    omega
  | case4 c rest _ _ hline =>
    obtain ⟨rfl, rfl⟩ := hline
    obtain ⟨left, rfl, -⟩ := exists_fuel hfuel
    obtain ⟨b, -, hget, -, hlt, hlow, -⟩ := byte_at h
    refine repeatStep_done ?_ left
    rw [quotedStep, if_neg hlt, hget, Checked.ok_bind, hlow rfl, if_pos (by simp)]
    rfl
  | case5 rest hslash hslash' hline =>
    obtain ⟨left, rfl, -⟩ := exists_fuel hfuel
    obtain ⟨b, -, hget, -, hlt, hlow, -⟩ := byte_at h
    have hne := ne_backslash hslash hslash'
    refine Eq.trans (b := .ok (pos + 1, true)) ?_ (by simp [Text.utf8Size_of_isAscii hquote])
    rw [Text.utf8Size_of_isAscii hquote]
    refine repeatStep_done ?_ left
    rw [quotedStep, if_neg hlt, hget, Checked.ok_bind, hlow hquote, if_neg (by simpa using hline),
      if_neg hne, if_pos rfl]
    rfl
  | case6 c rest hslash hslash' hline hne text' rest' closed heq ih =>
    rw [heq] at ih
    obtain ⟨left, rfl, hleft⟩ := exists_fuel hfuel
    rw [quoted_pass hquote h hline (ne_backslash hslash hslash') hne, ih h.next hleft, Text.width_cons,
      Nat.add_assoc]

theorem steady_regexStep (bytes : List Char) (inClass : Bool) :
    Steady bytes (regexStep bytes) fun n => (n, inClass) := by
  intro pos b hb hascii
  have hne : ∀ mark : Char, isAscii mark = true → b ≠ mark := not_isAscii_ne hascii
  simp only [regexStep, hb, if_neg (hne '\n' rfl), if_neg (hne '\\' rfl),
    if_neg (hne '[' rfl), if_neg (hne ']' rfl)]
  simp [hne '/' rfl]

theorem regex_pass {inClass : Bool} {left : Nat} (h : Place text pos (c :: rest)) (hline : c ≠ '\n')
    (hslash : c ≠ '\\') (hend : ¬ (c = '/' ∧ inClass = false)) :
    repeatStep (regexStep (octets text)) (left + c.utf8Size) (pos, inClass) =
      repeatStep (regexStep (octets text)) left (pos + c.utf8Size,
        if c = '[' then true else if c = ']' then false else inClass) := by
  cases hascii : isAscii c with
  | true =>
    obtain ⟨b, hb, -, -, -, hlow, -⟩ := byte_at h
    rw [Text.utf8Size_of_isAscii hascii]
    refine repeatStep_next ?_ left
    simp only [regexStep, hb, hlow hascii, if_neg hline, if_neg hslash, Checked.pure_eq]
    split
    · rfl
    split
    · rfl
    · rw [if_neg (by simpa using hend)]
  | false =>
    rw [if_neg (not_isAscii_ne hascii _ rfl), if_neg (not_isAscii_ne hascii _ rfl)]
    exact (steady_regexStep (octets text) inClass).pass h hascii (n := 0) (by omega) left

theorem regex_over {inClass : Bool} {fuel : Nat} (h : (octets text)[pos]? = none)
    (hfuel : 0 < fuel) :
    repeatStep (regexStep (octets text)) fuel (pos, inClass) = .ok none := by
  obtain ⟨fuel, rfl⟩ := Nat.exists_eq_succ_of_ne_zero (Nat.ne_of_gt hfuel)
  refine repeatStep_done ?_ fuel
  simp only [regexStep, h, Checked.pure_eq]

theorem regexStep_escape {inClass : Bool} (h : Place text pos ('\\' :: rest)) :
    regexStep (octets text) (pos, inClass) = .ok (.inl (pos + 2, inClass)) := by
  simp only [regexStep, h.getElem?_of_isAscii rfl]
  rfl

theorem regex_end {inClass : Bool} {fuel : Nat} (h : Place text pos rest) (hfuel : width rest < fuel) :
    repeatStep (regexStep (octets text)) fuel (pos, inClass) =
      .ok ((regexTail inClass rest).map fun r => pos + width r.1) := by
  fun_induction regexTail inClass rest generalizing pos fuel with
  | case1 => exact regex_over (h.getElem?_nil 0) (Nat.zero_lt_of_lt hfuel)
  | case2 inClass =>
    obtain ⟨left, rfl, hleft⟩ := exists_fuel hfuel
    have hnext : Place text (pos + 1) [] := h.next
    rw [show '\\'.utf8Size = 1 from rfl, repeatStep_next (regexStep_escape h),
      regex_over (hnext.getElem?_nil 1) hleft]
    rfl
  | case3 inClass c rest ih =>
    obtain ⟨left, rfl, hleft⟩ := exists_fuel hfuel
    have hnext : Place text (pos + 1) (c :: rest) := h.next
    obtain ⟨left', rfl, hleft'⟩ := exists_fuel hleft
    rw [show '\\'.utf8Size = 1 from rfl, repeatStep_next (regexStep_escape h),
      (steady_regexStep (octets text) inClass).finish hnext left',
      ih hnext.next (show width rest < left' + 1 by omega), Option.map_map]
    congr 2
    funext r
    simp only [Function.comp_apply, Text.width_cons, show '\\'.utf8Size = 1 from rfl]
    omega
  | case4 inClass rest =>
    obtain ⟨left, rfl, -⟩ := exists_fuel hfuel
    refine repeatStep_done ?_ left
    simp only [regexStep, h.getElem?_of_isAscii rfl]
    rfl
  | case5 inClass c rest hslash hslash' hline hend =>
    obtain ⟨rfl, rfl⟩ := hend
    obtain ⟨left, rfl, -⟩ := exists_fuel hfuel
    refine repeatStep_done ?_ left
    simp only [regexStep, h.getElem?_of_isAscii rfl]
    rfl
  | case6 inClass c rest hslash hslash' hline hend =>
    rename_i ih
    obtain ⟨left, rfl, hleft⟩ := exists_fuel hfuel
    rw [regex_pass h hline (ne_backslash hslash hslash') hend, ih h.next hleft, Option.map_map]
    congr 2
    funext r
    simp only [Function.comp_apply, Text.width_cons, Nat.add_assoc]

theorem octets_eq_ascii : ∀ {cs word : List Char}, (∀ w ∈ word, isAscii w = true) →
    (octets cs = word ↔ cs = word)
  | [], word, _ => Iff.rfl
  | c :: cs, [], _ => by simp [Text.charOctets_ne_nil]
  | c :: cs, w :: word, hword => by
    have ih : octets cs = word ↔ cs = word := octets_eq_ascii fun x hx => hword x (List.mem_cons_of_mem w hx)
    cases hc : isAscii c with
    | true =>
      rw [Text.octets_cons, Text.charOctets_of_isAscii hc, List.singleton_append, List.cons.injEq,
        List.cons.injEq, ih]
    | false =>
      obtain ⟨o, os, hos⟩ := List.exists_cons_of_ne_nil (Text.charOctets_ne_nil c)
      have ho : isAscii o = false := Text.isAscii_charOctets hc (hos ▸ List.mem_cons_self)
      have hw := hword w List.mem_cons_self
      rw [Text.octets_cons, hos, List.cons_append, List.cons.injEq, List.cons.injEq]
      constructor
      · rintro ⟨rfl, -⟩
        rw [hw] at ho
        cases ho
      · rintro ⟨rfl, -⟩
        rw [hw] at hc
        cases hc

/-- A token whose text is cut out of a source by its span. -/
def CutFrom (text : List Char) (t : Token) : Prop :=
  ∃ rest, Place text t.span.start (t.text.toList ++ rest) ∧
    t.span.stop = t.span.start + width t.text.toList

theorem CutFrom.part {t : Token} (h : CutFrom text t) :
    Checked.part (octets text) t.span.start t.span.stop = .ok (octets t.text.toList) := by
  obtain ⟨rest, hplace, hstop⟩ := h
  have hwidth := hplace.pos_add_width
  rw [Text.width_append] at hwidth
  rw [Checked.part, if_pos (by rw [Text.length_octets]; omega), hplace.octets_eq, hstop,
    Nat.add_sub_cancel_left, Text.octets_append, ← Text.length_octets, List.take_left]

theorem regexMayFollow_eq {previous : Option Token} (h : ∀ t ∈ previous, CutFrom text t) :
    regexMayFollow (octets text) (previous.map Token.mark) = .ok (regexAllowed previous) := by
  cases previous with
  | none => rfl
  | some t =>
    rw [Option.map_some, regexMayFollow, regexAllowed]
    cases hkind : t.kind with
    | ident =>
      have hwords : (wordsBeforeValue.any fun w => w.toList = octets t.text.toList) =
          wordsBeforeValue.contains t.text := by
        have hall : (wordsBeforeValue.all fun w => w.toList.all isAscii) = true := by decide
        have hascii : ∀ w ∈ wordsBeforeValue, ∀ c ∈ w.toList, isAscii c = true := fun w hw =>
          List.all_eq_true.mp (List.all_eq_true.mp hall w hw)
        rw [Bool.eq_iff_iff, List.any_eq_true, List.contains_iff_mem]
        constructor
        · rintro ⟨w, hw, heq⟩
          have hsame := (octets_eq_ascii (hascii w hw)).mp (of_decide_eq_true heq).symm
          rwa [String.toList_inj.mp hsame]
        · intro hmem
          exact ⟨t.text, hmem, decide_eq_true ((octets_eq_ascii (hascii _ hmem)).mpr rfl).symm⟩
      simp only [Token.mark, hkind, (h t rfl).part, Checked.ok_bind, hwords, Checked.pure_eq]
    | punct mark => simp only [Token.mark, hkind, Checked.pure_eq]
    | number => simp only [Token.mark, hkind, Checked.pure_eq]
    | string => simp only [Token.mark, hkind, Checked.pure_eq]
    | template => simp only [Token.mark, hkind, Checked.pure_eq]
    | regex => simp only [Token.mark, hkind, Checked.pure_eq]
    | eof => simp only [Token.mark, hkind, Checked.pure_eq]

theorem isNameStart_of_not_isAscii {c : Char} (hc : isAscii c = false) : isNameStart c = true := by
  simp [isNameStart, le_toNat hc]

theorem isAsciiDigit_peek (h : Place text pos rest) : Text.isAsciiDigit (peek (octets text) pos) =
    (rest.head?.map Text.isAsciiDigit).getD false := by
  cases rest with
  | nil =>
    rw [peek, show (octets text)[pos]? = none from h.getElem?_nil 0]
    rfl
  | cons c rest =>
    obtain ⟨b, -, -, hpeek, -, hlow, hhigh⟩ := byte_at h
    rw [hpeek, List.head?_cons, Option.map_some, Option.getD_some]
    cases hc : isAscii c with
    | true => rw [hlow hc]
    | false =>
      rw [(isAsciiAlnum_of_not_isAscii hc).2, (isAsciiAlnum_of_not_isAscii (hhigh hc)).2]

theorem lexeme_end {previous : Option Token} (hprevious : ∀ t ∈ previous, CutFrom text t)
    (h : Place text pos (c :: rest)) : lexemeEnd (octets text) (previous.map Token.mark) pos =
      .ok ((lexeme previous c rest).kind, pos + width (lexeme previous c rest).text,
        (lexeme previous c rest).closed) := by
  obtain ⟨b, -, -, hpeek, -, hlow, hhigh⟩ := byte_at h
  have hpass := fun {test : Char → Bool} (htest : Coarse test) =>
    h.passWhile htest (width_lt_length_octets h)
  unfold lexemeEnd lexeme
  rw [hpeek]
  dsimp only
  cases hname : isNameStart c with
  | true =>
    have hb : isNameStart b = true := by
      cases hc : isAscii c with
      | true => rw [hlow hc, hname]
      | false => exact isNameStart_of_not_isAscii (hhigh hc)
    have hchar : isNameChar c = true := by simp [isNameChar, hname]
    simp only [hb, if_true, hpass coarse_isNameChar, List.takeWhile_cons_of_pos hchar, Checked.ok_bind,
      Checked.pure_eq]
  | false =>
    have hc : isAscii c = true := by
      cases hc : isAscii c with
      | true => rfl
      | false => rw [isNameStart_of_not_isAscii hc] at hname; cases hname
    have hnext : Place text (pos + 1) rest := by
      have := h.next
      rwa [Text.utf8Size_of_isAscii hc] at this
    have hsize := Text.utf8Size_of_isAscii hc
    rw [hlow hc, hname, isAsciiDigit_peek hnext]
    simp only [Bool.false_eq_true, if_false]
    by_cases hnumber : startsNumber c rest = true
    · have hchar : isNumberChar c = true := by
        simp only [startsNumber, Bool.or_eq_true, Bool.and_eq_true, decide_eq_true_eq] at hnumber
        rcases hnumber with hdigit | ⟨rfl, -⟩
        · simp [isNumberChar, Text.isAsciiAlnum, hdigit]
        · rfl
      rw [if_pos hnumber, if_pos (by simpa [startsNumber] using hnumber), hpass coarse_isNumberChar,
        List.takeWhile_cons_of_pos hchar]
      rfl
    rw [if_neg hnumber, if_neg (by simpa [startsNumber] using hnumber)]
    by_cases hquote : c = '"' ∨ c = '\''
    · rw [if_pos (by simpa using hquote), if_pos hquote,
        quoted_end hc hnext (width_lt_length_octets hnext)]
      simp only [Checked.ok_bind, Checked.pure_eq, Text.width_cons, hsize, Nat.add_assoc]
    rw [if_neg (by simpa using hquote), if_neg hquote]
    by_cases hback : c = '\x60'
    · rw [if_pos hback, if_pos hback, quoted_end hc hnext (width_lt_length_octets hnext)]
      simp only [Checked.ok_bind, Checked.pure_eq, Text.width_cons, hsize, Nat.add_assoc]
    rw [if_neg hback, if_neg hback, regexMayFollow_eq hprevious, Checked.ok_bind]
    by_cases hregex : c = '/' ∧ regexAllowed previous = true
    · rw [if_pos (by simpa using hregex), if_pos hregex,
        regex_end hnext (width_lt_length_octets hnext), Checked.ok_bind]
      cases htail : regexTail false rest with
      | none => simp [hsize]
      | some result =>
        obtain ⟨body, after⟩ := result
        have happend := regexTail_append htail
        have hafter : Place text (pos + 1 + width body) after := Place.skip (by rwa [happend])
        simp only [Option.map_some]
        rw [hafter.passWhile coarse_isNameChar (width_lt_length_octets hafter)]
        simp only [Checked.ok_bind, Checked.pure_eq, List.cons_append, Text.width_cons,
          Text.width_append, hsize, Nat.add_assoc]
    · rw [if_neg (by simpa using hregex), if_neg hregex]
      simp [hsize]

theorem marksFrom_eq (file : FileId) (fuel : Nat) : ∀ {pos : Nat} {previous : Option Token}
    {cs : List Char}, Place text pos cs → cs.length < fuel → (∀ t ∈ previous, CutFrom text t) →
      marksFrom file (octets text) fuel pos (previous.map Token.mark) =
        .ok ((scanFrom file fuel pos previous cs).map Token.mark) := by
  induction fuel with
  | zero => exact fun _ hfuel => absurd hfuel (Nat.not_lt_zero _)
  | succ fuel ih =>
    intro pos previous cs h hfuel hprevious
    have hlength : cs.length < (octets text).length + 1 :=
      Nat.lt_of_le_of_lt (Text.length_le_width cs) (width_lt_length_octets h)
    have happend := skipGap_append pos .plain cs
    have hafter : Place text (pos + width (skipGap pos .plain cs).text) (skipGap pos .plain cs).rest :=
      Place.skip (by rwa [happend])
    rw [marksFrom, scanFrom, gap_end _ h hlength, Checked.ok_bind]
    dsimp only
    cases hrest : (skipGap pos .plain cs).rest with
    | nil =>
      rw [hrest] at hafter
      have hend := hafter.pos_add_width
      rw [Text.width_nil, Nat.add_zero] at hend
      rw [if_pos (by rw [Text.length_octets]; omega)]
      simp [Token.mark, hend]
    | cons c rest =>
      rw [hrest] at hafter happend
      obtain ⟨tail, htext, htail⟩ := lexeme_append previous c rest
      have hlexeme : Place text (pos + width (skipGap pos .plain cs).text)
          ((lexeme previous c rest).text ++ (lexeme previous c rest).rest) := by
        rwa [htext, List.cons_append, htail]
      have hshort : (lexeme previous c rest).rest.length < fuel := by
        rw [← happend, ← htail] at hfuel
        simp only [List.length_append, List.length_cons] at hfuel
        omega
      rw [if_neg (by
        have := (hafter.lt_iff).mpr (List.cons_ne_nil c rest)
        rw [Text.length_octets]
        omega), lexeme_end hprevious hafter, Checked.ok_bind]
      dsimp only
      have hnext := @ih _ (some ⟨(lexeme previous c rest).kind,
        ⟨file, pos + width (skipGap pos .plain cs).text, pos + width (skipGap pos .plain cs).text +
          width (lexeme previous c rest).text⟩, String.ofList (lexeme previous c rest).text,
        String.ofList (skipGap pos .plain cs).text, (skipGap pos .plain cs).openComment,
        (lexeme previous c rest).closed⟩) _ hlexeme.skip hshort (by
          rintro t ht
          rw [Option.mem_def, Option.some.injEq] at ht
          subst ht
          exact ⟨(lexeme previous c rest).rest, by simpa using hlexeme, by simp⟩)
      rw [Option.map_some] at hnext
      rw [List.map_cons, Token.mark]
      rw [Token.mark] at hnext
      dsimp only at hnext ⊢
      rw [hnext]
      rfl

/-- Scanning the bytes of a text meets no fault, and finds its tokens. -/
theorem scanBytes_eq (file : FileId) (source : String) :
    scanBytes file source.toList = .ok ((scan file source).map Token.mark) := by
  have hnone : ∀ t ∈ (none : Option Token), CutFrom source.toList t := fun _ ht => by cases ht
  have hmarks := marksFrom_eq file (source.toList.length + 1) (Place.start source.toList)
    (Nat.lt_succ_self _) hnone
  rw [Option.map_none] at hmarks
  rw [scanBytes, hmarks, scan]

end Script

end Recompile
