import Recompile.Proofs.Path.Tidy
import Recompile.Proofs.Script.Bytes
import Recompile.Template.Fragments

/-!
Templates taken in byte by byte. Tags, attributes and blocks are delimited by characters of the ASCII
range only, so every part is cut out at character boundaries, and the reader gets to the end of every
template, however it is formed.
-/

namespace Recompile

namespace Text

theorem splitFirst?_eq_some {pat cs before after : List Char}
    (h : splitFirst? pat cs = some (before, after)) : cs = before ++ (pat ++ after) := by
  fun_induction splitFirst? pat cs generalizing before after with
  | case1 hempty =>
    cases h
    rw [List.isEmpty_iff.mp hempty]
    rfl
  | case2 => cases h
  | case3 c cs rest hrest =>
    cases h
    have hlead := stripLead?_eq_some.mp hrest
    exact hlead
  | case4 c cs hnone ih =>
    obtain ⟨⟨before', after'⟩, hr, heq⟩ := Option.map_eq_some_iff.mp h
    cases heq
    rw [ih hr]
    rfl

theorem width_le_of_suffix {xs ys : List Char} (h : xs <:+ ys) : width xs ≤ width ys := by
  obtain ⟨lead, rfl⟩ := h
  rw [width_append]
  exact Nat.le_add_left ..

namespace Place

variable {text rest : List Char} {pos : Nat}

theorem pass (h : Place text pos rest) (p : Char → Bool) :
    Place text (pos + width (rest.takeWhile p)) (rest.dropWhile p) :=
  skip (by rwa [List.takeWhile_append_dropWhile])

theorem cut_pass (h : Place text pos rest) (p : Char → Bool) :
    Checked.cut text pos (pos + width (rest.takeWhile p)) = .ok (rest.takeWhile p) := by
  have hwhole : Place text pos (rest.takeWhile p ++ rest.dropWhile p) := by
    rwa [List.takeWhile_append_dropWhile]
  exact hwhole.cut

end Place

end Text

namespace Template

open Text (width octets isAscii Place Coarse splitFirst? stripLead? isBlank)
open Script (Mark scanBytes)

namespace Bytes

def find? (pat cs : List Char) : Option Nat := (splitFirst? pat cs).map fun r => width r.1

def before (marks : List Mark) (i n : Nat) : Checked (Option Mark) :=
  if n ≤ i then do return some (← Checked.get marks (i - n)) else return none

def isPunct (m : Option Mark) (c : Char) : Bool := (m.map fun m => decide (m.kind = .punct c)).getD false

def readsName (before2 before after : Option Mark) : Bool :=
  let pipe := isPunct before '|' && !isPunct before2 '|' && !isPunct after '|'
  let key := isPunct after ':' && (isPunct before '\x7b' || isPunct before ',')
  !(isPunct before '.' || pipe || key)

def namesFrom (expr : List Char) (offset : Nat) (marks : List Mark) :
    Nat → List Mark → Checked (List Binding)
  | _, [] => return []
  | i, m :: ms => do
      let rest ← namesFrom expr offset marks (i + 1) ms
      let previous ← before marks i 1
      let previous2 ← before marks i 2
      if m.kind = .ident && readsName previous2 previous marks[i + 1]? then
        let name ← Checked.cut expr m.span.start m.span.stop
        return ⟨String.ofList name, offset + m.span.start⟩ :: rest
      else return rest

def expression (cs : List Char) (offset : Nat) : Checked Info := do
  let marks ← scanBytes noFile cs
  return ⟨← namesFrom cs offset marks 0 marks, []⟩

def trimClause (piece : Nat × List Char) : Checked (Nat × List Char) := do
  let trimmed := piece.2.dropWhile isBlank
  return (piece.1 + (← Checked.sub (width piece.2) (width trimmed)), trimmed)

def interpolations (text : List Char) (offset : Nat) : Nat → Nat → Checked Info
  | 0, _ => .error .unfinished
  | fuel + 1, pos => do
      match find? "\x7b\x7b".toList (← Checked.cutFrom text pos) with
      | none => return Info.empty
      | some len =>
          let start := pos + len + 2
          match find? "\x7d\x7d".toList (← Checked.cutFrom text start) with
          | none => return Info.empty
          | some len =>
              let info ← expression (← Checked.cut text start (start + len)) (offset + start)
              return info ++ (← interpolations text offset fuel (start + len + 2))

def letClause (rest : List Char) (offset : Nat) : Checked Info := do
  let (name, tail) := (splitWhere? (fun c => isBlank c || c = '=') rest).getD (rest, [])
  let tail := ((tail.dropWhile isBlank).dropWhile (· = '=')).dropWhile isBlank
  match stripLead? "of ".toList tail with
  | some iterable =>
      let skipped ← Checked.sub (width rest) (width iterable)
      return Info.declare (Text.trim name) ++ (← expression iterable (offset + skipped))
  | none => return Info.declare (Text.trim name) ++ Info.empty

def directiveClause (piece : Nat × List Char) : Checked Info := do
  let (offset, cs) ← trimClause piece
  match stripLead? "let ".toList cs with
  | some rest => letClause rest (offset + 4)
  | none =>
      match splitFirst? " as ".toList cs with
      | some (expr, given) => return (← expression expr offset) ++ Info.declare (Text.trim given)
      | none =>
          match splitFirst? [':'] cs with
          | some (key, expr) =>
              if (Text.trim key).all Text.isAsciiAlnum then expression expr (offset + width key + 1)
              else expression cs offset
          | none => expression cs offset

def directive (value : List Char) (offset : Nat) : Checked Info :=
  (clauses value offset).foldlM (fun info piece => (info ++ ·) <$> directiveClause piece) Info.empty

def attributeInfo (name : List Char) (value : Option (Nat × List Char)) : Checked Info :=
  match stripLead? ['#'] name with
  | some reference => return Info.declare reference
  | none =>
      match stripLead? "let-".toList name with
      | some given => return Info.declare given
      | none =>
          match value with
          | none => return Info.empty
          | some (offset, value) =>
              if Text.startsWith ['*'] name then directive value offset
              else if isBound name then expression value offset
              else interpolations value offset (value.length + 1) 0

def pass (text : List Char) (test : Char → Bool) (pos : Nat) : Checked Nat :=
  Text.passWhile test (octets text) ((octets text).length + 1) pos

def attributeValue (text : List Char) (pos : Nat) : Checked (Option (Nat × List Char) × Nat) :=
  if (octets text)[pos]? = some '=' then
    match (octets text)[pos + 1]?.filter fun b => b = '"' || b = '\'' with
    | some quote => do
        let start := pos + 2
        let room ← Checked.sub (width text) start
        let found := splitWhere? (· = quote) (← Checked.cutFrom text start)
        let len := (found.map fun r => width r.1).getD room
        return (some (start, ← Checked.cut text start (start + len)), start + len + 1)
    | none => do
        let stop ← pass text (fun c => !Text.isAsciiBlank c && c != '>') (pos + 1)
        return (some (pos + 1, ← Checked.cut text (pos + 1) stop), stop)
  else return (none, pos)

def attributesFrom (text : List Char) : Nat → Nat → Checked (Info × Nat)
  | 0, _ => .error .unfinished
  | fuel + 1, pos => do
      let start ← pass text Text.isAsciiBlank pos
      if (octets text).length ≤ start then return (Info.empty, start)
      else
        let b ← Checked.get (octets text) start
        if b = '>' || (b = '/' && (octets text)[start + 1]? = some '>') then
          return (Info.empty, start + 1)
        else
          let stop ← pass text (fun c => !Text.isAsciiBlank c && c != '=' && c != '>') start
          let name ← Checked.cut text start stop
          let (value, after) ← attributeValue text stop
          let info ← attributeInfo name value
          let (rest, after) ← attributesFrom text fuel after
          return (info ++ rest, after)

def tag (text : List Char) (start : Nat) : Checked (Info × Nat) := do
  let pos ← pass text (fun c => !Text.isAsciiBlank c && c != '>') (start + 1)
  attributesFrom text ((octets text).length + 1) pos

def groupEnd : Nat → Nat → List Char → Checked (Option Nat)
  | _, _, [] => return none
  | depth, i, b :: bs =>
      if b = '(' then groupEnd (depth + 1) (i + 1) bs
      else if b = ')' then do
        let depth ← Checked.sub depth 1
        if depth = 0 then return some i else groupEnd depth (i + 1) bs
      else groupEnd depth (i + 1) bs

def loopClause (piece : Nat × List Char) : Checked Info := do
  let (offset, cs) ← trimClause piece
  match stripLead? "track ".toList cs with
  | some expr => expression expr (offset + 6)
  | none =>
      match stripLead? "let ".toList cs with
      | some rest =>
          return ⟨[], (Text.splitOn (· = ',') rest).filterMap fun entry =>
            (splitFirst? ['='] entry).map fun r => String.ofList (Text.trim r.1)⟩
      | none => return Info.empty

def loopHead (piece : Nat × List Char) : Checked Info := do
  let (offset, cs) ← trimClause piece
  match splitFirst? " of ".toList cs with
  | some (item, iterable) =>
      return Info.declare (Text.trim item) ++ (← expression iterable (offset + width item + 4))
  | none => return Info.empty

def blockArgument (keyword : String) (inner : List Char) (offset : Nat) : Checked Info :=
  if keyword = "for" then
    match clauses inner offset with
    | [] => return Info.empty
    | head :: rest => do
        rest.foldlM (fun info piece => (info ++ ·) <$> loopClause piece) (← loopHead head)
  else if keyword = "if" || keyword = "else" then
    match splitFirst? [';'] inner with
    | some (expr, rest) => do
        let info ← expression expr offset
        return info ++
          match stripLead? "as ".toList (Text.trim rest) with
          | some given => Info.declare (Text.trim given)
          | none => Info.empty
    | none => expression inner offset
  else expression inner offset

def block (text : List Char) (start : Nat) : Checked (Info × Nat) := do
  let stop ← pass text Text.isAsciiAlpha (start + 1)
  let keyword ← Checked.cut text (start + 1) stop
  let pos ← pass text (· = ' ') stop
  if (octets text)[pos]? ≠ some '(' then return (Info.empty, pos)
  else
    match ← groupEnd 0 pos ((octets text).drop pos) with
    | none => return (Info.empty, pos + 1)
    | some close =>
        let inner ← Checked.cut text (pos + 1) close
        return (← blockArgument (String.ofList keyword) inner (pos + 1), close + 1)

def letterAt (text : List Char) (pos : Nat) : Bool :=
  (((octets text)[pos]?).map Text.isAsciiAlpha).getD false

def analyzeFrom (text : List Char) : Nat → Nat → Checked Info
  | 0, _ => .error .unfinished
  | fuel + 1, pos =>
      if pos < (octets text).length then do
        let b ← Checked.get (octets text) pos
        if "\x7b\x7b".toList.isPrefixOf (← Checked.part (octets text) pos (octets text).length) then
          let start := pos + 2
          match find? "\x7d\x7d".toList (← Checked.cutFrom text start) with
          | none => return Info.empty
          | some len =>
              let info ← expression (← Checked.cut text start (start + len)) start
              return info ++ (← analyzeFrom text fuel (start + len + 2))
        else if b = '<' && letterAt text (pos + 1) then
          let (info, after) ← tag text pos
          return info ++ (← analyzeFrom text fuel after)
        else if b = '@' && letterAt text (pos + 1) then
          let (info, after) ← block text pos
          return info ++ (← analyzeFrom text fuel after)
        else
          let size := ((← Checked.cutFrom text pos).head?.map Char.utf8Size).getD 1
          analyzeFrom text fuel (pos + size)
      else return Info.empty

def analyze (text : List Char) : Checked Info := analyzeFrom text (text.length + 1) 0

section Names

open Script (Token CutFrom)

variable {cs : List Char}

theorem isPunct_mark (t : Option Token) (c : Char) :
    isPunct (t.map Token.mark) c = (t.map (·.isPunct c)).getD false := by
  cases t <;> rfl

theorem readsName_mark (before2 before after : Option Token) :
    readsName (before2.map Token.mark) (before.map Token.mark) (after.map Token.mark) =
      Template.readsName before2 before after := by
  simp only [readsName, Template.readsName, isPunct_mark]

def behind (tokens : List Token) (i n : Nat) : Option Token := if n ≤ i then tokens[i - n]? else none

theorem before_eq {tokens : List Token} {i n : Nat} (hi : i < tokens.length) (hn : 0 < n) :
    before (tokens.map Token.mark) i n = .ok ((behind tokens i n).map Token.mark) := by
  unfold before behind
  split
  · have hlt : i - n < tokens.length := by omega
    have hmark : (tokens.map Token.mark)[i - n]? = some tokens[i - n].mark := by
      rw [List.getElem?_map, List.getElem?_eq_getElem hlt]
      rfl
    rw [Checked.get_of_eq_some hmark, List.getElem?_eq_getElem hlt]
    rfl
  · rfl

theorem namesFrom_eq (offset : Nat) {tokens : List Token} (hcut : ∀ t ∈ tokens, CutFrom cs t) :
    ∀ {ts : List Token} {i : Nat}, tokens.drop i = ts →
      namesFrom cs offset (tokens.map Token.mark) i (ts.map Token.mark) =
        .ok (namesRead offset (behind tokens i 2) (behind tokens i 1) ts) := by
  intro ts
  induction ts with
  | nil => exact fun _ => rfl
  | cons t ts ih =>
    intro i hdrop
    have hi : i < tokens.length := by
      by_contra hge
      rw [List.drop_eq_nil_of_le (Nat.le_of_not_lt hge)] at hdrop
      cases hdrop
    rw [List.drop_eq_getElem_cons hi, List.cons.injEq] at hdrop
    obtain ⟨rfl, hdrop⟩ := hdrop
    have hnext : tokens[i + 1]? = ts.head? := by rw [← hdrop, List.head?_drop]
    have hbehind : behind tokens (i + 1) 1 = some tokens[i] := by
      rw [behind, if_pos (Nat.le_add_left 1 i), Nat.add_sub_cancel, List.getElem?_eq_getElem hi]
    have hbehind2 : behind tokens (i + 1) 2 = behind tokens i 1 := by
      unfold behind
      rw [show i + 1 - 2 = i - 1 by omega]
      simp only [Nat.succ_le_succ_iff]
    obtain ⟨rest, hplace, hstop⟩ := hcut tokens[i] (List.getElem_mem hi)
    have hname : Checked.cut cs tokens[i].span.start tokens[i].span.stop =
        .ok tokens[i].text.toList := by
      rw [hstop, hplace.cut]
    rw [List.map_cons, namesFrom, ih hdrop, before_eq hi Nat.one_pos, before_eq hi Nat.two_pos,
      namesRead, hbehind, hbehind2, List.getElem?_map, hnext]
    simp only [Checked.ok_bind, readsName_mark, Token.mark, hname, Checked.pure_eq,
      String.ofList_toList]
    exact (apply_ite Except.ok _ _ _).symm

end Names

theorem expression_eq (cs : List Char) (offset : Nat) :
    expression cs offset = .ok (Template.expression cs offset) := by
  have hscan := Script.scanBytes_eq noFile (String.ofList cs)
  have htiles := Script.tiles_scan noFile (String.ofList cs)
  rw [String.toList_ofList] at hscan htiles
  have hnames := namesFrom_eq offset (fun t ht => htiles.text_place ht)
    (List.drop_zero (l := Script.scan noFile (String.ofList cs)))
  rw [expression, hscan, Checked.ok_bind, hnames]
  rfl

theorem trimClause_eq (piece : Nat × List Char) :
    trimClause piece = .ok (Template.trimClause piece) := by
  rw [trimClause, Checked.sub_of_le (Text.width_le_of_suffix (List.dropWhile_suffix _))]
  rfl

theorem splitWhere?_eq_some {p : Char → Bool} {cs before after : List Char}
    (h : splitWhere? p cs = some (before, after)) : ∃ c, cs = before ++ c :: after ∧ p c = true := by
  fun_induction splitWhere? p cs generalizing before after with
  | case1 => cases h
  | case2 c cs hc =>
    cases h
    exact ⟨c, rfl, hc⟩
  | case3 c cs _ ih =>
    obtain ⟨⟨before', after'⟩, hr, heq⟩ := Option.map_eq_some_iff.mp h
    cases heq
    obtain ⟨d, hd, hp⟩ := ih hr
    exact ⟨d, by rw [hd]; rfl, hp⟩

theorem letClause_eq (rest : List Char) (offset : Nat) :
    letClause rest offset = .ok (Template.letClause rest offset) := by
  unfold letClause Template.letClause
  have htail : ((splitWhere? (fun c => isBlank c || c = '=') rest).getD (rest, [])).2 <:+ rest := by
    cases hsplit : splitWhere? (fun c => isBlank c || c = '=') rest with
    | none => exact List.nil_suffix
    | some r =>
      obtain ⟨c, hc, -⟩ := splitWhere?_eq_some hsplit
      exact ⟨r.1 ++ [c], by simp [hc]⟩
  generalize (splitWhere? (fun c => isBlank c || c = '=') rest).getD (rest, []) = split at htail ⊢
  obtain ⟨name, tail⟩ := split
  dsimp only at htail ⊢
  have hdropped := (List.dropWhile_suffix isBlank).trans
    ((List.dropWhile_suffix (· = '=')).trans ((List.dropWhile_suffix isBlank).trans htail))
  generalize ((tail.dropWhile isBlank).dropWhile (· = '=')).dropWhile isBlank = dropped at hdropped ⊢
  cases hstrip : stripLead? "of ".toList dropped with
  | none => rfl
  | some iterable =>
    have hiterable : iterable <:+ rest :=
      List.IsSuffix.trans ⟨_, (Text.stripLead?_eq_some.mp hstrip).symm⟩ hdropped
    dsimp only
    rw [Checked.sub_of_le (Text.width_le_of_suffix hiterable), Checked.ok_bind, expression_eq]
    rfl

theorem directiveClause_eq (piece : Nat × List Char) :
    directiveClause piece = .ok (Template.directiveClause piece) := by
  rw [directiveClause, trimClause_eq, Checked.ok_bind, Template.directiveClause]
  dsimp only
  cases stripLead? "let ".toList (Template.trimClause piece).2 with
  | some rest => exact letClause_eq _ _
  | none =>
    dsimp only
    cases splitFirst? " as ".toList (Template.trimClause piece).2 with
    | some r =>
      dsimp only
      rw [expression_eq]
      rfl
    | none =>
      dsimp only
      cases splitFirst? [':'] (Template.trimClause piece).2 with
      | some r =>
        dsimp only
        rw [expression_eq, expression_eq]
        exact (apply_ite Except.ok _ _ _).symm
      | none => exact expression_eq _ _

theorem directive_eq (value : List Char) (offset : Nat) :
    directive value offset = .ok (Template.directive value offset) :=
  Checked.foldlM_ok (fun info piece => by rw [directiveClause_eq]; rfl) _ _

theorem find?_place {pat text cs before after : List Char} {pos : Nat} (h : Place text pos cs)
    (hsplit : splitFirst? pat cs = some (before, after)) :
    find? pat cs = some (width before) ∧ Checked.cut text pos (pos + width before) = .ok before ∧
      Place text (pos + width before) (pat ++ after) := by
  rw [Text.splitFirst?_eq_some hsplit] at h
  exact ⟨by rw [find?, hsplit]; rfl, h.cut, h.skip⟩

theorem find?_none {pat cs : List Char} (h : splitFirst? pat cs = none) : find? pat cs = none := by
  rw [find?, h]
  rfl

theorem interpolations_eq {text : List Char} (offset : Nat) (fuel : Nat) : ∀ {pos : Nat}
    {cs : List Char}, Place text pos cs → cs.length < fuel →
      interpolations text offset fuel pos =
        .ok (Template.interpolations (offset + pos) fuel cs) := by
  induction fuel with
  | zero => exact fun _ hfuel => absurd hfuel (Nat.not_lt_zero _)
  | succ fuel ih =>
    intro pos cs h hfuel
    rw [interpolations, Template.interpolations, h.cutFrom, Checked.ok_bind]
    cases hopen : splitFirst? "\x7b\x7b".toList cs with
    | none =>
      rw [find?_none hopen]
      rfl
    | some r =>
      obtain ⟨lead, after⟩ := r
      obtain ⟨hfind, -, hplace⟩ := find?_place h hopen
      have hafter : Place text (pos + width lead + 2) after := hplace.skip
      rw [hfind]
      dsimp only
      rw [hafter.cutFrom, Checked.ok_bind]
      cases hclose : splitFirst? "\x7d\x7d".toList after with
      | none =>
        rw [find?_none hclose]
        rfl
      | some r =>
        obtain ⟨inner, rest⟩ := r
        obtain ⟨hfind', hcut, hplace'⟩ := find?_place hafter hclose
        have hrest : Place text (pos + width lead + 2 + width inner + 2) rest := hplace'.skip
        have hshort : rest.length < fuel := by
          rw [Text.splitFirst?_eq_some hopen, Text.splitFirst?_eq_some hclose] at hfuel
          simp only [List.length_append, String.length_toList] at hfuel
          have : "\x7b\x7b".length = 2 := rfl
          omega
        rw [hfind']
        dsimp only
        rw [hcut, Checked.ok_bind, expression_eq, Checked.ok_bind, ih hrest hshort]
        simp only [Nat.add_assoc, Checked.ok_bind, Checked.pure_eq]

theorem attributeInfo_eq (name : List Char) (value : Option (Nat × List Char)) :
    attributeInfo name value = .ok (Template.attributeInfo name value) := by
  unfold attributeInfo Template.attributeInfo
  cases stripLead? ['#'] name with
  | some reference => rfl
  | none =>
    dsimp only
    cases stripLead? "let-".toList name with
    | some given => rfl
    | none =>
      cases value with
      | none => rfl
      | some value =>
        obtain ⟨offset, value⟩ := value
        dsimp only
        rw [directive_eq, expression_eq,
          interpolations_eq offset _ (Place.start value) (Nat.lt_succ_self _), Nat.add_zero,
          ← apply_ite Except.ok, ← apply_ite Except.ok]

/-- A position of a text with what follows it, or one past the end. -/
def Reached (text : List Char) (pos : Nat) (rest : List Char) : Prop :=
  Place text pos rest ∨ rest = [] ∧ width text ≤ pos

section Delimiters

open Script (coarse_of_const isAsciiBlank_of_not_isAscii not_isAscii_ne)

theorem coarse_insideTag : Coarse fun c => !Text.isAsciiBlank c && c != '>' :=
  coarse_of_const true fun c hc => by
    simp [isAsciiBlank_of_not_isAscii hc, not_isAscii_ne hc '>' rfl]

theorem coarse_insideName : Coarse fun c => !Text.isAsciiBlank c && c != '=' && c != '>' :=
  coarse_of_const true fun c hc => by
    simp [isAsciiBlank_of_not_isAscii hc, not_isAscii_ne hc '=' rfl, not_isAscii_ne hc '>' rfl]

theorem coarse_isAsciiAlpha : Coarse Text.isAsciiAlpha :=
  coarse_of_const false fun _ hc => (Script.isAsciiAlnum_of_not_isAscii hc).1

end Delimiters

section Reading

variable {text cs : List Char} {pos : Nat}

theorem pass_eq {test : Char → Bool} (htest : Coarse test) (h : Reached text pos cs) :
    pass text test pos = .ok (pos + width (cs.takeWhile test)) ∧
      Reached text (pos + width (cs.takeWhile test)) (cs.dropWhile test) := by
  rcases h with h | ⟨rfl, hle⟩
  · exact ⟨h.passWhile htest (Script.width_lt_length_octets h), .inl (h.pass test)⟩
  · refine ⟨?_, .inr ⟨rfl, hle⟩⟩
    rw [pass, Text.passWhile_eq _ _ _ (by omega),
      List.drop_eq_nil_of_le (by rw [Text.length_octets]; exact hle)]
    rfl

theorem attributeValue_quoted {quote : Char} (hquote : quote = '"' ∨ quote = '\'')
    (h : Place text pos ('=' :: quote :: cs)) :
    attributeValue text pos = .ok ((Template.attributeValue pos ('=' :: quote :: cs)).1,
        (Template.attributeValue pos ('=' :: quote :: cs)).2.1) ∧
      Reached text (Template.attributeValue pos ('=' :: quote :: cs)).2.1
        (Template.attributeValue pos ('=' :: quote :: cs)).2.2 ∧
      (Template.attributeValue pos ('=' :: quote :: cs)).2.2.length ≤ cs.length := by
  have hascii : isAscii quote = true := by rcases hquote with rfl | rfl <;> rfl
  have hnext : Place text (pos + 1) (quote :: cs) := h.next
  have hcs : Place text (pos + 2) cs := by
    have := hnext.next
    rwa [Text.utf8Size_of_isAscii hascii] at this
  have hwidth := hcs.pos_add_width
  have hfilter : (octets text)[pos + 1]?.filter (fun b => b = '"' || b = '\'') = some quote := by
    rw [hnext.getElem?_of_isAscii hascii]
    simpa using hquote
  rw [attributeValue, if_pos (h.getElem?_of_isAscii rfl), hfilter]
  dsimp only
  rw [Checked.sub_of_le hcs.pos_le, Checked.ok_bind, hcs.cutFrom, Checked.ok_bind,
    Template.attributeValue, if_pos hquote]
  cases hsplit : splitWhere? (· = quote) cs with
  | none =>
    have hcut := hcs.cutFrom
    rw [Checked.cutFrom] at hcut
    simp only [Option.map_none, Option.getD_none]
    rw [show pos + 2 + (width text - (pos + 2)) = width text by omega, hcut, ← hwidth]
    exact ⟨rfl, .inr ⟨rfl, by omega⟩, Nat.zero_le _⟩
  | some r =>
    obtain ⟨value, after⟩ := r
    obtain ⟨c, rfl, hc⟩ := splitWhere?_eq_some hsplit
    obtain rfl : c = quote := of_decide_eq_true hc
    simp only [Option.map_some, Option.getD_some]
    rw [hcs.cut]
    have hafter := hcs.skip.next
    rw [Text.utf8Size_of_isAscii hascii] at hafter
    exact ⟨rfl, .inl hafter, by simp; omega⟩

theorem attributeValue_bare (h : Place text pos ('=' :: cs))
    (hquote : ∀ quote ∈ cs.head?, ¬ (quote = '"' ∨ quote = '\'')) :
    attributeValue text pos = .ok ((Template.attributeValue pos ('=' :: cs)).1,
        (Template.attributeValue pos ('=' :: cs)).2.1) ∧
      Reached text (Template.attributeValue pos ('=' :: cs)).2.1
        (Template.attributeValue pos ('=' :: cs)).2.2 ∧
      (Template.attributeValue pos ('=' :: cs)).2.2.length ≤ cs.length := by
  have hcs : Place text (pos + 1) cs := h.next
  have hmodel : Template.attributeValue pos ('=' :: cs) =
      (some (pos + 1, cs.takeWhile fun c => !Text.isAsciiBlank c && c != '>'),
        pos + 1 + width (cs.takeWhile fun c => !Text.isAsciiBlank c && c != '>'),
        cs.dropWhile fun c => !Text.isAsciiBlank c && c != '>') := by
    cases cs with
    | nil => rfl
    | cons q r => rw [Template.attributeValue, if_neg (hquote q rfl)]
  have hfilter : (octets text)[pos + 1]?.filter (fun b => b = '"' || b = '\'') = none := by
    rw [Option.filter_eq_none_iff]
    intro b hb hmark
    have hb' : b = '"' ∨ b = '\'' := by simpa using hmark
    have hascii : isAscii b = true := by rcases hb' with rfl | rfl <;> rfl
    exact hquote b ((Script.byte_eq_iff hascii hcs).mp hb) hb'
  obtain ⟨hpass, hreached⟩ := pass_eq coarse_insideTag (.inl hcs)
  rw [attributeValue, if_pos (h.getElem?_of_isAscii rfl), hfilter, hmodel]
  dsimp only
  rw [hpass, Checked.ok_bind, hcs.cut_pass]
  exact ⟨rfl, hreached, (List.dropWhile_sublist _).length_le⟩

theorem attributeValue_eq (h : Reached text pos cs) :
    attributeValue text pos = .ok ((Template.attributeValue pos cs).1,
        (Template.attributeValue pos cs).2.1) ∧
      Reached text (Template.attributeValue pos cs).2.1 (Template.attributeValue pos cs).2.2 ∧
      (Template.attributeValue pos cs).2.2.length ≤ cs.length - (if cs.head? = some '=' then 1 else 0) := by
  by_cases heq : cs.head? = some '='
  · obtain ⟨r, rfl⟩ := List.head?_eq_some_iff.mp heq
    have hplace : Place text pos ('=' :: r) := h.resolve_right fun hend => by cases hend.1
    rw [if_pos heq, List.length_cons, Nat.add_sub_cancel]
    by_cases hquoted : ∀ quote ∈ r.head?, ¬ (quote = '"' ∨ quote = '\'')
    · exact attributeValue_bare hplace hquoted
    · simp only [not_forall, not_not] at hquoted
      obtain ⟨quote, hhead, hquote⟩ := hquoted
      obtain ⟨r', rfl⟩ := List.head?_eq_some_iff.mp hhead
      obtain ⟨hvalue, hreached, hlength⟩ := attributeValue_quoted hquote hplace
      exact ⟨hvalue, hreached, Nat.le_succ_of_le hlength⟩
  · have hmodel : Template.attributeValue pos cs = (none, pos, cs) := by
      unfold Template.attributeValue
      split
      · exact absurd rfl heq
      · exact absurd rfl heq
      · rfl
    have hbyte : (octets text)[pos]? ≠ some '=' := by
      rcases h with h | ⟨rfl, hle⟩
      · rwa [Ne, Script.byte_eq_iff rfl h]
      · rw [List.getElem?_eq_none (by rw [Text.length_octets]; exact hle)]
        exact fun hnone => by cases hnone
    rw [attributeValue, if_neg hbyte, hmodel, if_neg heq]
    exact ⟨rfl, h, Nat.le_refl _⟩

def endsTag : List Char → Bool
  | '>' :: _ => true
  | '/' :: '>' :: _ => true
  | _ => false

theorem endsTag_byte {c : Char} (h : Place text pos (c :: cs)) :
    ∃ b, Checked.get (octets text) pos = .ok b ∧ ¬ (octets text).length ≤ pos ∧
      (b = '>' || (b = '/' && (octets text)[pos + 1]? = some '>')) = endsTag (c :: cs) := by
  obtain ⟨b, hb, hget, -, hlt, -, -⟩ := Script.byte_at h
  refine ⟨b, hget, hlt, ?_⟩
  have hmark : ∀ mark : Char, isAscii mark = true → (b = mark ↔ c = mark) := by
    intro mark hmark
    have := Script.byte_eq_iff hmark h
    rwa [hb, Option.some.injEq, List.head?_cons, Option.some.injEq] at this
  simp only [hmark '>' rfl, hmark '/' rfl]
  by_cases hclose : c = '>'
  · subst hclose
    rfl
  by_cases hslash : c = '/'
  · subst hslash
    have hnext : Place text (pos + 1) cs := h.next
    have hbyte : (octets text)[pos + 1]? = some '>' ↔ cs.head? = some '>' := Script.byte_eq_iff rfl hnext
    simp only [hbyte]
    cases cs with
    | nil => rfl
    | cons d cs =>
      by_cases hd : d = '>'
      · subst hd
        rfl
      · simp [endsTag, hd]
  · simp [endsTag, hclose, hslash]

theorem attributesFrom_cons {fuel : Nat} {c : Char} {rest : List Char}
    (hdrop : cs.dropWhile Text.isAsciiBlank = c :: rest) (hend : endsTag (c :: rest) = false) :
    Template.attributesFrom (fuel + 1) pos cs =
      let inName := fun c => !Text.isAsciiBlank c && c != '=' && c != '>'
      let start := pos + width (cs.takeWhile Text.isAsciiBlank)
      let name := (c :: rest).takeWhile inName
      let value := Template.attributeValue (start + width name) ((c :: rest).dropWhile inName)
      let after := Template.attributesFrom fuel value.2.1 value.2.2
      (Template.attributeInfo name value.1 ++ after.1, after.2) := by
  rw [Template.attributesFrom_succ, hdrop]
  dsimp only
  split
  · rename_i heq
    cases heq
  · rename_i heq
    cases heq
    cases hend
  · rename_i heq
    cases heq
    cases hend
  · rfl

theorem attributesFrom_ends {fuel : Nat} {rest : List Char}
    (hdrop : cs.dropWhile Text.isAsciiBlank = rest) (hend : rest = [] ∨ endsTag rest = true) :
    Template.attributesFrom (fuel + 1) pos cs =
      (Info.empty, pos + width (cs.takeWhile Text.isAsciiBlank) + (rest.take 1).length, rest.drop 1) := by
  rw [Template.attributesFrom_succ, hdrop]
  dsimp only
  split
  · rfl
  · rfl
  · rfl
  · rename_i hnil hclose hslash
    rcases hend with hempty | hend
    · exact absurd hempty (by simpa using hnil)
    · unfold endsTag at hend
      split at hend
      · exact absurd rfl (hclose _)
      · exact absurd rfl (hslash _)
      · cases hend

theorem length_attribute_lt {c : Char} {rest : List Char} (hblank : Text.isAsciiBlank c = false)
    (hend : endsTag (c :: rest) = false) :
    let tail := (c :: rest).dropWhile fun c => !Text.isAsciiBlank c && c != '=' && c != '>'
    tail.length - (if tail.head? = some '=' then 1 else 0) < (c :: rest).length := by
  intro tail
  by_cases heq : c = '='
  · subst heq
    have htail : tail = '=' :: rest := List.dropWhile_cons_of_neg (by simp)
    rw [htail, List.head?_cons, if_pos rfl, List.length_cons]
    omega
  · have hclose : c ≠ '>' := by
      rintro rfl
      cases hend
    have htail : tail = rest.dropWhile fun c => !Text.isAsciiBlank c && c != '=' && c != '>' :=
      List.dropWhile_cons_of_pos (by simp [hblank, heq, hclose])
    have hle : tail.length ≤ rest.length := by
      rw [htail]
      exact (List.dropWhile_sublist _).length_le
    rw [List.length_cons]
    omega

theorem attributesFrom_eq (fuel : Nat) : ∀ {fuel' pos : Nat} {cs : List Char}, Reached text pos cs →
    cs.length < fuel → cs.length < fuel' →
      attributesFrom text fuel pos = .ok ((Template.attributesFrom fuel' pos cs).1,
          (Template.attributesFrom fuel' pos cs).2.1) ∧
        Reached text (Template.attributesFrom fuel' pos cs).2.1
          (Template.attributesFrom fuel' pos cs).2.2 ∧
        (Template.attributesFrom fuel' pos cs).2.2.length ≤ cs.length := by
  induction fuel with
  | zero => exact fun _ hfuel => absurd hfuel (Nat.not_lt_zero _)
  | succ fuel ih =>
    intro fuel' pos cs h hfuel hfuel'
    obtain ⟨fuel', rfl⟩ := Nat.exists_eq_succ_of_ne_zero (Nat.ne_of_gt (Nat.zero_lt_of_lt hfuel'))
    obtain ⟨hpass, hstart⟩ := pass_eq Script.coarse_isAsciiBlank h
    have hshort := (List.dropWhile_sublist (l := cs) Text.isAsciiBlank).length_le
    rw [attributesFrom, hpass, Checked.ok_bind]
    dsimp only
    cases hdrop : cs.dropWhile Text.isAsciiBlank with
    | nil =>
      rw [hdrop] at hstart
      have hend : width text ≤ pos + width (cs.takeWhile Text.isAsciiBlank) := by
        rcases hstart with hplace | ⟨-, hle⟩
        · exact Nat.le_of_eq (by simpa using hplace.pos_add_width.symm)
        · exact hle
      rw [if_pos (by rw [Text.length_octets]; exact hend), attributesFrom_ends hdrop (.inl rfl)]
      exact ⟨rfl, .inr ⟨rfl, hend⟩, Nat.zero_le _⟩
    | cons c rest =>
      rw [hdrop] at hstart hshort
      have hplace := hstart.resolve_right fun hnil => by cases hnil.1
      obtain ⟨b, hget, hlt, htest⟩ := endsTag_byte hplace
      rw [if_neg hlt, hget, Checked.ok_bind, htest]
      cases hend : endsTag (c :: rest) with
      | true =>
        rw [if_pos rfl, attributesFrom_ends hdrop (.inr hend)]
        have hascii : isAscii c = true := by
          unfold endsTag at hend
          split at hend
          · rename_i heq
            cases heq
            rfl
          · rename_i heq
            cases heq
            rfl
          · cases hend
        have hnext := hplace.next
        rw [Text.utf8Size_of_isAscii hascii] at hnext
        refine ⟨rfl, .inl hnext, ?_⟩
        rw [List.length_cons] at hshort
        simp
        omega
      | false =>
        obtain ⟨hname, hstop⟩ := pass_eq coarse_insideName hstart
        obtain ⟨hvalue, hafter, hlength⟩ := attributeValue_eq hstop
        have hblank : Text.isAsciiBlank c = false := by
          have hnot := List.head?_dropWhile_not Text.isAsciiBlank cs
          rw [hdrop] at hnot
          simpa using hnot
        have hless := Nat.lt_of_le_of_lt hlength (length_attribute_lt hblank hend)
        obtain ⟨hrest, hreached, hrestLength⟩ := @ih fuel' _ _ hafter (by omega) (by omega)
        rw [if_neg (by simp), hname, Checked.ok_bind, hplace.cut_pass, Checked.ok_bind, hvalue,
          Checked.ok_bind, attributeInfo_eq, Checked.ok_bind, hrest, attributesFrom_cons hdrop hend]
        exact ⟨rfl, hreached, by dsimp only; omega⟩

theorem tag_eq (h : Place text pos ('<' :: cs)) :
    tag text pos = .ok ((Template.tag (pos + 1) cs).1, (Template.tag (pos + 1) cs).2.1) ∧
      Reached text (Template.tag (pos + 1) cs).2.1 (Template.tag (pos + 1) cs).2.2 ∧
      (Template.tag (pos + 1) cs).2.2.length ≤ cs.length := by
  have hcs : Place text (pos + 1) cs := h.next
  obtain ⟨hpass, hreached⟩ := pass_eq coarse_insideTag (.inl hcs)
  have hdrop := (List.dropWhile_sublist (l := cs) fun c => !Text.isAsciiBlank c && c != '>').length_le
  have hbound : cs.length < (octets text).length + 1 :=
    Nat.lt_of_le_of_lt (Text.length_le_width cs) (Script.width_lt_length_octets hcs)
  obtain ⟨heq, hend, hlength⟩ := @attributesFrom_eq text _ (cs.length + 1) _ _ hreached
    (Nat.lt_of_le_of_lt hdrop hbound) (Nat.lt_succ_of_le hdrop)
  rw [tag, hpass, Checked.ok_bind, heq]
  exact ⟨rfl, hend, Nat.le_trans hlength hdrop⟩

theorem groupTail_eq_some {depth : Nat} {cs inner after : List Char}
    (h : groupTail depth cs = some (inner, after)) : cs = inner ++ ')' :: after := by
  fun_induction groupTail depth cs generalizing inner after with
  | case1 => cases h
  | case2 depth c cs hclose =>
    cases h
    rw [hclose.1]
    rfl
  | case3 depth c cs =>
    rename_i ih
    obtain ⟨⟨inner', after'⟩, hr, heq⟩ := Option.map_eq_some_iff.mp h
    cases heq
    rw [ih hr]
    rfl

theorem groupEnd_append (depth : Nat) : ∀ {i : Nat} {os bs : List Char},
    (∀ o ∈ os, isAscii o = false) → groupEnd depth i (os ++ bs) = groupEnd depth (i + os.length) bs
  | _, [], _, _ => rfl
  | i, o :: os, bs, h => by
    have ho := h o List.mem_cons_self
    rw [List.cons_append, groupEnd, if_neg (Script.not_isAscii_ne ho _ rfl),
      if_neg (Script.not_isAscii_ne ho _ rfl),
      groupEnd_append depth fun b hb => h b (List.mem_cons_of_mem o hb), List.length_cons]
    congr 1
    omega

theorem groupEnd_eq : ∀ {depth i : Nat} {cs : List Char}, groupEnd (depth + 1) i (octets cs) =
    .ok ((groupTail depth cs).map fun r => i + width r.1)
  | depth, i, [] => rfl
  | depth, i, c :: cs => by
    have hmap : ∀ depth', groupEnd (depth' + 1) (i + c.utf8Size) (octets cs) =
        .ok (((groupTail depth' cs).map fun r => (c :: r.1, r.2)).map fun r => i + width r.1) := by
      intro depth'
      rw [groupEnd_eq, Option.map_map]
      simp [Function.comp_def, Nat.add_assoc]
    rw [Text.octets_cons, groupTail]
    cases hc : isAscii c with
    | false =>
      rw [groupEnd_append _ fun o ho => Text.isAscii_charOctets hc ho, Text.length_charOctets, hmap,
        if_neg fun h => Script.not_isAscii_ne hc ')' rfl h.1, if_neg (Script.not_isAscii_ne hc _ rfl),
        if_neg (Script.not_isAscii_ne hc _ rfl)]
    | true =>
      rw [Text.utf8Size_of_isAscii hc] at hmap
      rw [Text.charOctets_of_isAscii hc, List.singleton_append, groupEnd]
      by_cases hopen : c = '('
      · subst hopen
        rw [if_pos rfl, if_neg (by simp), hmap, if_pos rfl]
      rw [if_neg hopen, if_neg hopen]
      by_cases hclose : c = ')'
      · rw [if_pos hclose, if_pos hclose, Checked.sub_add, Checked.ok_bind]
        cases depth with
        | zero =>
          rw [if_pos rfl, if_pos ⟨hclose, rfl⟩]
          rfl
        | succ depth =>
          rw [if_neg (Nat.succ_ne_zero depth), if_neg fun h => Nat.succ_ne_zero depth h.2, hmap]
          rfl
      · rw [if_neg hclose, if_neg hclose, if_neg fun h => hclose h.1, hmap]

theorem loopClause_eq (piece : Nat × List Char) :
    loopClause piece = .ok (Template.loopClause piece) := by
  rw [loopClause, trimClause_eq, Checked.ok_bind, Template.loopClause]
  dsimp only
  cases stripLead? "track ".toList (Template.trimClause piece).2 with
  | some expr => exact expression_eq _ _
  | none =>
    dsimp only
    cases stripLead? "let ".toList (Template.trimClause piece).2 <;> rfl

theorem loopHead_eq (piece : Nat × List Char) : loopHead piece = .ok (Template.loopHead piece) := by
  rw [loopHead, trimClause_eq, Checked.ok_bind, Template.loopHead]
  dsimp only
  cases splitFirst? " of ".toList (Template.trimClause piece).2 with
  | none => rfl
  | some r =>
    dsimp only
    rw [expression_eq]
    rfl

theorem blockArgument_eq (keyword : String) (inner : List Char) (offset : Nat) :
    blockArgument keyword inner offset = .ok (Template.blockArgument keyword inner offset) := by
  unfold blockArgument Template.blockArgument
  split
  · cases clauses inner offset with
    | nil => rfl
    | cons head rest =>
      dsimp only
      rw [loopHead_eq, Checked.ok_bind]
      exact Checked.foldlM_ok (fun info piece => by rw [loopClause_eq]; rfl) _ _
  · split
    · cases splitFirst? [';'] inner with
      | none => exact expression_eq _ _
      | some r =>
        dsimp only
        rw [expression_eq]
        rfl
    · exact expression_eq _ _

theorem block_open {rest : List Char}
    (h : (cs.dropWhile Text.isAsciiAlpha).dropWhile (· = ' ') = '(' :: rest) :
    Template.block pos cs =
      let start := pos + width (cs.takeWhile Text.isAsciiAlpha) +
        width ((cs.dropWhile Text.isAsciiAlpha).takeWhile (· = ' ')) + 1
      match groupTail 0 rest with
      | some (inner, after) =>
          (Template.blockArgument (String.ofList (cs.takeWhile Text.isAsciiAlpha)) inner start,
            start + width inner + 1, after)
      | none => (Info.empty, start, rest) := by
  rw [Template.block, h]
  rfl

theorem block_eq (h : Place text pos ('@' :: cs)) :
    block text pos = .ok ((Template.block (pos + 1) cs).1, (Template.block (pos + 1) cs).2.1) ∧
      Reached text (Template.block (pos + 1) cs).2.1 (Template.block (pos + 1) cs).2.2 ∧
      (Template.block (pos + 1) cs).2.2.length ≤ cs.length := by
  have hcs : Place text (pos + 1) cs := h.next
  have hspace : Coarse fun c => c = ' ' := Script.coarse_eq rfl
  obtain ⟨hword, -⟩ := pass_eq coarse_isAsciiAlpha (.inl hcs)
  have hafter := hcs.pass Text.isAsciiAlpha
  obtain ⟨hblanks, -⟩ := pass_eq hspace (.inl hafter)
  have hplace := hafter.pass (· = ' ')
  have hlength : ((cs.dropWhile Text.isAsciiAlpha).dropWhile (· = ' ')).length ≤ cs.length :=
    Nat.le_trans (List.dropWhile_sublist _).length_le (List.dropWhile_sublist _).length_le
  rw [block, hword, Checked.ok_bind, hcs.cut_pass, Checked.ok_bind, hblanks, Checked.ok_bind]
  by_cases hhead : ((cs.dropWhile Text.isAsciiAlpha).dropWhile (· = ' ')).head? = some '('
  · obtain ⟨rest, hrest⟩ := List.head?_eq_some_iff.mp hhead
    rw [block_open hrest]
    rw [hrest] at hplace hlength
    rw [List.length_cons] at hlength
    have hinner : Place text (pos + 1 + width (cs.takeWhile Text.isAsciiAlpha) +
      width ((cs.dropWhile Text.isAsciiAlpha).takeWhile (· = ' ')) + 1) rest := hplace.next
    rw [if_neg (by rw [hplace.getElem?_of_isAscii rfl]; simp), hplace.octets_eq, Text.octets_cons,
      Text.charOctets_of_isAscii rfl, List.singleton_append, groupEnd, if_pos rfl, groupEnd_eq,
      Checked.ok_bind]
    dsimp only
    cases hgroup : groupTail 0 rest with
    | none => exact ⟨rfl, .inl hinner, by dsimp only; omega⟩
    | some r =>
      obtain ⟨inner, after⟩ := r
      rw [groupTail_eq_some hgroup] at hinner hlength
      rw [List.length_append, List.length_cons] at hlength
      have hend := hinner.skip.next
      simp only [Option.map_some]
      rw [hinner.cut, Checked.ok_bind, blockArgument_eq]
      exact ⟨rfl, .inl hend, by omega⟩
  · have hbyte : (octets text)[pos + 1 + width (cs.takeWhile Text.isAsciiAlpha) +
        width ((cs.dropWhile Text.isAsciiAlpha).takeWhile (· = ' '))]? ≠ some '(' := by
      rwa [Ne, Script.byte_eq_iff rfl hplace]
    rw [if_pos hbyte, Template.block]
    split
    · rename_i hrest
      rw [hrest] at hhead
      exact absurd rfl hhead
    · exact ⟨rfl, .inl hplace, hlength⟩

theorem isPrefixOf_octets : ∀ {pat cs : List Char}, (∀ p ∈ pat, isAscii p = true) →
    pat.isPrefixOf (octets cs) = (stripLead? pat cs).isSome
  | [], _, _ => rfl
  | p :: pat, [], _ => rfl
  | p :: pat, c :: cs, h => by
    have hp := h p List.mem_cons_self
    rw [stripLead?, Text.octets_cons]
    cases hc : isAscii c with
    | true =>
      rw [Text.charOctets_of_isAscii hc, List.singleton_append, List.isPrefixOf_cons_cons,
        isPrefixOf_octets fun q hq => h q (List.mem_cons_of_mem p hq)]
      by_cases hpc : p = c
      · simp [hpc]
      · simp [hpc]
    | false =>
      obtain ⟨o, os, hos⟩ := List.exists_cons_of_ne_nil (Text.charOctets_ne_nil c)
      have ho : isAscii o = false := Text.isAscii_charOctets hc (hos ▸ List.mem_cons_self)
      rw [hos, List.cons_append, List.isPrefixOf_cons_cons,
        if_neg (Script.not_isAscii_ne hc p hp).symm]
      simp [(Script.not_isAscii_ne ho p hp).symm]

theorem letterAt_eq (h : Place text pos cs) : letterAt text pos = startsName cs := by
  unfold letterAt startsName
  cases cs with
  | nil => rw [show (octets text)[pos]? = none from h.getElem?_nil 0]; rfl
  | cons c cs =>
    obtain ⟨o, ho, hsame⟩ := h.octet
    rw [ho]
    exact hsame Text.isAsciiAlpha coarse_isAsciiAlpha

theorem letterAt_next (h : Place text pos (c :: cs)) (hc : isAscii c = true) :
    letterAt text (pos + 1) = startsName cs := by
  have hnext := h.next
  rw [Text.utf8Size_of_isAscii hc] at hnext
  exact letterAt_eq hnext

theorem part_rest (h : Place text pos cs) :
    Checked.part (octets text) pos (octets text).length = .ok (octets cs) := by
  have hwidth := h.pos_add_width
  rw [Checked.part, if_pos ⟨by rw [Text.length_octets]; omega, Nat.le_refl _⟩, ← h.octets_eq,
    List.take_of_length_le (by rw [List.length_drop])]

theorem analyzeFrom_cons (fuel : Nat) (h : Place text pos (c :: cs)) :
    analyzeFrom text (fuel + 1) pos =
      match stripLead? "\x7b\x7b".toList (c :: cs) with
      | some rest =>
          match splitFirst? "\x7d\x7d".toList rest with
          | none => .ok Info.empty
          | some (inner, _) => do
              return Template.expression inner (pos + 2) ++
                (← analyzeFrom text fuel (pos + 2 + width inner + 2))
      | none =>
          if c = '<' && startsName cs then do
            let (info, after) ← tag text pos
            return info ++ (← analyzeFrom text fuel after)
          else if c = '@' && startsName cs then do
            let (info, after) ← block text pos
            return info ++ (← analyzeFrom text fuel after)
          else analyzeFrom text fuel (pos + c.utf8Size) := by
  obtain ⟨b, hb, hget, -, hlt, -, -⟩ := Script.byte_at h
  have hmark : ∀ mark : Char, isAscii mark = true → (b = mark ↔ c = mark) := by
    intro mark hmark
    have := Script.byte_eq_iff hmark h
    rwa [hb, Option.some.injEq, List.head?_cons, Option.some.injEq] at this
  rw [analyzeFrom, if_pos (by omega), hget, Checked.ok_bind, part_rest h, Checked.ok_bind,
    isPrefixOf_octets (List.all_eq_true.mp (by decide))]
  cases hlead : stripLead? "\x7b\x7b".toList (c :: cs) with
  | some rest =>
    have hopen : c :: cs = '\x7b' :: '\x7b' :: rest := Text.stripLead?_eq_some.mp hlead
    cases hopen
    have hrest : Place text (pos + 2) rest := h.next.next
    rw [Option.isSome_some, if_pos rfl]
    dsimp only
    rw [hrest.cutFrom, Checked.ok_bind]
    cases hclose : splitFirst? "\x7d\x7d".toList rest with
    | none =>
      rw [find?_none hclose]
      rfl
    | some r =>
      obtain ⟨hfind, hcut, -⟩ := find?_place hrest hclose
      rw [hfind]
      dsimp only
      rw [hcut, Checked.ok_bind, expression_eq, Checked.ok_bind]
  | none =>
    -- The byte after a mark is looked at only where the mark is one byte wide.
    have hstart : ∀ mark : Char, isAscii mark = true →
        (decide (b = mark) && letterAt text (pos + 1)) = (decide (c = mark) && startsName cs) := by
      intro mark hmark'
      rw [decide_eq_decide.mpr (hmark mark hmark')]
      by_cases hc : c = mark
      · rw [letterAt_next h (hc ▸ hmark')]
      · rw [decide_eq_false hc, Bool.false_and, Bool.false_and]
    rw [Option.isSome_none, if_neg Bool.false_ne_true, hstart '<' rfl, hstart '@' rfl, h.cutFrom,
      Checked.ok_bind]
    rfl

theorem model_cons (fuel pos : Nat) (c : Char) (cs : List Char) :
    Template.analyzeFrom (fuel + 1) pos (c :: cs) =
      match stripLead? "\x7b\x7b".toList (c :: cs) with
      | some rest =>
          match splitFirst? "\x7d\x7d".toList rest with
          | none => Info.empty
          | some (inner, rest) => Template.expression inner (pos + 2) ++
              Template.analyzeFrom fuel (pos + 2 + width inner + 2) rest
      | none =>
          if c = '<' && startsName cs then
            (Template.tag (pos + 1) cs).1 ++ Template.analyzeFrom fuel
              (Template.tag (pos + 1) cs).2.1 (Template.tag (pos + 1) cs).2.2
          else if c = '@' && startsName cs then
            (Template.block (pos + 1) cs).1 ++ Template.analyzeFrom fuel
              (Template.block (pos + 1) cs).2.1 (Template.block (pos + 1) cs).2.2
          else Template.analyzeFrom fuel (pos + c.utf8Size) cs := by
  cases hlead : stripLead? "\x7b\x7b".toList (c :: cs) with
  | some rest =>
    have hopen : c :: cs = '\x7b' :: '\x7b' :: rest := Text.stripLead?_eq_some.mp hlead
    cases hopen
    rfl
  | none =>
    rw [Template.analyzeFrom]
    rintro rest rfl rfl
    cases hlead

/-- Taking in a template byte by byte comes to its end, and finds what the template reads. -/
theorem analyzeFrom_eq (fuel : Nat) : ∀ {pos : Nat} {cs : List Char}, Reached text pos cs →
    cs.length < fuel → analyzeFrom text fuel pos = .ok (Template.analyzeFrom fuel pos cs) := by
  induction fuel with
  | zero => exact fun _ hfuel => absurd hfuel (Nat.not_lt_zero _)
  | succ fuel ih =>
    intro pos cs h hfuel
    cases cs with
    | nil =>
      have hend : width text ≤ pos := by
        rcases h with hplace | ⟨-, hle⟩
        · exact Nat.le_of_eq (by simpa using hplace.pos_add_width.symm)
        · exact hle
      rw [analyzeFrom, if_neg (by rw [Text.length_octets]; omega)]
      rfl
    | cons c cs =>
      have hplace := h.resolve_right fun hnil => by cases hnil.1
      rw [List.length_cons] at hfuel
      rw [analyzeFrom_cons fuel hplace, model_cons]
      cases hlead : stripLead? "\x7b\x7b".toList (c :: cs) with
      | some rest =>
        have hopen : c :: cs = '\x7b' :: '\x7b' :: rest := Text.stripLead?_eq_some.mp hlead
        cases hopen
        have hrest : Place text (pos + 2) rest := hplace.next.next
        dsimp only
        cases hclose : splitFirst? "\x7d\x7d".toList rest with
        | none => rfl
        | some r =>
          obtain ⟨-, -, hpair⟩ := find?_place hrest hclose
          have hafter : Place text (pos + 2 + width r.1 + 2) r.2 := hpair.skip
          have hshort : r.2.length < fuel := by
            rw [Text.splitFirst?_eq_some hclose] at hfuel
            simp only [List.length_cons, List.length_append] at hfuel
            omega
          dsimp only
          rw [ih (.inl hafter) hshort]
          rfl
      | none =>
        dsimp only
        split
        · rename_i htag
          simp only [Bool.and_eq_true, decide_eq_true_eq] at htag
          obtain ⟨rfl, -⟩ := htag
          obtain ⟨heq, hreached, hlength⟩ := tag_eq hplace
          rw [heq, Checked.ok_bind]
          dsimp only
          rw [ih hreached (by omega)]
          rfl
        split
        · rename_i hblock
          simp only [Bool.and_eq_true, decide_eq_true_eq] at hblock
          obtain ⟨rfl, -⟩ := hblock
          obtain ⟨heq, hreached, hlength⟩ := block_eq hplace
          rw [heq, Checked.ok_bind]
          dsimp only
          rw [ih hreached (by omega)]
          rfl
        · exact ih (.inl hplace.next) (by omega)

theorem analyze_eq (source : String) : analyze source.toList = .ok (Template.analyze source) :=
  analyzeFrom_eq _ (.inl (Place.start _)) (Nat.lt_succ_self _)

end Reading

end Bytes

end Template

end Recompile
