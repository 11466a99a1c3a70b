import Recompile.Proofs.Script.Tiling

/-!
Token sequences read through spans: the text of a token is cut out of the source, and the partner of
a bracket is found in a table by position. On the tokens of a text this never goes wrong, and gives
what the tokens carry with them.
-/

namespace Recompile.Script

open Text (width Place)

def setAt {α : Type} (xs : List α) (i : Nat) (a : α) : Checked (List α) :=
  if i < xs.length then .ok (xs.set i a) else .error .index

/-- Fills a table of partners, given the brackets open before a position. -/
def partnersFrom (stack : List OpenPosition) (table : List (Option Nat)) (i : Nat) :
    List Token → Checked (List (Option Nat))
  | [] => .ok table
  | t :: ts =>
      match t.kind with
      | .punct mark =>
          if openers.contains mark then partnersFrom ((mark, i) :: stack) table (i + 1) ts
          else if closers.contains mark then
            match stack.findIdx? fun b => b.1 = openerOf mark with
            | none => partnersFrom stack table (i + 1) ts
            | some depth => do
                let b ← Checked.get stack depth
                partnersFrom (stack.drop (depth + 1)) (← setAt table b.2 (some i)) (i + 1) ts
          else partnersFrom stack table (i + 1) ts
      | _ => partnersFrom stack table (i + 1) ts

def partners (tokens : List Token) : Checked (List (Option Nat)) :=
  partnersFrom [] (List.replicate tokens.length none) 0 tokens

def Nested (stack : List OpenPosition) (i : Nat) : Prop :=
  stack.Pairwise (fun a b => b.2 < a.2) ∧ ∀ b ∈ stack, b.2 < i

theorem Nested.push {stack : List OpenPosition} {i : Nat} (h : Nested stack i) (mark : Char) :
    Nested ((mark, i) :: stack) (i + 1) :=
  ⟨List.pairwise_cons.mpr ⟨h.2, h.1⟩, fun b hb => by
    rcases List.mem_cons.mp hb with rfl | hb
    · exact Nat.lt_succ_self _
    · exact Nat.lt_succ_of_lt (h.2 b hb)⟩

theorem Nested.drop {stack : List OpenPosition} {i : Nat} (h : Nested stack i) (n : Nat) :
    Nested (stack.drop n) (i + 1) :=
  ⟨h.1.sublist (List.drop_sublist n stack), fun b hb =>
    Nat.lt_succ_of_lt (h.2 b (List.mem_of_mem_drop hb))⟩

theorem pairsFrom_bounds {ts : List Token} : ∀ {stack : List OpenPosition} {i : Nat}, Nested stack i →
    ∀ p ∈ pairsFrom stack i ts, (i ≤ p.1 ∨ ∃ b ∈ stack, b.2 = p.1) ∧ p.1 < p.2 ∧
      p.2 < i + ts.length := by
  induction ts with
  | nil => exact fun _ _ hp => by simp [pairsFrom] at hp
  | cons t ts ih =>
    intro stack i h p hp
    have hstay : p ∈ pairsFrom stack (i + 1) ts → (i ≤ p.1 ∨ ∃ b ∈ stack, b.2 = p.1) ∧
        p.1 < p.2 ∧ p.2 < i + (t :: ts).length := by
      intro hp
      obtain ⟨hfrom, hlt, hbound⟩ := ih (h.drop 0) p hp
      refine ⟨hfrom.imp (fun hi => by omega) id, hlt, ?_⟩
      rw [List.length_cons]
      omega
    rw [pairsFrom] at hp
    split at hp
    · rename_i mark hkind
      split at hp
      · obtain ⟨hfrom, hlt, hbound⟩ := ih (h.push mark) p hp
        refine ⟨?_, hlt, by rw [List.length_cons]; omega⟩
        rcases hfrom with hi | ⟨b, hb, hbp⟩
        · exact .inl (by omega)
        · rcases List.mem_cons.mp hb with rfl | hb
          · exact .inl (Nat.le_of_eq hbp)
          · exact .inr ⟨b, hb, hbp⟩
      · split at hp
        · split at hp
          · exact hstay hp
          · rename_i b below hdrop
            have hsub : (b :: below).Sublist stack := hdrop ▸ List.dropWhile_sublist _
            rcases List.mem_cons.mp hp with rfl | hp
            · have hb := hsub.mem List.mem_cons_self
              exact ⟨.inr ⟨b, hb, rfl⟩, h.2 b hb, by rw [List.length_cons]; omega⟩
            · have hbelow : Nested below (i + 1) :=
                ⟨h.1.sublist ((List.sublist_cons_self b below).trans hsub), fun x hx =>
                  Nat.lt_succ_of_lt (h.2 x (hsub.mem (List.mem_cons_of_mem b hx)))⟩
              obtain ⟨hfrom, hlt, hbound⟩ := ih hbelow p hp
              refine ⟨?_, hlt, by rw [List.length_cons]; omega⟩
              rcases hfrom with hi | ⟨x, hx, hxp⟩
              · exact .inl (by omega)
              · exact .inr ⟨x, hsub.mem (List.mem_cons_of_mem b hx), hxp⟩
        · exact hstay hp
    · exact hstay hp

theorem dropWhile_eq_drop_findIdx {α : Type} (p : α → Bool) (xs : List α) :
    (xs.findIdx? p = none ∧ xs.dropWhile (fun a => !p a) = []) ∨
      ∃ n a, xs.findIdx? p = some n ∧ xs[n]? = some a ∧
        xs.dropWhile (fun a => !p a) = a :: xs.drop (n + 1) := by
  induction xs with
  | nil => exact .inl ⟨rfl, rfl⟩
  | cons a xs ih =>
    cases ha : p a with
    | true => exact .inr ⟨0, a, by simp [List.findIdx?_cons, ha], rfl, by simp [ha]⟩
    | false =>
      rcases ih with ⟨hnone, hdrop⟩ | ⟨n, b, hsome, hget, hdrop⟩
      · exact .inl ⟨by simp [List.findIdx?_cons, ha, hnone], by simpa [ha] using hdrop⟩
      · exact .inr ⟨n + 1, b, by simp [List.findIdx?_cons, ha, hsome], hget, by simpa [ha] using hdrop⟩

theorem Nested.find_later_eq_none {stack : List OpenPosition} {i n : Nat} (h : Nested stack i)
    {b : OpenPosition} (hget : stack[n]? = some b) (ts : List Token) :
    (pairsFrom (stack.drop (n + 1)) (i + 1) ts).find? (fun p => p.1 = b.2) = none := by
  have hb : b.2 < i := h.2 b (List.mem_of_getElem? hget)
  refine List.find?_eq_none.mpr fun p hp => ?_
  obtain ⟨hfrom, -, -⟩ := pairsFrom_bounds (h.drop (n + 1)) p hp
  simp only [decide_eq_true_eq]
  rcases hfrom with hi | ⟨x, hx, hxp⟩
  · omega
  · -- what is left on the stack was opened before the bracket just closed
    have hdrop : stack.drop n = b :: stack.drop (n + 1) := by
      obtain ⟨hn, rfl⟩ := List.getElem?_eq_some_iff.mp hget
      exact List.drop_eq_getElem_cons hn
    have hpair := h.1.sublist (List.drop_sublist n stack)
    rw [hdrop, List.pairwise_cons] at hpair
    have := hpair.1 x hx
    omega

theorem partnersFrom_eq {ts : List Token} : ∀ {stack : List OpenPosition} {table : List (Option Nat)}
    {i : Nat}, Nested stack i → i + ts.length ≤ table.length →
    ∃ filled, partnersFrom stack table i ts = .ok filled ∧ ∀ j, (filled[j]?).join =
      (((pairsFrom stack i ts).find? fun p => p.1 = j).map (·.2)).or (table[j]?).join := by
  induction ts with
  | nil => exact fun _ _ => ⟨_, rfl, fun j => by simp [pairsFrom]⟩
  | cons t ts ih =>
    intro stack table i h hlength
    rw [List.length_cons] at hlength
    have hstay := @ih stack table (i + 1) (h.drop 0) (by omega)
    rw [partnersFrom, pairsFrom]
    cases hkind : t.kind with
    | punct mark =>
      dsimp only
      by_cases hopen : openers.contains mark = true
      · rw [if_pos hopen, if_pos hopen]
        exact ih (h.push mark) (by omega)
      rw [if_neg hopen, if_neg hopen]
      by_cases hclose : closers.contains mark = true
      · rw [if_pos hclose, if_pos hclose]
        have hfind := dropWhile_eq_drop_findIdx (fun b : OpenPosition => b.1 = openerOf mark) stack
        simp only [← decide_not, ← ne_eq] at hfind
        rcases hfind with ⟨hnone, hdrop⟩ | ⟨n, b, hsome, hget, hdrop⟩
        · rw [hnone, hdrop]
          exact hstay
        have hb : b.2 < i := h.2 b (List.mem_of_getElem? hget)
        obtain ⟨filled, hfilled, hjoin⟩ := @ih _ (table.set b.2 (some i)) _ (h.drop (n + 1))
          (by rw [List.length_set]; omega)
        rw [hsome, hdrop]
        refine ⟨filled, ?_, fun j => ?_⟩
        · dsimp only
          rw [Checked.get_of_eq_some hget, Checked.ok_bind, setAt, if_pos (by omega),
            Checked.ok_bind, hfilled]
        rw [hjoin, List.find?_cons]
        by_cases hj : b.2 = j
        · subst hj
          rw [h.find_later_eq_none hget ts]
          simp only [decide_true, Option.map_none, Option.none_or, Option.map_some,
            Option.some_or]
          rw [List.getElem?_set_self (by omega)]
          rfl
        · rw [List.getElem?_set_ne hj]
          simp [hj]
      · rw [if_neg hclose, if_neg hclose]
        exact hstay
    | ident => exact hstay
    | number => exact hstay
    | string => exact hstay
    | template => exact hstay
    | regex => exact hstay
    | eof => exact hstay

theorem nested_nil (i : Nat) : Nested [] i := ⟨.nil, by simp⟩

/-- A source text, the tokens of which only the kinds and spans count, and a table of partners. -/
structure View where
  source : List Char
  stream : Stream
  table : List (Option Nat)

namespace View

def ofTokens (file : FileId) (source : List Char) (tokens : List Token) : Checked View := do
  return ⟨source, .ofTokens file tokens, ← partners tokens⟩

def text (v : View) (i : Nat) : Checked String := do
  let t := v.stream.token i
  return String.ofList (← Checked.cut v.source t.span.start t.span.stop)

def word (v : View) (i : Nat) (w : String) : Checked Bool :=
  if v.stream.ident i then do return (← v.text i) = w else return false

def literal? (v : View) (i : Nat) : Checked (Option String) :=
  if v.stream.isLiteral i then do
    return some (String.ofList (unescape (literalBody (← v.text i).toList)))
  else return none

def partner? (v : View) (i : Nat) : Option Nat := (v.table[i]?).join

def newlineBefore (v : View) (i : Nat) : Checked Bool :=
  if i = 0 then return true
  else do
    let before := v.stream.token (← Checked.sub i 1)
    return (← Checked.cut v.source before.span.stop (v.stream.token i).span.start).contains '\n'

/-- Reading by spans and by the table goes as reading the tokens themselves does. -/
structure Faithful (v : View) : Prop where
  text : ∀ i, v.text i = .ok (v.stream.text i)
  newlineBefore : ∀ i, v.newlineBefore i = .ok (v.stream.newlineBefore i)
  partner? : ∀ i, v.partner? i = v.stream.partner? i
  lt_partner : ∀ {i j}, v.stream.partner? i = some j → i < j ∧ j < v.stream.size
  nonempty : 0 < v.stream.size
  atEnd : ∀ {i}, v.stream.size ≤ i + 1 → v.stream.atEnd i = true

namespace Faithful

variable {v : View}

theorem word (h : v.Faithful) (i : Nat) (w : String) : v.word i w = .ok (v.stream.word i w) := by
  unfold View.word Stream.word Token.isWord
  cases hident : v.stream.ident i with
  | true =>
    have hkind : (v.stream.token i).kind = .ident := by simpa [Stream.ident] using hident
    rw [h.text, hkind]
    simp [Stream.text]
  | false =>
    have hkind : (v.stream.token i).kind ≠ .ident := by simpa [Stream.ident] using hident
    simp [hkind]

theorem literal? (h : v.Faithful) (i : Nat) : v.literal? i = .ok (v.stream.literal? i) := by
  unfold View.literal? Stream.literal? Token.literal? Stream.isLiteral
  split
  · rw [h.text]
    rfl
  · rfl

end Faithful

end View

theorem bracketPairs_bounds {tokens : List Token} {p : Nat × Nat} (hp : p ∈ bracketPairs tokens) :
    p.1 < p.2 ∧ p.2 < tokens.length := by
  obtain ⟨-, hlt, hbound⟩ := pairsFrom_bounds (nested_nil 0) p hp
  exact ⟨hlt, by omega⟩

theorem Stream.size_ofTokens (file : FileId) (ts : List Token) :
    (Stream.ofTokens file ts).size = ts.length := by
  simp [Stream.ofTokens, Stream.size]

namespace Tiles

variable {text : List Char} {ts : List Token} {file : FileId}

theorem size_pos (h : Tiles text 0 ts) : 0 < (Stream.ofTokens file ts).size := by
  simpa [Stream.ofTokens, Stream.size, List.length_pos_iff] using h.ne_nil

theorem getElem?_token (h : Tiles text 0 ts) (file : FileId) (i : Nat) :
    ts[min i (ts.length - 1)]? = some ((Stream.ofTokens file ts).token i) := by
  have hpos : 0 < ts.length := List.length_pos_iff.mpr h.ne_nil
  have hlt : min i (ts.length - 1) < ts.length := by omega
  rw [Stream.token]
  simp only [Stream.ofTokens, Stream.size, List.size_toArray, List.getElem?_toArray]
  rw [List.getElem?_eq_getElem hlt]
  rfl

theorem token_mem (h : Tiles text 0 ts) (file : FileId) (i : Nat) : (Stream.ofTokens file ts).token i ∈ ts :=
  List.mem_of_getElem? (h.getElem?_token file i)

theorem token_of_le (h : Tiles text 0 ts) (file : FileId) {i : Nat} (hi : ts.length ≤ i + 1) :
    ts.getLast? = some ((Stream.ofTokens file ts).token i) := by
  rw [← h.getElem?_token file i, List.getLast?_eq_getElem?, Nat.min_eq_right (by omega)]

theorem view_newlineBefore (h : Tiles text 0 ts) (file : FileId) (table : List (Option Nat)) (i : Nat) :
    View.newlineBefore ⟨text, .ofTokens file ts, table⟩ i =
      .ok ((Stream.ofTokens file ts).newlineBefore i) := by
  have hsize : (Stream.ofTokens file ts).size = ts.length := Stream.size_ofTokens file ts
  cases i with
  | zero => rfl
  | succ i =>
    rw [View.newlineBefore, if_neg (Nat.succ_ne_zero i), Checked.sub_add, Checked.ok_bind,
      Stream.newlineBefore, if_neg (Nat.succ_ne_zero i)]
    dsimp only
    split
    · rename_i hlt
      rw [hsize] at hlt
      have hi := h.getElem?_token file i
      have hi' := h.getElem?_token file (i + 1)
      rw [Nat.min_eq_left (by omega)] at hi hi'
      obtain ⟨rest, hplace, hstart⟩ := h.gap_place hi hi'
      rw [hstart, hplace.cut]
      rfl
    · -- both positions stand for the mark at the end, which has no text
      rename_i hge
      rw [hsize] at hge
      have hi := h.token_of_le file (show ts.length ≤ i + 1 by omega)
      have hi' := h.token_of_le file (show ts.length ≤ i + 1 + 1 by omega)
      obtain ⟨-, htext, hspan⟩ := h.getLast_kind hi
      have hsame : (Stream.ofTokens file ts).token (i + 1) = (Stream.ofTokens file ts).token i := by
        rw [hi, Option.some.injEq] at hi'
        exact hi'.symm
      obtain ⟨rest, hplace, -⟩ := h.text_place (h.token_mem file i)
      rw [hsame, ← hspan]
      have hempty : Place text ((Stream.ofTokens file ts).token i).span.start ([] ++
          (((Stream.ofTokens file ts).token i).text.toList ++ rest)) := hplace
      have hcut := hempty.cut
      rw [Text.width_nil, Nat.add_zero] at hcut
      rw [hcut]
      rfl

/-- The view of the tokens that tile a text is faithful. -/
theorem faithful (h : Tiles text 0 ts) (file : FileId) :
    ∃ v, View.ofTokens file text ts = .ok v ∧ v.stream = Stream.ofTokens file ts ∧ v.Faithful := by
  have hroom : 0 + ts.length ≤ (List.replicate ts.length (none : Option Nat)).length := by simp
  obtain ⟨table, htable, hjoin⟩ := partnersFrom_eq (nested_nil 0) hroom
  have hsize : (Stream.ofTokens file ts).size = ts.length := Stream.size_ofTokens file ts
  refine ⟨⟨text, .ofTokens file ts, table⟩, ?_, rfl, ?_⟩
  · rw [View.ofTokens, partners, htable]
    rfl
  exact {
    text := fun i => by
      obtain ⟨rest, hplace, hstop⟩ := h.text_place (h.token_mem file i)
      unfold View.text
      dsimp only
      rw [hstop, hplace.cut]
      simp [Stream.text]
    newlineBefore := h.view_newlineBefore file table
    partner? := fun i => by
      rw [View.partner?, hjoin]
      simp only [List.getElem?_replicate]
      split <;> simp [Stream.partner?, Stream.ofTokens, bracketPairs]
    lt_partner := fun {i j} hij => by
      rw [Stream.partner?] at hij
      obtain ⟨p, hp, rfl⟩ := Option.map_eq_some_iff.mp hij
      have hi : p.1 = i := by simpa using List.find?_some hp
      subst hi
      rw [hsize]
      exact bracketPairs_bounds (List.mem_of_find?_eq_some hp)
    nonempty := h.size_pos
    atEnd := fun {i} hi => by
      dsimp only at hi ⊢
      rw [hsize] at hi
      simpa [Stream.atEnd] using (h.getLast_kind (h.token_of_le file hi)).1 }

end Tiles

end Recompile.Script
