import Recompile.Proofs.Script.Lossless
import Recompile.Proofs.Script.View

/-!
Two ways to match brackets. While a text is scanned, each bracket without a partner is reported;
afterwards partners are looked up by position. Both keep the brackets that are open on a stack, and
stay in step on every sequence of tokens.
-/

namespace Recompile.Script

/-- Takes open brackets off one by one, up to one of a form, and reports those above it. -/
def popTo (opener : Char) : List OpenBracket → List OpenBracket × List Diagnostic
  | [] => ([], [])
  | b :: stack =>
      if b.1 = opener then (stack, [])
      else
        let (below, found) := popTo opener stack
        (below, unclosed b :: found)

/-- Takes a token in as the scanner does: a closing bracket is looked for on the whole stack before
any is taken off. -/
def popDelimiter (stack : List OpenBracket) (t : Token) : List OpenBracket × List Diagnostic :=
  match t.kind with
  | .punct mark =>
      if openers.contains mark then ((mark, t.span) :: stack, [])
      else if closers.contains mark then
        if stack.any fun b => b.1 = openerOf mark then popTo (openerOf mark) stack
        else (stack, [unexpected mark t.span])
      else (stack, [])
  | _ => (stack, [])

/-- The findings of a token sequence, each bracket taken off the stack by itself. -/
def poppedFaults (stack : List OpenBracket) : List Token → List Diagnostic
  | [] => stack.map unclosed
  | t :: ts =>
      let (stack, found) := popDelimiter stack t
      tokenFaults t ++ found ++ poppedFaults stack ts

def Token.bracket? (t : Token) : Option Char :=
  match t.kind with
  | .punct mark => if openers.contains mark || closers.contains mark then some mark else none
  | _ => none

def brackets (ts : List Token) : List Char := ts.filterMap Token.bracket?

/-- Brackets that all have a partner of their form, one pair beside or within another. -/
inductive Balanced : List Char → Prop where
  | nil : Balanced []
  | enclose {opener : Char} {inner rest : List Char} (mark : opener ∈ openers) (within : Balanced inner)
      (beside : Balanced rest) : Balanced (opener :: (inner ++ closerOf opener :: rest))

/-- How often a finding is reported at a span. -/
def reports (code : Code) (span : Span) (found : List Diagnostic) : Nat :=
  found.countP fun d => d.code = code ∧ d.span = span

def Flawless (found : List Diagnostic) : Prop :=
  ∀ d ∈ found, d.code ≠ delimiterExpected ∧ d.code ≠ unexpectedDelimiter

theorem openerOf_closerOf : ∀ opener ∈ openers, openerOf (closerOf opener) = opener := by
  simp [openers, openerOf, closerOf]

theorem closerOf_openerOf : ∀ closer ∈ closers, closerOf (openerOf closer) = closer := by
  simp [closers, openerOf, closerOf]

theorem not_closer_of_opener : ∀ opener ∈ openers, opener ∉ closers := by
  simp [openers, closers]

theorem closerOf_mem (opener : Char) : closerOf opener ∈ closers := by
  unfold closerOf
  split
  · decide
  split
  · decide
  · decide

section Marks

variable {α : Type} {mark : Char} {stack dangling : List (Char × α)}

theorem innermost (stack : List (Char × α)) (mark : Char) :
    (∀ b ∈ stack, b.1 ≠ mark) ∨ ∃ dangling a below, stack = dangling ++ (mark, a) :: below ∧
      ∀ b ∈ dangling, b.1 ≠ mark := by
  induction stack with
  | nil => exact .inl fun b hb => (List.not_mem_nil hb).elim
  | cons b stack ih =>
    by_cases hb : b.1 = mark
    · exact .inr ⟨[], b.2, stack, by rw [← hb]; rfl, fun b hb => (List.not_mem_nil hb).elim⟩
    rcases ih with hnone | ⟨dangling, a, below, rfl, habove⟩
    · exact .inl (List.forall_mem_cons.mpr ⟨hb, hnone⟩)
    · exact .inr ⟨b :: dangling, a, below, rfl, List.forall_mem_cons.mpr ⟨hb, habove⟩⟩

theorem dropWhile_marks (habove : ∀ b ∈ dangling, b.1 ≠ mark) (a : α) (below : List (Char × α)) :
    (dangling ++ (mark, a) :: below).dropWhile (fun b => b.1 ≠ mark) = (mark, a) :: below ∧
      (dangling ++ (mark, a) :: below).takeWhile (fun b => b.1 ≠ mark) = dangling := by
  have hall : ∀ b ∈ dangling, decide (b.1 ≠ mark) = true := fun b hb => by simpa using habove b hb
  rw [List.dropWhile_append_of_pos hall, List.takeWhile_append_of_pos hall]
  simp

theorem dropWhile_no_mark (hnone : ∀ b ∈ stack, b.1 ≠ mark) :
    stack.dropWhile (fun b => b.1 ≠ mark) = [] :=
  List.dropWhile_eq_nil_iff.mpr fun b hb => by simpa using hnone b hb

end Marks

theorem popTo_marks {mark : Char} {dangling : List OpenBracket} (habove : ∀ b ∈ dangling, b.1 ≠ mark)
    (span : Span) (below : List OpenBracket) :
    popTo mark (dangling ++ (mark, span) :: below) = (below, dangling.map unclosed) := by
  induction dangling with
  | nil => rw [List.nil_append, popTo, if_pos rfl, List.map_nil]
  | cons b dangling ih =>
    obtain ⟨hb, habove⟩ := List.forall_mem_cons.mp habove
    rw [List.cons_append, popTo, if_neg hb, ih habove, List.map_cons]

theorem popDelimiter_eq (stack : List OpenBracket) (t : Token) :
    popDelimiter stack t = trackDelimiter stack t := by
  rw [popDelimiter, trackDelimiter]
  cases t.kind with
  | punct mark =>
    dsimp only
    rcases innermost stack (openerOf mark) with hnone | ⟨dangling, span, below, rfl, habove⟩
    · have hany : stack.any (fun b => b.1 = openerOf mark) = false := by simpa using hnone
      rw [dropWhile_no_mark hnone, hany]
      rfl
    · have hany : (dangling ++ (openerOf mark, span) :: below).any (fun b => b.1 = openerOf mark) = true := by
        simp
      rw [(dropWhile_marks habove span below).1, (dropWhile_marks habove span below).2, hany,
        popTo_marks habove]
      rfl
  | _ => rfl

theorem poppedFaults_eq (ts : List Token) : ∀ stack, poppedFaults stack ts = faultsFrom stack ts := by
  induction ts with
  | nil => exact fun stack => rfl
  | cons t ts ih =>
    intro stack
    rw [poppedFaults, faultsFrom, popDelimiter_eq]
    dsimp only
    rw [ih]

section InStep

variable {token : Nat → Token}

def faultOf (token : Nat → Token) (b : OpenPosition) : Diagnostic := unclosed (b.1, (token b.2).span)

/-- The pairs and the findings that come of the tokens from a position on, given the brackets open
before it. -/
inductive InStep (token : Nat → Token) : List OpenPosition → Nat → List Token → List (Nat × Nat) →
    List Diagnostic → Prop where
  | done {stack : List OpenPosition} {i : Nat} : InStep token stack i [] [] (stack.map (faultOf token))
  | plain {stack : List OpenPosition} {i : Nat} {ts : List Token} {pairs : List (Nat × Nat)}
      {found : List Diagnostic} (other : (token i).bracket? = none)
      (rest : InStep token stack (i + 1) ts pairs found) :
      InStep token stack i (token i :: ts) pairs (tokenFaults (token i) ++ found)
  | opening {stack : List OpenPosition} {i : Nat} {ts : List Token} {pairs : List (Nat × Nat)}
      {found : List Diagnostic} {mark : Char} (kind : (token i).kind = .punct mark)
      (opener : mark ∈ openers) (rest : InStep token ((mark, i) :: stack) (i + 1) ts pairs found) :
      InStep token stack i (token i :: ts) pairs (tokenFaults (token i) ++ found)
  | closing {dangling below : List OpenPosition} {i j : Nat} {ts : List Token}
      {pairs : List (Nat × Nat)} {found : List Diagnostic} {mark : Char}
      (kind : (token i).kind = .punct mark) (closer : mark ∈ closers)
      (above : ∀ b ∈ dangling, b.1 ≠ openerOf mark)
      (rest : InStep token below (i + 1) ts pairs found) :
      InStep token (dangling ++ (openerOf mark, j) :: below) i (token i :: ts) ((j, i) :: pairs)
        (tokenFaults (token i) ++ (dangling.map (faultOf token) ++ found))
  | stray {stack : List OpenPosition} {i : Nat} {ts : List Token} {pairs : List (Nat × Nat)}
      {found : List Diagnostic} {mark : Char} (kind : (token i).kind = .punct mark)
      (closer : mark ∈ closers) (absent : ∀ b ∈ stack, b.1 ≠ openerOf mark)
      (rest : InStep token stack (i + 1) ts pairs found) :
      InStep token stack i (token i :: ts) pairs
        (tokenFaults (token i) ++ (unexpected mark (token i).span :: found))

theorem inStep (ts : List Token) : ∀ (stack : List OpenPosition) (i : Nat),
    (∀ k t, ts[k]? = some t → token (i + k) = t) →
      InStep token stack i ts (pairsFrom stack i ts)
        (faultsFrom (stack.map fun b => (b.1, (token b.2).span)) ts) := by
  induction ts with
  | nil =>
    intro stack i _
    rw [pairsFrom, faultsFrom, List.map_map]
    exact .done
  | cons t ts ih =>
    intro stack i htoken
    obtain rfl : token i = t := htoken 0 t rfl
    -- Whatever is open afterwards, the rest is read in step.
    have hnext : ∀ stack, InStep token stack (i + 1) ts (pairsFrom stack (i + 1) ts)
        (faultsFrom (stack.map fun b => (b.1, (token b.2).span)) ts) := fun stack =>
      ih stack (i + 1) fun k t ht => by
        rw [Nat.add_assoc, Nat.add_comm 1 k]
        exact htoken (k + 1) t ht
    rw [pairsFrom, faultsFrom, trackDelimiter]
    cases hkind : (token i).kind with
    | punct mark =>
      dsimp only
      by_cases hopen : openers.contains mark = true
      · rw [if_pos hopen, if_pos hopen]
        simpa using InStep.opening hkind (List.contains_iff_mem.mp hopen) (hnext _)
      rw [if_neg hopen, if_neg hopen]
      by_cases hclose : closers.contains mark = true
      · have hcloser := List.contains_iff_mem.mp hclose
        rw [if_pos hclose, if_pos hclose]
        rcases innermost stack (openerOf mark) with hnone | ⟨dangling, j, below, rfl, habove⟩
        · have hnone' : ∀ b ∈ stack.map fun b => (b.1, (token b.2).span), b.1 ≠ openerOf mark :=
            List.forall_mem_map.mpr hnone
          rw [dropWhile_no_mark hnone, dropWhile_no_mark hnone']
          simpa using InStep.stray hkind hcloser hnone (hnext _)
        · have habove' : ∀ b ∈ dangling.map fun b => (b.1, (token b.2).span), b.1 ≠ openerOf mark :=
            List.forall_mem_map.mpr habove
          rw [List.map_append, List.map_cons, (dropWhile_marks habove j below).1,
            (dropWhile_marks habove' _ _).1, (dropWhile_marks habove' _ _).2, List.map_map,
            List.append_assoc]
          exact .closing hkind hcloser habove (hnext _)
      · have hplain : (token i).bracket? = none := by
          simp only [Token.bracket?, hkind, hopen, hclose, Bool.or_self, Bool.false_eq_true, if_false]
        rw [if_neg hclose, if_neg hclose]
        simpa using InStep.plain hplain (hnext _)
    | _ =>
      have hplain : (token i).bracket? = none := by simp [Token.bracket?, hkind]
      simpa using InStep.plain hplain (hnext _)

variable {stack below : List OpenPosition} {i j : Nat} {ts : List Token} {pairs : List (Nat × Nat)}
  {found : List Diagnostic}

theorem Nested.under {dangling : List OpenPosition} {b : OpenPosition}
    (h : Nested (dangling ++ b :: below) i) : Nested below (i + 1) ∧ ∀ x ∈ below, x.2 < b.2 := by
  obtain ⟨hbelow, hcons⟩ := List.pairwise_cons.mp (List.pairwise_append.mp h.1).2.1
  refine ⟨⟨hcons, fun x hx => Nat.lt_succ_of_lt (h.2 x ?_)⟩, hbelow⟩
  exact List.mem_append_right _ (List.mem_cons_of_mem _ hx)

theorem InStep.later (h : InStep token stack i ts pairs found) :
    ∀ p ∈ pairs, i ≤ p.2 ∧ (i ≤ p.1 ∨ ∃ b ∈ stack, b.2 = p.1) := by
  induction h with
  | done => exact fun p hp => (List.not_mem_nil hp).elim
  | plain other rest ih | stray kind closer absent rest ih =>
    intro p hp
    obtain ⟨hstop, hstart⟩ := ih p hp
    exact ⟨by omega, hstart.imp (fun h => by omega) id⟩
  | opening kind opener rest ih =>
    intro p hp
    obtain ⟨hstop, hstart | ⟨b, hb, hbp⟩⟩ := ih p hp
    · exact ⟨by omega, .inl (by omega)⟩
    rcases List.mem_cons.mp hb with rfl | hb
    · exact ⟨by omega, .inl (Nat.le_of_eq hbp)⟩
    · exact ⟨by omega, .inr ⟨b, hb, hbp⟩⟩
  | closing kind closer above rest ih =>
    intro p hp
    rcases List.mem_cons.mp hp with rfl | hp
    · exact ⟨Nat.le_refl _, .inr ⟨_, List.mem_append_right _ List.mem_cons_self, rfl⟩⟩
    obtain ⟨hstop, hstart | ⟨b, hb, hbp⟩⟩ := ih p hp
    · exact ⟨by omega, .inl (by omega)⟩
    · exact ⟨by omega, .inr ⟨b, List.mem_append_right _ (List.mem_cons_of_mem _ hb), hbp⟩⟩

def Apart (p q : Nat × Nat) : Prop := p.2 < q.2 ∧ (q.1 < p.1 ∨ p.2 < q.1)

theorem InStep.pairwise (h : InStep token stack i ts pairs found) :
    Nested stack i → pairs.Pairwise Apart := by
  induction h with
  | done => exact fun _ => .nil
  | plain other rest ih | stray kind closer absent rest ih => exact fun hn => ih (hn.drop 0)
  | opening kind opener rest ih => exact fun hn => ih (hn.push _)
  | closing kind closer above rest ih =>
    intro hn
    obtain ⟨hnested, hbelow⟩ := hn.under
    refine List.pairwise_cons.mpr ⟨fun q hq => ?_, ih hnested⟩
    -- a later pair opens after the bracket that is read now, or below the one it closes
    obtain ⟨hstop, hstart | ⟨b, hb, hbq⟩⟩ := rest.later q hq
    · exact ⟨hstop, .inr hstart⟩
    · exact ⟨hstop, .inl (hbq ▸ hbelow b hb)⟩

/-- The brackets on a stack are the opening ones that stand at their positions. -/
def Opened (token : Nat → Token) (stack : List OpenPosition) : Prop :=
  ∀ b ∈ stack, b.1 ∈ openers ∧ (token b.2).kind = .punct b.1

theorem Opened.under {dangling : List OpenPosition} {b : OpenPosition}
    (h : Opened token (dangling ++ b :: below)) : Opened token below := fun x hx =>
  h x (List.mem_append_right _ (List.mem_cons_of_mem _ hx))

theorem InStep.forms (h : InStep token stack i ts pairs found) : Opened token stack →
    ∀ p ∈ pairs, ∃ opener ∈ openers, (token p.1).kind = .punct opener ∧
      (token p.2).kind = .punct (closerOf opener) := by
  induction h with
  | done => exact fun _ p hp => (List.not_mem_nil hp).elim
  | plain other rest ih | stray kind closer absent rest ih => exact ih
  | opening kind opener rest ih =>
    exact fun hopen => ih (List.forall_mem_cons.mpr ⟨⟨opener, kind⟩, hopen⟩)
  | @closing dangling below i j ts pairs found mark kind closer above rest ih =>
    intro hopen p hp
    rcases List.mem_cons.mp hp with rfl | hp
    · obtain ⟨hopener, hkind⟩ := hopen (openerOf mark, j) (List.mem_append_right _ List.mem_cons_self)
      exact ⟨openerOf mark, hopener, hkind, by rw [closerOf_openerOf mark closer]; exact kind⟩
    · exact ih hopen.under p hp

end InStep

section Reports

variable {token : Nat → Token} {stack : List OpenPosition} {i : Nat} {ts : List Token}
  {pairs : List (Nat × Nat)} {found : List Diagnostic} {t : Token}

theorem flawless_tokenFaults : Flawless (tokenFaults t) := by
  have hcodes : ∀ code ∈ [unterminatedComment, unterminatedTemplate, unterminatedString],
      code ≠ delimiterExpected ∧ code ≠ unexpectedDelimiter := by decide
  intro d hd
  apply hcodes
  rw [tokenFaults] at hd
  rcases List.mem_append.mp hd with hd | hd
  · split at hd
    · rw [List.mem_singleton.mp hd]
      exact List.mem_cons_self
    · cases hd
  · split at hd
    · cases hd
    split at hd
    · rw [List.mem_singleton.mp hd]
      exact List.mem_cons_of_mem _ List.mem_cons_self
    · rw [List.mem_singleton.mp hd]
      exact List.mem_cons_of_mem _ (List.mem_cons_of_mem _ List.mem_cons_self)

theorem isOneOf_of_kind {mark : Char} (kind : t.kind = .punct mark) (marks : List Char) :
    t.isOneOf marks = marks.contains mark := by
  rw [Token.isOneOf, kind]

theorem isOneOf_of_plain (none : t.bracket? = none) :
    t.isOneOf openers = false ∧ t.isOneOf closers = false := by
  rw [Token.bracket?] at none
  rw [Token.isOneOf, Token.isOneOf]
  cases hkind : t.kind with
  | punct mark =>
    simp only [hkind] at none
    split at none
    · cases none
    · rename_i hmarks
      simpa using hmarks
  | _ => exact ⟨rfl, rfl⟩

theorem reports_append (code : Code) (span : Span) (found found' : List Diagnostic) :
    reports code span (found ++ found') = reports code span found + reports code span found' :=
  List.countP_append

theorem reports_eq_zero {code : Code} (h : ∀ d ∈ found, d.code ≠ code) (span : Span) :
    reports code span found = 0 :=
  List.countP_eq_zero.mpr fun d hd => by simp [h d hd]

theorem reports_faultOf (stack : List OpenPosition) (span : Span) :
    reports delimiterExpected span (stack.map (faultOf token)) =
        (stack.countP fun b => (token b.2).span = span) ∧
      reports unexpectedDelimiter span (stack.map (faultOf token)) = 0 := by
  rw [reports, reports, List.countP_map, List.countP_map]
  simp [faultOf, unclosed, Diagnostic.error, Function.comp_def, delimiterExpected, unexpectedDelimiter]

theorem reports_unexpected (mark : Char) (span span' : Span) (found : List Diagnostic) :
    reports unexpectedDelimiter span (unexpected mark span' :: found) =
        reports unexpectedDelimiter span found + (if span' = span then 1 else 0) ∧
      reports delimiterExpected span (unexpected mark span' :: found) =
        reports delimiterExpected span found := by
  simp [reports, unexpected, Diagnostic.error, List.countP_cons, delimiterExpected, unexpectedDelimiter]

theorem isOneOf_openers {mark : Char} (kind : t.kind = .punct mark) (opener : mark ∈ openers) :
    t.isOneOf openers = true ∧ t.isOneOf closers = false := by
  rw [isOneOf_of_kind kind, isOneOf_of_kind kind]
  exact ⟨List.contains_iff_mem.mpr opener, by simpa using not_closer_of_opener mark opener⟩

theorem isOneOf_closers {mark : Char} (kind : t.kind = .punct mark) (closer : mark ∈ closers) :
    t.isOneOf openers = false ∧ t.isOneOf closers = true := by
  rw [isOneOf_of_kind kind, isOneOf_of_kind kind]
  refine ⟨?_, List.contains_iff_mem.mpr closer⟩
  simpa using fun opener => not_closer_of_opener mark opener closer

theorem reports_tokenFaults {code : Code} (hcode : code = delimiterExpected ∨ code = unexpectedDelimiter)
    (span : Span) : reports code span (tokenFaults t) = 0 := by
  apply reports_eq_zero
  rintro d hd rfl
  rcases hcode with hcode | hcode
  · exact (flawless_tokenFaults d hd).1 hcode
  · exact (flawless_tokenFaults d hd).2 hcode

theorem InStep.openings (h : InStep token stack i ts pairs found) (span : Span) :
    (stack.countP fun b => (token b.2).span = span) +
        (ts.countP fun t => t.isOneOf openers ∧ t.span = span) =
      (pairs.countP fun p => (token p.1).span = span) + reports delimiterExpected span found := by
  induction h with
  | done => simp [(reports_faultOf _ _).1]
  | plain other rest ih =>
    rw [reports_append, reports_tokenFaults (.inl rfl), Nat.zero_add, ← ih]
    simp [(isOneOf_of_plain other).1]
  | opening kind opener rest ih =>
    rw [reports_append, reports_tokenFaults (.inl rfl), Nat.zero_add, ← ih]
    simp only [List.countP_cons, (isOneOf_openers kind opener).1, true_and]
    omega
  | closing kind closer above rest ih =>
    rw [reports_append, reports_append, reports_tokenFaults (.inl rfl), (reports_faultOf _ _).1]
    simp only [List.countP_cons, List.countP_append, (isOneOf_closers kind closer).1, Bool.false_eq_true,
      false_and, decide_false, if_false] at ih ⊢
    omega
  | stray kind closer absent rest ih =>
    rw [reports_append, reports_tokenFaults (.inl rfl), (reports_unexpected _ _ _ _).2, Nat.zero_add, ← ih]
    simp [(isOneOf_closers kind closer).1]

theorem InStep.closings (h : InStep token stack i ts pairs found) (span : Span) :
    (ts.countP fun t => t.isOneOf closers ∧ t.span = span) =
      (pairs.countP fun p => (token p.2).span = span) + reports unexpectedDelimiter span found := by
  induction h with
  | done => simp [(reports_faultOf _ _).2]
  | plain other rest ih =>
    rw [reports_append, reports_tokenFaults (.inr rfl), Nat.zero_add, ← ih]
    simp [(isOneOf_of_plain other).2]
  | opening kind opener rest ih =>
    rw [reports_append, reports_tokenFaults (.inr rfl), Nat.zero_add, ← ih]
    simp [(isOneOf_openers kind opener).2]
  | closing kind closer above rest ih =>
    rw [reports_append, reports_append, reports_tokenFaults (.inr rfl), (reports_faultOf _ _).2]
    simp only [List.countP_cons, (isOneOf_closers kind closer).2, true_and]
    omega
  | stray kind closer absent rest ih =>
    rw [reports_append, reports_tokenFaults (.inr rfl), (reports_unexpected _ _ _ _).1]
    simp only [List.countP_cons, (isOneOf_closers kind closer).2, true_and, decide_eq_true_eq]
    omega

end Reports

section Balance

variable {token : Nat → Token} {stack : List OpenPosition} {i : Nat} {ts : List Token}
  {pairs : List (Nat × Nat)} {found : List Diagnostic} {marks word : List Char} {mark opener : Char}

/-- Brackets that, after some open ones, make up a balanced sequence. -/
def Completes : List Char → List Char → Prop
  | [], word => Balanced word
  | opener :: marks, word => ∃ inner rest, word = inner ++ closerOf opener :: rest ∧ Balanced inner ∧
      Completes marks rest

theorem Balanced.head_opener (h : Balanced (mark :: word)) : mark ∈ openers := by
  cases h with
  | enclose opener within beside => exact opener

theorem not_completes_nil (opener : Char) (marks : List Char) : ¬ Completes (opener :: marks) [] := by
  rintro ⟨inner, rest, hword, -, -⟩
  exact absurd hword (by simp)

theorem completes_open (hmark : mark ∈ openers) :
    Completes marks (mark :: word) ↔ Completes (mark :: marks) word := by
  cases marks with
  | nil =>
    constructor
    · intro h
      cases h with
      | enclose _ within beside => exact ⟨_, _, rfl, within, beside⟩
    · rintro ⟨inner, rest, rfl, within, beside⟩
      exact .enclose hmark within beside
  | cons opener marks =>
    constructor
    · rintro ⟨inner, rest, hword, hinner, hrest⟩
      cases hinner with
      | nil =>
        -- an opening bracket does not close the open one
        rw [List.nil_append, List.cons.injEq] at hword
        exact absurd (hword.1 ▸ closerOf_mem opener) (not_closer_of_opener mark hmark)
      | enclose _ within beside =>
        rw [List.cons_append, List.cons.injEq] at hword
        obtain ⟨rfl, rfl⟩ := hword
        exact ⟨_, _, by simp, within, _, _, rfl, beside, hrest⟩
    · rintro ⟨inner, _, rfl, hinner, beside, rest, rfl, hbeside, hrest⟩
      exact ⟨_, rest, by simp, .enclose hmark hinner hbeside, hrest⟩

theorem completes_close (hmark : mark ∈ closers) :
    Completes (opener :: marks) (mark :: word) ↔ mark = closerOf opener ∧ Completes marks word := by
  constructor
  · rintro ⟨inner, rest, hword, hinner, hrest⟩
    cases hinner with
    | nil =>
      rw [List.nil_append, List.cons.injEq] at hword
      obtain ⟨rfl, rfl⟩ := hword
      exact ⟨rfl, hrest⟩
    | enclose hopener =>
      rw [List.cons_append, List.cons.injEq] at hword
      exact absurd hmark (hword.1 ▸ not_closer_of_opener _ hopener)
  · rintro ⟨rfl, h⟩
    exact ⟨[], word, rfl, .nil, h⟩

theorem brackets_mark {t : Token} (kind : t.kind = .punct mark) (h : mark ∈ openers ∨ mark ∈ closers) :
    brackets (t :: ts) = mark :: brackets ts := by
  have hmark : (openers.contains mark || closers.contains mark) = true := by simpa using h
  refine List.filterMap_cons_some ?_
  rw [Token.bracket?, kind]
  exact if_pos hmark

theorem flawless_append {found found' : List Diagnostic} :
    Flawless (found ++ found') ↔ Flawless found ∧ Flawless found' :=
  List.forall_mem_append

theorem flawless_faults {bs : List OpenPosition} : Flawless (bs.map (faultOf token)) ↔ bs = [] := by
  constructor
  · intro h
    cases bs with
    | nil => rfl
    | cons b bs => exact absurd rfl (h _ List.mem_cons_self).1
  · rintro rfl
    exact fun d hd => (List.not_mem_nil hd).elim

/-- No bracket is reported when the brackets that are read complete those that are open, and only
then. -/
theorem InStep.flawless_iff (h : InStep token stack i ts pairs found) :
    (∀ b ∈ stack, b.1 ∈ openers) → (Flawless found ↔ Completes (stack.map (·.1)) (brackets ts)) := by
  induction h with
  | @done stack i =>
    intro _
    rw [flawless_faults]
    cases stack with
    | nil => exact iff_of_true rfl .nil
    | cons b stack => exact ⟨fun h => absurd h (List.cons_ne_nil b stack), fun h => absurd h (not_completes_nil _ _)⟩
  | @plain stack i ts pairs found other rest ih =>
    intro hopen
    have hsame : brackets (token i :: ts) = brackets ts := List.filterMap_cons_none other
    rw [flawless_append, and_iff_right flawless_tokenFaults, ih hopen, hsame]
  | opening kind opener rest ih =>
    intro hopen
    rw [flawless_append, brackets_mark kind (.inl opener), completes_open opener,
      ih (List.forall_mem_cons.mpr ⟨opener, hopen⟩)]
    exact and_iff_right flawless_tokenFaults
  | @closing dangling below i j ts pairs found mark kind closer above rest ih =>
    intro hopen
    rw [flawless_append, flawless_append, flawless_faults, brackets_mark kind (.inr closer),
      ih fun b hb => hopen b (List.mem_append_right _ (List.mem_cons_of_mem _ hb)),
      and_iff_right flawless_tokenFaults]
    cases dangling with
    | nil =>
      rw [List.nil_append, List.map_cons, completes_close closer, closerOf_openerOf mark closer]
      simp
    | cons b dangling =>
      rw [List.cons_append, List.map_cons, completes_close closer]
      -- The innermost bracket is of another form, so it dangles, and no completion begins here.
      obtain ⟨hb, -⟩ := List.forall_mem_cons.mp above
      constructor
      · rintro ⟨hnil, -⟩
        cases hnil
      · rintro ⟨rfl, -⟩
        exact absurd (openerOf_closerOf b.1 (hopen b List.mem_cons_self)).symm hb
  | @stray stack i ts pairs found mark kind closer absent rest ih =>
    intro hopen
    rw [brackets_mark kind (.inr closer)]
    constructor
    · intro h
      refine absurd rfl (h (unexpected mark (token i).span) ?_).2
      exact List.mem_append_right _ List.mem_cons_self
    · intro h
      cases stack with
      | nil => exact absurd closer (not_closer_of_opener mark (Balanced.head_opener h))
      | cons b stack =>
        obtain ⟨rfl, -⟩ := (completes_close closer).mp h
        exact absurd (openerOf_closerOf b.1 (hopen b List.mem_cons_self)).symm (absent b List.mem_cons_self)

end Balance

/-- A finding is reported once at a span when a condition holds, and else not at all. -/
def ReportedWhen (condition : Prop) (code : Code) (span : Span) (found : List Diagnostic) : Prop :=
  (condition → reports code span found = 1) ∧ (¬ condition → reports code span found = 0)

/-- The partners of brackets and the findings about brackets without one fit together. -/
structure Matched (s : Stream) (found : List Diagnostic) : Prop where
  forms : ∀ {i j}, s.partner? i = some j → i < j ∧ j < s.size ∧ ∃ opener ∈ openers,
    (s.token i).kind = .punct opener ∧ (s.token j).kind = .punct (closerOf opener)
  once : ∀ {i j k}, s.partner? i = some k → s.partner? j = some k → i = j
  nested : ∀ {i j k l}, s.partner? i = some k → s.partner? j = some l → i < j → j < k → l < k
  opening : ∀ i, (s.token i).isOneOf openers = true →
    ReportedWhen (s.partner? i = none) delimiterExpected (s.token i).span found
  closing : ∀ i, (s.token i).isOneOf closers = true →
    ReportedWhen (∀ j, s.partner? j ≠ some i) unexpectedDelimiter (s.token i).span found
  flawless : Flawless found ↔ Balanced (brackets s.tokens.toList)

theorem countP_eq_one {α : Type} {p : α → Bool} {xs : List α} {a : α}
    (h : xs.Pairwise fun x y => p x = true → p y = false) (ha : a ∈ xs) (hp : p a = true) :
    xs.countP p = 1 := by
  induction xs with
  | nil => cases ha
  | cons x xs ih =>
    obtain ⟨hx, h⟩ := List.pairwise_cons.mp h
    cases hpx : p x with
    | true =>
      have hzero : xs.countP p = 0 := List.countP_eq_zero.mpr fun y hy => by simp [hx y hy hpx]
      rw [List.countP_cons_of_pos hpx, hzero]
    | false =>
      have hne : a ≠ x := by
        rintro rfl
        rw [hp] at hpx
        cases hpx
      rw [List.countP_cons_of_neg (Bool.eq_false_iff.mp hpx),
        ih h ((List.mem_cons.mp ha).resolve_left hne)]

theorem solid_of_isOneOf {file : FileId} {source : String} {marks : List Char} {t : Token}
    (ht : t ∈ scan file source) (hmarks : t.isOneOf marks = true) :
    t.span.start < t.span.stop := by
  refine start_lt_stop ht fun hkind => ?_
  rw [Token.isOneOf, hkind] at hmarks
  cases hmarks

section Scanned

variable {file : FileId} {source : String} {s : Stream} {i j : Nat} {marks : List Char}
  (hs : s = .ofTokens file (scan file source))
include hs

theorem getElem?_of_isOneOf (hi : (s.token i).isOneOf marks = true) :
    (scan file source)[i]? = some (s.token i) := by
  subst hs
  have htiles := tiles_scan file source
  have hlt : i < (scan file source).length := by
    refine Decidable.byContradiction fun hle => ?_
    obtain ⟨hkind, -, -⟩ := htiles.getLast_kind (htiles.token_of_le file (i := i) (by omega))
    rw [Token.isOneOf, hkind] at hi
    cases hi
  rw [← htiles.getElem?_token file i, Nat.min_eq_left (by omega)]

theorem position_eq (hi : (s.token i).isOneOf marks = true) (hj : (s.token j).isOneOf marks = true)
    (hspan : (s.token i).span = (s.token j).span) : i = j := by
  have hpairwise := List.pairwise_iff_getElem.mp (tiles_scan file source).pairwise
  obtain ⟨hilt, hi'⟩ := List.getElem?_eq_some_iff.mp (getElem?_of_isOneOf hs hi)
  obtain ⟨hjlt, hj'⟩ := List.getElem?_eq_some_iff.mp (getElem?_of_isOneOf hs hj)
  have hsolid : (s.token j).span.start < (s.token j).span.stop :=
    solid_of_isOneOf (hj' ▸ List.getElem_mem hjlt) hj
  rcases Nat.lt_trichotomy i j with hlt | rfl | hlt
  · have hle := hpairwise i j hilt hjlt hlt
    rw [hi', hj', hspan] at hle
    omega
  · rfl
  · have hle := hpairwise j i hjlt hilt hlt
    rw [hi', hj', hspan] at hle
    omega

theorem countP_span (hi : (s.token i).isOneOf marks = true) :
    ((scan file source).countP fun t => t.isOneOf marks ∧ t.span = (s.token i).span) = 1 := by
  have hmem : s.token i ∈ scan file source := List.mem_of_getElem? (getElem?_of_isOneOf hs hi)
  refine countP_eq_one ?_ hmem (by simpa using hi)
  refine (tiles_scan file source).pairwise.imp fun {t u} hle => ?_
  have hsolid := solid_of_isOneOf hmem hi
  simp only [decide_eq_true_eq, decide_eq_false_iff_not, not_and]
  rintro ⟨-, ht⟩ - hu
  rw [ht, hu] at hle
  omega

theorem matching_inStep : InStep s.token [] 0 (scan file source) s.pairs (faults (scan file source)) := by
  subst hs
  refine inStep (scan file source) [] 0 fun k t ht => ?_
  have hlt := (List.getElem?_eq_some_iff.mp ht).1
  rw [Nat.zero_add, ← Option.some.injEq, ← ht, ← (tiles_scan file source).getElem?_token file k,
    Nat.min_eq_left (by omega)]

theorem pairs_apart {p q : Nat × Nat} (hp : p ∈ s.pairs) (hq : q ∈ s.pairs) :
    p = q ∨ Apart p q ∨ Apart q p := by
  have hpairwise := List.pairwise_iff_getElem.mp ((matching_inStep hs).pairwise (nested_nil 0))
  obtain ⟨m, hm, rfl⟩ := List.getElem_of_mem hp
  obtain ⟨n, hn, rfl⟩ := List.getElem_of_mem hq
  rcases Nat.lt_trichotomy m n with hlt | rfl | hlt
  · exact .inr (.inl (hpairwise m n hm hn hlt))
  · exact .inl rfl
  · exact .inr (.inr (hpairwise n m hn hm hlt))

theorem pair_lt {p : Nat × Nat} (hp : p ∈ s.pairs) : p.1 < p.2 ∧ p.2 < s.size := by
  subst hs
  obtain ⟨hlt, hbound⟩ := bracketPairs_bounds hp
  exact ⟨hlt, by simpa [Stream.size, Stream.ofTokens] using hbound⟩

theorem partner?_eq_some : s.partner? i = some j ↔ (i, j) ∈ s.pairs := by
  constructor
  · intro h
    obtain ⟨p, hp, rfl⟩ := Option.map_eq_some_iff.mp h
    have hi : p.1 = i := by simpa using List.find?_some hp
    subst hi
    exact List.mem_of_find?_eq_some hp
  · intro h
    obtain ⟨p, hp⟩ := Option.isSome_iff_exists.mp
      (List.find?_isSome.mpr ⟨(i, j), h, by simp⟩ : (s.pairs.find? fun p => p.1 = i).isSome)
    have hi : p.1 = i := by simpa using List.find?_some hp
    have hmem := List.mem_of_find?_eq_some hp
    rw [Stream.partner?, hp]
    obtain rfl | hapart := pairs_apart hs hmem h
    · rfl
    · have := pair_lt hs hmem
      have := pair_lt hs h
      simp only [Apart] at hapart
      omega

theorem reportedWhen_unpaired {side : Nat × Nat → Nat} {code : Code} {found : List Diagnostic}
    (hi : (s.token i).isOneOf marks = true)
    (hside : ∀ p ∈ s.pairs, (s.token (side p)).isOneOf marks = true)
    (hcount : ((scan file source).countP fun t => t.isOneOf marks ∧ t.span = (s.token i).span) =
      (s.pairs.countP fun p => (s.token (side p)).span = (s.token i).span) +
        reports code (s.token i).span found) :
    ReportedWhen (∀ p ∈ s.pairs, side p ≠ i) code (s.token i).span found := by
  rw [countP_span hs hi] at hcount
  constructor
  · intro hunpaired
    have hzero : (s.pairs.countP fun p => (s.token (side p)).span = (s.token i).span) = 0 := by
      refine List.countP_eq_zero.mpr fun p hp hspan => hunpaired p hp ?_
      exact position_eq hs (hside p hp) hi (of_decide_eq_true hspan)
    omega
  · intro hpaired
    have hpos : 0 < s.pairs.countP fun p => (s.token (side p)).span = (s.token i).span := by
      simp only [not_forall, not_not] at hpaired
      obtain ⟨p, hp, rfl⟩ := hpaired
      exact List.countP_pos_iff.mpr ⟨p, hp, by simp⟩
    omega

theorem partner?_eq_none_iff : s.partner? i = none ↔ ∀ p ∈ s.pairs, p.1 ≠ i := by
  rw [Option.eq_none_iff_forall_not_mem]
  constructor
  · rintro h p hp rfl
    exact h p.2 ((partner?_eq_some hs).mpr hp)
  · exact fun h j hj => h (i, j) ((partner?_eq_some hs).mp hj) rfl

theorem forall_partner?_ne_iff : (∀ j, s.partner? j ≠ some i) ↔ ∀ p ∈ s.pairs, p.2 ≠ i := by
  constructor
  · rintro h p hp rfl
    exact h p.1 ((partner?_eq_some hs).mpr hp)
  · exact fun h j hj => h (j, i) ((partner?_eq_some hs).mp hj) rfl

theorem matched_scan : Matched s (faults (scan file source)) := by
  have hstep := matching_inStep hs
  have hforms := hstep.forms fun b hb => (List.not_mem_nil hb).elim
  constructor
  case forms =>
    intro i j hij
    have hmem := (partner?_eq_some hs).mp hij
    obtain ⟨hlt, hsize⟩ := pair_lt hs hmem
    exact ⟨hlt, hsize, hforms (i, j) hmem⟩
  case once =>
    intro i j k hik hjk
    obtain heq | hapart := pairs_apart hs ((partner?_eq_some hs).mp hik) ((partner?_eq_some hs).mp hjk)
    · exact congrArg Prod.fst heq
    · simp only [Apart] at hapart
      omega
  case nested =>
    intro i j k l hik hjl hij hjk
    obtain heq | hapart := pairs_apart hs ((partner?_eq_some hs).mp hik) ((partner?_eq_some hs).mp hjl)
    · simp only [Prod.mk.injEq] at heq
      omega
    · simp only [Apart] at hapart
      omega
  case opening =>
    intro i hi
    rw [partner?_eq_none_iff hs]
    refine reportedWhen_unpaired hs hi (fun p hp => ?_) ?_
    · obtain ⟨opener, hopener, hkind, -⟩ := hforms p hp
      exact (isOneOf_openers hkind hopener).1
    · simpa using hstep.openings (s.token i).span
  case closing =>
    intro i hi
    rw [forall_partner?_ne_iff hs]
    refine reportedWhen_unpaired hs hi (fun p hp => ?_) (hstep.closings (s.token i).span)
    obtain ⟨opener, -, -, hkind⟩ := hforms p hp
    exact (isOneOf_closers hkind (closerOf_mem opener)).2
  case flawless =>
    have htokens : s.tokens.toList = scan file source := by rw [hs, Stream.ofTokens]
    rw [htokens]
    exact hstep.flawless_iff fun b hb => (List.not_mem_nil hb).elim

end Scanned

/-- The two ways to match brackets agree: an opening one without a partner and a closing one that is
nobody's partner are each reported once, and no other bracket is. Taking brackets off one by one, and
filling a table, come to the same findings and partners. -/
theorem matchers_agree (file : FileId) (source : String) :
    Matched (.ofTokens file (scan file source)) (faults (scan file source)) ∧
      poppedFaults [] (scan file source) = faults (scan file source) ∧
      ∃ table, partners (scan file source) = .ok table ∧
        ∀ i, (table[i]?).join = (Stream.ofTokens file (scan file source)).partner? i := by
  have hroom : 0 + (scan file source).length ≤
      (List.replicate (scan file source).length (none : Option Nat)).length := by simp
  obtain ⟨table, htable, hjoin⟩ := partnersFrom_eq (nested_nil 0) hroom
  refine ⟨matched_scan rfl, poppedFaults_eq _ _, table, htable, fun i => ?_⟩
  rw [hjoin, List.getElem?_replicate]
  split
  · simp [Stream.partner?, Stream.ofTokens, bracketPairs]
  · simp [Stream.partner?, Stream.ofTokens, bracketPairs]

/-- A closing bracket reaches past an open one of another form, and a second one finds none. -/
example : (scan 0 "([)]").map Token.bracket? = [some '(', some '[', some ')', some ']', none] ∧
    bracketPairs (scan 0 "([)]") = [(0, 2)] ∧
    (faults (scan 0 "([)]")).map (fun d => (d.code, d.span.start)) =
      [(delimiterExpected, 1), (unexpectedDelimiter, 3)] := by
  decide

end Recompile.Script
