import Mathlib.Logic.Relation
import Recompile.Proofs.Script.Groups
import Recompile.Proofs.Script.Outlining
import Recompile.Proofs.Script.Visits

/-!
Classes behind a component annotation and further decorators. The name of a decorator is read up to the
first token that is neither a word nor a dot. So a decorator without arguments right before the class
takes the words of the class into its name, and hides the component; in all other places it does not.
-/

namespace Recompile.Script

inductive DottedName : List Token → Prop where
  | word {t : Token} (ident : t.kind = .ident) : DottedName [t]
  | dot {t d : Token} {ts : List Token} (ident : t.kind = .ident) (mark : d.kind = .punct '.')
      (rest : DottedName ts) : DottedName (t :: d :: ts)

structure Decorator where
  mark : Token
  name : List Token
  arguments : Option (Group '(')
  mark_kind : mark.kind = .punct '@'
  dotted : DottedName name

def Decorator.tokens (d : Decorator) : List Token :=
  d.mark :: (d.name ++ (d.arguments.map Group.tokens).getD [])

def classLeads : List String := ["export", "default", "abstract", "declare"]

/-- What may stand between the name of a class and its body: tokens and groups without a semicolon, and
no colon at the end. -/
inductive Head : List Token → Prop where
  | nil : Head []
  | plain {t : Token} {ts : List Token} (other : t.bracket? = none) (semicolon : t.kind ≠ .punct ';')
      (colon : t.kind ≠ .punct ':') (rest : Head ts) : Head (t :: ts)
  | group {mark : Char} {g : Group mark} {ts : List Token} (form : mark ∈ openers) (rest : Head ts) :
      Head (g.tokens ++ ts)
  | typed {t : Token} {g : Group '\x7b'} {ts : List Token} (colon : t.kind = .punct ':') (rest : Head ts) :
      Head (t :: (g.tokens ++ ts))
  | colon {t u : Token} {ts : List Token} (colon : t.kind = .punct ':') (next : u.kind ≠ .punct '\x7b')
      (rest : Head (u :: ts)) : Head (t :: u :: ts)

/-- A class behind an annotation with an object, decorators and words. -/
structure AnnotatedClass where
  mark : Token
  word : Token
  argument : Group '('
  object : Group '\x7b'
  others : List Token
  decorators : List Decorator
  leads : List Token
  keyword : Token
  name : Token
  head : List Token
  body : Group '\x7b'
  mark_kind : mark.kind = .punct '@'
  word_text : word.isWord "Component" = true
  inner_eq : argument.inner = object.tokens ++ others
  lead_words : ∀ t ∈ leads, t.kind = .ident ∧ t.text ∈ classLeads
  keyword_text : keyword.isWord "class" = true
  name_kind : name.kind = .ident
  head_parts : Head head

namespace AnnotatedClass

variable (a : AnnotatedClass)

def call : List Token := a.mark :: a.word :: a.argument.tokens

def between : List Token := a.decorators.flatMap Decorator.tokens ++ a.leads

def tokens : List Token :=
  a.call ++ (a.between ++ (a.keyword :: a.name :: (a.head ++ a.body.tokens)))

def EndsBare : Prop := ∃ d, a.decorators.getLast? = some d ∧ d.arguments = none

end AnnotatedClass

section Chain

variable {s : Stream} {i j c q fuel : Nat}

def Stream.inName (s : Stream) (i : Nat) : Bool := s.ident i || s.punct i '.'

theorem skipDotted_le (hj : s.inName j = false) (hij : i ≤ j) : s.skipDotted fuel i ≤ j := by
  induction fuel generalizing i with
  | zero => exact hij
  | succ fuel ih =>
    rw [Stream.skipDotted]
    split
    · rename_i hname
      refine ih (Nat.lt_of_le_of_ne hij ?_)
      rintro rfl
      rw [Stream.inName, hname] at hj
      cases hj
    · exact hij

theorem le_skipDotted_of_inName (hname : ∀ k, i ≤ k → k < j → s.inName k = true) (hij : i ≤ j)
    (hfuel : j ≤ fuel + i) : j ≤ s.skipDotted fuel i := by
  induction fuel generalizing i with
  | zero => exact hfuel.trans (by rw [Nat.zero_add]; exact Nat.le_refl i)
  | succ fuel ih =>
    rcases Nat.eq_or_lt_of_le hij with rfl | hlt
    · exact View.le_skipDotted s _ i
    · have hi : (s.ident i || s.punct i '.') = true := hname i (Nat.le_refl i) hlt
      rw [Stream.skipDotted, if_pos hi]
      exact ih (fun k hk => hname k (Nat.le_of_succ_le hk)) hlt (by omega)

inductive ClassStep (s : Stream) : Nat → Nat → Prop where
  | bare {c : Nat} (mark : s.punct c '@' = true) (free : s.punct (s.skipDotted s.size (c + 1)) '(' = false) :
      ClassStep s c (s.skipDotted s.size (c + 1))
  | call {c close : Nat} (mark : s.punct c '@' = true)
      (opening : s.punct (s.skipDotted s.size (c + 1)) '(' = true)
      (closing : s.partner? (s.skipDotted s.size (c + 1)) = some close) : ClassStep s c (close + 1)
  | lead {c : Nat} (ident : s.ident c = true) (text : s.text c ∈ classLeads) : ClassStep s c (c + 1)

theorem kind_of_punct {mark : Char} (h : s.punct i mark = true) : (s.token i).kind = .punct mark := by
  simpa [Stream.punct, Token.isPunct] using h

theorem punct_of_kind {mark : Char} (h : (s.token i).kind = .punct mark) : s.punct i mark = true := by
  simp [Stream.punct, Token.isPunct, h]

theorem ident_of_kind (h : (s.token i).kind = .ident) : s.ident i = true := by
  simp [Stream.ident, h]

theorem kind_of_ident (h : s.ident i = true) : (s.token i).kind = .ident := by
  simpa [Stream.ident] using h

theorem classWord?_steps (h : classWord? s fuel c = some q) :
    Relation.ReflTransGen (ClassStep s) c q ∧ s.word q "class" = true := by
  induction fuel generalizing c with
  | zero => cases h
  | succ fuel ih =>
    rw [classWord?] at h
    dsimp only at h
    split at h
    · rename_i hmark
      split at h
      · rename_i hopening
        obtain ⟨close, hclosing, h⟩ := Option.bind_eq_some_iff.mp h
        obtain ⟨hsteps, hword⟩ := ih h
        exact ⟨.head (.call hmark hopening hclosing) hsteps, hword⟩
      · rename_i hfree
        obtain ⟨hsteps, hword⟩ := ih h
        exact ⟨.head (.bare hmark (Bool.eq_false_iff.mpr hfree)) hsteps, hword⟩
    split at h
    · rename_i hlead
      obtain ⟨hident, htext⟩ := Bool.and_eq_true_iff.mp hlead
      obtain ⟨hsteps, hword⟩ := ih h
      exact ⟨.head (.lead hident (List.contains_iff_mem.mp htext)) hsteps, hword⟩
    split at h
    · rename_i hword
      cases h
      exact ⟨.refl, hword⟩
    · cases h

theorem ClassStep.lt (hs : s.Ordered) (h : ClassStep s i j) : i < j := by
  cases h with
  | bare => exact View.le_skipDotted s _ _
  | call mark opening closing =>
    have hle := View.le_skipDotted s s.size (i + 1)
    have hlt := hs closing
    omega
  | lead => exact Nat.lt_succ_self i

theorem steps_le (hs : s.Ordered) (h : Relation.ReflTransGen (ClassStep s) i j) : i ≤ j := by
  induction h with
  | refl => exact Nat.le_refl i
  | tail _ hstep ih => exact ih.trans (Nat.le_of_lt (hstep.lt hs))

theorem classWord?_of_steps (hs : s.Ordered) (hend : ∀ i, s.atEnd i = true ↔ s.size ≤ i + 1)
    (h : Relation.ReflTransGen (ClassStep s) c q) (hword : s.word q "class" = true) (hfuel : s.size < fuel + c) :
    classWord? s fuel c = some q := by
  have hbefore : ∀ {i}, (s.token i).kind ≠ .eof → i < s.size := by
    intro i hkind
    refine Nat.lt_of_not_le fun hle => hkind ?_
    simpa [Stream.atEnd] using (hend i).mpr (Nat.le_succ_of_le hle)
  have hpos : ∀ {i fuel}, (s.token i).kind ≠ .eof → s.size < fuel + i → ∃ fuel', fuel = fuel' + 1 := by
    intro i fuel hkind hfuel
    have hlt := hbefore hkind
    exact Nat.exists_eq_succ_of_ne_zero (by omega)
  -- Each step takes some fuel and gets on by a token at least.
  induction h using Relation.ReflTransGen.head_induction_on generalizing fuel with
  | refl =>
    obtain ⟨hident, htext⟩ := text_of_word hword
    have hkind := kind_of_ident hident
    obtain ⟨fuel, rfl⟩ := hpos (by simp [hkind]) hfuel
    have hmark : s.punct q '@' = false := by simp [Stream.punct, Token.isPunct, hkind]
    rw [classWord?, hmark, htext, hword]
    simp
  | @head c c' hstep _ ih =>
    have hlt := hstep.lt hs
    cases hstep with
    | bare hmark hfree =>
      obtain ⟨fuel, rfl⟩ := hpos (by simp [kind_of_punct hmark]) hfuel
      rw [classWord?, if_pos hmark]
      dsimp only
      rw [if_neg (by simp [hfree])]
      exact ih (by omega)
    | call hmark hopening hclosing =>
      obtain ⟨fuel, rfl⟩ := hpos (by simp [kind_of_punct hmark]) hfuel
      rw [classWord?, if_pos hmark]
      dsimp only
      rw [if_pos hopening, hclosing]
      exact ih (by omega)
    | lead hident htext =>
      have hkind := kind_of_ident hident
      obtain ⟨fuel, rfl⟩ := hpos (by simp [hkind]) hfuel
      have hmark : s.punct c '@' = false := by simp [Stream.punct, Token.isPunct, hkind]
      have hlead : (s.ident c && ["export", "default", "abstract", "declare"].contains (s.text c)) = true :=
        Bool.and_eq_true_iff.mpr ⟨hident, List.contains_iff_mem.mpr htext⟩
      rw [classWord?, hmark, hlead]
      exact ih (by omega)

theorem inName_of_punct {mark : Char} (h : s.punct i mark = true) (hmark : mark ≠ '.') : s.inName i = false := by
  have hkind := kind_of_punct h
  simp [Stream.inName, Stream.ident, Stream.punct, Token.isPunct, hkind, hmark]

theorem punct_unique {mark mark' : Char} (h : s.punct i mark = true) (h' : s.punct i mark' = true) :
    mark = mark' := by
  have hkind := kind_of_punct h
  rw [kind_of_punct h'] at hkind
  exact (TokenKind.punct.inj hkind).symm

/-- A stretch of tokens that a search for a class cannot get into from outside of it. -/
structure Shut (s : Stream) (first last : Nat) : Prop where
  barrier : s.punct first '@' = true ∨ s.punct first '\x7b' = true
  name : s.punct first '@' = true → last < s.skipDotted s.size (first + 1)
  jump : ∀ {opening close}, opening < first → s.partner? opening = some close →
    s.punct opening '(' = true → close < first ∨ last ≤ close

theorem Shut.inName {first last : Nat} (h : Shut s first last) : s.inName first = false := by
  rcases h.barrier with hmark | hmark
  · exact inName_of_punct hmark (by decide)
  · exact inName_of_punct hmark (by decide)

theorem Shut.ne {first last opening : Nat} (h : Shut s first last) (hopening : s.punct opening '(' = true) :
    opening ≠ first := by
  rintro rfl
  rcases h.barrier with hmark | hmark
  · exact absurd (punct_unique hopening hmark) (by decide)
  · exact absurd (punct_unique hopening hmark) (by decide)

theorem ClassStep.outside (hs : s.Ordered) {first last : Nat} (hshut : Shut s first last)
    (h : ClassStep s i j) (hi : i ≤ first ∨ last < i) : j ≤ first ∨ last < j := by
  have hlt := h.lt hs
  rcases hi with hi | hi
  · rcases Nat.eq_or_lt_of_le hi with rfl | hbefore
    · -- only the name of a decorator goes on from the first token of the stretch
      right
      cases h with
      | bare hmark => exact hshut.name hmark
      | call hmark _ hclosing =>
        have := hshut.name hmark
        have := hs hclosing
        omega
      | lead hident =>
        have hbarrier := hshut.inName
        rw [Stream.inName, hident, Bool.true_or] at hbarrier
        cases hbarrier
    · cases h with
      | bare => exact .inl (skipDotted_le hshut.inName hbefore)
      | call hmark hopening hclosing =>
        have hle : s.skipDotted s.size (i + 1) ≤ first := skipDotted_le hshut.inName hbefore
        rcases hshut.jump (Nat.lt_of_le_of_ne hle (hshut.ne hopening)) hclosing hopening with hclose | hclose
        · exact .inl hclose
        · exact .inr (Nat.lt_succ_of_le hclose)
      | lead => exact .inl hbefore
  · exact .inr (Nat.lt_trans hi hlt)

theorem steps_outside (hs : s.Ordered) {first last : Nat} (hshut : Shut s first last)
    (h : Relation.ReflTransGen (ClassStep s) i j) (hi : i ≤ first ∨ last < i) : j ≤ first ∨ last < j := by
  induction h with
  | refl => exact hi
  | tail _ hstep ih => exact hstep.outside hs hshut ih

end Chain

section Texts

variable {file : FileId} {source : String} {i j q : Nat}

theorem matched_streamOf (file : FileId) (source : String) :
    Matched (streamOf file source) (faults (scan file source)) := matched_scan rfl

theorem closer_of_partner? (h : (streamOf file source).partner? i = some j) :
    ∃ mark ∈ closers, (streamOf file source).punct j mark = true := by
  obtain ⟨-, -, opener, -, -, hkind⟩ := (matched_streamOf file source).forms h
  exact ⟨closerOf opener, closerOf_mem opener, punct_of_kind hkind⟩

theorem inName_of_partner? (h : (streamOf file source).partner? i = some j) :
    (streamOf file source).inName j = false := by
  obtain ⟨closer, hcloser, hclose⟩ := closer_of_partner? h
  refine inName_of_punct hclose ?_
  rintro rfl
  revert hcloser
  decide

theorem ne_closer {mark : Char} (h : (streamOf file source).partner? i = some j) (hmark : mark ∉ closers)
    (hq : (streamOf file source).punct q mark = true) : q ≠ j := by
  rintro rfl
  obtain ⟨closer, hcloser, hpunct⟩ := closer_of_partner? h
  exact hmark (punct_unique hpunct hq ▸ hcloser)

theorem shut_braces {opening close : Nat} (hopening : (streamOf file source).punct opening '\x7b' = true)
    (hclosing : (streamOf file source).partner? opening = some close) :
    Shut (streamOf file source) opening close := by
  refine ⟨.inr hopening, fun hmark => ?_, fun {i j} hi hj _ => ?_⟩
  · exact absurd (punct_unique hopening hmark) (by decide)
  · refine (Nat.lt_or_ge j opening).imp id fun hle => Nat.le_of_lt ?_
    have hne : opening ≠ j := ne_closer hj (by decide) hopening
    exact (matched_streamOf file source).nested hj hclosing hi (Nat.lt_of_le_of_ne hle hne)

theorem ClassStep.inside {opening close : Nat} (hclosing : (streamOf file source).partner? opening = some close)
    (h : ClassStep (streamOf file source) i j) (hi : opening < i ∧ i ≤ close) : opening < j ∧ j ≤ close := by
  have hlt := h.lt (ordered_streamOf file source)
  refine ⟨Nat.lt_trans hi.1 hlt, ?_⟩
  have hbarrier := inName_of_partner? hclosing
  have hbefore : (streamOf file source).inName i = true ∨ (streamOf file source).punct i '@' = true → i < close := by
    intro h
    refine Nat.lt_of_le_of_ne hi.2 ?_
    rcases h with h | h
    · rintro rfl
      rw [h] at hbarrier
      cases hbarrier
    · exact ne_closer hclosing (by decide) h
  cases h with
  | bare hmark => exact skipDotted_le hbarrier (hbefore (.inr hmark))
  | call hmark hopening hclosing' =>
    have hle : (streamOf file source).skipDotted (streamOf file source).size (i + 1) ≤ close :=
      skipDotted_le hbarrier (hbefore (.inr hmark))
    have hge := View.le_skipDotted (streamOf file source) (streamOf file source).size (i + 1)
    have hne := ne_closer hclosing (by decide) hopening
    exact (matched_streamOf file source).nested hclosing hclosing' (by omega) (Nat.lt_of_le_of_ne hle hne)
  | lead hident => exact hbefore (.inl (by rw [Stream.inName, hident, Bool.true_or]))

theorem steps_inside {opening close : Nat} (hclosing : (streamOf file source).partner? opening = some close)
    (h : Relation.ReflTransGen (ClassStep (streamOf file source)) i j) (hi : opening < i ∧ i ≤ close) :
    opening < j ∧ j ≤ close := by
  induction h with
  | refl => exact hi
  | tail _ hstep ih => exact hstep.inside hclosing ih

theorem shut_bare (hmark : (streamOf file source).punct i '@' = true)
    (hname : ∀ k, i < k → k ≤ q → (streamOf file source).inName k = true) (hiq : i < q)
    (hq : q < (streamOf file source).size) : Shut (streamOf file source) i q := by
  refine ⟨.inl hmark, fun _ => ?_, fun {opening close} _ hclosing _ => ?_⟩
  · exact le_skipDotted_of_inName (fun k hk hlt => hname k hk (Nat.le_of_lt_succ hlt)) (by omega) (by omega)
  · refine (Nat.lt_or_ge close i).imp id fun hle => Nat.le_of_not_lt fun hlt => ?_
    rcases Nat.eq_or_lt_of_le hle with rfl | hbehind
    · exact ne_closer hclosing (by decide) hmark rfl
    · have hnot := inName_of_partner? hclosing
      rw [hname close hbehind (Nat.le_of_lt hlt)] at hnot
      cases hnot

section Tokens

variable {rest mid : List Token} {t : Token}

theorem Follows.token_mem (h : Follows (scan file source) i (mid ++ rest)) {k : Nat} (hk : i ≤ k)
    (hlt : k < i + mid.length) : (streamOf file source).token k ∈ mid := by
  induction mid generalizing i with
  | nil => exact absurd hlt (Nat.not_lt_of_le hk)
  | cons t mid ih =>
    rw [List.cons_append] at h
    rcases Nat.eq_or_lt_of_le hk with rfl | hlt'
    · rw [h.token]
      exact List.mem_cons_self
    · rw [List.length_cons] at hlt
      exact List.mem_cons_of_mem t (ih h.next hlt' (by omega))

theorem Follows.lt_size (h : Follows (scan file source) i (t :: rest)) : i < (streamOf file source).size := by
  have hlen := h.length_eq
  rw [List.length_cons] at hlen
  simp only [streamOf, Stream.size, Stream.ofTokens, List.size_toArray]
  omega

theorem Follows.not_atEnd (h : Follows (scan file source) i (t :: rest)) (hrest : rest ≠ []) :
    (streamOf file source).atEnd i = false := by
  obtain ⟨u, rest, rfl⟩ := List.exists_cons_of_ne_nil hrest
  rw [← Bool.not_eq_true, atEnd_iff]
  exact Nat.not_le_of_lt h.next.lt_size

theorem DottedName.inName {name : List Token} (h : DottedName name) :
    ∀ t ∈ name, t.kind = .ident ∨ t.kind = .punct '.' := by
  induction h with
  | word ident =>
    intro t ht
    rw [List.mem_singleton.mp ht]
    exact .inl ident
  | dot ident mark _ ih =>
    intro t ht
    rcases List.mem_cons.mp ht with rfl | ht
    · exact .inl ident
    rcases List.mem_cons.mp ht with rfl | ht
    · exact .inr mark
    · exact ih t ht

theorem inName_of_kind {s : Stream} (h : (s.token i).kind = .ident ∨ (s.token i).kind = .punct '.') :
    s.inName i = true := by
  rcases h with h | h
  · rw [Stream.inName, ident_of_kind h, Bool.true_or]
  · rw [Stream.inName, punct_of_kind h, Bool.or_true]

theorem skipDotted_name {name : List Token} (hname : DottedName name)
    (h : Follows (scan file source) i (name ++ t :: rest)) {mark : Char} (kind : t.kind = .punct mark)
    (hmark : mark ≠ '.') :
    (streamOf file source).skipDotted (streamOf file source).size i = i + name.length := by
  have hnext := h.skip
  have hstop := inName_of_punct (punct_of_kind (hnext.token ▸ kind)) hmark
  refine Nat.le_antisymm (skipDotted_le hstop (Nat.le_add_right _ _)) ?_
  refine le_skipDotted_of_inName (fun k hk hlt => ?_) (Nat.le_add_right _ _) ?_
  · exact inName_of_kind (hname.inName _ (h.token_mem hk hlt))
  · exact (Nat.le_of_lt hnext.lt_size).trans (Nat.le_add_right _ _)

theorem step_decorator {d : Decorator} (h : Follows (scan file source) i (d.tokens ++ rest))
    (hbare : d.arguments = none → ∃ t tail, rest = t :: tail ∧ t.kind = .punct '@') :
    ClassStep (streamOf file source) i (i + d.tokens.length) := by
  unfold Decorator.tokens at h ⊢
  rw [List.cons_append, List.append_assoc] at h
  have hmark : (streamOf file source).punct i '@' = true := punct_of_kind (h.token ▸ d.mark_kind)
  cases harguments : d.arguments with
  | none =>
    obtain ⟨t, tail, rfl, hkind⟩ := hbare harguments
    rw [harguments] at h
    have hskip := skipDotted_name d.dotted h.next hkind (by decide)
    have hfree : (streamOf file source).punct (i + 1 + d.name.length) '(' = false := by
      have htoken := h.next.skip.token
      simp [Stream.punct, Token.isPunct, htoken, hkind]
    have hstep := ClassStep.bare hmark (by rw [hskip]; exact hfree)
    rw [hskip] at hstep
    simpa [Nat.add_assoc, Nat.add_comm 1] using hstep
  | some g =>
    rw [harguments] at h
    have hskip := skipDotted_name d.dotted h.next g.opener_kind (by decide)
    have hgroup : Follows (scan file source) (i + 1 + d.name.length) (g.tokens ++ rest) := h.next.skip
    have hopening : (streamOf file source).punct (i + 1 + d.name.length) '(' = true :=
      punct_of_kind ((show Follows _ _ (g.opener :: _) from hgroup).token ▸ g.opener_kind)
    have hstep := ClassStep.call hmark (by rw [hskip]; exact hopening)
      (by rw [hskip]; exact hgroup.partner? (by decide))
    have hlength : i + (d.mark :: (d.name ++ ((some g).map Group.tokens).getD [])).length =
        i + 1 + d.name.length + 1 + g.inner.length + 1 := by
      simp [Group.tokens]
      omega
    rw [hlength]
    exact hstep

theorem steps_decorators {ds : List Decorator} (h : Follows (scan file source) i (ds.flatMap Decorator.tokens ++ rest))
    (hlast : ∀ d, ds.getLast? = some d → d.arguments ≠ none) :
    Relation.ReflTransGen (ClassStep (streamOf file source)) i (i + (ds.flatMap Decorator.tokens).length) := by
  induction ds generalizing i with
  | nil => exact .refl
  | cons d ds ih =>
    rw [List.flatMap_cons, List.append_assoc] at h
    rw [List.flatMap_cons, List.length_append, ← Nat.add_assoc]
    refine .head (step_decorator h fun hbare => ?_) (ih h.skip fun e he => hlast e ?_)
    · cases ds with
      | nil => exact absurd hbare (hlast d rfl)
      | cons e ds => exact ⟨e.mark, _, rfl, e.mark_kind⟩
    · rw [List.getLast?_cons, he]
      rfl

theorem steps_leads {leads : List Token} (h : Follows (scan file source) i (leads ++ rest))
    (hleads : ∀ t ∈ leads, t.kind = .ident ∧ t.text ∈ classLeads) :
    Relation.ReflTransGen (ClassStep (streamOf file source)) i (i + leads.length) := by
  induction leads generalizing i with
  | nil => exact .refl
  | cons t leads ih =>
    rw [List.cons_append] at h
    obtain ⟨⟨hident, htext⟩, hleads⟩ := List.forall_mem_cons.mp hleads
    have hstep : ClassStep (streamOf file source) i (i + 1) :=
      .lead (ident_of_kind (h.token ▸ hident)) (by rw [Stream.text, h.token]; exact htext)
    rw [List.length_cons, Nat.add_comm leads.length, ← Nat.add_assoc]
    exact .head hstep (ih h.next hleads)

theorem plain_of_bracket? {s : Stream} (h : (s.token i).bracket? = none) {mark : Char} (hmark : mark ∈ openers) :
    s.punct i mark = false := by
  refine Bool.eq_false_iff.mpr fun hpunct => ?_
  have hopener := (isOneOf_openers (kind_of_punct hpunct) hmark).1
  rw [(isOneOf_of_plain h).1] at hopener
  cases hopener

theorem not_punct_of_kind {s : Stream} {mark : Char} (h : (s.token i).kind ≠ .punct mark) : s.punct i mark = false :=
  Bool.eq_false_iff.mpr fun hpunct => h (kind_of_punct hpunct)

section BodyOpen

variable {s : Stream} {fuel close : Nat}

theorem bodyOpenFrom_brace (h : s.punct i '\x7b' = true) : s.bodyOpenFrom (fuel + 1) i = some i := by
  have hkind := kind_of_punct h
  rw [Stream.bodyOpenFrom, if_neg (by simp [Stream.atEnd, Stream.punct, Token.isPunct, hkind]), if_pos h]

theorem bodyOpenFrom_group {mark : Char} (hmark : mark = '(' ∨ mark = '[') (h : s.punct i mark = true)
    (hclose : s.partner? i = some close) : s.bodyOpenFrom (fuel + 1) i = s.bodyOpenFrom fuel (close + 1) := by
  have hkind := kind_of_punct h
  rw [Stream.bodyOpenFrom]
  rcases hmark with rfl | rfl <;> simp [Stream.atEnd, Stream.punct, Token.isPunct, hkind, hclose]

theorem bodyOpenFrom_typed (h : s.punct i ':' = true) (hopening : s.punct (i + 1) '\x7b' = true)
    (hclose : s.partner? (i + 1) = some close) :
    s.bodyOpenFrom (fuel + 1) i = s.bodyOpenFrom fuel (close + 1) := by
  have hkind := kind_of_punct h
  have hkind' := kind_of_punct hopening
  rw [Stream.bodyOpenFrom]
  simp [Stream.atEnd, Stream.punct, Token.isPunct, hkind, hkind', hclose]

theorem bodyOpenFrom_plain (hend : s.atEnd i = false) (hsemicolon : s.punct i ';' = false)
    (hopen : ∀ mark ∈ openers, s.punct i mark = false)
    (hcolon : s.punct i ':' = true → s.punct (i + 1) '\x7b' = false) :
    s.bodyOpenFrom (fuel + 1) i = s.bodyOpenFrom fuel (i + 1) := by
  have htyped : (s.punct i ':' && s.punct (i + 1) '\x7b') = false := by
    cases h : s.punct i ':' with
    | true => rw [hcolon h, Bool.and_false]
    | false => rw [Bool.false_and]
  rw [Stream.bodyOpenFrom, hend, hsemicolon, hopen '\x7b' (by decide), hopen '(' (by decide),
    hopen '[' (by decide), htyped]
  rfl

end BodyOpen

theorem Follows.skipGroup {ts : List Token} {mark : Char} {g : Group mark} (h : Follows ts i (g.tokens ++ rest)) :
    Follows ts (i + 1 + g.inner.length + 1) rest := by
  have hskip := h.skip
  rwa [Group.tokens, List.length_cons, List.length_append, List.length_singleton, ← Nat.add_assoc,
    ← Nat.add_assoc, Nat.add_right_comm i] at hskip

theorem Follows.opener {mark : Char} {g : Group mark} (h : Follows (scan file source) i (g.tokens ++ rest)) :
    (streamOf file source).punct i mark = true :=
  punct_of_kind ((show Follows _ _ (g.opener :: _) from h).token ▸ g.opener_kind)

theorem bodyOpen_head {head : List Token} (hhead : Head head) {body : Group '\x7b'} {i fuel : Nat}
    (h : Follows (scan file source) i (head ++ (body.tokens ++ rest)))
    (hfuel : (streamOf file source).size < fuel + i) : ∃ opening close,
      (streamOf file source).bodyOpenFrom fuel i = some opening ∧
        (streamOf file source).partner? opening = some close := by
  have hsucc : ∀ {i fuel : Nat} {t : Token} {rest : List Token}, Follows (scan file source) i (t :: rest) →
      (streamOf file source).size < fuel + i → ∃ fuel', fuel = fuel' + 1 := by
    intro i fuel t rest h hfuel
    have hlt := h.lt_size
    exact Nat.exists_eq_succ_of_ne_zero (by omega)
  -- One case for each part that the head goes on with; a group in braces is taken for the body.
  induction hhead generalizing i fuel with
  | nil =>
    obtain ⟨fuel, rfl⟩ := hsucc h hfuel
    exact ⟨i, _, bodyOpenFrom_brace h.opener, h.partner? (by decide)⟩
  | @plain t ts other semicolon colon _ ih =>
    obtain ⟨fuel, rfl⟩ := hsucc h hfuel
    rw [List.cons_append] at h
    have htoken := h.token
    rw [bodyOpenFrom_plain (h.not_atEnd (by simp [Group.tokens])) (not_punct_of_kind (htoken ▸ semicolon))
      (fun mark => plain_of_bracket? (htoken ▸ other)) (fun hmark => absurd (htoken ▸ kind_of_punct hmark) colon)]
    exact ih h.next (by omega)
  | @group mark g ts form _ ih =>
    obtain ⟨fuel, rfl⟩ := hsucc h hfuel
    rw [List.append_assoc] at h
    have hclose := h.partner? form
    have hopening := h.opener
    have hnext := h.skipGroup
    simp only [openers, List.mem_cons, List.not_mem_nil, or_false] at form
    rcases form with rfl | rfl | rfl
    · rw [bodyOpenFrom_group (.inl rfl) hopening hclose]
      exact ih hnext (by omega)
    · rw [bodyOpenFrom_group (.inr rfl) hopening hclose]
      exact ih hnext (by omega)
    · exact ⟨i, _, bodyOpenFrom_brace hopening, hclose⟩
  | @typed t g ts colon _ ih =>
    obtain ⟨fuel, rfl⟩ := hsucc h hfuel
    rw [List.cons_append, List.append_assoc] at h
    have hnext := h.next.skipGroup
    rw [bodyOpenFrom_typed (punct_of_kind (h.token ▸ colon)) h.next.opener (h.next.partner? (by decide))]
    exact ih hnext (by omega)
  | @colon t u ts colon next _ ih =>
    obtain ⟨fuel, rfl⟩ := hsucc h hfuel
    rw [List.cons_append] at h
    have hkind : ((streamOf file source).token i).kind = .punct ':' := h.token ▸ colon
    have hother : ∀ mark ≠ ':', (streamOf file source).punct i mark = false := fun mark hne =>
      Bool.eq_false_iff.mpr fun hmark => hne (punct_unique hmark (punct_of_kind hkind))
    rw [bodyOpenFrom_plain (h.not_atEnd (by simp)) (hother ';' (by decide))
      (fun mark hmark => hother mark (by
        rintro rfl
        revert hmark
        decide))
      (fun _ => not_punct_of_kind (by rw [(show Follows _ _ (u :: _) from h.next).token]; exact next))]
    exact ih h.next (by omega)

end Tokens

end Texts

end Recompile.Script
