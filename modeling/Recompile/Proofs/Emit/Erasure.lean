import Recompile.Proofs.Emit.Cuts

/-!
What emission erases. A statement that passes types on or brings them in vanishes by itself, but a
type declares no end: it vanishes up to the next semicolon. So the export of a class, a function or
any other value vanishes exactly when a type before it has not ended where the export starts.
-/

namespace Recompile

def Span.Inside (x y : Span) : Prop := y.start ≤ x.start ∧ x.stop ≤ y.stop

namespace Script

section Tokens

variable {id : FileId} {text : String}

theorem stop_le_start {a b : Nat} (h : a < b) (hb : b < (scan id text).length) :
    ((streamOf id text).token a).span.stop ≤ ((streamOf id text).token b).span.start := by
  have ha := (tiles_scan id text).getElem?_token id a
  have hb' := (tiles_scan id text).getElem?_token id b
  rw [Nat.min_eq_left (by omega)] at ha hb'
  obtain ⟨hlt, ha⟩ := List.getElem?_eq_some_iff.mp ha
  obtain ⟨hlt', hb'⟩ := List.getElem?_eq_some_iff.mp hb'
  have := List.pairwise_iff_getElem.mp (tiles_scan id text).pairwise a b hlt hlt' h
  rwa [ha, hb'] at this

theorem start_le_stop (id : FileId) (text : String) (i : Nat) :
    ((streamOf id text).token i).span.start ≤ ((streamOf id text).token i).span.stop := by
  obtain ⟨_, _, hstop⟩ := token_place id text i
  omega

theorem token_clamp (id : FileId) (text : String) (i : Nat) :
    (streamOf id text).token (min i ((scan id text).length - 1)) = (streamOf id text).token i := by
  have h := (tiles_scan id text).getElem?_token id i
  have h' := (tiles_scan id text).getElem?_token id (min i ((scan id text).length - 1))
  rw [show min (min i ((scan id text).length - 1)) ((scan id text).length - 1) =
    min i ((scan id text).length - 1) by omega, h] at h'
  exact (Option.some.inj h').symm

theorem token_mono (id : FileId) (text : String) {a b : Nat} (h : a ≤ b) :
    ((streamOf id text).token a).span.start ≤ ((streamOf id text).token b).span.start ∧
      ((streamOf id text).token a).span.stop ≤ ((streamOf id text).token b).span.stop := by
  have hpos : 0 < (scan id text).length := List.length_pos_iff.mpr (tiles_scan id text).ne_nil
  rw [← token_clamp id text a, ← token_clamp id text b]
  rcases Nat.eq_or_lt_of_le (show min a ((scan id text).length - 1) ≤
    min b ((scan id text).length - 1) by omega) with heq | hlt
  · rw [heq]
    exact ⟨Nat.le_refl _, Nat.le_refl _⟩
  · have hnext := @stop_le_start id text _ _ hlt (by omega)
    have hfirst := start_le_stop id text (min a ((scan id text).length - 1))
    have hlast := start_le_stop id text (min b ((scan id text).length - 1))
    omega

theorem ident_bounds {p : Nat} (hp : (streamOf id text).ident p = true)
    (htext : ((streamOf id text).token p).text ≠ "") : p + 1 < (scan id text).length ∧
      ((streamOf id text).token p).span.start < ((streamOf id text).token p).span.stop := by
  constructor
  · refine Nat.lt_of_not_le fun hle => ?_
    obtain ⟨hkind, -⟩ := (tiles_scan id text).getLast_kind ((tiles_scan id text).token_of_le id hle)
    have hident : ((streamOf id text).token p).kind = .ident := by simpa [Stream.ident] using hp
    have heof : ((streamOf id text).token p).kind = .eof := hkind
    rw [hident] at heof
    cases heof
  · obtain ⟨_, _, hstop⟩ := token_place id text p
    have hwidth : Text.width ((streamOf id text).token p).text.toList ≠ 0 := fun hzero =>
      htext (String.toList_eq_nil_iff.mp (Text.width_eq_zero hzero))
    omega

theorem inside_span_iff {p : Nat} (hp : (streamOf id text).ident p = true)
    (htext : ((streamOf id text).token p).text ≠ "") (first last : Nat) :
    ((streamOf id text).token p).span.Inside ((streamOf id text).span first last) ↔
      first ≤ p ∧ p ≤ last := by
  obtain ⟨hend, hlt⟩ := ident_bounds hp htext
  constructor
  · rintro ⟨hstart, hstop⟩
    simp only [Stream.span] at hstart hstop
    constructor
    · refine Nat.le_of_not_lt fun hpf => ?_
      rw [← token_clamp id text first] at hstart
      have := @stop_le_start id text p (min first ((scan id text).length - 1)) (by omega) (by omega)
      omega
    · refine Nat.le_of_not_lt fun hlp => ?_
      have := @stop_le_start id text last p hlp (by omega)
      omega
  · rintro ⟨hfirst, hlast⟩
    exact ⟨(token_mono id text hfirst).1, (token_mono id text hlast).2⟩

end Tokens

variable {s : Stream}

def depthAfter (s : Stream) (depth i : Nat) : Nat :=
  if s.punct i '\x7b' then depth + 1 else if s.punct i '\x7d' then depth - 1 else depth

/-- The names outside all braces that are looked at, from a position on. -/
def topWordsFrom (s : Stream) : Nat → Nat → Nat → List Nat
  | 0, _, _ => []
  | fuel + 1, depth, i =>
      if s.atEnd i then []
      else if s.ident i && depth = 0 then
        i :: topWordsFrom s fuel 0 (wordAt s true i Outline.empty).2
      else topWordsFrom s fuel (depthAfter s depth i) (i + 1)

/-- The names outside all braces that are looked at; what a statement takes up is passed over. -/
def topWords (s : Stream) : List Nat := topWordsFrom s s.size 0 0

/-- What is taken in with a name outside all braces. -/
def takenAt (s : Stream) (i : Nat) : Outline := (wordAt s true i Outline.empty).1

theorem le_of_mem_topWordsFrom (hs : s.Ordered) {p : Nat} (fuel : Nat) : ∀ {depth i : Nat},
    p ∈ topWordsFrom s fuel depth i → i ≤ p := by
  induction fuel with
  | zero => exact fun h => (List.not_mem_nil h).elim
  | succ fuel ih =>
    intro depth i h
    rw [topWordsFrom] at h
    split at h
    · cases h
    split at h
    · rcases List.mem_cons.mp h with rfl | h
      · exact Nat.le_refl _
      · exact Nat.le_of_lt (Nat.lt_of_lt_of_le (wordAt_placed hs true i Outline.empty).1 (ih h))
    · exact Nat.le_of_succ_le (ih h)

theorem next_le_of_mem_topWordsFrom (hs : s.Ordered) {i p : Nat} (hlt : i < p) (fuel : Nat) :
    ∀ {depth j : Nat}, i ∈ topWordsFrom s fuel depth j → p ∈ topWordsFrom s fuel depth j →
      (wordAt s true i Outline.empty).2 ≤ p := by
  induction fuel with
  | zero => exact fun h => (List.not_mem_nil h).elim
  | succ fuel ih =>
    intro depth j hi hp
    rw [topWordsFrom] at hi hp
    split at hi
    · cases hi
    rename_i hend
    rw [if_neg hend] at hp
    split at hi
    · rename_i hword
      rw [if_pos hword] at hp
      rcases List.mem_cons.mp hi with rfl | hi
      · rcases List.mem_cons.mp hp with rfl | hp
        · exact absurd hlt (Nat.lt_irrefl _)
        · exact le_of_mem_topWordsFrom hs fuel hp
      · rcases List.mem_cons.mp hp with rfl | hp
        · have hle := le_of_mem_topWordsFrom hs fuel hi
          have hnext := (wordAt_placed hs true p Outline.empty).1
          omega
        · exact ih hi hp
    · rename_i hword
      rw [if_neg hword] at hp
      exact ih hi hp

def Outline.Grows (o a o' : Outline) : Prop :=
  o'.exports = o.exports ++ a.exports ∧ o'.erased = o.erased ++ a.erased

theorem Outline.Grows.refer {o a o' : Outline} (h : o.Grows a o') (s : Stream) (i : Nat) :
    o.Grows (a.refer s i) (o'.refer s i) := by
  unfold Outline.refer
  split <;> exact h

theorem Outline.grows_empty (o : Outline) : o.Grows Outline.empty o :=
  ⟨(List.append_nil _).symm, (List.append_nil _).symm⟩

/-- Two readings of a statement that go on from the same place, one of them from nothing. -/
def Alongside (o : Outline) (r a : Outline × Nat) : Prop := o.Grows a.1 r.1 ∧ r.2 = a.2

theorem importAt_grows (i : Nat) (o : Outline) :
    Option.Rel (Alongside o) (importAt s i o) (importAt s i Outline.empty) := by
  unfold importAt
  dsimp only
  generalize (s.word (i + 1) "type" && !s.punct (i + 2) ',' && !s.word (i + 2) "from") = typeOnly
  generalize (if typeOnly = true then i + 2 else i + 1) = j
  split
  · cases s.literal? j with
    | none => exact .none
    | some specifier => exact .some ⟨o.grows_empty, rfl⟩
  · generalize defaultImport s typeOnly j = first
    obtain ⟨first, j⟩ := first
    dsimp only
    generalize namespaceImport s typeOnly j = whole
    obtain ⟨whole, j⟩ := whole
    dsimp only
    cases bracedImports s typeOnly j with
    | none => exact .none
    | some named =>
      obtain ⟨named, j⟩ := named
      simp only [Option.bind_eq_bind, Option.bind_some]
      split
      · exact .none
      · cases s.literal? (j + 1) with
        | none => exact .none
        | some specifier =>
          refine .some ⟨⟨(List.append_nil _).symm, ?_⟩, rfl⟩
          cases typeOnly
          · exact (List.append_nil _).symm
          · rfl

theorem erase_grows {o a o' : Outline} (h : o.Grows a o') (typeOnly : Bool) (x : Span) :
    o.Grows (a.erase typeOnly x) (o'.erase typeOnly x) := by
  unfold Outline.erase
  split
  · refine ⟨h.1, ?_⟩
    show o'.erased ++ [x] = o.erased ++ (a.erased ++ [x])
    rw [h.2, List.append_assoc]
  · exact h

theorem exportAllAt_grows (start j : Nat) (typeOnly : Bool) (o : Outline) :
    Option.Rel (Alongside o) (exportAllAt s start j typeOnly o)
      (exportAllAt s start j typeOnly Outline.empty) := by
  unfold exportAllAt
  dsimp only
  generalize (s.word (j + 1) "as" && s.ident (j + 2)) = named
  generalize (if named = true then j + 3 else j + 1) = k
  split
  · exact .none
  · cases s.literal? (k + 1) with
    | none => exact .none
    | some specifier =>
      have herase := erase_grows o.grows_empty typeOnly (s.span start (s.skipSemicolon (k + 2) - 1))
      exact .some ⟨⟨herase.1, herase.2⟩, rfl⟩

theorem exportListAt_grows (start j : Nat) (typeOnly : Bool) (o : Outline) :
    Option.Rel (Alongside o) (exportListAt s start j typeOnly o)
      (exportListAt s start j typeOnly Outline.empty) := by
  unfold exportListAt
  cases s.partner? j with
  | none => exact .none
  | some close =>
    simp only [Option.bind_eq_bind, Option.bind_some]
    split
    · cases s.literal? (close + 1 + 1) with
      | none => exact .none
      | some specifier =>
        refine .some ⟨?_, rfl⟩
        apply erase_grows
        exact o.grows_empty
    · refine .some ⟨?_, rfl⟩
      apply erase_grows
      exact ⟨rfl, o.grows_empty.2⟩

theorem exportDeclarationAt_grows (start j : Nat) (o : Outline) :
    o.Grows (exportDeclarationAt s start j Outline.empty) (exportDeclarationAt s start j o) := by
  unfold exportDeclarationAt
  dsimp only
  split
  · split
    · exact ⟨rfl, o.grows_empty.2⟩
    · exact o.grows_empty
  · exact o.grows_empty

theorem exportAt_grows (start : Nat) (o : Outline) :
    Option.Rel (Alongside o) (exportAt s start o) (exportAt s start Outline.empty) := by
  unfold exportAt
  dsimp only
  generalize (s.word (start + 1) "type" &&
    (s.punct (start + 2) '\x7b' || s.punct (start + 2) '*')) = typeOnly
  generalize (if typeOnly = true then start + 2 else start + 1) = j
  split
  · exact exportAllAt_grows _ _ _ o
  split
  · exact exportListAt_grows _ _ _ o
  split
  · exact .some ⟨⟨rfl, o.grows_empty.2⟩, rfl⟩
  · exact .some ⟨exportDeclarationAt_grows _ _ o, rfl⟩

theorem declarationAt_grows (i : Nat) (o : Outline) :
    o.Grows (declarationAt s i Outline.empty) (declarationAt s i o) := by
  unfold declarationAt
  split
  · split
    · exact o.grows_empty
    · split
      · exact o.grows_empty
      · exact ⟨o.grows_empty.1, rfl⟩
  · exact o.grows_empty

theorem dynamicImportAt_grows (i : Nat) (o : Outline) :
    o.Grows (dynamicImportAt s i Outline.empty) (dynamicImportAt s i o) := by
  unfold dynamicImportAt
  split
  · split <;> exact o.grows_empty
  · exact o.grows_empty

theorem getD_grows {o a o' : Outline} {next : Nat} {r r' : Option (Outline × Nat)}
    (h : Option.Rel (Alongside o) r r') (ho : o.Grows a o') :
    Alongside o (r.getD (o', next)) (r'.getD (a, next)) := by
  cases h with
  | none => exact ⟨ho, rfl⟩
  | some h => exact h

theorem wordAt_grows (top : Bool) (i : Nat) (o : Outline) :
    Alongside o (wordAt s top i o) (wordAt s top i Outline.empty) := by
  have hrefer : o.Grows (Outline.empty.refer s i) (o.refer s i) := o.grows_empty.refer s i
  unfold wordAt
  dsimp only
  split
  · exact ⟨(dynamicImportAt_grows i o).refer s i, rfl⟩
  split
  · split
    · exact getD_grows (importAt_grows i o) hrefer
    split
    · exact getD_grows (exportAt_grows i o) hrefer
    · exact ⟨(declarationAt_grows i o).refer s i, rfl⟩
  · exact ⟨hrefer, rfl⟩

theorem wordAt_inner (i : Nat) (o : Outline) : (wordAt s false i o).1.exports = o.exports ∧
    (wordAt s false i o).1.erased = o.erased ∧ (wordAt s false i o).2 = i + 1 := by
  have hdynamic : (dynamicImportAt s i o).exports = o.exports ∧
      (dynamicImportAt s i o).erased = o.erased := by
    unfold dynamicImportAt
    split
    · split <;> exact ⟨rfl, rfl⟩
    · exact ⟨rfl, rfl⟩
  have hrefer : ∀ o : Outline, (o.refer s i).exports = o.exports ∧ (o.refer s i).erased = o.erased := by
    intro o
    unfold Outline.refer
    split <;> exact ⟨rfl, rfl⟩
  unfold wordAt
  simp only [Bool.false_and, Bool.false_eq_true, ↓reduceIte]
  split
  · exact ⟨(hrefer _).1.trans hdynamic.1, (hrefer _).2.trans hdynamic.2, rfl⟩
  · exact ⟨(hrefer o).1, (hrefer o).2, rfl⟩

theorem outlineFrom_grows (fuel : Nat) : ∀ (depth i : Nat) (o : Outline),
    (outlineFrom s fuel depth i o).exports =
        o.exports ++ (topWordsFrom s fuel depth i).flatMap (fun p => (takenAt s p).exports) ∧
      (outlineFrom s fuel depth i o).erased =
        o.erased ++ (topWordsFrom s fuel depth i).flatMap (fun p => (takenAt s p).erased) := by
  induction fuel with
  | zero => exact fun _ _ o => ⟨(List.append_nil _).symm, (List.append_nil _).symm⟩
  | succ fuel ih =>
    intro depth i o
    rw [outlineFrom_succ, topWordsFrom]
    cases hkind : (s.token i).kind with
    | eof => simp [Stream.atEnd, hkind]
    | punct mark =>
      have hskip : s.atEnd i = false ∧ s.ident i = false := by simp [Stream.atEnd, Stream.ident, hkind]
      simp only [hskip, Bool.false_eq_true, ↓reduceIte, Bool.false_and, depthAfter, Stream.punct,
        Token.isPunct, hkind, TokenKind.punct.injEq, decide_eq_true_eq]
      split
      · exact ih _ _ o
      split
      · exact ih _ _ o
      split
      · exact ih _ _ { o with components := o.components ++ (componentAt? s i).toList }
      · exact ih _ _ o
    | ident =>
      have hword : s.atEnd i = false ∧ s.ident i = true := by simp [Stream.atEnd, Stream.ident, hkind]
      have hdepth : depthAfter s depth i = depth := by simp [depthAfter, Stream.punct, Token.isPunct, hkind]
      simp only [hword, Bool.false_eq_true, ↓reduceIte, Bool.true_and, hdepth, decide_eq_true_eq]
      by_cases htop : depth = 0
      · obtain ⟨⟨hexports, herased⟩, hnext⟩ := wordAt_grows (s := s) true i o
        obtain ⟨ihexports, iherased⟩ := ih 0 (wordAt s true i o).2 (wordAt s true i o).1
        simp only [htop, decide_true, ↓reduceIte, List.flatMap_cons, ← List.append_assoc]
        rw [ihexports, iherased, hexports, herased, hnext]
        exact ⟨rfl, rfl⟩
      · obtain ⟨hexports, herased, hnext⟩ := wordAt_inner (s := s) i o
        obtain ⟨ihexports, iherased⟩ := ih depth (wordAt s false i o).2 (wordAt s false i o).1
        simp only [htop, decide_false, ↓reduceIte]
        rw [ihexports, iherased, hexports, herased, hnext]
        exact ⟨rfl, rfl⟩
    | number | string | template | regex =>
      have hskip : s.atEnd i = false ∧ s.ident i = false := by simp [Stream.atEnd, Stream.ident, hkind]
      have hdepth : depthAfter s depth i = depth := by simp [depthAfter, Stream.punct, Token.isPunct, hkind]
      simp only [hskip, Bool.false_eq_true, ↓reduceIte, Bool.false_and, hdepth]
      exact ih _ _ o

theorem mem_exports {e : Export} :
    e ∈ (outlineOf s).exports ↔ ∃ p ∈ topWords s, e ∈ (takenAt s p).exports := by
  rw [outlineOf, (outlineFrom_grows _ 0 0 Outline.empty).1]
  exact List.mem_flatMap

theorem mem_erased {x : Span} :
    x ∈ (outlineOf s).erased ↔ ∃ i ∈ topWords s, x ∈ (takenAt s i).erased := by
  rw [outlineOf, (outlineFrom_grows _ 0 0 Outline.empty).2]
  exact List.mem_flatMap

/-- The last token that vanishes with the type declared at a position. -/
def typeEnd? (s : Stream) (i : Nat) : Option Nat :=
  if startsDeclaration s i then
    (declaredName? s i).bind fun name =>
      if s.text i = "interface" then (s.bodyOpen (namePosition s i name + 1)).map s.groupEnd
      else if s.text i = "type" then
        some (if s.punct (s.statementEnd i) ';' then s.statementEnd i else s.statementEnd i - 1)
      else none
  else none

theorem text_of_typeEnd? {i last : Nat} (h : typeEnd? s i = some last) :
    s.text i = "type" ∨ s.text i = "interface" := by
  unfold typeEnd? at h
  split at h
  · obtain ⟨name, -, h⟩ := Option.bind_eq_some_iff.mp h
    split at h
    · exact .inr ‹_›
    split at h
    · exact .inl ‹_›
    · cases h
  · cases h

theorem erased_surfaceAt (i nameAt : Nat) :
    (surfaceAt s i nameAt).bind (·.2) =
      if s.text i = "interface" then
        (s.bodyOpen (nameAt + 1)).map fun opening => s.span (erasureStart s i) (s.groupEnd opening)
      else if s.text i = "type" then
        some (s.span (erasureStart s i)
          (if s.punct (s.statementEnd i) ';' then s.statementEnd i else s.statementEnd i - 1))
      else none := by
  unfold surfaceAt
  dsimp only
  by_cases hinterface : s.text i = "interface"
  · simp only [hinterface, String.reduceEq, ↓reduceIte, Bool.or_self, Bool.false_eq_true, decide_false]
    cases s.bodyOpen (nameAt + 1) <;> rfl
  by_cases htype : s.text i = "type"
  · simp [htype]
  · rw [if_neg hinterface, if_neg htype]
    split
    · cases s.bodyOpen (nameAt + 1) <;> rfl
    split
    · rfl
    split
    · rfl
    · rfl

theorem erased_declarationAt (i : Nat) : (declarationAt s i Outline.empty).erased =
    ((typeEnd? s i).map (s.span (erasureStart s i))).toList := by
  unfold declarationAt typeEnd?
  split
  · cases declaredName? s i with
    | none => rfl
    | some name =>
      have hspan := erased_surfaceAt (s := s) i (namePosition s i name)
      rw [Option.bind_some, apply_ite (Option.map _), apply_ite (Option.map _), Option.map_map]
      simp only [Option.map_some, Option.map_none]
      refine Eq.trans ?_ (congrArg Option.toList hspan)
      cases surfaceAt s i (namePosition s i name) <;> rfl
  · rfl

theorem erased_importAt {i next : Nat} {o : Outline}
    (h : importAt s i Outline.empty = some (o, next)) : ∀ x ∈ o.erased, x = s.span i (next - 1) := by
  unfold importAt at h
  dsimp only at h
  generalize (s.word (i + 1) "type" && !s.punct (i + 2) ',' && !s.word (i + 2) "from") = typeOnly at h
  generalize (if typeOnly = true then i + 2 else i + 1) = j at h
  split at h
  · obtain ⟨specifier, -, heq⟩ := Option.map_eq_some_iff.mp h
    cases heq
    exact fun x hx => (List.not_mem_nil hx).elim
  · obtain ⟨⟨named, k⟩, -, h⟩ := Option.bind_eq_some_iff.mp h
    dsimp only at h
    split at h
    · cases h
    · obtain ⟨specifier, -, h⟩ := Option.bind_eq_some_iff.mp h
      cases h
      cases typeOnly
      · exact fun x hx => (List.not_mem_nil hx).elim
      · exact fun x hx => List.mem_singleton.mp hx

theorem mem_erased_erase {o : Outline} {typeOnly : Bool} {x y : Span} (ho : o.erased = [])
    (h : y ∈ (o.erase typeOnly x).erased) : y = x := by
  unfold Outline.erase at h
  split at h
  · rw [ho] at h
    exact List.mem_singleton.mp h
  · rw [ho] at h
    cases h

theorem erased_exportAt {i next : Nat} {o : Outline}
    (h : exportAt s i Outline.empty = some (o, next)) : ∀ x ∈ o.erased, x = s.span i (next - 1) := by
  intro x hx
  unfold exportAt at h
  dsimp only at h
  generalize (s.word (i + 1) "type" &&
    (s.punct (i + 2) '\x7b' || s.punct (i + 2) '*')) = typeOnly at h
  generalize (if typeOnly = true then i + 2 else i + 1) = j at h
  split at h
  · unfold exportAllAt at h
    dsimp only at h
    generalize (if (s.word (j + 1) "as" && s.ident (j + 2)) = true then j + 3 else j + 1) = k at h
    split at h
    · cases h
    · obtain ⟨specifier, -, h⟩ := Option.bind_eq_some_iff.mp h
      cases h
      exact mem_erased_erase rfl hx
  split at h
  · obtain ⟨close, -, h⟩ := Option.bind_eq_some_iff.mp h
    dsimp only at h
    split at h
    · obtain ⟨specifier, -, h⟩ := Option.bind_eq_some_iff.mp h
      cases h
      exact mem_erased_erase rfl hx
    · cases h
      exact mem_erased_erase rfl hx
  split at h
  · cases h
    cases hx
  · cases h
    unfold exportDeclarationAt at hx
    dsimp only at hx
    split at hx
    · split at hx <;> cases hx
    · cases hx

theorem erased_refer (o : Outline) (i : Nat) : (o.refer s i).erased = o.erased := by
  unfold Outline.refer
  split <;> rfl

theorem mem_erased_takenAt {i : Nat} {x : Span} (h : x ∈ (takenAt s i).erased) :
    x = s.span i ((wordAt s true i Outline.empty).2 - 1) ∨
      s.statementStart i = true ∧ ∃ last, typeEnd? s i = some last ∧ x = s.span (erasureStart s i) last := by
  have hnone : ∀ i, x ∉ (Outline.empty.refer s i).erased := fun i hx => by
    rw [erased_refer] at hx
    cases hx
  unfold takenAt wordAt at h
  unfold wordAt
  dsimp only at h ⊢
  simp only [Bool.true_and] at h ⊢
  split at h
  · refine absurd ?_ (hnone i)
    rw [erased_refer] at h ⊢
    unfold dynamicImportAt at h
    split at h
    · split at h <;> exact h
    · exact h
  split at h
  · rename_i hcall hstart
    rw [if_neg hcall, if_pos hstart]
    split at h
    · rename_i himport
      rw [if_pos himport]
      cases hr : importAt s i Outline.empty with
      | none => exact absurd (by simpa [hr] using h) (hnone i)
      | some r =>
        rw [hr, Option.getD_some] at h
        exact .inl (erased_importAt hr x h)
    · rename_i himport
      split at h
      · rename_i hexport
        rw [if_neg himport, if_pos hexport]
        cases hr : exportAt s i Outline.empty with
        | none => exact absurd (by simpa [hr] using h) (hnone i)
        | some r =>
          rw [hr, Option.getD_some] at h
          exact .inl (erased_exportAt hr x h)
      · rw [erased_refer, erased_declarationAt, Option.mem_toList, Option.map_eq_some_iff] at h
        obtain ⟨last, hlast, rfl⟩ := h
        exact .inr ⟨hstart, last, hlast, rfl⟩
  · exact absurd h (hnone i)

theorem erased_takenAt {i last : Nat} (hstart : s.statementStart i = true)
    (hlast : typeEnd? s i = some last) :
    (takenAt s i).erased = [s.span (erasureStart s i) last] := by
  have htext := text_of_typeEnd? hlast
  have himport : s.text i ≠ "import" := by rintro h; simp [h] at htext
  have hexport : s.text i ≠ "export" := by rintro h; simp [h] at htext
  unfold takenAt wordAt
  simp only [himport, hexport, hstart, decide_false, Bool.false_and, Bool.false_eq_true, ↓reduceIte,
    Bool.true_and]
  rw [erased_refer, erased_declarationAt, hlast]
  rfl

/-- A type declared outside all braces, with the last token that vanishes with it. -/
structure TypeDeclaration (s : Stream) (i last : Nat) : Prop where
  top : i ∈ topWords s
  start : s.statementStart i = true
  stop : typeEnd? s i = some last

/-- The keywords of declarations that stay on emission. -/
def valueKeywords : List String := ["class", "function", "const", "let", "var", "enum", "namespace"]

/-- Where the keyword of the declaration stands that is exported at a position. -/
def keywordAt (s : Stream) (p : Nat) : Nat := s.skipWords declarationModifiers s.size (p + 1)

/-- The export of a value that is declared outside all braces. -/
structure ValueExport (s : Stream) (p : Nat) (e : Export) : Prop where
  top : p ∈ topWords s
  start : s.statementStart p = true
  word : s.word p "export" = true
  keyword : ∃ w ∈ valueKeywords, s.word (keywordAt s p) w = true
  name : declaredName? s (keywordAt s p) = some e.name
  export_eq : e = ⟨e.name, some e.name, (s.token p).span⟩

theorem skipWords_stay {words : List String} {i : Nat}
    (h : (s.ident i && words.contains (s.text i)) = false) (fuel : Nat) :
    s.skipWords words fuel i = i := by
  cases fuel with
  | zero => rfl
  | succ fuel => rw [Stream.skipWords, if_neg (by rw [h]; exact Bool.false_ne_true)]

theorem text_of_word {i : Nat} {w : String} (h : s.word i w = true) :
    s.ident i = true ∧ s.text i = w := by
  simpa [Stream.word, Token.isWord, Stream.ident, Stream.text] using h

namespace ValueExport

variable {p : Nat} {e : Export}

theorem takenAt (h : ValueExport s p e) : Script.takenAt s p = exportDeclarationAt s p (p + 1) Outline.empty := by
  obtain ⟨w, hw, hkeyword⟩ := h.keyword
  obtain ⟨hident, htext⟩ := text_of_word hkeyword
  have hexport : s.text p = "export" := (text_of_word h.word).2
  -- a word that is no modifier stands where the keyword does
  have hstay : ∀ {v : String}, declarationModifiers.contains v = false → v ∉ valueKeywords →
      s.word (p + 1) v = false := by
    intro v hv hnot
    refine Bool.eq_false_iff.mpr fun hword => hnot ?_
    have hk : keywordAt s p = p + 1 := skipWords_stay (by rw [(text_of_word hword).2, hv, Bool.and_false]) _
    rw [hk, (text_of_word hword).2] at htext
    rwa [htext]
  have hmark : ∀ mark, s.punct (p + 1) mark = false := by
    intro mark
    refine Bool.eq_false_iff.mpr fun hpunct => ?_
    have hother : s.ident (p + 1) = false := by
      simp only [Stream.punct, Token.isPunct, decide_eq_true_eq] at hpunct
      simp [Stream.ident, hpunct]
    have hk : keywordAt s p = p + 1 := skipWords_stay (by rw [hother, Bool.false_and]) _
    rw [hk, hother] at hident
    cases hident
  unfold Script.takenAt wordAt exportAt
  simp only [hexport, h.start, String.reduceEq, decide_false, Bool.false_and, Bool.false_eq_true,
    ↓reduceIte, Bool.true_and, hstay (v := "type") (by decide) (by decide),
    hstay (v := "default") (by decide) (by decide), hmark, Option.getD_some]

theorem mem_exports (h : ValueExport s p e) : e ∈ (outlineOf s).exports := by
  obtain ⟨w, hw, hkeyword⟩ := h.keyword
  refine Script.mem_exports.mpr ⟨p, h.top, ?_⟩
  have hknown : declarationKeywords.contains w = true := by
    simp only [valueKeywords, List.mem_cons, List.not_mem_nil, or_false] at hw
    rcases hw with rfl | rfl | rfl | rfl | rfl | rfl | rfl <;> decide
  rw [h.takenAt, exportDeclarationAt]
  rw [← keywordAt, (text_of_word hkeyword).2, if_pos hknown, h.name, h.export_eq]
  exact List.mem_singleton.mpr rfl

theorem erased_takenAt (h : ValueExport s p e) : (Script.takenAt s p).erased = [] := by
  rw [h.takenAt, exportDeclarationAt]
  split
  · split <;> rfl
  · rfl

end ValueExport

theorem word_of_erasureStart_le {i j : Nat} (h : erasureStart s i ≤ j) (hj : j < i) :
    s.text j = "export" ∨ s.text j = "declare" := by
  induction i with
  | zero => exact absurd hj (Nat.not_lt_zero _)
  | succ i ih =>
    rw [erasureStart] at h
    split at h
    · rename_i hword
      rcases Nat.lt_succ_iff_lt_or_eq.mp hj with hj | rfl
      · exact ih h hj
      · rcases Bool.or_eq_true_iff.mp hword with hword | hword
        · exact .inl (text_of_word hword).2
        · exact .inr (text_of_word hword).2
    · omega

theorem text_skipWords_of_type {i last : Nat} (h : typeEnd? s i = some last) (fuel : Nat) : ∀ {j : Nat},
    erasureStart s i ≤ j → j ≤ i →
      s.text (s.skipWords declarationModifiers fuel j) ∈ ["export", "declare", "type", "interface"] := by
  have htype : s.text i ∈ ["export", "declare", "type", "interface"] := by
    rcases text_of_typeEnd? h with h | h <;> simp [h]
  have hnot : declarationModifiers.contains (s.text i) = false := by
    rcases text_of_typeEnd? h with h | h <;> rw [h] <;> decide
  have hbefore : ∀ {j}, erasureStart s i ≤ j → j < i →
      s.text j ∈ ["export", "declare", "type", "interface"] := by
    intro j hle hlt
    rcases word_of_erasureStart_le hle hlt with h | h <;> simp [h]
  induction fuel with
  | zero =>
    intro j hle hj
    rcases Nat.eq_or_lt_of_le hj with rfl | hlt
    · exact htype
    · exact hbefore hle hlt
  | succ fuel ih =>
    intro j hle hj
    rcases Nat.eq_or_lt_of_le hj with rfl | hlt
    · rw [skipWords_stay (by rw [hnot, Bool.and_false])]
      exact htype
    · rw [Stream.skipWords]
      split
      · exact ih (Nat.le_succ_of_le hle) hlt
      · exact hbefore hle hlt

theorem ValueExport.lt_erasureStart {p i last : Nat} {e : Export} (h : ValueExport s p e)
    (hlast : typeEnd? s i = some last) (hlt : p < i) : p < erasureStart s i := by
  refine Nat.lt_of_not_le fun hle => ?_
  obtain ⟨w, hw, hkeyword⟩ := h.keyword
  have hmem := text_skipWords_of_type hlast s.size (Nat.le_succ_of_le hle) (Nat.succ_le_of_lt hlt)
  rw [← keywordAt, (text_of_word hkeyword).2] at hmem
  simp only [valueKeywords, List.mem_cons, List.not_mem_nil, or_false] at hw
  rcases hw with rfl | rfl | rfl | rfl | rfl | rfl | rfl <;> simp at hmem

/-- A value that a text exports is recorded, and its export vanishes exactly when a type that is
declared before it has not ended yet. -/
theorem value_export_erased_iff (id : FileId) (text : String) {p : Nat} {e : Export}
    (h : ValueExport (streamOf id text) p e) :
    e ∈ (analyze id (scan id text)).exports ∧
      ((∃ x ∈ (analyze id (scan id text)).erased, e.span.Inside x) ↔
        ∃ i last, TypeDeclaration (streamOf id text) i last ∧ i < p ∧ p ≤ last) := by
  rw [show analyze id (scan id text) = outlineOf (streamOf id text) from rfl]
  refine ⟨h.mem_exports, ?_⟩
  have hs : (streamOf id text).Ordered := ordered_streamOf id text
  obtain ⟨hident, htext⟩ := text_of_word h.word
  have hinside := inside_span_iff hident (by rw [Stream.text] at htext; simp [htext])
  have hspan : e.span = ((streamOf id text).token p).span := congrArg Export.span h.export_eq
  rw [hspan]
  constructor
  · rintro ⟨x, hx, hin⟩
    obtain ⟨i, hi, hx⟩ := mem_erased.mp hx
    have hne : i ≠ p := by
      rintro rfl
      rw [h.erased_takenAt] at hx
      cases hx
    rcases mem_erased_takenAt hx with rfl | ⟨hstart, last, hlast, rfl⟩
    · -- nothing is looked at between the words of a statement that vanishes by itself
      obtain ⟨hle, hle'⟩ := (hinside _ _).mp hin
      have hnext := next_le_of_mem_topWordsFrom hs (Nat.lt_of_le_of_ne hle hne) _ hi h.top
      have hpos := (wordAt_placed hs true i Outline.empty).1
      omega
    · obtain ⟨hle, hle'⟩ := (hinside _ _).mp hin
      refine ⟨i, last, ⟨hi, hstart, hlast⟩, ?_, hle'⟩
      refine Nat.lt_of_not_le fun hpi => ?_
      have := h.lt_erasureStart hlast (Nat.lt_of_le_of_ne hpi (Ne.symm hne))
      omega
  · rintro ⟨i, last, htype, hlt, hle⟩
    refine ⟨(streamOf id text).span (erasureStart (streamOf id text) i) last,
      mem_erased.mpr ⟨i, htype.top, ?_⟩, (hinside _ _).mpr ⟨?_, hle⟩⟩
    · rw [erased_takenAt htype.start htype.stop]
      exact List.mem_singleton.mpr rfl
    · exact Nat.le_trans (erasureStart_le _ i) (Nat.le_of_lt hlt)

set_option maxRecDepth 100000

theorem value_export_erased_iff_endedAlias :
    let s := streamOf 0 "type T = string;\nexport const x = 1;"
    let o := analyze 0 (scan 0 "type T = string;\nexport const x = 1;")
    ValueExport s 5 ⟨"x", some "x", ⟨0, 17, 23⟩⟩ ∧ ⟨"x", some "x", ⟨0, 17, 23⟩⟩ ∈ o.exports ∧
      ((∃ x ∈ o.erased, Span.Inside ⟨0, 17, 23⟩ x) ↔
        ∃ i last, TypeDeclaration s i last ∧ i < 5 ∧ 5 ≤ last) := by
  have h : ValueExport (streamOf 0 "type T = string;\nexport const x = 1;") 5
      ⟨"x", some "x", ⟨0, 17, 23⟩⟩ :=
    ⟨by decide, by decide, by decide, ⟨"const", by decide, by decide⟩,
      by decide, by decide⟩
  exact ⟨h, value_export_erased_iff 0 _ h⟩

/-- A type without a semicolon takes the value exported after it along. -/
theorem export_erased_behind_alias :
    let source := "type T = string\nexport const x = 1;"
    faults (scan 0 source) = [] ∧ ValueExport (streamOf 0 source) 4 ⟨"x", some "x", ⟨0, 16, 22⟩⟩ ∧
      ⟨"x", some "x", ⟨0, 16, 22⟩⟩ ∈ (analyze 0 (scan 0 source)).exports ∧
      ⟨0, 0, 35⟩ ∈ (analyze 0 (scan 0 source)).erased ∧ Span.Inside ⟨0, 16, 22⟩ ⟨0, 0, 35⟩ := by
  refine ⟨by decide, ⟨by decide, by decide, by decide,
    ⟨"const", by decide, by decide⟩, by decide, by decide⟩,
    by decide, by decide, ⟨by decide, by decide⟩⟩

end Script

end Recompile
