import Recompile.Script.Analysis

/-!
The spans of an outline: those that findings point at are spans of single tokens, and those that
vanish or are replaced on emission are stretches of tokens, the value of a `styles` property apart
that has none.
-/

namespace Recompile.Script

namespace Stream

def IsToken (s : Stream) (x : Span) : Prop := ∃ i, x = (s.token i).span

def IsLiteral (s : Stream) (x : Span) (value : String) : Prop :=
  ∃ i, x = (s.token i).span ∧ s.literal? i = some value

def IsEdge (s : Stream) (n : Nat) : Prop :=
  ∃ i, n = (s.token i).span.start ∨ n = (s.token i).span.stop

/-- A span that starts and ends at edges of tokens. -/
def IsRange (s : Stream) (x : Span) : Prop := s.IsEdge x.start ∧ s.IsEdge x.stop

theorem isToken_token (s : Stream) (i : Nat) : s.IsToken (s.token i).span := ⟨i, rfl⟩

theorem isRange_span (s : Stream) (first last : Nat) : s.IsRange (s.span first last) :=
  ⟨⟨first, .inl rfl⟩, ⟨last, .inr rfl⟩⟩

inductive IsStretch (s : Stream) : Span → Prop where
  | through {first last : Nat} (le : first ≤ last) : IsStretch s (s.span first last)
  | upTo {first next : Nat} (le : first ≤ next) :
      IsStretch s ⟨s.file, (s.token first).span.start, (s.token next).span.start⟩

theorem IsStretch.isRange {s : Stream} {x : Span} (h : s.IsStretch x) : s.IsRange x := by
  cases h with
  | through => exact s.isRange_span _ _
  | upTo => exact ⟨⟨_, .inl rfl⟩, ⟨_, .inl rfl⟩⟩

/-- A `styles` property with no value: the token behind its colon ends it. -/
def MissingStyles (s : Stream) (k : Nat) : Prop :=
  propertyKey? s k = some "styles" ∧ s.punct (k + 1) ':' = true ∧
    (s.punct (k + 2) ',' = true ∨ s.punct (k + 2) '\x7d' = true)

def IsMissingStyles (s : Stream) (x : Span) : Prop :=
  ∃ k, s.MissingStyles k ∧ x = s.span (k + 2) (k + 1)

theorem IsMissingStyles.isRange {s : Stream} {x : Span} (h : s.IsMissingStyles x) : s.IsRange x := by
  obtain ⟨k, -, rfl⟩ := h
  exact s.isRange_span _ _

def IsRun (s : Stream) (x : Span) : Prop := s.IsToken x ∨ s.IsStretch x

theorem IsRun.isRange {s : Stream} {x : Span} (h : s.IsRun x) : s.IsRange x := by
  rcases h with ⟨i, rfl⟩ | h
  · exact ⟨⟨i, .inl rfl⟩, ⟨i, .inr rfl⟩⟩
  · exact h.isRange

def Ordered (s : Stream) : Prop := ∀ {i j}, s.partner? i = some j → i < j

def Braced (s : Stream) : Prop :=
  ∀ {i j}, s.partner? i = some j → s.punct i '\x7b' = true → s.punct j '\x7d' = true

theorem size_pos_of_kind {s : Stream} (i : Nat) (h : (s.token i).kind ≠ .eof) : 0 < s.size := by
  refine Nat.pos_of_ne_zero fun hzero => h ?_
  have hnone : s.tokens[min i (s.size - 1)]? = none := Array.getElem?_eq_none (by
    rw [Stream.size] at hzero
    omega)
  rw [Stream.token, hnone]
  rfl

theorem Ordered.le_groupEnd {s : Stream} (hs : s.Ordered) (i : Nat) : i ≤ s.groupEnd i := by
  unfold groupEnd
  cases h : s.partner? i with
  | none => exact Nat.le_refl i
  | some close => exact Nat.le_of_lt (hs h)

theorem Ordered.le_bodyOpenFrom {s : Stream} (hs : s.Ordered) (fuel : Nat) : ∀ {i opening : Nat},
    s.bodyOpenFrom fuel i = some opening → i ≤ opening := by
  induction fuel with
  | zero => exact fun h => by cases h
  | succ fuel ih =>
    intro i opening h
    rw [bodyOpenFrom] at h
    split at h
    · cases h
    split at h
    · cases h
      exact Nat.le_refl i
    split at h
    · obtain ⟨close, hclose, h⟩ := Option.bind_eq_some_iff.mp h
      have := hs hclose
      have := ih h
      omega
    split at h
    · obtain ⟨close, hclose, h⟩ := Option.bind_eq_some_iff.mp h
      have := hs hclose
      have := ih h
      omega
    · have := ih h
      omega

theorem Ordered.le_statementEndFrom {s : Stream} (hs : s.Ordered) (fuel : Nat) : ∀ i,
    i ≤ s.statementEndFrom fuel i + 1 := by
  induction fuel with
  | zero => exact fun i => Nat.le_succ i
  | succ fuel ih =>
    intro i
    rw [statementEndFrom]
    split
    · exact Nat.le_succ i
    split
    · rename_i close hclose
      have := hs hclose
      have := ih (close + 1)
      omega
    split
    · omega
    · have := ih (i + 1)
      omega

theorem statementEndFrom_ident {s : Stream} (fuel : Nat) {i : Nat} (hident : s.ident i = true) :
    s.statementEndFrom (fuel + 1) i = s.statementEndFrom fuel (s.groupEnd i + 1) := by
  have hkind : (s.token i).kind = .ident := by simpa [ident] using hident
  rw [statementEndFrom]
  simp only [atEnd, punct, Token.isPunct, oneOf, Token.isOneOf, hkind, decide_false, Bool.or_self,
    Bool.false_eq_true, ↓reduceIte, reduceCtorEq, groupEnd]
  cases s.partner? i <;> rfl

theorem Ordered.lt_statementEnd {s : Stream} (hs : s.Ordered) {i : Nat} (hident : s.ident i = true)
    (hnext : s.ident (i + 1) = true) : i < s.statementEnd i := by
  have hsize : 0 < s.size := size_pos_of_kind i fun heof => by simp [ident, heof] at hident
  obtain ⟨fuel, hfuel⟩ := Nat.exists_eq_succ_of_ne_zero (Nat.ne_of_gt hsize)
  rw [statementEnd, hfuel, statementEndFrom_ident fuel hident]
  rcases Nat.eq_or_lt_of_le (hs.le_groupEnd i) with heq | hlt
  · rw [← heq]
    cases fuel with
    | zero => exact Nat.lt_succ_self i
    | succ fuel =>
      rw [statementEndFrom_ident fuel hnext]
      have := hs.le_groupEnd (i + 1)
      have := hs.le_statementEndFrom fuel (s.groupEnd (i + 1) + 1)
      omega
  · have := hs.le_statementEndFrom fuel (s.groupEnd i + 1)
    omega

theorem le_skipComma (s : Stream) (i : Nat) : i ≤ s.skipComma i := by
  unfold skipComma
  split <;> omega

theorem le_skipSemicolon (s : Stream) (i : Nat) : i ≤ s.skipSemicolon i := by
  unfold skipSemicolon
  split <;> omega

end Stream

variable {s : Stream}

theorem namedImports_spans (typeOnly : Bool) (close fuel : Nat) : ∀ {k : Nat},
    ∀ b ∈ namedImports s typeOnly close fuel k, s.IsToken b.span := by
  induction fuel with
  | zero => exact fun b hb => by simp [namedImports] at hb
  | succ fuel ih =>
    intro k b hb
    rw [namedImports] at hb
    split at hb
    · cases hb
    · dsimp only at hb
      generalize (if s.typeMark k = true then k + 1 else k) = k' at hb
      split at hb
      · exact ih b hb
      · rcases List.mem_cons.mp hb with rfl | hb
        · split <;> exact s.isToken_token _
        · exact ih b hb

theorem defaultImport_spans (typeOnly : Bool) (j : Nat) : j ≤ (defaultImport s typeOnly j).2 ∧
    ∀ b ∈ (defaultImport s typeOnly j).1, s.IsToken b.span := by
  unfold defaultImport
  split
  · have := s.le_skipComma (j + 1)
    exact ⟨by dsimp only; omega, fun b hb => by
      rw [List.mem_singleton.mp hb]
      exact s.isToken_token _⟩
  · exact ⟨Nat.le_refl j, fun b hb => by cases hb⟩

theorem namespaceImport_spans (typeOnly : Bool) (j : Nat) : j ≤ (namespaceImport s typeOnly j).2 ∧
    ∀ b ∈ (namespaceImport s typeOnly j).1, s.IsToken b.span := by
  unfold namespaceImport
  split
  · exact ⟨by dsimp only; omega, fun b hb => by
      rw [List.mem_singleton.mp hb]
      exact s.isToken_token _⟩
  · exact ⟨Nat.le_refl j, fun b hb => by cases hb⟩

theorem bracedImports_spans (hs : s.Ordered) {typeOnly : Bool} {j next : Nat}
    {named : List ImportBinding} (h : bracedImports s typeOnly j = some (named, next)) :
    j ≤ next ∧ ∀ b ∈ named, s.IsToken b.span := by
  unfold bracedImports at h
  split at h
  · obtain ⟨close, hclose, heq⟩ := Option.map_eq_some_iff.mp h
    cases heq
    have := hs hclose
    exact ⟨by omega, namedImports_spans typeOnly close _⟩
  · cases h
    exact ⟨Nat.le_refl j, fun b hb => by cases hb⟩

theorem listedExports_spans (close fuel : Nat) : ∀ {k : Nat},
    ∀ n ∈ listedExports s close fuel k, s.IsToken n.span := by
  induction fuel with
  | zero => exact fun n hn => by simp [listedExports] at hn
  | succ fuel ih =>
    intro k n hn
    rw [listedExports] at hn
    split at hn
    · cases hn
    · dsimp only at hn
      generalize (if s.typeMark k = true then k + 1 else k) = k' at hn
      split at hn
      · exact ih n hn
      · rcases List.mem_cons.mp hn with rfl | hn
        · exact s.isToken_token _
        · exact ih n hn

def Import.spans (i : Import) : List Span := i.span :: i.specifierSpan :: i.bindings.map (·.span)

def Reexport.spans (r : Reexport) : List Span := r.specifierSpan :: (r.names.getD []).map (·.span)

def TemplateSource.spans : TemplateSource → List Span
  | .inline _ literal => [literal]
  | .external _ literal property => [literal, property]

def Metadata.spans (m : Metadata) : List Span :=
  (m.template.map TemplateSource.spans).getD [] ++ m.styleUrls.map (·.literal) ++
    m.styleUrlsProperty.toList ++ m.styleUrlsRemoval.toList ++ m.inlineStyles.map (·.literal) ++
    m.stylesValue.toList

def Component.spans (c : Component) : List Span := c.classSpan :: c.toMetadata.spans

def Outline.spans (o : Outline) : List Span :=
  o.imports.flatMap (·.spans) ++ o.dynamicImports.map (·.specifierSpan) ++ o.exports.map (·.span) ++
    o.reexports.flatMap (·.spans) ++ o.components.flatMap (·.spans) ++ o.erased

structure Metadata.Placed (s : Stream) (m : Metadata) : Prop where
  template : ∀ {url literal property}, m.template = some (.external url literal property) →
    s.IsToken literal ∧ s.IsStretch property
  inlineTemplate : ∀ {text literal}, m.template = some (.inline text literal) → s.IsLiteral literal text
  styleUrls : ∀ u ∈ m.styleUrls, s.IsToken u.literal
  styleUrlsProperty : ∀ {x}, m.styleUrlsProperty = some x → s.IsStretch x
  styleUrlsRemoval : ∀ {x}, m.styleUrlsRemoval = some x → s.IsStretch x
  inlineStyles : ∀ i ∈ m.inlineStyles, s.IsToken i.literal
  stylesValue : ∀ {x}, m.stylesValue = some x → s.IsStretch x ∨ s.IsMissingStyles x

structure Outline.Placed (s : Stream) (o : Outline) : Prop where
  imports : ∀ i ∈ o.imports, s.IsToken i.specifierSpan ∧ ∀ b ∈ i.bindings, s.IsToken b.span
  declarations : ∀ i ∈ o.imports, s.IsStretch i.span
  dynamicImports : ∀ d ∈ o.dynamicImports, s.IsToken d.specifierSpan
  exports : ∀ e ∈ o.exports, s.IsToken e.span
  reexports : ∀ r ∈ o.reexports, s.IsToken r.specifierSpan ∧
    ∀ n ∈ r.names.getD [], s.IsToken n.span
  components : ∀ c ∈ o.components, c.toMetadata.Placed s
  classes : ∀ c ∈ o.components, s.IsToken c.classSpan
  erased : ∀ x ∈ o.erased, s.IsStretch x

theorem Metadata.Placed.cases_spans {m : Metadata} (h : m.Placed s) {x : Span} (hx : x ∈ m.spans) :
    s.IsRun x ∨ m.stylesValue = some x ∧ s.IsMissingStyles x := by
  simp only [Metadata.spans, List.mem_append, List.mem_map, Option.mem_toList] at hx
  rcases hx with ((((htemplate | hurl) | hproperty) | hremoval) | hinline) | hvalue
  · cases hsource : m.template with
    | none =>
      rw [hsource] at htemplate
      cases htemplate
    | some source =>
      rw [hsource] at htemplate
      cases source with
      | inline text literal =>
        obtain ⟨i, hi, -⟩ := h.inlineTemplate hsource
        rw [List.mem_singleton.mp htemplate]
        exact .inl (.inl ⟨i, hi⟩)
      | external url literal property =>
        obtain ⟨hliteral, hproperty⟩ := h.template hsource
        rcases List.mem_cons.mp htemplate with rfl | htemplate
        · exact .inl (.inl hliteral)
        · rw [List.mem_singleton.mp htemplate]
          exact .inl (.inr hproperty)
  · obtain ⟨u, hu, rfl⟩ := hurl
    exact .inl (.inl (h.styleUrls u hu))
  · exact .inl (.inr (h.styleUrlsProperty hproperty))
  · exact .inl (.inr (h.styleUrlsRemoval hremoval))
  · obtain ⟨i, hi, rfl⟩ := hinline
    exact .inl (.inl (h.inlineStyles i hi))
  · rcases h.stylesValue hvalue with hstretch | hmissing
    · exact .inl (.inr hstretch)
    · exact .inr ⟨hvalue, hmissing⟩

theorem Outline.Placed.cases_spans {o : Outline} (h : o.Placed s) {x : Span} (hx : x ∈ o.spans) :
    s.IsRun x ∨ (∃ c ∈ o.components, c.stylesValue = some x) ∧ s.IsMissingStyles x := by
  simp only [Outline.spans, List.mem_append, List.mem_flatMap, List.mem_map] at hx
  rcases hx with ((((himport | hdynamic) | hexport) | hreexport) | hcomponent) | herased
  · obtain ⟨i, hi, hx⟩ := himport
    simp only [Import.spans, List.mem_cons, List.mem_map] at hx
    rcases hx with rfl | rfl | ⟨b, hb, rfl⟩
    · exact .inl (.inr (h.declarations i hi))
    · exact .inl (.inl (h.imports i hi).1)
    · exact .inl (.inl ((h.imports i hi).2 b hb))
  · obtain ⟨d, hd, rfl⟩ := hdynamic
    exact .inl (.inl (h.dynamicImports d hd))
  · obtain ⟨e, he, rfl⟩ := hexport
    exact .inl (.inl (h.exports e he))
  · obtain ⟨r, hr, hx⟩ := hreexport
    simp only [Reexport.spans, List.mem_cons, List.mem_map] at hx
    rcases hx with rfl | ⟨n, hn, rfl⟩
    · exact .inl (.inl (h.reexports r hr).1)
    · exact .inl (.inl ((h.reexports r hr).2 n hn))
  · obtain ⟨c, hc, hx⟩ := hcomponent
    rcases List.mem_cons.mp hx with rfl | hx
    · exact .inl (.inl (h.classes c hc))
    · rcases (h.components c hc).cases_spans hx with hrun | ⟨hvalue, hmissing⟩
      · exact .inl hrun
      · exact .inr ⟨⟨c, hc, hvalue⟩, hmissing⟩
  · exact .inl (.inr (h.erased x herased))

theorem forall_mem_concat {α : Type} {P : α → Prop} {xs : List α} {a : α} (h : ∀ x ∈ xs, P x)
    (ha : P a) : ∀ x ∈ xs ++ [a], P x := by
  intro x hx
  rcases List.mem_append.mp hx with hx | hx
  · exact h x hx
  · rw [List.mem_singleton.mp hx]
    exact ha

namespace Outline.Placed

variable {o : Outline}

theorem empty (s : Stream) : Outline.empty.Placed s :=
  ⟨fun _ h => (List.not_mem_nil h).elim, fun _ h => (List.not_mem_nil h).elim,
    fun _ h => (List.not_mem_nil h).elim, fun _ h => (List.not_mem_nil h).elim,
    fun _ h => (List.not_mem_nil h).elim, fun _ h => (List.not_mem_nil h).elim,
    fun _ h => (List.not_mem_nil h).elim, fun _ h => (List.not_mem_nil h).elim⟩

theorem addImport (h : o.Placed s) {decl : Import} (hspecifier : s.IsToken decl.specifierSpan)
    (hbindings : ∀ b ∈ decl.bindings, s.IsToken b.span) (hspan : s.IsStretch decl.span) :
    { o with imports := o.imports ++ [decl] }.Placed s :=
  { h with
    imports := forall_mem_concat h.imports ⟨hspecifier, hbindings⟩
    declarations := forall_mem_concat h.declarations hspan }

theorem addExport (h : o.Placed s) {e : Export} (hspan : s.IsToken e.span) :
    { o with exports := o.exports ++ [e] }.Placed s :=
  { h with exports := forall_mem_concat h.exports hspan }

theorem addReexport (h : o.Placed s) {decl : Reexport} (hspecifier : s.IsToken decl.specifierSpan)
    (hnames : ∀ n ∈ decl.names.getD [], s.IsToken n.span) :
    { o with reexports := o.reexports ++ [decl] }.Placed s :=
  { h with reexports := forall_mem_concat h.reexports ⟨hspecifier, hnames⟩ }

theorem erase (h : o.Placed s) (typeOnly : Bool) {first last : Nat} (hle : first ≤ last) :
    (o.erase typeOnly (s.span first last)).Placed s := by
  unfold Outline.erase
  split
  · exact { h with erased := forall_mem_concat h.erased (.through hle) }
  · exact h

theorem exportNames (h : o.Placed s) {names : List ReexportName} (hnames : ∀ n ∈ names, s.IsToken n.span) :
    (o.exportNames names).Placed s := by
  refine { h with exports := fun e he => ?_ }
  rcases List.mem_append.mp he with he | he
  · exact h.exports e he
  · obtain ⟨n, hn, rfl⟩ := List.mem_map.mp he
    exact hnames n hn

theorem refer (h : o.Placed s) (i : Nat) : (o.refer s i).Placed s := by
  unfold Outline.refer
  split
  · exact h
  · exact { h with }

end Outline.Placed

theorem importAt_placed (hs : s.Ordered) {start next : Nat} {o o' : Outline}
    (h : importAt s start o = some (o', next)) : start < next ∧ (o.Placed s → o'.Placed s) := by
  unfold importAt at h
  dsimp only at h
  generalize (s.word (start + 1) "type" && !s.punct (start + 2) ',' &&
    !s.word (start + 2) "from") = typeOnly at h
  generalize hj : (if typeOnly = true then start + 2 else start + 1) = j at h
  have hstart : start < j := by
    subst hj
    split <;> omega
  split at h
  · obtain ⟨specifier, -, heq⟩ := Option.map_eq_some_iff.mp h
    cases heq
    have := s.le_skipSemicolon (j + 1)
    exact ⟨by omega, fun ho => ho.addImport (s.isToken_token j)
      (fun b hb => (List.not_mem_nil hb).elim) (.through (by omega))⟩
  · obtain ⟨hle, hfirst⟩ := defaultImport_spans (s := s) typeOnly j
    obtain ⟨hle', hwhole⟩ := namespaceImport_spans (s := s) typeOnly (defaultImport s typeOnly j).2
    obtain ⟨⟨named, k⟩, hnamed, h⟩ := Option.bind_eq_some_iff.mp h
    obtain ⟨hle'', hspans⟩ := bracedImports_spans hs hnamed
    dsimp only at h
    split at h
    · cases h
    · obtain ⟨specifier, -, h⟩ := Option.bind_eq_some_iff.mp h
      cases h
      have := s.le_skipSemicolon (k + 2)
      have hle : start ≤ s.skipSemicolon (k + 2) - 1 := by omega
      refine ⟨by omega, fun ho => ?_⟩
      have hadded := @Outline.Placed.addImport _ _ ho ⟨specifier, (s.token (k + 1)).span,
        (defaultImport s typeOnly j).1 ++ (namespaceImport s typeOnly (defaultImport s typeOnly j).2).1 ++
          named, typeOnly, s.span start (s.skipSemicolon (k + 2) - 1)⟩ (s.isToken_token _) (by
        intro b hb
        rcases List.mem_append.mp hb with hb | hb
        · exact (List.mem_append.mp hb).elim (hfirst b) (hwhole b)
        · exact hspans b hb) (.through hle)
      have herased := hadded.erase typeOnly hle
      cases typeOnly <;> exact herased

theorem exportAllAt_placed {start j next : Nat} (hstart : start < j) {typeOnly : Bool} {o o' : Outline}
    (h : exportAllAt s start j typeOnly o = some (o', next)) :
    j < next ∧ (o.Placed s → o'.Placed s) := by
  unfold exportAllAt at h
  dsimp only at h
  generalize hk : (if (s.word (j + 1) "as" && s.ident (j + 2)) = true then j + 3 else j + 1) = k at h
  have hj : j < k := by
    subst hk
    split <;> omega
  split at h
  · cases h
  · obtain ⟨specifier, -, h⟩ := Option.bind_eq_some_iff.mp h
    cases h
    have := s.le_skipSemicolon (k + 2)
    refine ⟨by omega, fun ho => (ho.erase typeOnly (by omega)).addReexport (s.isToken_token _) ?_⟩
    intro n hn
    dsimp only at hn
    split at hn
    · rw [List.mem_singleton.mp hn]
      exact s.isToken_token _
    · exact (List.not_mem_nil hn).elim

theorem exportListAt_placed (hs : s.Ordered) {start j next : Nat} (hstart : start < j) {typeOnly : Bool}
    {o o' : Outline} (h : exportListAt s start j typeOnly o = some (o', next)) :
    j < next ∧ (o.Placed s → o'.Placed s) := by
  obtain ⟨close, hclose, h⟩ := Option.bind_eq_some_iff.mp h
  have hlt := hs hclose
  dsimp only at h
  split at h
  · obtain ⟨specifier, -, h⟩ := Option.bind_eq_some_iff.mp h
    cases h
    have := s.le_skipSemicolon (close + 1 + 2)
    refine ⟨by omega, fun ho =>
      Outline.Placed.erase (ho.addReexport (s.isToken_token _) ?_) typeOnly (by omega)⟩
    exact listedExports_spans close _
  · cases h
    have := s.le_skipSemicolon (close + 1)
    exact ⟨by omega, fun ho => (ho.exportNames (listedExports_spans close _)).erase typeOnly (by omega)⟩

theorem exportAt_placed (hs : s.Ordered) {start next : Nat} {o o' : Outline}
    (h : exportAt s start o = some (o', next)) : start < next ∧ (o.Placed s → o'.Placed s) := by
  unfold exportAt at h
  dsimp only at h
  generalize (s.word (start + 1) "type" &&
    (s.punct (start + 2) '\x7b' || s.punct (start + 2) '*')) = typeOnly at h
  generalize hj : (if typeOnly = true then start + 2 else start + 1) = j at h
  have hstart : start < j := by
    subst hj
    split <;> omega
  split at h
  · obtain ⟨hlt, hplaced⟩ := exportAllAt_placed hstart h
    exact ⟨by omega, hplaced⟩
  split at h
  · obtain ⟨hlt, hplaced⟩ := exportListAt_placed hs hstart h
    exact ⟨by omega, hplaced⟩
  split at h
  · cases h
    exact ⟨by omega, fun ho => ho.addExport (s.isToken_token _)⟩
  · cases h
    refine ⟨hstart, fun ho => ?_⟩
    unfold exportDeclarationAt
    dsimp only
    split
    · split
      · exact ho.addExport (s.isToken_token _)
      · exact ho
    · exact ho

theorem erasureStart_le (s : Stream) (i : Nat) : erasureStart s i ≤ i := by
  induction i with
  | zero => exact Nat.le_refl 0
  | succ i ih =>
    rw [erasureStart]
    split
    · exact Nat.le_succ_of_le ih
    · exact Nat.le_refl _

theorem lt_namePosition (s : Stream) (i : Nat) (name : String) : i < namePosition s i name := by
  unfold namePosition
  split
  · omega
  · split <;> omega

theorem surfaceAt_spans (hs : s.Ordered) {i nameAt : Nat} (hident : s.ident i = true)
    (hstarts : startsDeclaration s i = true) (hname : i < nameAt) {surface : String} {x : Span}
    (h : surfaceAt s i nameAt = some (surface, some x)) : s.IsStretch x := by
  have hfirst := erasureStart_le s i
  unfold surfaceAt at h
  dsimp only at h
  split at h
  · obtain ⟨_, -, heq⟩ := Option.map_eq_some_iff.mp h
    simp at heq
  split at h
  · simp at h
  split at h
  · simp at h
  split at h
  · obtain ⟨opening, hopening, heq⟩ := Option.map_eq_some_iff.mp h
    cases heq
    have := hs.le_bodyOpenFrom _ hopening
    have := hs.le_groupEnd opening
    exact .through (by omega)
  split at h
  · rename_i htype
    cases h
    have hnext : s.ident (i + 1) = true := by
      rw [startsDeclaration, htype, if_neg (by decide), if_pos rfl] at hstarts
      exact (Bool.and_eq_true_iff.mp hstarts).1
    have hlt := hs.lt_statementEnd hident hnext
    refine .through ?_
    split <;> omega
  · simp at h

theorem declarationAt_placed (hs : s.Ordered) {i : Nat} (hident : s.ident i = true) {o : Outline}
    (ho : o.Placed s) : (declarationAt s i o).Placed s := by
  unfold declarationAt
  split
  · rename_i hstarts
    split
    · exact ho
    · split
      · exact ho
      · rename_i surface erased hsurface
        refine { ho with erased := ?_ }
        cases erased with
        | none =>
          intro x hx
          exact ho.erased x (by simpa using hx)
        | some y =>
          exact forall_mem_concat ho.erased
            (surfaceAt_spans hs hident hstarts (lt_namePosition s i _) hsurface)
  · exact ho

theorem literalsBetween_spans {first stop : Nat} {keep : Token → Bool} :
    ∀ l ∈ literalsBetween s first stop keep, s.IsToken l.2 := by
  intro l hl
  obtain ⟨t, ht, heq⟩ := List.mem_filterMap.mp hl
  obtain ⟨k, -, rfl⟩ := List.mem_map.mp ht
  split at heq
  · obtain ⟨text, -, rfl⟩ := Option.map_eq_some_iff.mp heq
    exact s.isToken_token _
  · cases heq

theorem le_valueEndFrom (hs : s.Ordered) (close fuel : Nat) : ∀ i, i ≤ valueEndFrom s close fuel i := by
  induction fuel with
  | zero => exact fun i => Nat.le_refl i
  | succ fuel ih =>
    intro i
    rw [valueEndFrom]
    split
    · exact Nat.le_refl i
    · have := hs.le_groupEnd i
      have := ih (s.groupEnd i + 1)
      omega

theorem valueEnd_bounds (hs : s.Ordered) {close i : Nat} (hclose : s.punct close '\x7d' = true)
    (hle : i ≤ close) : i ≤ valueEnd s close i ∧
      (valueEnd s close i = i → s.punct i ',' = true ∨ s.punct i '\x7d' = true) := by
  have hfirst := le_valueEndFrom hs close s.size i
  refine ⟨by unfold valueEnd; omega, fun heq => ?_⟩
  rcases Nat.eq_or_lt_of_le hle with rfl | hlt
  · exact .inr hclose
  have hsize : 0 < s.size := Stream.size_pos_of_kind close fun heof => by
    simp [Stream.punct, Token.isPunct, heof] at hclose
  obtain ⟨fuel, hfuel⟩ := Nat.exists_eq_succ_of_ne_zero (Nat.ne_of_gt hsize)
  rw [valueEnd, hfuel, valueEndFrom] at heq
  split at heq
  · rename_i hstop
    exact .inl ((Bool.or_eq_true_iff.mp hstop).resolve_left fun hbeyond => by
      simp only [decide_eq_true_eq] at hbeyond
      omega)
  · have := hs.le_groupEnd i
    have := le_valueEndFrom hs close fuel (s.groupEnd i + 1)
    omega

theorem property_placed {m : Metadata} (hm : m.Placed s) {close k stop : Nat} {key : String}
    (hkey : propertyKey? s k = some key) (hcolon : s.punct (k + 1) ':' = true) (hle : k + 2 ≤ stop)
    (hnone : stop = k + 2 → s.punct (k + 2) ',' = true ∨ s.punct (k + 2) '\x7d' = true) :
    (m.property s close k stop key).Placed s := by
  unfold Metadata.property
  dsimp only
  split
  · split
    · refine { hm with template := ?_, inlineTemplate := ?_ }
      · intro url literal property heq
        cases heq
        exact ⟨s.isToken_token _, .through (by omega)⟩
      · exact fun heq => by cases heq
    · exact hm
  split
  · split
    · rename_i hvalue
      refine { hm with template := ?_, inlineTemplate := ?_ }
      · exact fun heq => by cases heq
      · intro text literal heq
        cases heq
        exact ⟨k + 2, rfl, hvalue⟩
    · exact hm
  split
  · refine { hm with styleUrls := ?_, styleUrlsProperty := ?_, styleUrlsRemoval := ?_ }
    · intro u hu
      rcases List.mem_append.mp hu with hu | hu
      · exact hm.styleUrls u hu
      · obtain ⟨l, hl, rfl⟩ := List.mem_map.mp hu
        exact literalsBetween_spans l hl
    · intro x heq
      cases heq
      exact .through (by omega)
    · intro x heq
      cases heq
      split
      · exact .through (by omega)
      split
      · exact .upTo (by omega)
      · exact .through (by omega)
  split
  · rename_i hstyles
    subst hstyles
    refine { hm with inlineStyles := ?_, stylesValue := ?_ }
    · intro u hu
      rcases List.mem_append.mp hu with hu | hu
      · exact hm.inlineStyles u hu
      · obtain ⟨l, hl, rfl⟩ := List.mem_map.mp hu
        exact literalsBetween_spans l hl
    · intro x heq
      cases heq
      rcases Nat.eq_or_lt_of_le hle with heq | hlt
      · refine .inr ⟨k, ⟨hkey, hcolon, hnone heq.symm⟩, ?_⟩
        rw [← heq]
        rfl
      · exact .inl (.through (by omega))
  · exact hm

theorem metadataFrom_placed (hs : s.Ordered) {close : Nat} (hclose : s.punct close '\x7d' = true)
    (fuel : Nat) : ∀ {k : Nat} {m : Metadata}, m.Placed s → (metadataFrom s close fuel k m).Placed s := by
  induction fuel with
  | zero => exact fun hm => hm
  | succ fuel ih =>
    intro k m hm
    rw [metadataFrom]
    split
    · exact hm
    rename_i hlt
    split
    · exact ih hm
    rename_i key hkey
    split
    · exact ih hm
    · rename_i hcolon
      have hcolon : s.punct (k + 1) ':' = true := by simpa using hcolon
      -- the closing brace is no colon, so a value starts no further than there
      have hne : k + 1 ≠ close := by
        rintro rfl
        simp only [Stream.punct, Token.isPunct, decide_eq_true_eq] at hcolon hclose
        simp [hcolon] at hclose
      obtain ⟨hle, hnone⟩ := valueEnd_bounds hs hclose (show k + 2 ≤ close by omega)
      exact ih (property_placed hm hkey hcolon hle hnone)

theorem componentAt?_placed (hs : s.Ordered) (hb : s.Braced) {i : Nat} {c : Component}
    (h : componentAt? s i = some c) : c.toMetadata.Placed s ∧ s.IsToken c.classSpan := by
  unfold componentAt? at h
  split at h
  · cases h
  · rename_i hshape
    have hbrace : s.punct (i + 3) '\x7b' = true := by
      simp only [Bool.not_eq_true', Bool.not_eq_false, Bool.and_eq_true] at hshape
      exact hshape.2
    obtain ⟨callClose, -, h⟩ := Option.bind_eq_some_iff.mp h
    obtain ⟨objectClose, hobject, h⟩ := Option.bind_eq_some_iff.mp h
    obtain ⟨word, -, h⟩ := Option.bind_eq_some_iff.mp h
    split at h
    · cases h
    · obtain ⟨opening, -, h⟩ := Option.bind_eq_some_iff.mp h
      obtain ⟨close, -, h⟩ := Option.bind_eq_some_iff.mp h
      cases h
      refine ⟨metadataFrom_placed hs (hb hobject hbrace) _ ⟨?_, ?_, ?_, ?_, ?_, ?_, ?_⟩,
        s.isToken_token _⟩
      · exact fun heq => by cases heq
      · exact fun heq => by cases heq
      · exact fun _ hu => (List.not_mem_nil hu).elim
      · exact fun heq => by cases heq
      · exact fun heq => by cases heq
      · exact fun _ hu => (List.not_mem_nil hu).elim
      · exact fun heq => by cases heq

theorem wordAt_placed (hs : s.Ordered) (top : Bool) (i : Nat) (o : Outline) :
    i < (wordAt s top i o).2 ∧
      (s.ident i = true → o.Placed s → (wordAt s top i o).1.Placed s) := by
  have hskip := Nat.lt_succ_self i
  unfold wordAt
  dsimp only
  split
  · refine ⟨hskip, fun _ ho => Outline.Placed.refer ?_ i⟩
    unfold dynamicImportAt
    split
    · split
      · exact { ho with
          dynamicImports := forall_mem_concat ho.dynamicImports (s.isToken_token _) }
      · exact ho
    · exact ho
  split
  · split
    · cases h : importAt s i o with
      | none => exact ⟨hskip, fun _ ho => ho.refer i⟩
      | some result =>
        obtain ⟨hlt, hplaced⟩ := importAt_placed hs h
        exact ⟨hlt, fun _ => hplaced⟩
    split
    · cases h : exportAt s i o with
      | none => exact ⟨hskip, fun _ ho => ho.refer i⟩
      | some result =>
        obtain ⟨hlt, hplaced⟩ := exportAt_placed hs h
        exact ⟨hlt, fun _ => hplaced⟩
    · exact ⟨hskip, fun hident ho => (declarationAt_placed hs hident ho).refer i⟩
  · exact ⟨hskip, fun _ ho => ho.refer i⟩

theorem outlineFrom_placed (hs : s.Ordered) (hb : s.Braced) (fuel : Nat) :
    ∀ {depth i : Nat} {o : Outline}, o.Placed s → (outlineFrom s fuel depth i o).Placed s := by
  induction fuel with
  | zero => exact fun ho => ho
  | succ fuel ih =>
    intro depth i o ho
    rw [outlineFrom_succ]
    cases hkind : (s.token i).kind with
    | eof => exact ho
    | punct mark =>
      dsimp only
      split
      · exact ih ho
      split
      · exact ih ho
      split
      · cases h : componentAt? s i with
        | none => exact ih (by simpa using ho)
        | some c =>
          obtain ⟨hmetadata, hclass⟩ := componentAt?_placed hs hb h
          exact ih { ho with
            components := forall_mem_concat ho.components hmetadata
            classes := forall_mem_concat ho.classes hclass }
      · exact ih ho
    | ident => exact ih ((wordAt_placed hs _ i o).2 (by simp [Stream.ident, hkind]) ho)
    | number | string | template | regex => exact ih ho

theorem outlineOf_placed (hs : s.Ordered) (hb : s.Braced) : (outlineOf s).Placed s :=
  outlineFrom_placed hs hb _ (.empty s)

end Recompile.Script
