import Recompile.Script.Analysis

/-!
Outlines and identities. The identity of a file is written into the spans of its outline and decides
nothing else: the outline under another identity is the same one, moved.
-/

namespace Recompile

theorem mapIdx_map {α β γ : Type} (f : α → β) (g : Nat → β → γ) (xs : List α) :
    (xs.map f).mapIdx g = xs.mapIdx fun n a => g n (f a) := by
  refine List.mapIdx_eq_iff.mpr fun n => ?_
  rw [List.getElem?_mapIdx, List.getElem?_map, Option.map_map]
  rfl

def Span.moved (g : FileId) (s : Span) : Span := { s with file := g }

@[simp] theorem Span.moved_start (g : FileId) (s : Span) : (s.moved g).start = s.start := rfl

@[simp] theorem Span.moved_stop (g : FileId) (s : Span) : (s.moved g).stop = s.stop := rfl

namespace Script

variable {f g : FileId}

namespace Token

def moved (g : FileId) (t : Token) : Token := { t with span := t.span.moved g }

@[simp] theorem moved_kind (g : FileId) (t : Token) : (t.moved g).kind = t.kind := rfl

@[simp] theorem moved_text (g : FileId) (t : Token) : (t.moved g).text = t.text := rfl

@[simp] theorem moved_gap (g : FileId) (t : Token) : (t.moved g).gap = t.gap := rfl

@[simp] theorem moved_span (g : FileId) (t : Token) : (t.moved g).span = t.span.moved g := rfl

@[simp] theorem moved_isLiteral (g : FileId) (t : Token) : (t.moved g).isLiteral = t.isLiteral := rfl

@[simp] theorem moved_literal? (g : FileId) (t : Token) : (t.moved g).literal? = t.literal? := rfl

end Token

theorem lexeme_moved (previous : Option Token) (c : Char) (rest : List Char) :
    lexeme (previous.map (Token.moved g)) c rest = lexeme previous c rest := by
  have hregex : regexAllowed (previous.map (Token.moved g)) = regexAllowed previous := by
    cases previous <;> rfl
  unfold lexeme
  rw [hregex]

theorem scanFrom_moved (fuel : Nat) : ∀ (pos : Nat) (previous : Option Token) (cs : List Char),
    scanFrom g fuel pos (previous.map (Token.moved g)) cs =
      (scanFrom f fuel pos previous cs).map (Token.moved g) := by
  induction fuel with
  | zero => exact fun _ _ _ => rfl
  | succ fuel ih =>
    intro pos previous cs
    unfold scanFrom
    dsimp only
    cases (skipGap pos .plain cs).rest with
    | nil => rfl
    | cons c rest =>
      dsimp only
      rw [lexeme_moved, List.map_cons, ← ih]
      rfl

theorem scan_moved (source : String) : scan g source = (scan f source).map (Token.moved g) :=
  scanFrom_moved _ 0 none _

theorem pairsFrom_moved (tokens : List Token) : ∀ (stack : List OpenPosition) (i : Nat),
    pairsFrom stack i (tokens.map (Token.moved g)) = pairsFrom stack i tokens := by
  induction tokens with
  | nil => exact fun _ _ => rfl
  | cons t rest ih =>
    intro stack i
    simp only [List.map_cons, pairsFrom, Token.moved_kind, ih]

namespace Stream

def moved (g : FileId) (s : Stream) : Stream := ⟨g, s.tokens.map (Token.moved g), s.pairs⟩

theorem ofTokens_moved (tokens : List Token) :
    ofTokens g (tokens.map (Token.moved g)) = (ofTokens f tokens).moved g := by
  unfold ofTokens moved bracketPairs
  rw [pairsFrom_moved, List.map_toArray]

variable (s : Stream)

@[simp] theorem moved_file : (s.moved g).file = g := rfl

@[simp] theorem moved_size : (s.moved g).size = s.size := Array.size_map

@[simp] theorem moved_token (i : Nat) : (s.moved g).token i = (s.token i).moved g := by
  unfold token
  rw [moved_size]
  simp only [moved, Array.getElem?_map]
  cases s.tokens[min i (s.size - 1)]? <;> rfl

@[simp] theorem moved_text (i : Nat) : (s.moved g).text i = s.text i := by simp [text]

@[simp] theorem moved_word (i : Nat) (w : String) : (s.moved g).word i w = s.word i w := by
  simp [word, Token.isWord]

@[simp] theorem moved_ident (i : Nat) : (s.moved g).ident i = s.ident i := by simp [ident]

@[simp] theorem moved_punct (i : Nat) (mark : Char) : (s.moved g).punct i mark = s.punct i mark := by
  simp [punct, Token.isPunct]

@[simp] theorem moved_oneOf (i : Nat) (marks : List Char) :
    (s.moved g).oneOf i marks = s.oneOf i marks := by
  simp [oneOf, Token.isOneOf]

@[simp] theorem moved_atEnd (i : Nat) : (s.moved g).atEnd i = s.atEnd i := by simp [atEnd]

@[simp] theorem moved_literal? (i : Nat) : (s.moved g).literal? i = s.literal? i := by
  simp [literal?]

@[simp] theorem moved_isLiteral (i : Nat) : (s.moved g).isLiteral i = s.isLiteral i := by
  simp [isLiteral]

@[simp] theorem moved_isString (i : Nat) : (s.moved g).isString i = s.isString i := by
  simp [isString]

@[simp] theorem moved_partner? (i : Nat) : (s.moved g).partner? i = s.partner? i := rfl

@[simp] theorem moved_groupEnd (i : Nat) : (s.moved g).groupEnd i = s.groupEnd i := rfl

@[simp] theorem moved_span (first last : Nat) :
    (s.moved g).span first last = (s.span first last).moved g := by
  simp [span, Span.moved]

@[simp] theorem moved_newlineBefore (i : Nat) : (s.moved g).newlineBefore i = s.newlineBefore i := by
  simp [newlineBefore]

@[simp] theorem moved_statementStart (i : Nat) :
    (s.moved g).statementStart i = s.statementStart i := by
  simp [statementStart]

@[simp] theorem moved_skipSemicolon (i : Nat) : (s.moved g).skipSemicolon i = s.skipSemicolon i := by
  simp [skipSemicolon]

@[simp] theorem moved_skipComma (i : Nat) : (s.moved g).skipComma i = s.skipComma i := by
  simp [skipComma]

@[simp] theorem moved_typeMark (i : Nat) : (s.moved g).typeMark i = s.typeMark i := by
  simp [typeMark]

@[simp] theorem moved_fromClause (i : Nat) : (s.moved g).fromClause i = s.fromClause i := by
  simp [fromClause]

@[simp] theorem moved_textBetween (first stop : Nat) :
    (s.moved g).textBetween first stop = s.textBetween first stop := by
  simp [textBetween]

theorem moved_statementEndFrom (fuel : Nat) : ∀ i,
    (s.moved g).statementEndFrom fuel i = s.statementEndFrom fuel i := by
  induction fuel with
  | zero => exact fun _ => rfl
  | succ fuel ih => exact fun i => by simp [statementEndFrom, ih]

@[simp] theorem moved_statementEnd (i : Nat) : (s.moved g).statementEnd i = s.statementEnd i := by
  simp [statementEnd, moved_statementEndFrom]

theorem moved_bodyOpenFrom (fuel : Nat) : ∀ i,
    (s.moved g).bodyOpenFrom fuel i = s.bodyOpenFrom fuel i := by
  induction fuel with
  | zero => exact fun _ => rfl
  | succ fuel ih => exact fun i => by simp [bodyOpenFrom, ih]

@[simp] theorem moved_bodyOpen (i : Nat) : (s.moved g).bodyOpen i = s.bodyOpen i := by
  simp [bodyOpen, moved_bodyOpenFrom]

@[simp] theorem moved_skipWords (words : List String) (fuel : Nat) : ∀ i,
    (s.moved g).skipWords words fuel i = s.skipWords words fuel i := by
  induction fuel with
  | zero => exact fun _ => rfl
  | succ fuel ih => exact fun i => by simp [skipWords, ih]

@[simp] theorem moved_skipDotted (fuel : Nat) : ∀ i,
    (s.moved g).skipDotted fuel i = s.skipDotted fuel i := by
  induction fuel with
  | zero => exact fun _ => rfl
  | succ fuel ih => exact fun i => by simp [skipDotted, ih]

end Stream

def ImportBinding.moved (g : FileId) (b : ImportBinding) : ImportBinding :=
  { b with span := b.span.moved g }

def Import.moved (g : FileId) (i : Import) : Import :=
  { i with
    specifierSpan := i.specifierSpan.moved g
    bindings := i.bindings.map (ImportBinding.moved g)
    span := i.span.moved g }

def ReexportName.moved (g : FileId) (n : ReexportName) : ReexportName :=
  { n with span := n.span.moved g }

def Reexport.moved (g : FileId) (r : Reexport) : Reexport :=
  { r with
    specifierSpan := r.specifierSpan.moved g
    names := r.names.map (List.map (ReexportName.moved g)) }

def Export.moved (g : FileId) (e : Export) : Export := { e with span := e.span.moved g }

def DynamicImport.moved (g : FileId) (d : DynamicImport) : DynamicImport :=
  { d with specifierSpan := d.specifierSpan.moved g }

def TemplateSource.moved (g : FileId) : TemplateSource → TemplateSource
  | .inline text literal => .inline text (literal.moved g)
  | .external url literal property => .external url (literal.moved g) (property.moved g)

def ResourceUrl.moved (g : FileId) (u : ResourceUrl) : ResourceUrl :=
  { u with literal := u.literal.moved g }

def InlineStyle.moved (g : FileId) (s : InlineStyle) : InlineStyle :=
  { s with literal := s.literal.moved g }

def Metadata.moved (g : FileId) (m : Metadata) : Metadata where
  template := m.template.map (TemplateSource.moved g)
  styleUrls := m.styleUrls.map (ResourceUrl.moved g)
  styleUrlsProperty := m.styleUrlsProperty.map (Span.moved g)
  styleUrlsRemoval := m.styleUrlsRemoval.map (Span.moved g)
  inlineStyles := m.inlineStyles.map (InlineStyle.moved g)
  stylesValue := m.stylesValue.map (Span.moved g)

def Component.moved (g : FileId) (c : Component) : Component :=
  { c.toMetadata.moved g with
    className := c.className
    classSpan := c.classSpan.moved g
    members := c.members }

def Outline.moved (g : FileId) (o : Outline) : Outline where
  imports := o.imports.map (Import.moved g)
  dynamicImports := o.dynamicImports.map (DynamicImport.moved g)
  exports := o.exports.map (Export.moved g)
  reexports := o.reexports.map (Reexport.moved g)
  components := o.components.map (Component.moved g)
  erased := o.erased.map (Span.moved g)
  references := o.references
  surfaces := o.surfaces

section Imports

variable (s : Stream)

theorem namedImports_moved (typeOnly : Bool) (close fuel : Nat) : ∀ k,
    namedImports (s.moved g) typeOnly close fuel k =
      (namedImports s typeOnly close fuel k).map (ImportBinding.moved g) := by
  induction fuel with
  | zero => exact fun _ => rfl
  | succ fuel ih =>
    intro k
    simp only [namedImports, Stream.moved_typeMark, Stream.moved_ident, Stream.moved_isLiteral,
      Stream.moved_literal?, Stream.moved_text, Stream.moved_word, Stream.moved_token,
      Stream.moved_skipComma, Token.moved_span, ih]
    split
    · rfl
    · generalize (if s.typeMark k = true then k + 1 else k) = j
      split
      · rfl
      · rw [List.map_cons]
        congr 1
        split <;> rfl

theorem defaultImport_moved (typeOnly : Bool) (j : Nat) :
    defaultImport (s.moved g) typeOnly j =
      ((defaultImport s typeOnly j).1.map (ImportBinding.moved g), (defaultImport s typeOnly j).2) := by
  simp only [defaultImport, Stream.moved_ident, Stream.moved_word, Stream.moved_text,
    Stream.moved_token, Stream.moved_skipComma]
  split <;> rfl

theorem namespaceImport_moved (typeOnly : Bool) (j : Nat) :
    namespaceImport (s.moved g) typeOnly j =
      ((namespaceImport s typeOnly j).1.map (ImportBinding.moved g),
        (namespaceImport s typeOnly j).2) := by
  simp only [namespaceImport, Stream.moved_punct, Stream.moved_ident, Stream.moved_word,
    Stream.moved_text, Stream.moved_token]
  split <;> rfl

theorem bracedImports_moved (typeOnly : Bool) (j : Nat) :
    bracedImports (s.moved g) typeOnly j =
      (bracedImports s typeOnly j).map fun r => (r.1.map (ImportBinding.moved g), r.2) := by
  simp only [bracedImports, Stream.moved_punct, Stream.moved_partner?, Stream.moved_size,
    namedImports_moved]
  split
  · cases s.partner? j <;> rfl
  · rfl

theorem importAt_moved (start : Nat) (o : Outline) :
    importAt (s.moved g) start (o.moved g) =
      (importAt s start o).map fun r => (r.1.moved g, r.2) := by
  simp only [importAt, Stream.moved_word, Stream.moved_punct, Stream.moved_isString,
    Stream.moved_literal?, Stream.moved_skipSemicolon, Stream.moved_token, Stream.moved_span,
    Token.moved_span, defaultImport_moved, namespaceImport_moved, bracedImports_moved,
    Stream.moved_fromClause]
  generalize (s.word (start + 1) "type" && !s.punct (start + 2) ',' &&
    !s.word (start + 2) "from") = typeOnly
  generalize (if typeOnly = true then start + 2 else start + 1) = j
  split
  · cases s.literal? j with
    | none => rfl
    | some specifier => simp [Outline.moved, Import.moved]
  · generalize defaultImport s typeOnly j = first
    obtain ⟨first, j⟩ := first
    dsimp only
    generalize namespaceImport s typeOnly j = whole
    obtain ⟨whole, j⟩ := whole
    dsimp only
    cases bracedImports s typeOnly j with
    | none => rfl
    | some named =>
      obtain ⟨named, j⟩ := named
      simp only [Option.map_some, Option.bind_eq_bind, Option.bind_some]
      split
      · rfl
      · cases s.literal? (j + 1) with
        | none => rfl
        | some specifier =>
          simp only [Option.bind_some, Option.map_some, Outline.moved, Import.moved, List.map_append,
            List.map_cons, List.map_nil, Option.pure_def]
          split <;> simp

theorem dynamicImportAt_moved (i : Nat) (o : Outline) :
    dynamicImportAt (s.moved g) i (o.moved g) = (dynamicImportAt s i o).moved g := by
  simp only [dynamicImportAt, Stream.moved_literal?, Stream.moved_punct, Stream.moved_token]
  cases s.literal? (i + 2) with
  | none => rfl
  | some specifier =>
    dsimp only
    split
    · simp [Outline.moved, DynamicImport.moved]
    · rfl

end Imports

section Exports

variable (s : Stream)

@[simp] theorem declaredName?_moved (i : Nat) : declaredName? (s.moved g) i = declaredName? s i := by
  simp [declaredName?]

theorem listedExports_moved (close fuel : Nat) : ∀ k,
    listedExports (s.moved g) close fuel k =
      (listedExports s close fuel k).map (ReexportName.moved g) := by
  induction fuel with
  | zero => exact fun _ => rfl
  | succ fuel ih =>
    intro k
    simp only [listedExports, Stream.moved_typeMark, Stream.moved_ident, Stream.moved_word,
      Stream.moved_text, Stream.moved_token, Stream.moved_skipComma, Token.moved_span, ih]
    split
    · rfl
    · generalize (if s.typeMark k = true then k + 1 else k) = j
      split <;> rfl

theorem erase_moved (o : Outline) (typeOnly : Bool) (span : Span) :
    (o.moved g).erase typeOnly (span.moved g) = (o.erase typeOnly span).moved g := by
  unfold Outline.erase
  split
  · simp [Outline.moved]
  · rfl

theorem exportAllAt_moved (start j : Nat) (typeOnly : Bool) (o : Outline) :
    exportAllAt (s.moved g) start j typeOnly (o.moved g) =
      (exportAllAt s start j typeOnly o).map fun r => (r.1.moved g, r.2) := by
  simp only [exportAllAt, Stream.moved_word, Stream.moved_ident, Stream.moved_text,
    Stream.moved_token, Stream.moved_fromClause, Stream.moved_literal?, Stream.moved_skipSemicolon,
    Stream.moved_span, Token.moved_span, erase_moved]
  generalize (s.word (j + 1) "as" && s.ident (j + 2)) = named
  generalize (if named = true then j + 3 else j + 1) = k
  split
  · rfl
  · cases s.literal? (k + 1) with
    | none => rfl
    | some specifier =>
      cases named <;> simp [Outline.moved, Reexport.moved, ReexportName.moved]

theorem exportNames_moved (o : Outline) (names : List ReexportName) :
    (o.moved g).exportNames (names.map (ReexportName.moved g)) = (o.exportNames names).moved g := by
  simp [Outline.exportNames, Outline.moved, ReexportName.moved, Export.moved, Function.comp_def]

theorem exportListAt_moved (start j : Nat) (typeOnly : Bool) (o : Outline) :
    exportListAt (s.moved g) start j typeOnly (o.moved g) =
      (exportListAt s start j typeOnly o).map fun r => (r.1.moved g, r.2) := by
  simp only [exportListAt, Stream.moved_partner?, Stream.moved_size, listedExports_moved,
    Stream.moved_token, Stream.moved_fromClause, Stream.moved_literal?, Stream.moved_skipSemicolon,
    Stream.moved_span, Token.moved_span, exportNames_moved, erase_moved]
  cases s.partner? j with
  | none => rfl
  | some close =>
    simp only [Option.bind_eq_bind, Option.bind_some, Option.pure_def]
    split
    · cases s.literal? (close + 1 + 1) with
      | none => rfl
      | some specifier =>
        simp only [Option.bind_some, Option.map_some]
        rw [← erase_moved]
        simp [Outline.moved, Reexport.moved]
    · rfl

theorem exportDeclarationAt_moved (start j : Nat) (o : Outline) :
    exportDeclarationAt (s.moved g) start j (o.moved g) = (exportDeclarationAt s start j o).moved g := by
  simp only [exportDeclarationAt, Stream.moved_skipWords, Stream.moved_size, Stream.moved_text,
    declaredName?_moved, Stream.moved_token, Token.moved_span]
  split
  · cases declaredName? s _ with
    | none => rfl
    | some name => simp [Outline.moved, Export.moved]
  · rfl

theorem exportAt_moved (start : Nat) (o : Outline) :
    exportAt (s.moved g) start (o.moved g) =
      (exportAt s start o).map fun r => (r.1.moved g, r.2) := by
  simp only [exportAt, Stream.moved_word, Stream.moved_punct, exportAllAt_moved, exportListAt_moved,
    declaredName?_moved, Stream.moved_token, exportDeclarationAt_moved]
  generalize (s.word (start + 1) "type" &&
    (s.punct (start + 2) '\x7b' || s.punct (start + 2) '*')) = typeOnly
  generalize (if typeOnly = true then start + 2 else start + 1) = j
  split
  · rfl
  · split
    · rfl
    · split
      · simp [Outline.moved, Export.moved]
      · rfl

end Exports

section Declarations

variable (s : Stream)

theorem classMembersFrom_moved (opening close fuel : Nat) : ∀ k,
    classMembersFrom (s.moved g) opening close fuel k = classMembersFrom s opening close fuel k := by
  induction fuel with
  | zero => exact fun _ => rfl
  | succ fuel ih => exact fun k => by simp [classMembersFrom, parameterMembers, memberBoundary, ih]

@[simp] theorem classMembers_moved (opening close : Nat) :
    classMembers (s.moved g) opening close = classMembers s opening close := by
  simp [classMembers, classMembersFrom_moved]

@[simp] theorem variableEnd_moved (fuel : Nat) : ∀ i,
    variableEnd (s.moved g) fuel i = variableEnd s fuel i := by
  induction fuel with
  | zero => exact fun _ => rfl
  | succ fuel ih => exact fun i => by simp [variableEnd, ih]

@[simp] theorem erasureStart_moved (k : Nat) : erasureStart (s.moved g) k = erasureStart s k := by
  induction k with
  | zero => rfl
  | succ k ih => simp [erasureStart, ih]

@[simp] theorem startsDeclaration_moved (i : Nat) :
    startsDeclaration (s.moved g) i = startsDeclaration s i := by
  simp [startsDeclaration]

@[simp] theorem namePosition_moved (i : Nat) (name : String) :
    namePosition (s.moved g) i name = namePosition s i name := by
  simp [namePosition]

theorem surfaceAt_moved (i nameAt : Nat) :
    surfaceAt (s.moved g) i nameAt =
      (surfaceAt s i nameAt).map fun r => (r.1, r.2.map (Span.moved g)) := by
  have hclass : classMembers (s.moved g) = classMembers s := by
    funext opening close
    exact classMembers_moved s opening close
  simp only [surfaceAt, Stream.moved_text, Stream.moved_bodyOpen, Stream.moved_partner?, hclass,
    Stream.moved_textBetween, Stream.moved_statementEnd, variableEnd_moved, Stream.moved_size,
    Stream.moved_groupEnd, Stream.moved_span, erasureStart_moved, Stream.moved_punct]
  split
  · cases s.bodyOpen (nameAt + 1) <;> rfl
  · split
    · rfl
    · split
      · rfl
      · split
        · cases s.bodyOpen (nameAt + 1) <;> rfl
        · split
          · rfl
          · cases s.bodyOpen (nameAt + 1) <;> rfl

theorem declarationAt_moved (i : Nat) (o : Outline) :
    declarationAt (s.moved g) i (o.moved g) = (declarationAt s i o).moved g := by
  simp only [declarationAt, startsDeclaration_moved, declaredName?_moved, namePosition_moved,
    surfaceAt_moved]
  split
  · cases declaredName? s i with
    | none => rfl
    | some name =>
      dsimp only
      cases surfaceAt s i (namePosition s i name) with
      | none => rfl
      | some surface =>
        obtain ⟨surface, erased⟩ := surface
        cases erased <;> simp [Outline.moved]
  · rfl

end Declarations

section Components

variable (s : Stream)

theorem literalsBetween_moved (first stop : Nat) {keep : Token → Bool}
    (hkeep : ∀ t, keep (t.moved g) = keep t) :
    literalsBetween (s.moved g) first stop keep =
      (literalsBetween s first stop keep).map fun l => (l.1, l.2.moved g) := by
  unfold literalsBetween
  rw [List.map_filterMap, List.filterMap_map, List.filterMap_map]
  congr 1
  funext k
  simp only [Function.comp_apply, Stream.moved_token, hkeep, Token.moved_literal?, Token.moved_span]
  split
  · cases (s.token (first + k)).literal? <;> rfl
  · rfl

theorem valueEndFrom_moved (close fuel : Nat) : ∀ i,
    valueEndFrom (s.moved g) close fuel i = valueEndFrom s close fuel i := by
  induction fuel with
  | zero => exact fun _ => rfl
  | succ fuel ih => exact fun i => by simp [valueEndFrom, ih]

@[simp] theorem valueEnd_moved (close i : Nat) : valueEnd (s.moved g) close i = valueEnd s close i := by
  simp [valueEnd, valueEndFrom_moved]

@[simp] theorem propertyKey?_moved (k : Nat) : propertyKey? (s.moved g) k = propertyKey? s k := by
  simp [propertyKey?]

theorem property_moved (m : Metadata) (close k stop : Nat) (key : String) :
    (m.moved g).property (s.moved g) close k stop key = (m.property s close k stop key).moved g := by
  have hremoval : (if !s.punct stop ',' then (s.span k (stop - 1)).moved g
      else if stop + 1 < close then
        ⟨g, (s.token k).span.start, (s.token (stop + 1)).span.start⟩
      else (s.span k stop).moved g) =
      Span.moved g (if !s.punct stop ',' then s.span k (stop - 1)
        else if stop + 1 < close then
          ⟨s.file, (s.token k).span.start, (s.token (stop + 1)).span.start⟩
        else s.span k stop) := by
    split
    · rfl
    · split <;> rfl
  simp only [Metadata.property, Stream.moved_span, Stream.moved_punct, Stream.moved_token,
    Stream.moved_literal?, Stream.moved_file, Token.moved_span, Span.moved_start, hremoval]
  split
  · cases s.literal? (k + 2) <;> rfl
  · split
    · cases s.literal? (k + 2) <;> rfl
    · split
      · rw [literalsBetween_moved s (k + 2) stop fun t => rfl]
        simp [Metadata.moved, ResourceUrl.moved]
      · split
        · rw [literalsBetween_moved s (k + 2) stop (Token.moved_isLiteral g)]
          simp [Metadata.moved, InlineStyle.moved]
        · rfl

theorem metadataFrom_moved (close fuel : Nat) : ∀ (k : Nat) (m : Metadata),
    metadataFrom (s.moved g) close fuel k (m.moved g) = (metadataFrom s close fuel k m).moved g := by
  induction fuel with
  | zero => exact fun _ _ => rfl
  | succ fuel ih =>
    intro k m
    simp only [metadataFrom, propertyKey?_moved, Stream.moved_punct, valueEnd_moved, property_moved, ih]
    split
    · rfl
    · cases propertyKey? s k with
      | none => rfl
      | some key =>
        dsimp only
        split <;> rfl

theorem classWord?_moved (fuel : Nat) : ∀ c,
    classWord? (s.moved g) fuel c = classWord? s fuel c := by
  induction fuel with
  | zero => exact fun _ => rfl
  | succ fuel ih => exact fun c => by simp [classWord?, ih]

theorem componentAt?_moved (i : Nat) :
    componentAt? (s.moved g) i = (componentAt? s i).map (Component.moved g) := by
  have hempty : (⟨none, [], none, none, [], none⟩ : Metadata) =
      Metadata.moved g ⟨none, [], none, none, [], none⟩ := rfl
  simp only [componentAt?, Stream.moved_punct, Stream.moved_partner?, Stream.moved_size,
    classWord?_moved, Stream.moved_ident, Stream.moved_bodyOpen, Stream.moved_text,
    Stream.moved_token, classMembers_moved]
  split
  · rfl
  · cases s.partner? (i + 2) with
    | none => rfl
    | some callClose =>
      cases s.partner? (i + 3) with
      | none => rfl
      | some objectClose =>
        simp only [Option.bind_eq_bind, Option.bind_some]
        cases classWord? s (s.size + 1) (callClose + 1) with
        | none => rfl
        | some c =>
          simp only [Option.bind_some]
          split
          · rfl
          · cases s.bodyOpen (c + 2) with
            | none => rfl
            | some opening =>
              simp only [Option.bind_some]
              cases s.partner? opening with
              | none => rfl
              | some close =>
                rw [hempty, metadataFrom_moved]
                rfl

end Components

section Outlines

variable (s : Stream)

theorem refer_moved (o : Outline) (i : Nat) :
    (o.moved g).refer (s.moved g) i = (o.refer s i).moved g := by
  have hdot : afterDot (s.moved g) i = afterDot s i := by simp [afterDot]
  unfold Outline.refer
  rw [hdot, Stream.moved_text]
  cases afterDot s i <;> rfl

theorem wordAt_moved (top : Bool) (i : Nat) (o : Outline) :
    wordAt (s.moved g) top i (o.moved g) = ((wordAt s top i o).1.moved g, (wordAt s top i o).2) := by
  simp only [wordAt, Stream.moved_text, Stream.moved_punct, Stream.moved_statementStart,
    dynamicImportAt_moved, importAt_moved, exportAt_moved, declarationAt_moved, refer_moved]
  split
  · rfl
  · split
    · split
      · cases importAt s i o <;> rfl
      · split
        · cases exportAt s i o <;> rfl
        · rfl
    · rfl

theorem outlineFrom_moved (fuel : Nat) : ∀ (depth i : Nat) (o : Outline),
    outlineFrom (s.moved g) fuel depth i (o.moved g) = (outlineFrom s fuel depth i o).moved g := by
  induction fuel with
  | zero => exact fun _ _ _ => rfl
  | succ fuel ih =>
    intro depth i o
    have hcomponents : { o.moved g with
        components := (o.moved g).components ++
          ((componentAt? s i).map (Component.moved g)).toList } =
        Outline.moved g { o with components := o.components ++ (componentAt? s i).toList } := by
      cases componentAt? s i <;> simp [Outline.moved]
    rw [outlineFrom_succ, outlineFrom_succ, Stream.moved_token, Token.moved_kind]
    cases (s.token i).kind with
    | punct mark =>
      simp only [Stream.moved_word, componentAt?_moved, hcomponents, ih]
      split
      · rfl
      · split
        · rfl
        · split <;> rfl
    | ident => simp only [wordAt_moved, ih]
    | number | string | template | regex => exact ih depth (i + 1) o
    | eof => rfl

theorem analyze_moved (f g : FileId) (source : String) :
    analyze g (scan g source) = (analyze f (scan f source)).moved g := by
  unfold analyze outlineOf
  rw [@scan_moved f g, @Stream.ofTokens_moved f g, Stream.moved_size]
  exact outlineFrom_moved _ _ 0 0 Outline.empty

end Outlines

namespace Outline

@[simp] theorem moved_specifiers (o : Outline) :
    (o.moved g).specifiers.map (·.1) = o.specifiers.map (·.1) := by
  simp only [specifiers, moved, List.map_append, List.map_map]
  rfl

@[simp] theorem moved_directExports (o : Outline) : (o.moved g).directExports = o.directExports := by
  have hnames : (fun r : Reexport => ((Reexport.moved g r).names.getD []).map (·.exported)) =
      fun r => (r.names.getD []).map (·.exported) := by
    funext r
    cases hr : r.names <;> simp [Reexport.moved, hr, ReexportName.moved, Function.comp_def]
  simp only [directExports, moved, List.map_map, List.flatMap_map, hnames]
  rfl

@[simp] theorem moved_signature (o : Outline) : (o.moved g).signature = o.signature := by
  have hparts : (fun r : Reexport => reexportParts (Reexport.moved g r)) = reexportParts := by
    funext r
    cases hr : r.names <;>
      simp [reexportParts, Reexport.moved, hr, ReexportName.moved, List.flatMap_map]
  have hsurface : (fun e : Export => ((Export.moved g e).name, (o.moved g).surfaceOf (e.moved g))) =
      fun e => (e.name, o.surfaceOf e) := rfl
  have hsignature : (o.moved g).signatureParts = o.signatureParts := by
    simp only [signatureParts, moved, List.map_map, List.flatMap_map, hparts]
    rfl
  rw [signature, signature, hsignature]

end Outline

end Script

end Recompile
