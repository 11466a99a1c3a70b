import Recompile.Emit.Script
import Recompile.Proofs.Script.Matching
import Recompile.Proofs.Script.Spans

/-!
Edits that fit. What is erased or replaced starts and ends where tokens do, so every edit of a script
cuts its text at character boundaries, and the output of a script is always made.
-/

namespace Recompile

open Text (Place)

/-- A place between two characters of a text, or at one of its ends. -/
def Text.Boundary (text : List Char) (pos : Nat) : Prop := ∃ rest, Place text pos rest

theorem Text.Boundary.slice? {text : List Char} {start stop : Nat} (h : Boundary text start)
    (h' : Boundary text stop) (hle : start ≤ stop) : ∃ mid, Text.slice? text start stop = some mid := by
  obtain ⟨rest, hplace⟩ := h
  obtain ⟨rest', hplace'⟩ := h'
  obtain ⟨mid, rfl, rfl⟩ := hplace.slice?_of_le hplace' hle
  exact ⟨mid, hplace.slice?⟩

theorem Text.Boundary.splitAt? {text : List Char} {pos : Nat} (h : Boundary text pos) :
    ∃ parts, Text.splitAt? text pos = some parts := by
  obtain ⟨rest, before, rfl, rfl⟩ := h
  exact ⟨_, Text.splitAt?_width before rest⟩

theorem Text.Boundary.le_width {text : List Char} {pos : Nat} (h : Boundary text pos) :
    pos ≤ Text.width text := by
  obtain ⟨rest, hplace⟩ := h
  exact hplace.pos_le

namespace Edit

/-- An edit of a range between boundaries of a text. -/
structure Fits (source : List Char) (e : Edit) : Prop where
  start : Text.Boundary source e.start
  stop : Text.Boundary source e.stop

theorem splice?_of_fits {source : List Char} : ∀ {edits : List Edit} {cursor : Nat},
    Text.Boundary source cursor → (∀ e ∈ edits, e.Fits source) →
      ∃ text, splice? source cursor edits = some text
  | [], cursor, hcursor, _ => by
    obtain ⟨parts, hparts⟩ := hcursor.splitAt?
    exact ⟨parts.2, by rw [splice?, hparts]; rfl⟩
  | e :: rest, cursor, hcursor, hfits => by
    have he := hfits e List.mem_cons_self
    have hrest : ∀ x ∈ rest, x.Fits source := fun x hx => hfits x (List.mem_cons_of_mem e hx)
    rw [splice?]
    by_cases hlt : e.start < cursor
    · rw [if_pos hlt]
      exact splice?_of_fits hcursor hrest
    · obtain ⟨kept, hkept⟩ := hcursor.slice? he.start (Nat.le_of_not_lt hlt)
      obtain ⟨tail, htail⟩ := splice?_of_fits he.stop hrest
      rw [if_neg hlt, hkept, htail]
      exact ⟨_, rfl⟩

theorem apply_of_fits {source : String} {edits : List Edit} (h : ∀ e ∈ edits, e.Fits source.toList) :
    ∃ text, apply source edits = .ok text := by
  have hsorted : ∀ e ∈ edits.mergeSort before, e.Fits source.toList := fun e he =>
    h e (List.mem_mergeSort.mp he)
  obtain ⟨text, htext⟩ := splice?_of_fits ⟨_, Place.start source.toList⟩ hsorted
  exact ⟨String.ofList text, by rw [apply, applied?, htext]; rfl⟩

end Edit

namespace Script

/-- The stream of the tokens of a text. -/
def streamOf (id : FileId) (text : String) : Stream := .ofTokens id (scan id text)

variable {id : FileId} {text : String}

theorem ordered_streamOf (id : FileId) (text : String) : (streamOf id text).Ordered := by
  intro i j hij
  rw [Stream.partner?] at hij
  obtain ⟨p, hp, rfl⟩ := Option.map_eq_some_iff.mp hij
  have hi : p.1 = i := by simpa using List.find?_some hp
  rw [← hi]
  exact (bracketPairs_bounds (List.mem_of_find?_eq_some hp)).1

theorem braced_streamOf (id : FileId) (text : String) : (streamOf id text).Braced := by
  intro i j hij hopening
  obtain ⟨-, -, opener, -, hopener, hcloser⟩ := (matched_scan (s := streamOf id text) rfl).forms hij
  have hkind : ((streamOf id text).token i).kind = .punct '\x7b' := by
    simpa [Stream.punct, Token.isPunct] using hopening
  rw [hkind, TokenKind.punct.injEq] at hopener
  subst hopener
  simpa [Stream.punct, Token.isPunct, closerOf] using hcloser

theorem analyze_placed (id : FileId) (text : String) :
    (analyze id (scan id text)).Placed (streamOf id text) :=
  outlineOf_placed (ordered_streamOf id text) (braced_streamOf id text)

theorem token_place (id : FileId) (text : String) (i : Nat) : ∃ rest,
    Place text.toList ((streamOf id text).token i).span.start
      (((streamOf id text).token i).text.toList ++ rest) ∧
    ((streamOf id text).token i).span.stop = ((streamOf id text).token i).span.start +
      Text.width ((streamOf id text).token i).text.toList :=
  (tiles_scan id text).text_place ((tiles_scan id text).token_mem id i)

theorem boundary_of_isEdge {n : Nat} (h : (streamOf id text).IsEdge n) :
    Text.Boundary text.toList n := by
  obtain ⟨i, hn⟩ := h
  obtain ⟨rest, hplace, hstop⟩ := token_place id text i
  rcases hn with rfl | rfl
  · exact ⟨_, hplace⟩
  · rw [hstop]
    exact ⟨rest, hplace.skip⟩

theorem fits_of_isRange {x : Span} (h : (streamOf id text).IsRange x) (new : String) :
    (Edit.replace x new).Fits text.toList :=
  ⟨boundary_of_isEdge h.1, boundary_of_isEdge h.2⟩

theorem snippet_of_isToken {x : Span} (h : (streamOf id text).IsToken x) :
    ∃ mid, Text.slice? text.toList x.start x.stop = some mid := by
  obtain ⟨i, rfl⟩ := h
  obtain ⟨rest, hplace, hstop⟩ := token_place id text i
  rw [hstop]
  exact ⟨_, hplace.slice?⟩

end Script

namespace Emit

open Script (streamOf)

variable {id : FileId} {f : SourceFile} {m : Module}

/-- Edits that put a text in place of a stored span. -/
def AllStored (o : Script.Outline) (edits : List Edit) : Prop :=
  ∀ e ∈ edits, ∃ x ∈ o.spans, ∃ new, e = Edit.replace x new

variable {o : Script.Outline} {c : Script.Component}

theorem AllStored.append {xs ys : List Edit} (hx : AllStored o xs) (hy : AllStored o ys) :
    AllStored o (xs ++ ys) :=
  fun e he => (List.mem_append.mp he).elim (hx e) (hy e)

theorem allStored_nil (o : Script.Outline) : AllStored o [] := fun _ he => (List.not_mem_nil he).elim

theorem allStored_replace {x : Span} (hx : x ∈ o.spans) (new : String) :
    AllStored o [Edit.replace x new] := by
  intro e he
  rw [List.mem_singleton.mp he]
  exact ⟨x, hx, new, rfl⟩

theorem AllStored.fits {text : String} {edits : List Edit} (h : AllStored o edits)
    (ho : o.Placed (streamOf id text)) : ∀ e ∈ edits, e.Fits text.toList := by
  intro e he
  obtain ⟨x, hx, new, rfl⟩ := h e he
  have hrange : (streamOf id text).IsRange x := by
    rcases ho.cases_spans hx with hrun | ⟨-, hmissing⟩
    · exact hrun.isRange
    · exact hmissing.isRange
  exact Script.fits_of_isRange hrange new

theorem allStored_erasures (m : Module) : AllStored m.outline (erasures m) := by
  intro e he
  obtain ⟨x, hx, rfl⟩ := List.mem_map.mp he
  exact ⟨x, by simp [Script.Outline.spans, hx], "", rfl⟩

section Component

variable (hc : c ∈ o.components)
include hc

theorem mem_spans_of_template {url : String} {literal property : Span}
    (h : c.template = some (.external url literal property)) : property ∈ o.spans := by
  have hmem : property ∈ c.spans := by
    simp [Script.Component.spans, Script.Metadata.spans, h, Script.TemplateSource.spans]
  simp only [Script.Outline.spans, List.mem_append, List.mem_flatMap]
  exact .inl (.inr ⟨c, hc, hmem⟩)

theorem mem_spans_of_styles {x : Span} (h : c.styleUrlsProperty = some x ∨
    c.styleUrlsRemoval = some x ∨ c.stylesValue = some x) : x ∈ o.spans := by
  have hmem : x ∈ c.spans := by
    rcases h with h | h | h <;> simp [Script.Component.spans, Script.Metadata.spans, h]
  simp only [Script.Outline.spans, List.mem_append, List.mem_flatMap]
  exact .inl (.inr ⟨c, hc, hmem⟩)

theorem allStored_styleEdits (values : List String) : AllStored o (styleEdits c values) := by
  unfold styleEdits
  dsimp only
  split
  · rename_i value property hvalue hproperty
    have hfirst := allStored_replace (mem_spans_of_styles hc (.inr (.inr hvalue)))
      ("[" ++ ", ".intercalate values ++ "]")
    refine hfirst.append ?_
    cases hremoval : c.styleUrlsRemoval with
    | none => exact allStored_nil o
    | some removal => exact allStored_replace (mem_spans_of_styles hc (.inr (.inl hremoval))) ""
  · rename_i property _ hproperty
    exact allStored_replace (mem_spans_of_styles hc (.inl hproperty)) _
  · rename_i value hvalue _
    exact allStored_replace (mem_spans_of_styles hc (.inr (.inr hvalue))) _
  · exact allStored_nil o

end Component

theorem allStored_inlineComponent (p : Program) (styles : Stylesheets) (id : FileId) (component : Nat)
    (hc : c ∈ m.outline.components) :
    AllStored m.outline (inlineComponent p styles id m component c).edits := by
  refine AllStored.append ?_ ?_
  · unfold inlineTemplate
    split
    · rename_i url literal property htemplate
      split
      · exact allStored_replace (mem_spans_of_template hc htemplate) _
      · exact allStored_nil _
    · exact allStored_nil _
  · unfold inlineStyles
    dsimp only
    split
    · exact allStored_nil _
    · dsimp only
      split
      · exact allStored_nil _
      · exact allStored_styleEdits hc _

/-- The edits that write the resources of a script into it. -/
def inlineEdits (p : Program) (styles : Stylesheets) (id : FileId) (m : Module) : List Edit :=
  erasures m ++ (m.outline.components.mapIdx (inlineComponent p styles id m)).flatMap (·.edits)

theorem allStored_inlineEdits (p : Program) (styles : Stylesheets) (id : FileId) (m : Module) :
    AllStored m.outline (inlineEdits p styles id m) := by
  refine (allStored_erasures m).append fun e he => ?_
  obtain ⟨part, hpart, he⟩ := List.mem_flatMap.mp he
  obtain ⟨n, hn, rfl⟩ := List.mem_mapIdx.mp hpart
  exact allStored_inlineComponent p styles id n (List.getElem_mem hn) e he

theorem inlined_ok {p : Program} (styles : Stylesheets)
    (h : ∀ {f m}, scriptOf? p id = some (f, m) → m.outline.Placed (streamOf id f.text)) :
    ∃ made, inlined p styles id = .ok made := by
  unfold inlined
  cases hscript : scriptOf? p id with
  | none => exact ⟨none, rfl⟩
  | some found =>
    obtain ⟨f, m⟩ := found
    obtain ⟨contents, hcontents⟩ :=
      Edit.apply_of_fits ((allStored_inlineEdits p styles id m).fits (h hscript))
    dsimp only
    rw [← inlineEdits, hcontents]
    exact ⟨_, rfl⟩

theorem allStored_deferTemplate {d : Deferral} (hd : AllStored o d.edits) (hc : c ∈ o.components) :
    AllStored o (deferTemplate d c).edits := by
  unfold deferTemplate
  split
  · rename_i url literal property htemplate
    exact hd.append (allStored_replace (mem_spans_of_template hc htemplate) _)
  · exact hd

theorem deferStyles_ok {d : Deferral} (hd : AllStored o d.edits) (hc : c ∈ o.components)
    (h : o.Placed (streamOf id f.text)) :
    ∃ d', deferStyles f d c = .ok d' ∧ AllStored o d'.edits := by
  unfold deferStyles
  split
  · exact ⟨d, rfl, hd⟩
  · have hsnippets : ∀ {styles : List Script.InlineStyle},
        (∀ s ∈ styles, (streamOf id f.text).IsToken s.literal) →
          ∃ texts, (styles.mapM fun s => f.snippet? s.literal.start s.literal.stop) = some texts := by
      intro styles
      induction styles with
      | nil => exact fun _ => ⟨[], rfl⟩
      | cons s styles ih =>
        intro hstyles
        obtain ⟨mid, hmid⟩ := Script.snippet_of_isToken (hstyles s List.mem_cons_self)
        obtain ⟨texts, htexts⟩ := ih fun x hx => hstyles x (List.mem_cons_of_mem s hx)
        refine ⟨String.ofList mid :: texts, ?_⟩
        rw [List.mapM_cons, SourceFile.snippet?, hmid, htexts]
        rfl
    obtain ⟨texts, htexts⟩ := hsnippets (h.components c hc).inlineStyles
    rw [htexts]
    exact ⟨_, rfl, hd.append (allStored_styleEdits hc _)⟩

theorem deferAll_ok (h : o.Placed (streamOf id f.text)) : ∀ {cs : List Script.Component} {d : Deferral},
    AllStored o d.edits → (∀ c ∈ cs, c ∈ o.components) →
      ∃ d', deferAll f d cs = .ok d' ∧ AllStored o d'.edits
  | [], d, hd, _ => ⟨d, rfl, hd⟩
  | c :: cs, d, hd, hcs => by
    have hc := hcs c List.mem_cons_self
    obtain ⟨d', hd', hstored⟩ := deferStyles_ok (allStored_deferTemplate hd hc) hc h
    rw [deferAll, hd']
    exact deferAll_ok h hstored fun x hx => hcs x (List.mem_cons_of_mem c hx)

theorem eq_of_mem_importEdits {urls : List String} {e : Edit} (he : e ∈ importEdits urls) :
    e.start = 0 ∧ e.stop = 0 := by
  unfold importEdits at he
  split at he
  · cases he
  · rw [List.mem_singleton.mp he]
    exact ⟨rfl, rfl⟩

theorem deferred_ok {p : Program}
    (h : ∀ {f m}, scriptOf? p id = some (f, m) → m.outline.Placed (streamOf id f.text)) :
    ∃ made, deferred p id = .ok made := by
  unfold deferred
  cases hscript : scriptOf? p id with
  | none => exact ⟨none, rfl⟩
  | some found =>
    obtain ⟨f, m⟩ := found
    obtain ⟨d, hd, hstored⟩ := deferAll_ok (h hscript) (d := ⟨erasures m, []⟩) (allStored_erasures m)
      fun _ hc => hc
    obtain ⟨contents, hcontents⟩ := @Edit.apply_of_fits f.text (d.edits ++ importEdits d.urls) (by
      intro e he
      rcases List.mem_append.mp he with he | he
      · exact hstored.fits (h hscript) e he
      · obtain ⟨hstart, hstop⟩ := eq_of_mem_importEdits he
        exact ⟨hstart ▸ ⟨_, Place.start _⟩, hstop ▸ ⟨_, Place.start _⟩⟩)
    dsimp only
    rw [hd]
    dsimp only [bind, Except.bind]
    rw [hcontents]
    exact ⟨_, rfl⟩

end Emit

end Recompile
