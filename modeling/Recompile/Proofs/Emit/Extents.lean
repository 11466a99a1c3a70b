import Recompile.Proofs.Emit.Erasure
import Recompile.Proofs.Emit.Splicing

/-!
The extents of the spans that an outline stores. Each of them starts and ends where tokens do, and all
but one kind cut a part out of the text, so what is put in place of them takes the place of that part.
The span for the value of a `styles` property that has none runs from the token behind the colon back
to the colon: what stands between these two stands on both sides of the text put in its place.
-/

namespace Recompile

open Text (width Place)

/-- A part of a text between two positions, with what comes before it and after it. -/
structure Text.Parts (text : List Char) (start stop : Nat) (before mid after : List Char) : Prop where
  text : text = before ++ mid ++ after
  start : start = width before
  stop : stop = width (before ++ mid)

theorem Text.Boundary.parts {text : List Char} {start stop : Nat} (h : Boundary text start)
    (h' : Boundary text stop) (hle : start ≤ stop) :
    ∃ before mid after, Parts text start stop before mid after := by
  obtain ⟨rest, hplace⟩ := h
  obtain ⟨after, hplace'⟩ := h'
  obtain ⟨mid, rfl, rfl⟩ := hplace.slice?_of_le hplace' hle
  obtain ⟨before, rfl, rfl⟩ := hplace
  exact ⟨before, mid, after, (List.append_assoc ..).symm, rfl, (Text.width_append ..).symm⟩

theorem Edit.apply_replace {source : String} {x : Span} {before after : List Char}
    (hstart : ∃ rest, source.toList = before ++ rest ∧ x.start = width before)
    (hstop : Place source.toList x.stop after) (new : String) :
    Edit.apply source [Edit.replace x new] = .ok (String.ofList (before ++ new.toList ++ after)) := by
  obtain ⟨rest, hsource, hwidth⟩ := hstart
  have hbefore : Text.slice? source.toList 0 x.start = some before := by
    have hplace : Place source.toList 0 (before ++ rest) := hsource ▸ Place.start _
    simpa [hwidth] using hplace.slice?
  obtain ⟨upTo, hupTo, hwidth'⟩ := hstop
  have hafter : Text.splitAt? source.toList x.stop = some (upTo, after) := by
    rw [hupTo, hwidth', Text.splitAt?_width]
  have hsplice : Edit.splice? source.toList 0 [Edit.replace x new] =
      some (before ++ new.toList ++ after) := by
    simp [Edit.splice?, Edit.replace, hbefore, hafter]
  rw [Edit.apply, Edit.applied?, List.mergeSort_singleton, hsplice]
  rfl

theorem Edit.apply_replace_backwards {source : String} {x : Span} {before gap after : List Char}
    (h : Text.Parts source.toList x.stop x.start before gap after) (new : String) :
    Edit.apply source [Edit.replace x new] =
      .ok (String.ofList (before ++ gap ++ new.toList ++ (gap ++ after))) :=
  apply_replace ⟨after, h.text, h.stop⟩ ⟨before, by rw [h.text, List.append_assoc], h.start⟩ new

namespace Script

variable {id : FileId} {source : String} {x : Span}

theorem Stream.IsRun.start_le_stop (h : (streamOf id source).IsRun x) : x.start ≤ x.stop := by
  rcases h with ⟨i, rfl⟩ | hstretch
  · exact Script.start_le_stop id source i
  · cases hstretch with
    | through hle =>
      exact Nat.le_trans (token_mono id source hle).1 (Script.start_le_stop id source _)
    | upTo hle => exact (token_mono id source hle).1

theorem Stream.MissingStyles.start_eq {k : Nat} (h : (streamOf id source).MissingStyles k) :
    ((streamOf id source).token (k + 2)).span.start =
      ((streamOf id source).token (k + 1)).span.stop +
        width ((streamOf id source).token (k + 2)).gap.toList := by
  have htiles := tiles_scan id source
  have hlt : k + 2 < (scan id source).length - 1 := by
    refine Nat.lt_of_not_le fun hle => ?_
    obtain ⟨hkind, -⟩ := htiles.getLast_kind (htiles.token_of_le id (i := k + 2) (by omega))
    have heof : ((streamOf id source).token (k + 2)).kind = .eof := hkind
    rcases h.2.2 with hmark | hmark <;> simp [Stream.punct, Token.isPunct, heof] at hmark
  have hcolon := htiles.getElem?_token id (k + 1)
  have hend := htiles.getElem?_token id (k + 2)
  rw [Nat.min_eq_left (by omega)] at hcolon hend
  obtain ⟨_, -, hstart⟩ := htiles.gap_place hcolon hend
  exact hstart

theorem isRange_of_mem_spans (hx : x ∈ (analyze id (scan id source)).spans) :
    (streamOf id source).IsRange x :=
  ((analyze_placed id source).cases_spans hx).elim (·.isRange) (·.2.isRange)

/-- A stored span runs backwards in one case only: where it stands for the value of a `styles` property
that has none, and something stands between the colon and the token that ends the property. -/
theorem stop_lt_start_iff (hx : x ∈ (analyze id (scan id source)).spans) : x.stop < x.start ↔
    (∃ c ∈ (analyze id (scan id source)).components, c.stylesValue = some x) ∧
      ∃ k, (streamOf id source).MissingStyles k ∧ x = (streamOf id source).span (k + 2) (k + 1) ∧
        ((streamOf id source).token (k + 2)).gap ≠ "" := by
  constructor
  · intro hlt
    rcases (analyze_placed id source).cases_spans hx with hrun | ⟨hvalue, k, hmissing, hspan⟩
    · exact absurd hrun.start_le_stop (Nat.not_le_of_lt hlt)
    · refine ⟨hvalue, k, hmissing, hspan, fun hgap => ?_⟩
      have hstart := hmissing.start_eq
      rw [hgap] at hstart
      rw [hspan] at hlt
      exact absurd hlt (Nat.not_lt_of_le (Nat.le_of_eq hstart))
  · rintro ⟨-, k, hmissing, rfl, hgap⟩
    have hwidth : width ((streamOf id source).token (k + 2)).gap.toList ≠ 0 := fun hzero =>
      hgap (String.toList_eq_nil_iff.mp (Text.width_eq_zero hzero))
    have hstart := hmissing.start_eq
    simp only [Stream.span]
    omega

theorem sound_of_allStored {edits : List Edit}
    (h : Emit.AllStored (analyze id (scan id source)) edits) (hforward : ∀ e ∈ edits, e.start ≤ e.stop) :
    ∀ e ∈ edits, e.Sound source.toList :=
  fun e he => ⟨h.fits (analyze_placed id source) e he, hforward e he⟩

/-- Where the spans of an outline stand. All start and end at edges of tokens within the text, and all
but the values that `styles` properties do not have run forwards. A span that runs forwards has the
size of what it cuts out, and when it is replaced, with whatever other spans that run forwards, every
byte of the text is kept at its place or not at all. A span that runs backwards has no size, and when
it is replaced what it runs across stands there twice. -/
theorem extent_of_mem_spans (hx : x ∈ (analyze id (scan id source)).spans) :
    ((streamOf id source).IsRange x ∧ x.start ≤ width source.toList ∧ x.stop ≤ width source.toList) ∧
      (x.size? = none ↔ (∃ c ∈ (analyze id (scan id source)).components, c.stylesValue = some x) ∧
        ∃ k, (streamOf id source).MissingStyles k ∧ x = (streamOf id source).span (k + 2) (k + 1) ∧
          ((streamOf id source).token (k + 2)).gap ≠ "") ∧
      (∀ n, x.size? = some n →
        (∃ before mid after, Text.Parts source.toList x.start x.stop before mid after ∧ n = width mid ∧
          ∀ new, Edit.apply source [Edit.replace x new] =
            .ok (String.ofList (before ++ new.toList ++ after))) ∧
        ∀ new edits, Emit.AllStored (analyze id (scan id source)) edits →
          (∀ e ∈ edits, e.start ≤ e.stop) → ∃ text,
            Edit.apply source (Edit.replace x new :: edits) = .ok text ∧
            Text.bytes text =
              Edit.spliced (Text.bytes source) (Edit.kept (Edit.replace x new :: edits))) ∧
      (x.size? = none → ∃ before gap after,
        Text.Parts source.toList x.stop x.start before gap after ∧ gap ≠ [] ∧
        ∀ new, Edit.apply source [Edit.replace x new] =
          .ok (String.ofList (before ++ gap ++ new.toList ++ (gap ++ after)))) := by
  have hrange := isRange_of_mem_spans hx
  have hstart := boundary_of_isEdge hrange.1
  have hstop := boundary_of_isEdge hrange.2
  refine ⟨⟨hrange, hstart.le_width, hstop.le_width⟩, ?_, fun n hn => ?_, fun hnone => ?_⟩
  · rw [← stop_lt_start_iff hx]
    simp [Span.size?]
  · have hsize : x.start ≤ x.stop ∧ n = x.stop - x.start := by
      simpa [Span.size?, eq_comm] using hn
    refine ⟨?_, fun new edits hedits hforward => ?_⟩
    · obtain ⟨before, mid, after, hparts⟩ := hstart.parts hstop hsize.1
      refine ⟨before, mid, after, hparts, ?_, Edit.apply_replace
        ⟨mid ++ after, by rw [hparts.text, List.append_assoc], hparts.start⟩
        ⟨before ++ mid, hparts.text, hparts.stop⟩⟩
      rw [hsize.2, hparts.start, hparts.stop, Text.width_append, Nat.add_sub_cancel_left]
    · have hsound : ∀ e ∈ Edit.replace x new :: edits, e.Sound source.toList :=
        sound_of_allStored ((Emit.allStored_replace hx new).append hedits)
          (List.forall_mem_cons.mpr ⟨hsize.1, hforward⟩)
      obtain ⟨text, htext⟩ := Edit.apply_of_fits fun e he => (hsound e he).toFits
      exact ⟨text, htext, Edit.bytes_apply hsound htext⟩
  · have hlt : x.stop < x.start := by
      simpa [Span.size?] using hnone
    obtain ⟨before, gap, after, hparts⟩ := hstop.parts hstart (Nat.le_of_lt hlt)
    refine ⟨before, gap, after, hparts, ?_, Edit.apply_replace_backwards hparts⟩
    rintro rfl
    have hwidths := hparts.stop
    rw [List.append_nil] at hwidths
    have hfirst := hparts.start
    omega

theorem extent_of_mem_spans_missing :
    (∃ before gap after, Text.Parts
        "@Component(\x7bstyles: /* é */, styleUrls: ['./a.css']\x7d) class A \x7b\x7d".toList 19 28
        before gap after ∧ gap ≠ [] ∧ ∀ new,
      Edit.apply "@Component(\x7bstyles: /* é */, styleUrls: ['./a.css']\x7d) class A \x7b\x7d"
          [Edit.replace ⟨0, 28, 19⟩ new] =
        .ok (String.ofList (before ++ gap ++ new.toList ++ (gap ++ after)))) ∧
    ∃ before mid after, Text.Parts
        "@Component(\x7bstyles: /* é */, styleUrls: ['./a.css']\x7d) class A \x7b\x7d".toList 30 52
        before mid after ∧ 22 = width mid ∧ ∀ new,
      Edit.apply "@Component(\x7bstyles: /* é */, styleUrls: ['./a.css']\x7d) class A \x7b\x7d"
          [Edit.replace ⟨0, 30, 52⟩ new] =
        .ok (String.ofList (before ++ new.toList ++ after)) := by
  obtain ⟨-, -, -, hbackwards⟩ := @extent_of_mem_spans 0
    "@Component(\x7bstyles: /* é */, styleUrls: ['./a.css']\x7d) class A \x7b\x7d" ⟨0, 28, 19⟩
    (by decide)
  obtain ⟨-, -, hforward, -⟩ := @extent_of_mem_spans 0
    "@Component(\x7bstyles: /* é */, styleUrls: ['./a.css']\x7d) class A \x7b\x7d" ⟨0, 30, 52⟩
    (by decide)
  exact ⟨hbackwards rfl, (hforward 22 rfl).1⟩

theorem backwards_of_missing_styles : ¬ ∀ (id : FileId) (source : String),
    ∀ x ∈ (analyze id (scan id source)).spans, x.start ≤ x.stop := by
  intro h
  have hmem : (⟨0, 20, 19⟩ : Span) ∈ (analyze 0 (scan 0
      "@Component(\x7bstyles: \x7d) class A \x7b\x7d")).spans := by decide
  exact absurd (h 0 _ _ hmem) (by decide)

end Script

namespace Emit

variable {p : Program} {id : FileId} {f : SourceFile} {m : Module}

theorem le_of_allStored {edits : List Edit} (h : AllStored m.outline edits)
    (hm : m.outline = Script.analyze id (Script.scan id f.text))
    (hvalues : ∀ c ∈ m.outline.components, ∀ x ∈ c.stylesValue, x.start ≤ x.stop) :
    ∀ e ∈ edits, e.start ≤ e.stop := by
  intro e he
  obtain ⟨x, hx, new, rfl⟩ := h e he
  have hplaced := Script.analyze_placed id f.text
  rw [← hm] at hplaced
  rcases hplaced.cases_spans hx with hrun | ⟨⟨c, hc, hvalue⟩, -⟩
  · exact hrun.start_le_stop
  · exact hvalues c hc x hvalue

/-- The output of a script whose `styles` properties have values is its text with the edits that are
kept in their places. -/
theorem bytes_inlined (styles : Stylesheets) (hscript : scriptOf? p id = some (f, m))
    (hm : m.outline = Script.analyze id (Script.scan id f.text))
    (hvalues : ∀ c ∈ m.outline.components, ∀ x ∈ c.stylesValue, x.start ≤ x.stop) :
    ∃ made, inlined p styles id = .ok (some made) ∧
      Text.bytes made.contents =
        Edit.spliced (Text.bytes f.text) (Edit.kept (inlineEdits p styles id m)) := by
  have hstored := allStored_inlineEdits p styles id m
  have hsound := Script.sound_of_allStored (hm ▸ hstored) (le_of_allStored hstored hm hvalues)
  obtain ⟨contents, hcontents⟩ := Edit.apply_of_fits fun e he => (hsound e he).toFits
  refine ⟨⟨id, outputPath f.path, contents, some
    ((m.outline.components.mapIdx (inlineComponent p styles id m)).flatMap (·.sources))⟩, ?_,
    Edit.bytes_apply hsound hcontents⟩
  rw [inlined, hscript]
  dsimp only
  rw [← inlineEdits, hcontents]
  rfl

theorem bytes_deferred (hscript : scriptOf? p id = some (f, m))
    (hm : m.outline = Script.analyze id (Script.scan id f.text))
    (hvalues : ∀ c ∈ m.outline.components, ∀ x ∈ c.stylesValue, x.start ≤ x.stop) :
    ∃ d made, deferAll f ⟨erasures m, []⟩ m.outline.components = .ok d ∧
      deferred p id = .ok (some made) ∧
      Text.bytes made.contents =
        Edit.spliced (Text.bytes f.text) (Edit.kept (d.edits ++ importEdits d.urls)) := by
  have hplaced := Script.analyze_placed id f.text
  rw [← hm] at hplaced
  obtain ⟨d, hd, hstored⟩ := deferAll_ok hplaced (d := ⟨erasures m, []⟩) (allStored_erasures m)
    fun _ hc => hc
  have hedits := Script.sound_of_allStored (hm ▸ hstored) (le_of_allStored hstored hm hvalues)
  have hsound : ∀ e ∈ d.edits ++ importEdits d.urls, e.Sound f.text.toList := by
    intro e he
    rcases List.mem_append.mp he with he | he
    · exact hedits e he
    · obtain ⟨hstart, hstop⟩ := eq_of_mem_importEdits he
      exact ⟨⟨hstart ▸ ⟨_, Place.start _⟩, hstop ▸ ⟨_, Place.start _⟩⟩, by omega⟩
  obtain ⟨contents, hcontents⟩ := Edit.apply_of_fits fun e he => (hsound e he).toFits
  refine ⟨d, ⟨id, outputPath f.path, contents, none⟩, hd, ?_, Edit.bytes_apply hsound hcontents⟩
  rw [deferred, hscript]
  dsimp only
  rw [hd]
  dsimp only [bind, Except.bind]
  rw [hcontents]
  rfl

end Emit

end Recompile
