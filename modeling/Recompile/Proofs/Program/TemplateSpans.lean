import Recompile.Host.Volume
import Recompile.Proofs.Program.Spans
import Recompile.Proofs.Script.Escapes
import Recompile.Proofs.Template.Offsets

/-!
Where findings about unknown properties of templates point. In a template with a file of its own they
point at the name of the property. The value of a literal is shorter than its body by what escapes take,
so in the template of a literal they point at the name as long as nothing is escaped before the end of
the name, and too far to the left otherwise.
-/

namespace Recompile

open Text (width Place Stands)

namespace Script

/-- How a part of a literal's value is written: in some characters of the body of the literal after
others, where no escape is cut in two. -/
structure Spelled (text : List Char) (literal : Span) (name lead spelling : List Char) : Prop where
  body : ∃ rest, Text.slice? text (literal.start + 1) (literal.stop - 1) = some (lead ++ (spelling ++ rest))
  value : unescape spelling = name
  lead : Body (fun _ => True) lead
  spelling : Body (fun _ => True) spelling

namespace Spelled

variable {text name lead spelling : List Char} {literal : Span}

theorem place (h : Spelled text literal name lead spelling) :
    Stands text (literal.start + 1 + width lead) spelling := by
  obtain ⟨rest, hbody⟩ := h.body
  obtain ⟨-, after, hplace⟩ := Place.of_slice? hbody
  have hwhole : Stands text (literal.start + 1) (lead ++ (spelling ++ rest)) := ⟨after, hplace⟩
  exact hwhole.right.left

theorem stop_le (h : Spelled text literal name lead spelling) :
    literal.start + 1 + width (unescape lead) + width name ≤ width text := by
  have hlead := h.lead.width_unescape.1
  have hspelling := h.spelling.width_unescape.1
  have hstop := h.place.stop_le
  rw [h.value] at hspelling
  omega

/-- Offsets in the value are those in the body as long as nothing is escaped. -/
theorem span_eq_iff (h : Spelled text literal name lead spelling) (file : FileId) :
    (⟨file, literal.start + 1 + width (unescape lead), literal.start + 1 + width (unescape lead) + width name⟩ : Span) =
        ⟨file, literal.start + 1 + width lead, literal.start + 1 + width lead + width spelling⟩ ↔
      '\\' ∉ lead ++ spelling := by
  obtain ⟨-, hlead⟩ := h.lead.width_unescape
  obtain ⟨-, hspelling⟩ := h.spelling.width_unescape
  rw [h.value] at hspelling
  rw [List.mem_append, not_or, ← hlead, ← hspelling, Span.mk.injEq]
  constructor
  · rintro ⟨-, hstart, hstop⟩
    omega
  · rintro ⟨hstart, hstop⟩
    rw [hstart, hstop]
    exact ⟨rfl, rfl, rfl⟩

theorem slice? (h : Spelled text literal name lead spelling) (hplain : '\\' ∉ lead ++ spelling) :
    Text.slice? text (literal.start + 1 + width (unescape lead))
      (literal.start + 1 + width (unescape lead) + width name) = some name := by
  rw [List.mem_append, not_or] at hplain
  have hname : name = spelling := h.value.symm.trans (unescape_eq_self hplain.2)
  rw [unescape_eq_self hplain.1, hname]
  exact h.place.slice?

end Spelled

theorem slice?_literalBody {text cs : List Char} {pos : Nat} (h : Stands text pos cs)
    (hne : literalBody cs ≠ []) :
    Text.slice? text (pos + 1) (pos + width cs - 1) = some (literalBody cs) := by
  cases hslice : Text.slice? cs 1 (width cs - 1) with
  | none =>
    rw [literalBody, hslice] at hne
    exact absurd rfl hne
  | some body =>
    obtain ⟨hstop, rest, hplace⟩ := Place.of_slice? hslice
    have hstands : Stands text (pos + 1) body := h.within ⟨rest, hplace⟩
    rw [literalBody, hslice, show pos + width cs - 1 = pos + 1 + width body by omega]
    exact hstands.slice?

theorem exists_spelled {id : FileId} {text value : String} {literal : Span}
    (hliteral : (streamOf id text).IsLiteral literal value) {pos : Nat} {name : List Char}
    (hstands : Stands value.toList pos name) (hword : Template.IsWord name) :
    ∃ lead spelling, Spelled text.toList literal name lead spelling ∧ pos = width (unescape lead) := by
  obtain ⟨i, rfl, hvalue⟩ := hliteral
  obtain ⟨rest, hplace, hstop⟩ := token_place id text i
  have hread : unescape (literalBody ((streamOf id text).token i).text.toList) = value.toList := by
    rw [Stream.literal?, Token.literal?] at hvalue
    split at hvalue
    · rw [← Option.some.inj hvalue, String.toList_ofList]
    · cases hvalue
  obtain ⟨after, before, hwhole, rfl⟩ := hstands
  rw [hwhole] at hread
  have hplain : '\\' ∉ name := fun hmem => absurd (hword.2 _ hmem) (by decide)
  obtain ⟨lead, spelling, tail, hbody, hlead, hspelling, rfl, hname⟩ :=
    exists_spelling hread hword.1 hplain
  have hne : literalBody ((streamOf id text).token i).text.toList ≠ [] := by
    intro hnil
    rw [hnil] at hread
    have hempty := List.append_eq_nil_iff.mp hread.symm
    exact hword.1 (List.append_eq_nil_iff.mp hempty.2).1
  have hslice := slice?_literalBody ⟨rest, hplace⟩ hne
  rw [← hstop, hbody] at hslice
  exact ⟨lead, spelling, ⟨⟨tail, hslice⟩, hname, hlead, hspelling⟩, rfl⟩

end Script

namespace Check

variable {σ : Type} [FileSystem σ] {p : Program} {r : Registry} {id : FileId} {m : Module} {d : Diagnostic}

def unknownName (c : Script.Component) (file : FileId) (base : Nat) (b : Template.Binding) : Diagnostic :=
  Diagnostic.error unknownTemplateProperty
    ("Property '" ++ b.name ++ "' does not exist on type '" ++ c.className ++ "'.")
    ⟨file, base + b.offset, base + b.offset + width b.name.toList⟩

theorem of_mem_templates {strict : Bool} (hm : p.module? id = some m) (hd : d ∈ templates p id strict)
    (hcode : d.code = unknownTemplateProperty) : ∃ n c text file base b, c ∈ m.outline.components ∧
      Shadow.template? p id m n c = some (text, file, base) ∧ b ∈ (Template.analyze text).bindings ∧
        d = unknownName c file base b := by
  unfold templates at hd
  rw [hm] at hd
  rcases List.mem_append.mp hd with hd | hd
  · obtain ⟨ref, -, rfl⟩ := List.mem_map.mp hd
    cases hcode
  · split at hd
    · obtain ⟨ds, hds, hd⟩ := List.mem_flatten.mp hd
      obtain ⟨n, hn, rfl⟩ := List.mem_mapIdx.mp hds
      unfold unknownNames at hd
      split at hd
      · cases hd
      · rename_i text file base htemplate
        obtain ⟨b, hb, rfl⟩ := List.mem_map.mp hd
        exact ⟨n, _, text, file, base, b, List.getElem_mem hn, htemplate,
          (List.mem_filter.mp (List.mem_filter.mp hb).1).1, rfl⟩
    · cases hd

theorem snippet_external {n : Nat} {c : Script.Component} {url : String} {literal property : Span}
    (hfiles : ∀ {id f}, p.file? id = some f → f.id = id)
    (hc : c.template = some (.external url literal property)) {text : String} {file : FileId} {base : Nat}
    (h : Shadow.template? p id m n c = some (text, file, base)) {b : Template.Binding}
    (hb : b ∈ (Template.analyze text).bindings) : ∃ f, p.file? file = some f ∧
      base + b.offset + width b.name.toList ≤ width f.text.toList ∧
        f.snippet? (base + b.offset) (base + b.offset + width b.name.toList) = some b.name := by
  unfold Shadow.template? at h
  rw [hc] at h
  obtain ⟨ref, -, h⟩ := Option.bind_eq_some_iff.mp h
  obtain ⟨id', -, h⟩ := Option.bind_eq_some_iff.mp h
  obtain ⟨f, hf, h⟩ := Option.bind_eq_some_iff.mp h
  cases h
  obtain ⟨hstands, -⟩ := Template.exact_analyze f.text b hb
  rw [Nat.zero_add]
  refine ⟨f, (hfiles hf).symm ▸ hf, hstands.stop_le, ?_⟩
  rw [SourceFile.snippet?, hstands.slice?, Option.map_some, String.ofList_toList]

theorem spelled_inline {n : Nat} {c : Script.Component} {source : String}
    (hplaced : c.toMetadata.Placed (Script.streamOf id source)) {value : String} {literal : Span}
    (hc : c.template = some (.inline value literal)) {text : String} {file : FileId} {base : Nat}
    (h : Shadow.template? p id m n c = some (text, file, base)) {b : Template.Binding}
    (hb : b ∈ (Template.analyze text).bindings) : file = id ∧ base = literal.start + 1 ∧
      ∃ lead spelling, Script.Spelled source.toList literal b.name.toList lead spelling ∧
        b.offset = width (Script.unescape lead) := by
  unfold Shadow.template? at h
  rw [hc] at h
  cases h
  obtain ⟨hstands, hword⟩ := Template.exact_analyze value b hb
  exact ⟨rfl, rfl, Script.exists_spelled (hplaced.inlineTemplate hc) hstands hword⟩

/-- Findings about unknown properties lie in their files. About a template with a file of its own they
point at the name that they quote. About the template of a literal they point as far into the literal as
the value goes in front of the name, and this is where the name is written exactly when nothing is
escaped up to its end. -/
theorem unknown_property_spans (options : Options) (host : Host) (fs : σ) (full : Bool) (roots : List Path)
    {registry : Registry} (hr : registry.Distinct)
    (hbuild : Program.build options host fs full registry roots = (.ok p, r)) (hscript : p.isScript id = true)
    {strict : Bool} (hd : d ∈ templates p id strict) (hcode : d.code = unknownTemplateProperty) :
    ∃ (m : Module) (c : Script.Component) (f : SourceFile) (name : String),
      p.module? id = some m ∧ c ∈ m.outline.components ∧
      d.message = "Property '" ++ name ++ "' does not exist on type '" ++ c.className ++ "'." ∧
      p.file? d.span.file = some f ∧ d.span.start ≤ d.span.stop ∧ d.span.stop ≤ width f.text.toList ∧
      ((∃ url literal property, c.template = some (.external url literal property) ∧
          f.snippet? d.span.start d.span.stop = some name) ∨
        ∃ value literal lead spelling, c.template = some (.inline value literal) ∧ d.span.file = id ∧
          Script.Spelled f.text.toList literal name.toList lead spelling ∧
          d.span.start = literal.start + 1 + width (Script.unescape lead) ∧
          (d.span = ⟨id, literal.start + 1 + width lead, literal.start + 1 + width lead + width spelling⟩ ↔
            '\\' ∉ lead ++ spelling) ∧
          ('\\' ∉ lead ++ spelling → f.snippet? d.span.start d.span.stop = some name)) := by
  obtain ⟨s, -, -, ⟨e, heq⟩ | ⟨p', r', heq, hbuilt⟩⟩ := Program.build_cases options host fs full roots hr
  · rw [hbuild] at heq
    cases heq
  rw [hbuild] at heq
  cases heq
  cases hm : p.module? id with
  | none =>
    rw [templates, hm] at hd
    cases hd
  | some m =>
    obtain ⟨n, c, text, file, base, b, hmem, htemplate, hb, rfl⟩ := of_mem_templates hm hd hcode
    cases hc : c.template with
    | none =>
      rw [Shadow.template?, hc] at htemplate
      cases htemplate
    | some source =>
      cases source with
      | external url literal property =>
        obtain ⟨f, hf, hstop, hsnippet⟩ := snippet_external hbuilt.id_eq hc htemplate hb
        exact ⟨m, c, f, b.name, rfl, hmem, rfl, hf, Nat.le_add_right _ _, hstop,
          .inl ⟨url, literal, property, hc, hsnippet⟩⟩
      | inline value literal =>
        obtain ⟨f, hf, hkind⟩ : ∃ f, p.file? id = some f ∧ f.kind = .script := by
          unfold Program.isScript Program.hasKind at hscript
          split at hscript
          · rename_i f hf
            exact ⟨f, hf, by simpa using hscript⟩
          · cases hscript
        have hread : Emit.scriptOf? p id = some (f, m) := by simp [Emit.scriptOf?, hf, hm, hkind]
        have hplaced := hbuilt.placed hread
        obtain ⟨rfl, rfl, lead, spelling, hspelled, hoffset⟩ :=
          spelled_inline (hplaced.components c hmem) hc htemplate hb
        have hstop := hspelled.stop_le
        have hiff := hspelled.span_eq_iff file
        have hslice := hspelled.slice?
        rw [← hoffset] at hstop hiff hslice
        refine ⟨m, c, f, b.name, rfl, hmem, rfl, hf, Nat.le_add_right _ _, hstop,
          .inr ⟨value, literal, lead, spelling, hc, rfl, hspelled, by rw [← hoffset]; rfl, hiff, ?_⟩⟩
        intro hplain
        exact (congrArg (Option.map String.ofList) (hslice hplain)).trans (by simp)

set_option maxRecDepth 100000

def misnamed : Volume := .ofTexts [
  (⟨"/a.ts"⟩, "@Component(\x7btemplate: '\x7b\x7b plain \x7d\x7d\\n\x7b\x7b missing \x7d\x7d'\x7d)\nclass A \x7b\x7d\n")]

theorem unknown_property_spans_misnamed :
    let d := Diagnostic.error unknownTemplateProperty "Property 'plain' does not exist on type 'A'." ⟨0, 26, 31⟩
    ∃ p r, Program.build (Options.ofConfigPath ⟨"/k"⟩) ⟨OrdMap.empty, .passthrough⟩ misnamed false
        Registry.empty [⟨"/a.ts"⟩] = (.ok p, r) ∧ p.isScript 0 = true ∧ d ∈ templates p 0 true ∧
      ∃ f, p.file? 0 = some f ∧ 31 ≤ width f.text.toList := by
  intro d
  have hresult : ((Program.build (Options.ofConfigPath ⟨"/k"⟩) ⟨OrdMap.empty, .passthrough⟩ misnamed false
      Registry.empty [⟨"/a.ts"⟩]).1.toOption.map fun p => (p.isScript 0, (templates p 0 true).contains d)) =
        some (true, true) := by decide
  generalize hbuild : Program.build (Options.ofConfigPath ⟨"/k"⟩) ⟨OrdMap.empty, .passthrough⟩ misnamed false
    Registry.empty [⟨"/a.ts"⟩] = built at hresult
  obtain ⟨made, r⟩ := built
  cases made with
  | error e => cases hresult
  | ok p =>
    obtain ⟨hscript, hcontains⟩ := Prod.mk.inj (Option.some.inj hresult)
    have hd : d ∈ templates p 0 true := by simpa using hcontains
    obtain ⟨m, c, f, name, -, -, -, hf, -, hstop, -⟩ := unknown_property_spans
      (Options.ofConfigPath ⟨"/k"⟩) ⟨OrdMap.empty, .passthrough⟩ misnamed false [⟨"/a.ts"⟩]
      Registry.distinct_empty hbuild hscript hd rfl
    exact ⟨p, r, rfl, hscript, hd, f, hf, hstop⟩

/-- After an escape a finding points too far to the left. -/
theorem escape_moves_span :
    let built := Program.build (Options.ofConfigPath ⟨"/k"⟩) ⟨OrdMap.empty, .passthrough⟩ misnamed false
      Registry.empty [⟨"/a.ts"⟩]
    built.1.toOption.map (fun p => (templates p 0 true).map fun d =>
      (d.message, (p.file? d.span.file).bind fun f => f.snippet? d.span.start d.span.stop)) =
        some [("Property 'plain' does not exist on type 'A'.", some "plain"),
          ("Property 'missing' does not exist on type 'A'.", some " missin")] := by
  decide

end Check

end Recompile
