import Recompile.Script.Declarations

/-!
Components: classes with a component annotation.
-/

namespace Recompile.Script

def literalsBetween (s : Stream) (first stop : Nat) (keep : Token → Bool) :
    List (String × Span) :=
  ((List.range (stop - first)).map fun k => s.token (first + k)).filterMap fun t =>
    if keep t then t.literal?.map fun text => (text, t.span) else none

/-- The end of a property's value: the next comma outside groups, or the closing brace. -/
def valueEndFrom (s : Stream) (close : Nat) : Nat → Nat → Nat
  | 0, i => i
  | fuel + 1, i =>
      if close ≤ i || s.punct i ',' then i else valueEndFrom s close fuel (s.groupEnd i + 1)

def valueEnd (s : Stream) (close i : Nat) : Nat := min (valueEndFrom s close s.size i) close

def propertyKey? (s : Stream) (k : Nat) : Option String :=
  if s.ident k then some (s.text k) else if s.isString k then s.literal? k else none

def Metadata.property (m : Metadata) (s : Stream) (close k stop : Nat) (key : String) :
    Metadata :=
  let value := k + 2
  let last := stop - 1
  let property := s.span k last
  let removal : Span :=
    if !s.punct stop ',' then property
    else if stop + 1 < close then
      ⟨s.file, (s.token k).span.start, (s.token (stop + 1)).span.start⟩
    else s.span k stop
  if key = "templateUrl" then
    match s.literal? value with
    | some url => { m with template := some (.external url (s.token value).span property) }
    | none => m
  else if key = "template" then
    match s.literal? value with
    | some text => { m with template := some (.inline text (s.token value).span) }
    | none => m
  else if key = "styleUrls" || key = "styleUrl" then
    { m with
      styleUrlsProperty := some property
      styleUrlsRemoval := some removal
      styleUrls := m.styleUrls ++
        (literalsBetween s value stop fun t => t.kind = .string).map fun l => ⟨l.1, l.2⟩ }
  else if key = "styles" then
    { m with
      stylesValue := some (s.span value last)
      inlineStyles := m.inlineStyles ++
        (literalsBetween s value stop Token.isLiteral).map fun l => ⟨l.1, l.2⟩ }
  else m

def metadataFrom (s : Stream) (close : Nat) : Nat → Nat → Metadata → Metadata
  | 0, _, m => m
  | fuel + 1, k, m =>
      if close ≤ k then m
      else match propertyKey? s k with
        | none => metadataFrom s close fuel (k + 1) m
        | some key =>
            if !s.punct (k + 1) ':' then metadataFrom s close fuel (k + 1) m
            else
              let stop := valueEnd s close (k + 2)
              metadataFrom s close fuel (stop + 1) (m.property s close k stop key)

/-- The word `class` after further annotations and words that may precede it. -/
def classWord? (s : Stream) : Nat → Nat → Option Nat
  | 0, _ => none
  | fuel + 1, c =>
      if s.punct c '@' then
        let c := s.skipDotted s.size (c + 1)
        if s.punct c '(' then
          (s.partner? c).bind fun close => classWord? s fuel (close + 1)
        else classWord? s fuel c
      else if s.ident c && ["export", "default", "abstract", "declare"].contains (s.text c) then
        classWord? s fuel (c + 1)
      else if s.word c "class" then some c
      else none

def componentAt? (s : Stream) (i : Nat) : Option Component := do
  if !(s.punct (i + 2) '(' && s.punct (i + 3) '\x7b') then none
  let callClose ← s.partner? (i + 2)
  let objectClose ← s.partner? (i + 3)
  let metadata := metadataFrom s objectClose s.size (i + 4) ⟨none, [], none, none, [], none⟩
  let c ← classWord? s (s.size + 1) (callClose + 1)
  if !s.ident (c + 1) then none
  let opening ← s.bodyOpen (c + 2)
  let close ← s.partner? opening
  return { metadata with
    className := s.text (c + 1)
    classSpan := (s.token (c + 1)).span
    members := classMembers s opening close }

end Recompile.Script
