import Recompile.Proofs.Script.Reading

/-!
Declarations, components and whole modules read through a view of the text. On the tokens of a text
the reading ends, meets no fault, and gives the outline.
-/

namespace Recompile.Script

namespace View

variable {v : View}

def parameterMembers (v : View) (first stop : Nat) : Checked (List String) := do
  let found ← ((List.range (stop - first)).map (first + ·)).mapM fun p => do
    let name ← v.text p
    let before ← v.text (← Checked.sub p 1)
    return if v.stream.ident p && parameterModifiers.contains before &&
      !memberModifiers.contains name then some name else none
  return found.filterMap id

theorem Faithful.parameterMembers (h : v.Faithful) {first : Nat} (hfirst : 0 < first) (stop : Nat) :
    v.parameterMembers first stop = .ok (Script.parameterMembers v.stream first stop) := by
  have hread : ∀ p ∈ (List.range (stop - first)).map (first + ·), (do
      let name ← v.text p
      let before ← v.text (← Checked.sub p 1)
      return if v.stream.ident p && parameterModifiers.contains before &&
        !memberModifiers.contains name then some name else none : Checked (Option String)) =
      .ok (if v.stream.ident p && parameterModifiers.contains (v.stream.text (p - 1)) &&
        !memberModifiers.contains (v.stream.text p) then some (v.stream.text p) else none) := by
    intro p hp
    obtain ⟨k, -, rfl⟩ := List.mem_map.mp hp
    simp only [h.text, Checked.sub_of_le (show 1 ≤ first + k by omega), Checked.ok_bind]
    rfl
  rw [View.parameterMembers, Checked.mapM_ok hread, Checked.ok_bind, Script.parameterMembers,
    List.filterMap_map]
  rfl

def memberBoundary (v : View) (opening k : Nat) : Checked Bool := do
  if k = opening + 1 then return true
  else
    let before ← Checked.sub k 1
    return (← v.newlineBefore k) || v.stream.oneOf before [';', '\x7d', ')', ']'] ||
      memberModifiers.contains (← v.text before)

theorem Faithful.memberBoundary (h : v.Faithful) (opening : Nat) {k : Nat} (hk : 0 < k) :
    v.memberBoundary opening k = .ok (Script.memberBoundary v.stream opening k) := by
  unfold View.memberBoundary Script.memberBoundary
  simp only [Checked.sub_of_le hk, h.newlineBefore, h.text, Checked.ok_bind]
  split
  · rename_i heq
    simp [heq]
  · rename_i hne
    simp [hne]

def classMembersFrom (v : View) (opening close : Nat) : Nat → Nat → Checked (List String)
  | 0, _ => .error .unfinished
  | fuel + 1, k =>
      if close ≤ k then return []
      else if v.stream.oneOf k openers then
        match v.partner? k with
        | none => classMembersFrom v opening close fuel (k + 1)
        | some groupClose => do
            let before ← Checked.sub k 1
            let parameters ←
              if v.stream.punct k '(' && (← v.word before "constructor") then
                v.parameterMembers (k + 1) groupClose
              else pure []
            return parameters ++ (← classMembersFrom v opening close fuel (groupClose + 1))
      else if v.stream.punct k '@' then do
        let j ← v.skipDotted v.stream.size (k + 1)
        let next := if v.stream.punct j '(' then (v.partner? j).getD j + 1 else j
        classMembersFrom v opening close fuel next
      else if v.stream.ident k then do
        let name ← v.text k
        if memberModifiers.contains name &&
            (v.stream.ident (k + 1) || v.stream.punct (k + 1) '[') then
          classMembersFrom v opening close fuel (k + 1)
        else
          let named := (← v.memberBoundary opening k) &&
            v.stream.oneOf (k + 1) ['(', ':', '=', ';', '?', '!', '<', '\x7d'] &&
            name != "constructor"
          let rest ← classMembersFrom v opening close fuel (k + 1)
          return if named then name :: rest else rest
      else classMembersFrom v opening close fuel (k + 1)

theorem le_skipDotted (s : Stream) (fuel : Nat) : ∀ i, i ≤ s.skipDotted fuel i := by
  induction fuel with
  | zero => exact fun i => Nat.le_refl i
  | succ fuel ih =>
    intro i
    rw [Stream.skipDotted]
    split
    · exact Nat.le_of_succ_le (ih (i + 1))
    · exact Nat.le_refl i

theorem Faithful.skipDotted_size (h : v.Faithful) (i : Nat) :
    v.skipDotted v.stream.size i = .ok (v.stream.skipDotted v.stream.size i) := by
  have := h.nonempty
  exact h.skipDotted _ (by omega)

theorem Faithful.groupEnd (h : v.Faithful) (i : Nat) : (v.partner? i).getD i = v.stream.groupEnd i := by
  rw [h.partner?, Stream.groupEnd]

theorem Faithful.classMembersFrom (h : v.Faithful) (opening close fuel : Nat) : ∀ {k : Nat}, 0 < k →
    close - k < fuel → v.classMembersFrom opening close fuel k =
      .ok (Script.classMembersFrom v.stream opening close fuel k) := by
  induction fuel with
  | zero => exact fun _ hfuel => absurd hfuel (Nat.not_lt_zero _)
  | succ fuel ih =>
    intro k hk hfuel
    rw [View.classMembersFrom, Script.classMembersFrom]
    split
    · rfl
    have hnext : ∀ n, k < n → v.classMembersFrom opening close fuel n =
        .ok (Script.classMembersFrom v.stream opening close fuel n) :=
      fun n hn => ih (by omega) (by omega)
    split
    · rw [h.partner?]
      cases hclose : v.stream.partner? k with
      | none => exact hnext _ (Nat.lt_succ_self k)
      | some groupClose =>
        have := h.lt_partner hclose
        simp only [Checked.sub_of_le hk, h.word, h.parameterMembers (Nat.succ_pos k), Checked.ok_bind,
          Checked.pure_eq, hnext (groupClose + 1) (by omega)]
        split <;> rfl
    split
    · simp only [h.skipDotted_size, Checked.ok_bind, h.groupEnd]
      have hdotted := le_skipDotted v.stream v.stream.size (k + 1)
      have hgroup := h.lt_groupEnd (v.stream.skipDotted v.stream.size (k + 1))
      exact hnext _ (by split <;> omega)
    split
    · simp only [h.text, h.memberBoundary opening hk, Checked.ok_bind,
        hnext (k + 1) (Nat.lt_succ_self k)]
      split <;> rfl
    · exact hnext _ (Nat.lt_succ_self k)

def classMembers (v : View) (opening close : Nat) : Checked (List String) :=
  v.classMembersFrom opening close v.stream.size (opening + 1)

theorem Faithful.classMembers (h : v.Faithful) {opening close : Nat}
    (hclose : v.stream.partner? opening = some close) :
    v.classMembers opening close = .ok (Script.classMembers v.stream opening close) := by
  have := h.lt_partner hclose
  exact h.classMembersFrom opening close _ (Nat.succ_pos _) (by omega)

def variableEnd (v : View) : Nat → Nat → Checked Nat
  | 0, _ => .error .unfinished
  | fuel + 1, i =>
      if v.stream.atEnd i || v.stream.punct i '=' || v.stream.punct i ';' then return i
      else do
        let before ← Checked.sub i 1
        if (← v.newlineBefore i) && !v.stream.punct before ':' && !v.stream.punct i ':' then return i
        else variableEnd v fuel ((v.partner? i).getD i + 1)

theorem Faithful.variableEnd (h : v.Faithful) (fuel : Nat) : ∀ {i : Nat}, 0 < i →
    v.stream.size - (i + 1) < fuel →
      v.variableEnd fuel i = .ok (Script.variableEnd v.stream fuel i) := by
  induction fuel with
  | zero => exact fun _ hfuel => absurd hfuel (Nat.not_lt_zero _)
  | succ fuel ih =>
    intro i hi hfuel
    rw [View.variableEnd, Script.variableEnd]
    cases hend : v.stream.atEnd i with
    | true => rfl
    | false =>
      have hlt := h.lt_size_of_not_atEnd hend
      split
      · rfl
      simp only [Checked.sub_of_le hi, h.newlineBefore, Checked.ok_bind, h.groupEnd]
      split
      · rfl
      · have := h.lt_groupEnd i
        exact ih (by omega) (by omega)

def erasureStart (v : View) : Nat → Nat → Checked Nat
  | 0, _ => .error .unfinished
  | fuel + 1, start =>
      if start = 0 then return 0
      else do
        let before ← Checked.sub start 1
        if (← v.word before "export") || (← v.word before "declare") then erasureStart v fuel before
        else return start

theorem Faithful.erasureStart (h : v.Faithful) (fuel : Nat) : ∀ {start : Nat}, start < fuel →
    v.erasureStart fuel start = .ok (Script.erasureStart v.stream start) := by
  induction fuel with
  | zero => exact fun hfuel => absurd hfuel (Nat.not_lt_zero _)
  | succ fuel ih =>
    intro start hfuel
    cases start with
    | zero => rfl
    | succ k =>
      rw [View.erasureStart, Script.erasureStart, if_neg (Nat.succ_ne_zero k)]
      simp only [Checked.sub_add, h.word, Checked.ok_bind]
      split
      · exact ih (by omega)
      · rfl

def startsDeclaration (v : View) (i : Nat) : Checked Bool := do
  let keyword ← v.text i
  return if keyword = "interface" then v.stream.ident (i + 1)
    else if keyword = "type" then
      v.stream.ident (i + 1) && (v.stream.punct (i + 2) '=' || v.stream.punct (i + 2) '<')
    else declarationKeywords.contains keyword

theorem Faithful.startsDeclaration (h : v.Faithful) (i : Nat) :
    v.startsDeclaration i = .ok (Script.startsDeclaration v.stream i) := by
  rw [View.startsDeclaration, h.text]
  rfl

def namePosition (v : View) (i : Nat) (name : String) : Checked Nat := do
  let first ← v.text (i + 1)
  let second ← v.text (i + 2)
  return if v.stream.ident (i + 1) && first = name then i + 1
    else if v.stream.ident (i + 2) && second = name then i + 2
    else i + 1

theorem Faithful.namePosition (h : v.Faithful) (i : Nat) (name : String) :
    v.namePosition i name = .ok (Script.namePosition v.stream i name) := by
  simp only [View.namePosition, h.text, Checked.ok_bind]
  rfl

def membersFrom (v : View) (opening : Nat) : Checked (List String) :=
  match v.partner? opening with
  | some close => v.classMembers opening close
  | none => pure []

theorem Faithful.membersFrom (h : v.Faithful) (opening : Nat) : v.membersFrom opening =
    .ok (((v.stream.partner? opening).map (Script.classMembers v.stream opening)).getD []) := by
  rw [View.membersFrom, h.partner?]
  cases hclose : v.stream.partner? opening with
  | none => rfl
  | some close => exact h.classMembers hclose

def surfaceAt (v : View) (i nameAt : Nat) : Checked (Option (String × Option Span)) := do
  let keyword ← v.text i
  if keyword = "class" then
    match ← v.bodyOpen (nameAt + 1) with
    | none => return none
    | some opening =>
        return some ("class " ++ (← v.textBetween nameAt opening) ++ " \x7b" ++
          ",".intercalate (← v.membersFrom opening) ++ "\x7d", none)
  else if keyword = "function" then
    let stop ← match ← v.bodyOpen (nameAt + 1) with
      | some opening => pure opening
      | none => v.statementEnd i
    return some ("function " ++ (← v.textBetween nameAt stop), none)
  else if keyword = "const" || keyword = "let" || keyword = "var" then
    let stop ← v.variableEnd v.stream.size (nameAt + 1)
    return some (keyword ++ " " ++ (← v.textBetween nameAt stop), none)
  else if keyword = "interface" then
    match ← v.bodyOpen (nameAt + 1) with
    | none => return none
    | some opening =>
        let close := (v.partner? opening).getD opening
        return some ("interface " ++ (← v.textBetween nameAt (close + 1)),
          some (v.stream.span (← v.erasureStart (i + 1) i) close))
  else if keyword = "type" then
    let stop ← v.statementEnd i
    let last := if v.stream.punct stop ';' then stop else stop - 1
    return some ("type " ++ (← v.textBetween nameAt stop),
      some (v.stream.span (← v.erasureStart (i + 1) i) last))
  else
    let stop ← match ← v.bodyOpen (nameAt + 1) with
      | some opening => pure ((v.partner? opening).getD opening + 1)
      | none => v.statementEnd i
    return some (keyword ++ " " ++ (← v.textBetween nameAt stop), none)

theorem Faithful.surfaceAt (h : v.Faithful) (i nameAt : Nat) :
    v.surfaceAt i nameAt = .ok (Script.surfaceAt v.stream i nameAt) := by
  have hsize := h.nonempty
  have hvariable := h.variableEnd v.stream.size (Nat.succ_pos nameAt) (by omega)
  unfold View.surfaceAt Script.surfaceAt
  simp only [h.text, h.bodyOpen, h.textBetween, h.statementEnd, h.membersFrom, hvariable,
    h.erasureStart _ (Nat.lt_succ_self i), h.groupEnd, Checked.ok_bind]
  split
  · cases v.stream.bodyOpen (nameAt + 1) <;> rfl
  split
  · cases v.stream.bodyOpen (nameAt + 1) <;> rfl
  split
  · rfl
  split
  · cases v.stream.bodyOpen (nameAt + 1) <;> rfl
  split
  · rfl
  · cases v.stream.bodyOpen (nameAt + 1) <;> rfl

def declarationAt (v : View) (i : Nat) (o : Outline) : Checked Outline := do
  if ← v.startsDeclaration i then
    match ← v.declaredName? i with
    | none => return o
    | some name =>
        match ← v.surfaceAt i (← v.namePosition i name) with
        | none => return o
        | some (surface, erased) =>
            return { o with
              surfaces := o.surfaces.insert name surface
              erased := o.erased ++ erased.toList }
  else return o

theorem Faithful.declarationAt (h : v.Faithful) (i : Nat) (o : Outline) :
    v.declarationAt i o = .ok (Script.declarationAt v.stream i o) := by
  unfold View.declarationAt Script.declarationAt
  simp only [h.startsDeclaration, h.declaredName?, h.namePosition, h.surfaceAt, Checked.ok_bind]
  split
  · cases Script.declaredName? v.stream i with
    | none => rfl
    | some name =>
      dsimp only
      cases Script.surfaceAt v.stream i (Script.namePosition v.stream i name) <;> rfl
  · rfl

def literalsBetween (v : View) (first stop : Nat) (keep : Token → Bool) :
    Checked (List (String × Span)) := do
  let found ← (List.range (stop - first)).mapM fun k => do
    let t := v.stream.token (first + k)
    let text ← v.literal? (first + k)
    return if keep t then text.map fun text => (text, t.span) else none
  return found.filterMap id

theorem Faithful.literalsBetween (h : v.Faithful) (first stop : Nat) (keep : Token → Bool) :
    v.literalsBetween first stop keep = .ok (Script.literalsBetween v.stream first stop keep) := by
  have hread : ∀ k ∈ List.range (stop - first), (do
      let t := v.stream.token (first + k)
      let text ← v.literal? (first + k)
      return if keep t then text.map fun text => (text, t.span) else none :
        Checked (Option (String × Span))) =
      .ok (if keep (v.stream.token (first + k)) then (v.stream.token (first + k)).literal?.map
        fun text => (text, (v.stream.token (first + k)).span) else none) := by
    intro k _
    simp only [h.literal?, Checked.ok_bind]
    rfl
  rw [View.literalsBetween, Checked.mapM_ok hread, Checked.ok_bind, Script.literalsBetween,
    List.filterMap_map, List.filterMap_map]
  rfl

def valueEndFrom (v : View) (close : Nat) : Nat → Nat → Checked Nat
  | 0, _ => .error .unfinished
  | fuel + 1, i =>
      if close ≤ i || v.stream.punct i ',' then return i
      else valueEndFrom v close fuel ((v.partner? i).getD i + 1)

theorem Faithful.valueEndFrom (h : v.Faithful) (close fuel : Nat) : ∀ {i : Nat}, close - i < fuel →
    v.valueEndFrom close fuel i = .ok (Script.valueEndFrom v.stream close fuel i) := by
  induction fuel with
  | zero => exact fun hfuel => absurd hfuel (Nat.not_lt_zero _)
  | succ fuel ih =>
    intro i hfuel
    rw [View.valueEndFrom, Script.valueEndFrom, h.groupEnd]
    split
    · rfl
    · rename_i hi
      simp only [Bool.or_eq_true, decide_eq_true_eq, not_or] at hi
      have := h.lt_groupEnd i
      exact ih (by omega)

def valueEnd (v : View) (close i : Nat) : Checked Nat := do
  return min (← v.valueEndFrom close v.stream.size i) close

theorem Faithful.valueEnd (h : v.Faithful) {close : Nat} (hclose : close < v.stream.size) (i : Nat) :
    v.valueEnd close i = .ok (Script.valueEnd v.stream close i) := by
  rw [View.valueEnd, h.valueEndFrom close _ (by omega)]
  rfl

def propertyKey? (v : View) (k : Nat) : Checked (Option String) :=
  if v.stream.ident k then do return some (← v.text k)
  else if v.stream.isString k then v.literal? k
  else return none

theorem Faithful.propertyKey? (h : v.Faithful) (k : Nat) :
    v.propertyKey? k = .ok (Script.propertyKey? v.stream k) := by
  rw [View.propertyKey?, Script.propertyKey?, h.text, h.literal?]
  split
  · rfl
  · split <;> rfl

def property (v : View) (m : Metadata) (close k stop : Nat) (key : String) : Checked Metadata := do
  let value := k + 2
  let last := stop - 1
  let property := v.stream.span k last
  let removal : Span :=
    if !v.stream.punct stop ',' then property
    else if stop + 1 < close then
      ⟨v.stream.file, (v.stream.token k).span.start, (v.stream.token (stop + 1)).span.start⟩
    else v.stream.span k stop
  if key = "templateUrl" then
    match ← v.literal? value with
    | some url =>
        return { m with template := some (.external url (v.stream.token value).span property) }
    | none => return m
  else if key = "template" then
    match ← v.literal? value with
    | some text => return { m with template := some (.inline text (v.stream.token value).span) }
    | none => return m
  else if key = "styleUrls" || key = "styleUrl" then
    let urls ← v.literalsBetween value stop fun t => t.kind = .string
    return { m with
      styleUrlsProperty := some property
      styleUrlsRemoval := some removal
      styleUrls := m.styleUrls ++ urls.map fun l => ⟨l.1, l.2⟩ }
  else if key = "styles" then
    let texts ← v.literalsBetween value stop Token.isLiteral
    return { m with
      stylesValue := some (v.stream.span value last)
      inlineStyles := m.inlineStyles ++ texts.map fun l => ⟨l.1, l.2⟩ }
  else return m

theorem Faithful.property (h : v.Faithful) (m : Metadata) (close k stop : Nat) (key : String) :
    v.property m close k stop key = .ok (m.property v.stream close k stop key) := by
  unfold View.property Metadata.property
  simp only [h.literal?, h.literalsBetween, Checked.ok_bind]
  by_cases hurl : key = "templateUrl"
  · rw [if_pos hurl, if_pos hurl]
    cases v.stream.literal? (k + 2) <;> rfl
  rw [if_neg hurl, if_neg hurl]
  by_cases htext : key = "template"
  · rw [if_pos htext, if_pos htext]
    cases v.stream.literal? (k + 2) <;> rfl
  rw [if_neg htext, if_neg htext, apply_ite Except.ok, apply_ite Except.ok]
  rfl

def metadataFrom (v : View) (close : Nat) : Nat → Nat → Metadata → Checked Metadata
  | 0, _, _ => .error .unfinished
  | fuel + 1, k, m =>
      if close ≤ k then return m
      else do
        match ← v.propertyKey? k with
        | none => metadataFrom v close fuel (k + 1) m
        | some key =>
            if !v.stream.punct (k + 1) ':' then metadataFrom v close fuel (k + 1) m
            else
              let stop ← v.valueEnd close (k + 2)
              metadataFrom v close fuel (stop + 1) (← v.property m close k stop key)

theorem Faithful.metadataFrom (h : v.Faithful) {close : Nat} (hclose : close < v.stream.size)
    (fuel : Nat) : ∀ {k : Nat} {m : Metadata}, close - k < fuel →
      v.metadataFrom close fuel k m = .ok (Script.metadataFrom v.stream close fuel k m) := by
  induction fuel with
  | zero => exact fun hfuel => absurd hfuel (Nat.not_lt_zero _)
  | succ fuel ih =>
    intro k m hfuel
    rw [View.metadataFrom, Script.metadataFrom]
    split
    · rfl
    simp only [h.propertyKey?, h.valueEnd hclose, h.property, Checked.ok_bind]
    cases Script.propertyKey? v.stream k with
    | none => exact ih (by omega)
    | some key =>
      dsimp only
      split
      · exact ih (by omega)
      · have hvalue : k + 1 ≤ Script.valueEnd v.stream close (k + 2) := by
          have := le_valueEndFrom h.ordered close v.stream.size (k + 2)
          rw [Script.valueEnd]
          omega
        exact ih (by omega)

def classWord? (v : View) : Nat → Nat → Checked (Option Nat)
  | 0, _ => .error .unfinished
  | fuel + 1, c =>
      if v.stream.punct c '@' then do
        let c ← v.skipDotted v.stream.size (c + 1)
        if v.stream.punct c '(' then
          match v.partner? c with
          | some close => classWord? v fuel (close + 1)
          | none => return none
        else classWord? v fuel c
      else do
        let text ← v.text c
        if v.stream.ident c && ["export", "default", "abstract", "declare"].contains text then
          classWord? v fuel (c + 1)
        else if ← v.word c "class" then return some c
        else return none

theorem Faithful.classWord? (h : v.Faithful) (fuel : Nat) : ∀ {c : Nat}, v.stream.size - c < fuel →
    v.classWord? fuel c = .ok (Script.classWord? v.stream fuel c) := by
  induction fuel with
  | zero => exact fun hfuel => absurd hfuel (Nat.not_lt_zero _)
  | succ fuel ih =>
    intro c hfuel
    rw [View.classWord?, Script.classWord?]
    split
    · rename_i hat
      have hlt := h.lt_size_of_punct hat
      have hdotted := le_skipDotted v.stream v.stream.size (c + 1)
      simp only [h.skipDotted_size, Checked.ok_bind, h.partner?]
      split
      · cases hclose : v.stream.partner? (v.stream.skipDotted v.stream.size (c + 1)) with
        | none => rfl
        | some close =>
          have := h.lt_partner hclose
          exact ih (c := close + 1) (by omega)
      · exact ih (by omega)
    · simp only [h.text, h.word, Checked.ok_bind]
      split
      · rename_i hword
        have hlt := h.lt_size_of_ident (Bool.and_eq_true_iff.mp hword).1
        exact ih (by omega)
      · split <;> rfl

def componentAt? (v : View) (i : Nat) : Checked (Option Component) := do
  if !(v.stream.punct (i + 2) '(' && v.stream.punct (i + 3) '\x7b') then return none
  else match v.partner? (i + 2), v.partner? (i + 3) with
    | some callClose, some objectClose =>
        let metadata ← v.metadataFrom objectClose v.stream.size (i + 4) ⟨none, [], none, none, [], none⟩
        match ← v.classWord? (v.stream.size + 1) (callClose + 1) with
        | none => return none
        | some c =>
            if !v.stream.ident (c + 1) then return none
            else match ← v.bodyOpen (c + 2) with
              | none => return none
              | some opening =>
                  match v.partner? opening with
                  | none => return none
                  | some close =>
                      return some { metadata with
                        className := ← v.text (c + 1)
                        classSpan := (v.stream.token (c + 1)).span
                        members := ← v.classMembers opening close }
    | _, _ => return none

theorem Faithful.componentAt? (h : v.Faithful) (i : Nat) :
    v.componentAt? i = .ok (Script.componentAt? v.stream i) := by
  unfold View.componentAt? Script.componentAt?
  simp only [h.partner?, h.text, h.bodyOpen, Checked.ok_bind]
  cases v.stream.punct (i + 2) '(' && v.stream.punct (i + 3) '\x7b' with
  | false => rfl
  | true =>
    cases v.stream.partner? (i + 2) with
    | none => rfl
    | some callClose =>
      cases hobject : v.stream.partner? (i + 3) with
      | none => rfl
      | some objectClose =>
        have hobjectClose := h.lt_partner hobject
        dsimp only
        rw [h.metadataFrom hobjectClose.2 _ (by omega), h.classWord? _ (by omega)]
        simp only [Checked.ok_bind, Option.bind_eq_bind, Option.bind_some]
        cases Script.classWord? v.stream (v.stream.size + 1) (callClose + 1) with
        | none => rfl
        | some c =>
          simp only [Bool.not_true, Bool.false_eq_true, if_false, Option.bind_some]
          cases v.stream.ident (c + 1) with
          | false => rfl
          | true =>
            cases v.stream.bodyOpen (c + 2) with
            | none => rfl
            | some opening =>
              simp only [Bool.not_true, Bool.false_eq_true, if_false, Option.bind_some]
              cases hclose : v.stream.partner? opening with
              | none => rfl
              | some close =>
                dsimp only
                rw [h.classMembers hclose]
                rfl

def afterDot (v : View) (i : Nat) : Checked Bool :=
  if 0 < i then do return v.stream.punct (← Checked.sub i 1) '.' else return false

theorem afterDot_eq (v : View) (i : Nat) : v.afterDot i = .ok (Script.afterDot v.stream i) := by
  unfold View.afterDot Script.afterDot
  cases i with
  | zero => rfl
  | succ i => simp

def refer (v : View) (o : Outline) (i : Nat) : Checked Outline := do
  if ← v.afterDot i then return o
  else return { o with references := OrdSet.add o.references (← v.text i) }

theorem Faithful.refer (h : v.Faithful) (o : Outline) (i : Nat) :
    v.refer o i = .ok (o.refer v.stream i) := by
  rw [View.refer, afterDot_eq, Checked.ok_bind, h.text, Outline.refer]
  split <;> rfl

def wordAt (v : View) (top : Bool) (i : Nat) (o : Outline) : Checked (Outline × Nat) := do
  let text ← v.text i
  if text = "import" && v.stream.punct (i + 1) '(' then
    return (← v.refer (← v.dynamicImportAt i o) i, i + 1)
  else if top && (← v.statementStart i) then
    if text = "import" then
      match ← v.importAt i o with
      | some result => return result
      | none => return (← v.refer o i, i + 1)
    else if text = "export" then
      match ← v.exportAt i o with
      | some result => return result
      | none => return (← v.refer o i, i + 1)
    else return (← v.refer (← v.declarationAt i o) i, i + 1)
  else return (← v.refer o i, i + 1)

theorem Faithful.wordAt (h : v.Faithful) (top : Bool) (i : Nat) (o : Outline) :
    v.wordAt top i o = .ok (Script.wordAt v.stream top i o) := by
  unfold View.wordAt Script.wordAt
  simp only [h.text, h.refer, h.dynamicImportAt, h.statementStart, h.importAt, h.exportAt,
    h.declarationAt, Checked.ok_bind]
  split
  · rfl
  split
  · split
    · cases Script.importAt v.stream i o <;> rfl
    split
    · cases Script.exportAt v.stream i o <;> rfl
    · rfl
  · rfl

def outlineFrom (v : View) : Nat → Nat → Nat → Outline → Checked Outline
  | 0, _, _, _ => .error .unfinished
  | fuel + 1, depth, i, o =>
      match (v.stream.token i).kind with
      | .eof => return o
      | .punct mark => do
          if mark = '\x7b' then outlineFrom v fuel (depth + 1) (i + 1) o
          else if mark = '\x7d' then outlineFrom v fuel (depth - 1) (i + 1) o
          else if mark = '@' && (← v.word (i + 1) "Component") then
            outlineFrom v fuel depth (i + 1)
              { o with components := o.components ++ (← v.componentAt? i).toList }
          else outlineFrom v fuel depth (i + 1) o
      | .ident => do
          let (o, next) ← v.wordAt (depth = 0) i o
          outlineFrom v fuel depth next o
      | _ => outlineFrom v fuel depth (i + 1) o

theorem outlineFrom_succ (v : View) (fuel depth i : Nat) (o : Outline) :
    v.outlineFrom (fuel + 1) depth i o =
      match (v.stream.token i).kind with
      | .eof => return o
      | .punct mark => do
          if mark = '\x7b' then v.outlineFrom fuel (depth + 1) (i + 1) o
          else if mark = '\x7d' then v.outlineFrom fuel (depth - 1) (i + 1) o
          else if mark = '@' && (← v.word (i + 1) "Component") then
            v.outlineFrom fuel depth (i + 1)
              { o with components := o.components ++ (← v.componentAt? i).toList }
          else v.outlineFrom fuel depth (i + 1) o
      | .ident => do
          let (o, next) ← v.wordAt (depth = 0) i o
          v.outlineFrom fuel depth next o
      | _ => v.outlineFrom fuel depth (i + 1) o := rfl

theorem Faithful.outlineFrom (h : v.Faithful) (fuel : Nat) : ∀ {depth i : Nat} {o : Outline},
    v.stream.size - (i + 1) < fuel →
      v.outlineFrom fuel depth i o = .ok (Script.outlineFrom v.stream fuel depth i o) := by
  induction fuel with
  | zero => exact fun hfuel => absurd hfuel (Nat.not_lt_zero _)
  | succ fuel ih =>
    intro depth i o hfuel
    rw [View.outlineFrom_succ, Script.outlineFrom_succ]
    by_cases heof : (v.stream.token i).kind = .eof
    · rw [heof]
      rfl
    have hlt := h.lt_size heof
    have hnext : ∀ {depth o n}, i < n → v.outlineFrom fuel depth n o =
        .ok (Script.outlineFrom v.stream fuel depth n o) := fun hn => ih (by omega)
    cases hkind : (v.stream.token i).kind with
    | eof => exact absurd hkind heof
    | punct mark =>
      simp only [h.word, h.componentAt?, Checked.ok_bind, hnext (Nat.lt_succ_self i),
        apply_ite Except.ok]
    | ident =>
      simp only [h.wordAt, Checked.ok_bind]
      exact hnext (wordAt_placed h.ordered _ i o).1
    | number => exact hnext (Nat.lt_succ_self i)
    | string => exact hnext (Nat.lt_succ_self i)
    | template => exact hnext (Nat.lt_succ_self i)
    | regex => exact hnext (Nat.lt_succ_self i)

def outline (v : View) : Checked Outline := v.outlineFrom v.stream.size 0 0 Outline.empty

theorem Faithful.outline (h : v.Faithful) : v.outline = .ok (outlineOf v.stream) := by
  have := h.nonempty
  exact h.outlineFrom _ (by omega)

end View

end Recompile.Script
