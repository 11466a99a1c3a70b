import Recompile.Proofs.Script.Spans
import Recompile.Proofs.Script.View

/-!
Import and export declarations read through a view of the text, with each cut, difference and loop
checked. On a faithful view no check fails.
-/

namespace Recompile.Script

namespace View

variable {v : View}

theorem Faithful.lt_size (h : v.Faithful) {i : Nat} (hkind : (v.stream.token i).kind ≠ .eof) :
    i + 1 < v.stream.size := by
  by_contra hle
  have hend := h.atEnd (Nat.le_of_not_lt hle)
  exact hkind (by simpa [Stream.atEnd] using hend)

theorem Faithful.lt_size_of_ident (h : v.Faithful) {i : Nat} (hi : v.stream.ident i = true) :
    i + 1 < v.stream.size :=
  h.lt_size fun heof => by simp [Stream.ident, heof] at hi

theorem Faithful.lt_size_of_punct (h : v.Faithful) {i : Nat} {mark : Char}
    (hi : v.stream.punct i mark = true) : i + 1 < v.stream.size :=
  h.lt_size fun heof => by simp [Stream.punct, Token.isPunct, heof] at hi

theorem Faithful.lt_size_of_not_atEnd (h : v.Faithful) {i : Nat} (hi : v.stream.atEnd i = false) :
    i + 1 < v.stream.size :=
  h.lt_size fun heof => by simp [Stream.atEnd, heof] at hi

theorem Faithful.ordered (h : v.Faithful) : v.stream.Ordered := fun hij => (h.lt_partner hij).1

theorem Faithful.lt_groupEnd (h : v.Faithful) (i : Nat) : i < v.stream.groupEnd i + 1 :=
  Nat.lt_succ_of_le (Stream.Ordered.le_groupEnd h.ordered i)

def statementStart (v : View) (i : Nat) : Checked Bool := do
  if i = 0 then return true
  else if ← v.newlineBefore i then return true
  else
    let before ← Checked.sub i 1
    return v.stream.oneOf before [';', '\x7d', '\x7b', ')'] ||
      Stream.declarationLeads.contains (← v.text before)

theorem Faithful.statementStart (h : v.Faithful) (i : Nat) :
    v.statementStart i = .ok (v.stream.statementStart i) := by
  cases i with
  | zero => rfl
  | succ i =>
    simp only [View.statementStart, h.newlineBefore, Checked.sub_add, h.text, Checked.ok_bind,
      Stream.statementStart, Nat.add_sub_cancel]
    cases v.stream.newlineBefore (i + 1) <;> simp

def statementEndFrom (v : View) : Nat → Nat → Checked Nat
  | 0, _ => .error .unfinished
  | fuel + 1, i =>
      if v.stream.atEnd i || v.stream.punct i ';' then return i
      else match v.partner? i with
        | some close => statementEndFrom v fuel (close + 1)
        | none =>
            if v.stream.oneOf i closers then return i - 1 else statementEndFrom v fuel (i + 1)

theorem Faithful.statementEndFrom (h : v.Faithful) (fuel : Nat) : ∀ {i : Nat},
    v.stream.size - (i + 1) < fuel →
      v.statementEndFrom fuel i = .ok (v.stream.statementEndFrom fuel i) := by
  induction fuel with
  | zero => exact fun hfuel => absurd hfuel (Nat.not_lt_zero _)
  | succ fuel ih =>
    intro i hfuel
    rw [View.statementEndFrom, Stream.statementEndFrom, h.partner?]
    cases hend : v.stream.atEnd i with
    | true => rfl
    | false =>
      have hlt := h.lt_size_of_not_atEnd hend
      split
      · rfl
      cases hclose : v.stream.partner? i with
      | some close =>
        have := h.lt_partner hclose
        exact ih (i := close + 1) (by omega)
      | none =>
        dsimp only
        split
        · rfl
        · exact ih (i := i + 1) (by omega)

def statementEnd (v : View) (i : Nat) : Checked Nat := v.statementEndFrom v.stream.size i

theorem Faithful.statementEnd (h : v.Faithful) (i : Nat) :
    v.statementEnd i = .ok (v.stream.statementEnd i) := by
  have := h.nonempty
  exact h.statementEndFrom _ (by omega)

def textBetween (v : View) (first stop : Nat) : Checked String := do
  return " ".intercalate (← (List.range (stop - first)).mapM fun k => v.text (first + k))

theorem Faithful.textBetween (h : v.Faithful) (first stop : Nat) :
    v.textBetween first stop = .ok (v.stream.textBetween first stop) := by
  rw [View.textBetween, Checked.mapM_ok fun k _ => h.text (first + k)]
  rfl

def bodyOpenFrom (v : View) : Nat → Nat → Checked (Option Nat)
  | 0, _ => .error .unfinished
  | fuel + 1, i =>
      if v.stream.atEnd i || v.stream.punct i ';' then return none
      else if v.stream.punct i '\x7b' then return some i
      else if v.stream.punct i '(' || v.stream.punct i '[' then
        match v.partner? i with
        | some close => bodyOpenFrom v fuel (close + 1)
        | none => return none
      else if v.stream.punct i ':' && v.stream.punct (i + 1) '\x7b' then
        match v.partner? (i + 1) with
        | some close => bodyOpenFrom v fuel (close + 1)
        | none => return none
      else bodyOpenFrom v fuel (i + 1)

theorem Faithful.bodyOpenFrom (h : v.Faithful) (fuel : Nat) : ∀ {i : Nat},
    v.stream.size - (i + 1) < fuel → v.bodyOpenFrom fuel i = .ok (v.stream.bodyOpenFrom fuel i) := by
  induction fuel with
  | zero => exact fun hfuel => absurd hfuel (Nat.not_lt_zero _)
  | succ fuel ih =>
    intro i hfuel
    rw [View.bodyOpenFrom, Stream.bodyOpenFrom, h.partner?, h.partner?]
    cases hend : v.stream.atEnd i with
    | true => rfl
    | false =>
      have hlt := h.lt_size_of_not_atEnd hend
      split
      · rfl
      split
      · rfl
      split
      · cases hclose : v.stream.partner? i with
        | none => rfl
        | some close =>
          have := h.lt_partner hclose
          exact ih (by omega)
      split
      · cases hclose : v.stream.partner? (i + 1) with
        | none => rfl
        | some close =>
          have := h.lt_partner hclose
          exact ih (by omega)
      · exact ih (by omega)

def bodyOpen (v : View) (i : Nat) : Checked (Option Nat) := v.bodyOpenFrom v.stream.size i

theorem Faithful.bodyOpen (h : v.Faithful) (i : Nat) :
    v.bodyOpen i = .ok (v.stream.bodyOpen i) := by
  have := h.nonempty
  exact h.bodyOpenFrom _ (by omega)

def skipWords (v : View) (words : List String) : Nat → Nat → Checked Nat
  | 0, _ => .error .unfinished
  | fuel + 1, i =>
      if v.stream.ident i then do
        if words.contains (← v.text i) then skipWords v words fuel (i + 1) else return i
      else return i

theorem Faithful.skipWords (h : v.Faithful) (words : List String) (fuel : Nat) : ∀ {i : Nat},
    v.stream.size - (i + 1) < fuel →
      v.skipWords words fuel i = .ok (v.stream.skipWords words fuel i) := by
  induction fuel with
  | zero => exact fun hfuel => absurd hfuel (Nat.not_lt_zero _)
  | succ fuel ih =>
    intro i hfuel
    rw [View.skipWords, Stream.skipWords, h.text, Checked.ok_bind]
    cases hident : v.stream.ident i with
    | false => rfl
    | true =>
      have hlt := h.lt_size_of_ident hident
      simp only [if_true, Bool.true_and]
      split
      · exact ih (by omega)
      · rfl

def skipDotted (v : View) : Nat → Nat → Checked Nat
  | 0, _ => .error .unfinished
  | fuel + 1, i =>
      if v.stream.ident i || v.stream.punct i '.' then skipDotted v fuel (i + 1) else return i

theorem Faithful.skipDotted (h : v.Faithful) (fuel : Nat) : ∀ {i : Nat},
    v.stream.size - (i + 1) < fuel → v.skipDotted fuel i = .ok (v.stream.skipDotted fuel i) := by
  induction fuel with
  | zero => exact fun hfuel => absurd hfuel (Nat.not_lt_zero _)
  | succ fuel ih =>
    intro i hfuel
    rw [View.skipDotted, Stream.skipDotted]
    split
    · rename_i hi
      have hlt : i + 1 < v.stream.size := by
        rcases Bool.or_eq_true_iff.mp hi with hident | hdot
        · exact h.lt_size_of_ident hident
        · exact h.lt_size_of_punct hdot
      exact ih (by omega)
    · rfl

def typeMark (v : View) (i : Nat) : Checked Bool := do
  return (← v.word i "type") && v.stream.ident (i + 1) && !(← v.word (i + 1) "as")

theorem Faithful.typeMark (h : v.Faithful) (i : Nat) : v.typeMark i = .ok (v.stream.typeMark i) := by
  simp only [View.typeMark, h.word, Checked.ok_bind]
  rfl

def fromClause (v : View) (i : Nat) : Checked Bool := do
  return (← v.word i "from") && v.stream.isString (i + 1)

theorem Faithful.fromClause (h : v.Faithful) (i : Nat) :
    v.fromClause i = .ok (v.stream.fromClause i) := by
  simp only [View.fromClause, h.word, Checked.ok_bind]
  rfl

def renamed (v : View) (k : Nat) : Checked Bool := do
  return (← v.word (k + 1) "as") && v.stream.ident (k + 2)

theorem Faithful.renamed (h : v.Faithful) (k : Nat) :
    v.renamed k = .ok (v.stream.word (k + 1) "as" && v.stream.ident (k + 2)) := by
  simp only [View.renamed, h.word, Checked.ok_bind]
  rfl

def namedImports (v : View) (typeOnly : Bool) (close : Nat) : Nat → Nat → Checked (List ImportBinding)
  | 0, _ => .error .unfinished
  | fuel + 1, k =>
      if close ≤ k then return []
      else do
        let marked ← v.typeMark k
        let k := if marked then k + 1 else k
        if !v.stream.ident k && !v.stream.isLiteral k then namedImports v typeOnly close fuel (k + 1)
        else
          let imported := (← v.literal? k).getD (← v.text k)
          let renamed ← v.renamed k
          let given ← v.text (k + 2)
          let binding : ImportBinding :=
            if renamed then ⟨imported, given, (v.stream.token (k + 2)).span, typeOnly || marked⟩
            else ⟨imported, imported, (v.stream.token k).span, typeOnly || marked⟩
          let next := if renamed then k + 3 else k + 1
          return binding :: (← namedImports v typeOnly close fuel (v.stream.skipComma next))

theorem Faithful.namedImports (h : v.Faithful) (typeOnly : Bool) (close fuel : Nat) : ∀ {k : Nat},
    close - k < fuel → v.namedImports typeOnly close fuel k =
      .ok (Script.namedImports v.stream typeOnly close fuel k) := by
  induction fuel with
  | zero => exact fun hfuel => absurd hfuel (Nat.not_lt_zero _)
  | succ fuel ih =>
    intro k hfuel
    rw [View.namedImports, Script.namedImports]
    split
    · rfl
    simp only [h.typeMark, h.literal?, h.text, h.renamed, Checked.ok_bind]
    generalize hk' : (if v.stream.typeMark k = true then k + 1 else k) = k'
    have hle : k ≤ k' := by
      subst hk'
      split <;> omega
    split
    · exact ih (by omega)
    · have hnext : k' < (if (v.stream.word (k' + 1) "as" && v.stream.ident (k' + 2)) = true then k' + 3
          else k' + 1) := by
        split <;> omega
      have hskip := v.stream.le_skipComma (if (v.stream.word (k' + 1) "as" &&
        v.stream.ident (k' + 2)) = true then k' + 3 else k' + 1)
      rw [ih (by omega)]
      rfl

def defaultImport (v : View) (typeOnly : Bool) (j : Nat) : Checked (List ImportBinding × Nat) := do
  if v.stream.ident j && !(← v.word j "from") then
    return ([⟨"default", ← v.text j, (v.stream.token j).span, typeOnly⟩], v.stream.skipComma (j + 1))
  else return ([], j)

theorem Faithful.defaultImport (h : v.Faithful) (typeOnly : Bool) (j : Nat) :
    v.defaultImport typeOnly j = .ok (Script.defaultImport v.stream typeOnly j) := by
  simp only [View.defaultImport, Script.defaultImport, h.word, h.text, Checked.ok_bind]
  split <;> rfl

def namespaceImport (v : View) (typeOnly : Bool) (j : Nat) : Checked (List ImportBinding × Nat) := do
  if v.stream.punct j '*' && (← v.word (j + 1) "as") && v.stream.ident (j + 2) then
    return ([⟨"*", ← v.text (j + 2), (v.stream.token (j + 2)).span, typeOnly⟩], j + 3)
  else return ([], j)

theorem Faithful.namespaceImport (h : v.Faithful) (typeOnly : Bool) (j : Nat) :
    v.namespaceImport typeOnly j = .ok (Script.namespaceImport v.stream typeOnly j) := by
  simp only [View.namespaceImport, Script.namespaceImport, h.word, h.text, Checked.ok_bind]
  split <;> rfl

def bracedImports (v : View) (typeOnly : Bool) (j : Nat) :
    Checked (Option (List ImportBinding × Nat)) :=
  if v.stream.punct j '\x7b' then
    match v.partner? j with
    | some close => do
        return some (← v.namedImports typeOnly close v.stream.size (j + 1), close + 1)
    | none => return none
  else return some ([], j)

theorem Faithful.bracedImports (h : v.Faithful) (typeOnly : Bool) (j : Nat) :
    v.bracedImports typeOnly j = .ok (Script.bracedImports v.stream typeOnly j) := by
  rw [View.bracedImports, Script.bracedImports, h.partner?]
  split
  · cases hclose : v.stream.partner? j with
    | none => rfl
    | some close =>
      have := h.lt_partner hclose
      dsimp only
      rw [h.namedImports typeOnly close _ (by omega)]
      rfl
  · rfl

def importAt (v : View) (start : Nat) (o : Outline) : Checked (Option (Outline × Nat)) := do
  let typeOnly := (← v.word (start + 1) "type") && !v.stream.punct (start + 2) ',' &&
    !(← v.word (start + 2) "from")
  let j := if typeOnly then start + 2 else start + 1
  if v.stream.isString j then
    match ← v.literal? j with
    | none => return none
    | some specifier =>
        let stop := v.stream.skipSemicolon (j + 1)
        let decl : Import := ⟨specifier, (v.stream.token j).span, [], typeOnly,
          v.stream.span start (← Checked.sub stop 1)⟩
        return some ({ o with imports := o.imports ++ [decl] }, stop)
  else
    let (first, j) ← v.defaultImport typeOnly j
    let (whole, j) ← v.namespaceImport typeOnly j
    match ← v.bracedImports typeOnly j with
    | none => return none
    | some (named, j) =>
        if !(← v.fromClause j) then return none
        else match ← v.literal? (j + 1) with
          | none => return none
          | some specifier =>
              let stop := v.stream.skipSemicolon (j + 2)
              let span := v.stream.span start (← Checked.sub stop 1)
              let decl : Import := ⟨specifier, (v.stream.token (j + 1)).span, first ++ whole ++ named,
                typeOnly, span⟩
              return some ({ o with
                imports := o.imports ++ [decl]
                erased := if typeOnly then o.erased ++ [span] else o.erased }, stop)

theorem sub_skipSemicolon (s : Stream) (i : Nat) :
    Checked.sub (s.skipSemicolon (i + 1)) 1 = .ok (s.skipSemicolon (i + 1) - 1) := by
  have := s.le_skipSemicolon (i + 1)
  exact Checked.sub_of_le (by omega)

theorem Faithful.importAt (h : v.Faithful) (start : Nat) (o : Outline) :
    v.importAt start o = .ok (Script.importAt v.stream start o) := by
  unfold View.importAt Script.importAt
  simp only [h.word, h.literal?, h.defaultImport, h.namespaceImport, h.bracedImports, h.fromClause,
    sub_skipSemicolon, Checked.ok_bind]
  generalize (v.stream.word (start + 1) "type" && !v.stream.punct (start + 2) ',' &&
    !v.stream.word (start + 2) "from") = typeOnly
  generalize (if typeOnly = true then start + 2 else start + 1) = j
  split
  · cases v.stream.literal? j <;> rfl
  · cases Script.bracedImports v.stream _ _ with
    | none => rfl
    | some named =>
      obtain ⟨named, j⟩ := named
      rw [Option.bind_eq_bind, Option.bind_some]
      dsimp only
      cases v.stream.fromClause j with
      | false => rfl
      | true => cases v.stream.literal? (j + 1) <;> rfl

def dynamicImportAt (v : View) (i : Nat) (o : Outline) : Checked Outline := do
  match ← v.literal? (i + 2) with
  | some specifier =>
      if v.stream.punct (i + 3) ')' then
        return { o with
          dynamicImports := o.dynamicImports ++ [⟨specifier, (v.stream.token (i + 2)).span⟩] }
      else return o
  | none => return o

theorem Faithful.dynamicImportAt (h : v.Faithful) (i : Nat) (o : Outline) :
    v.dynamicImportAt i o = .ok (Script.dynamicImportAt v.stream i o) := by
  simp only [View.dynamicImportAt, Script.dynamicImportAt, h.literal?, Checked.ok_bind]
  cases v.stream.literal? (i + 2) with
  | none => rfl
  | some specifier =>
    dsimp only
    split <;> rfl

def declaredName? (v : View) (i : Nat) : Checked (Option String) := do
  let k ← v.skipWords declarationModifiers v.stream.size i
  let k := if (← v.word k "const") && (← v.word (k + 1) "enum") then k + 1 else k
  let keyword ← v.text k
  if keyword = "function" then
    let nameAt := if v.stream.punct (k + 1) '*' then k + 2 else k + 1
    if v.stream.ident nameAt then return some (← v.text nameAt) else return none
  else if declarationKeywords.contains keyword then
    if v.stream.ident (k + 1) && !(← v.word (k + 1) "extends") && !(← v.word (k + 1) "implements") then
      return some (← v.text (k + 1))
    else return none
  else return none

theorem Faithful.skipWords_size (h : v.Faithful) (words : List String) (i : Nat) :
    v.skipWords words v.stream.size i = .ok (v.stream.skipWords words v.stream.size i) := by
  have := h.nonempty
  exact h.skipWords words _ (by omega)

theorem Faithful.declaredName? (h : v.Faithful) (i : Nat) :
    v.declaredName? i = .ok (Script.declaredName? v.stream i) := by
  simp only [View.declaredName?, Script.declaredName?, h.skipWords_size, h.word, h.text,
    Checked.ok_bind, Checked.pure_eq, apply_ite Except.ok]

def listedExports (v : View) (close : Nat) : Nat → Nat → Checked (List ReexportName)
  | 0, _ => .error .unfinished
  | fuel + 1, k =>
      if close ≤ k then return []
      else do
        let k := if ← v.typeMark k then k + 1 else k
        if !v.stream.ident k then listedExports v close fuel (k + 1)
        else
          let renamed ← v.renamed k
          let name ← v.text k
          let given ← v.text (k + 2)
          let next := if renamed then k + 3 else k + 1
          return ⟨name, if renamed then given else name, (v.stream.token k).span⟩ ::
            (← listedExports v close fuel (v.stream.skipComma next))

theorem Faithful.listedExports (h : v.Faithful) (close fuel : Nat) : ∀ {k : Nat},
    close - k < fuel → v.listedExports close fuel k =
      .ok (Script.listedExports v.stream close fuel k) := by
  induction fuel with
  | zero => exact fun hfuel => absurd hfuel (Nat.not_lt_zero _)
  | succ fuel ih =>
    intro k hfuel
    rw [View.listedExports, Script.listedExports]
    split
    · rfl
    simp only [h.typeMark, h.text, h.renamed, Checked.ok_bind]
    generalize hk' : (if v.stream.typeMark k = true then k + 1 else k) = k'
    have hle : k ≤ k' := by
      subst hk'
      split <;> omega
    split
    · exact ih (by omega)
    · have hnext : k' < (if (v.stream.word (k' + 1) "as" && v.stream.ident (k' + 2)) = true then k' + 3
          else k' + 1) := by
        split <;> omega
      have hskip := v.stream.le_skipComma (if (v.stream.word (k' + 1) "as" &&
        v.stream.ident (k' + 2)) = true then k' + 3 else k' + 1)
      rw [ih (by omega)]
      rfl

def exportAllAt (v : View) (start j : Nat) (typeOnly : Bool) (o : Outline) :
    Checked (Option (Outline × Nat)) := do
  let named := (← v.word (j + 1) "as") && v.stream.ident (j + 2)
  let given ← v.text (j + 2)
  let names : Option (List ReexportName) :=
    if named then some [⟨"*", given, (v.stream.token (j + 2)).span⟩] else none
  let k := if named then j + 3 else j + 1
  if !(← v.fromClause k) then return none
  else match ← v.literal? (k + 1) with
    | none => return none
    | some specifier =>
        let stop := v.stream.skipSemicolon (k + 2)
        let o := o.erase typeOnly (v.stream.span start (← Checked.sub stop 1))
        let decl : Reexport := ⟨specifier, (v.stream.token (k + 1)).span, names, typeOnly⟩
        return some ({ o with reexports := o.reexports ++ [decl] }, stop)

theorem Faithful.exportAllAt (h : v.Faithful) (start j : Nat) (typeOnly : Bool) (o : Outline) :
    v.exportAllAt start j typeOnly o = .ok (Script.exportAllAt v.stream start j typeOnly o) := by
  unfold View.exportAllAt Script.exportAllAt
  simp only [h.word, h.text, h.fromClause, h.literal?, sub_skipSemicolon, Checked.ok_bind]
  generalize (if (v.stream.word (j + 1) "as" && v.stream.ident (j + 2)) = true then j + 3
    else j + 1) = k
  cases v.stream.fromClause k with
  | false => rfl
  | true => cases v.stream.literal? (k + 1) <;> rfl

def exportListAt (v : View) (start j : Nat) (typeOnly : Bool) (o : Outline) :
    Checked (Option (Outline × Nat)) := do
  match v.partner? j with
  | none => return none
  | some close =>
      let names ← v.listedExports close v.stream.size (j + 1)
      let after := close + 1
      if ← v.fromClause after then
        match ← v.literal? (after + 1) with
        | none => return none
        | some specifier =>
            let stop := v.stream.skipSemicolon (after + 2)
            let decl : Reexport := ⟨specifier, (v.stream.token (after + 1)).span, some names, typeOnly⟩
            let o := { o with reexports := o.reexports ++ [decl] }
            return some (o.erase typeOnly (v.stream.span start (← Checked.sub stop 1)), stop)
      else
        let stop := v.stream.skipSemicolon after
        return some ((o.exportNames names).erase typeOnly
          (v.stream.span start (← Checked.sub stop 1)), stop)

theorem Faithful.exportListAt (h : v.Faithful) (start j : Nat) (typeOnly : Bool) (o : Outline) :
    v.exportListAt start j typeOnly o = .ok (Script.exportListAt v.stream start j typeOnly o) := by
  unfold View.exportListAt Script.exportListAt
  rw [h.partner?]
  cases hclose : v.stream.partner? j with
  | none => rfl
  | some close =>
    have := h.lt_partner hclose
    dsimp only
    rw [h.listedExports close _ (by omega)]
    simp only [h.fromClause, h.literal?, sub_skipSemicolon, Checked.ok_bind, Option.bind_eq_bind,
      Option.bind_some]
    cases v.stream.fromClause (close + 1) with
    | false => rfl
    | true => cases v.stream.literal? (close + 1 + 1) <;> rfl

def exportDeclarationAt (v : View) (start j : Nat) (o : Outline) : Checked Outline := do
  let k ← v.skipWords declarationModifiers v.stream.size j
  if declarationKeywords.contains (← v.text k) then
    match ← v.declaredName? k with
    | some name =>
        return { o with exports := o.exports ++ [⟨name, some name, (v.stream.token start).span⟩] }
    | none => return o
  else return o

theorem Faithful.exportDeclarationAt (h : v.Faithful) (start j : Nat) (o : Outline) :
    v.exportDeclarationAt start j o = .ok (Script.exportDeclarationAt v.stream start j o) := by
  unfold View.exportDeclarationAt Script.exportDeclarationAt
  simp only [h.skipWords_size, h.text, h.declaredName?, Checked.ok_bind]
  split
  · cases Script.declaredName? v.stream _ <;> rfl
  · rfl

def exportAt (v : View) (start : Nat) (o : Outline) : Checked (Option (Outline × Nat)) := do
  let typeOnly := (← v.word (start + 1) "type") &&
    (v.stream.punct (start + 2) '\x7b' || v.stream.punct (start + 2) '*')
  let j := if typeOnly then start + 2 else start + 1
  if v.stream.punct j '*' then v.exportAllAt start j typeOnly o
  else if v.stream.punct j '\x7b' then v.exportListAt start j typeOnly o
  else if ← v.word j "default" then
    return some ({ o with
      exports := o.exports ++ [⟨"default", ← v.declaredName? (j + 1), (v.stream.token j).span⟩] }, j + 1)
  else return some (← v.exportDeclarationAt start j o, j)

theorem Faithful.exportAt (h : v.Faithful) (start : Nat) (o : Outline) :
    v.exportAt start o = .ok (Script.exportAt v.stream start o) := by
  unfold View.exportAt Script.exportAt
  simp only [h.word, h.exportAllAt, h.exportListAt, h.declaredName?, h.exportDeclarationAt,
    Checked.ok_bind, Checked.pure_eq, apply_ite Except.ok]

end View

end Recompile.Script
