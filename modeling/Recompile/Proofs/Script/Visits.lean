import Recompile.Proofs.Data.OrdMap
import Recompile.Proofs.Emit.Erasure
import Recompile.Proofs.Script.Matching

/-!
What the pass over the tokens of a script looks at. An import or export statement outside all braces is
taken up as a whole; every other token before the end is looked at by itself, for an annotation or for a
name that is read.
-/

namespace Recompile.Script

variable {s : Stream}

/-- The end of the import or export statement that starts at a position. -/
def statementStop? (s : Stream) (i : Nat) : Option Nat :=
  if s.statementStart i then
    if s.text i = "import" then
      if s.punct (i + 1) '(' then none else (importAt s i Outline.empty).map (·.2)
    else if s.text i = "export" then (exportAt s i Outline.empty).map (·.2)
    else none
  else none

/-- The names that the statement at a position exports from the module itself, in a list. -/
def ownNames (s : Stream) (i : Nat) : List ReexportName :=
  let j := if s.word (i + 1) "type" && (s.punct (i + 2) '\x7b' || s.punct (i + 2) '*') then i + 2 else i + 1
  if s.text i = "export" && s.punct j '\x7b' then
    match s.partner? j with
    | some close => if s.fromClause (close + 1) then [] else listedExports s close s.size (j + 1)
    | none => []
  else []

/-- The end of the statement that is taken up at a position, at a depth of braces. -/
def passed? (s : Stream) (depth i : Nat) : Option Nat :=
  if s.ident i && depth = 0 then statementStop? s i else none

/-- The import and export statements outside all braces, from a position on, by start and end. -/
def statementsFrom (s : Stream) : Nat → Nat → Nat → List (Nat × Nat)
  | 0, _, _ => []
  | fuel + 1, depth, i =>
      if s.atEnd i then []
      else match passed? s depth i with
        | some stop => (i, stop) :: statementsFrom s fuel 0 stop
        | none => statementsFrom s fuel (depthAfter s depth i) (i + 1)

def visitsFrom (s : Stream) : Nat → Nat → Nat → List Nat
  | 0, _, _ => []
  | fuel + 1, depth, i =>
      if s.atEnd i then []
      else match passed? s depth i with
        | some stop => visitsFrom s fuel 0 stop
        | none => i :: visitsFrom s fuel (depthAfter s depth i) (i + 1)

theorem statementsFrom_succ (s : Stream) (fuel depth i : Nat) : statementsFrom s (fuel + 1) depth i =
    if s.atEnd i then []
    else match passed? s depth i with
      | some stop => (i, stop) :: statementsFrom s fuel 0 stop
      | none => statementsFrom s fuel (depthAfter s depth i) (i + 1) := rfl

theorem visitsFrom_succ (s : Stream) (fuel depth i : Nat) : visitsFrom s (fuel + 1) depth i =
    if s.atEnd i then []
    else match passed? s depth i with
      | some stop => visitsFrom s fuel 0 stop
      | none => i :: visitsFrom s fuel (depthAfter s depth i) (i + 1) := rfl

def statements (s : Stream) : List (Nat × Nat) := statementsFrom s s.size 0 0

def visits (s : Stream) : List Nat := visitsFrom s s.size 0 0

/-- A token of an import or export statement outside all braces. -/
def TakenUp (s : Stream) (p : Nat) : Prop := ∃ x ∈ statements s, x.1 ≤ p ∧ p < x.2

def annotated (s : Stream) (i : Nat) : List Component :=
  if s.punct i '@' && s.word (i + 1) "Component" then (componentAt? s i).toList else []

/-- A name is read at a position: a word that does not come right after a dot. -/
structure ReadAt (s : Stream) (p : Nat) (name : String) : Prop where
  ident : s.ident p = true
  text : s.text p = name
  free : afterDot s p = false

def Outline.Keeps (o o' : Outline) : Prop := o'.components = o.components ∧ o'.references = o.references

theorem importAt_keeps {i next : Nat} {o o' : Outline} (h : importAt s i o = some (o', next)) : o.Keeps o' := by
  unfold importAt at h
  dsimp only at h
  generalize (s.word (i + 1) "type" && !s.punct (i + 2) ',' && !s.word (i + 2) "from") = typeOnly at h
  generalize (if typeOnly = true then i + 2 else i + 1) = j at h
  split at h
  · obtain ⟨specifier, -, heq⟩ := Option.map_eq_some_iff.mp h
    cases heq
    exact ⟨rfl, rfl⟩
  · obtain ⟨⟨named, k⟩, -, h⟩ := Option.bind_eq_some_iff.mp h
    dsimp only at h
    split at h
    · cases h
    · obtain ⟨specifier, -, h⟩ := Option.bind_eq_some_iff.mp h
      cases h
      exact ⟨rfl, rfl⟩

theorem erase_keeps (o : Outline) (typeOnly : Bool) (x : Span) : o.Keeps (o.erase typeOnly x) := by
  unfold Outline.erase
  split <;> exact ⟨rfl, rfl⟩

theorem exportAllAt_keeps {start j next : Nat} {typeOnly : Bool} {o o' : Outline}
    (h : exportAllAt s start j typeOnly o = some (o', next)) : o.Keeps o' := by
  unfold exportAllAt at h
  dsimp only at h
  generalize (if (s.word (j + 1) "as" && s.ident (j + 2)) = true then j + 3 else j + 1) = k at h
  split at h
  · cases h
  · obtain ⟨specifier, -, h⟩ := Option.bind_eq_some_iff.mp h
    cases h
    exact erase_keeps o typeOnly _

theorem exportDeclarationAt_keeps (start j : Nat) (o : Outline) :
    o.Keeps (exportDeclarationAt s start j o) := by
  unfold exportDeclarationAt
  dsimp only
  split
  · split <;> exact ⟨rfl, rfl⟩
  · exact ⟨rfl, rfl⟩

theorem declarationAt_keeps (i : Nat) (o : Outline) : o.Keeps (declarationAt s i o) := by
  unfold declarationAt
  split
  · split
    · exact ⟨rfl, rfl⟩
    · split <;> exact ⟨rfl, rfl⟩
  · exact ⟨rfl, rfl⟩

theorem dynamicImportAt_keeps (i : Nat) (o : Outline) : o.Keeps (dynamicImportAt s i o) := by
  unfold dynamicImportAt
  split
  · split <;> exact ⟨rfl, rfl⟩
  · exact ⟨rfl, rfl⟩

def Outline.Reads (o : Outline) (more : String → Prop) (o' : Outline) : Prop :=
  o'.components = o.components ∧
    ∀ name, o'.references.contains name = true ↔ o.references.contains name = true ∨ more name

theorem Outline.Keeps.reads {o o' : Outline} (h : o.Keeps o') {more : String → Prop} (hnone : ∀ name, ¬ more name) :
    o.Reads more o' :=
  ⟨h.1, fun name => by rw [h.2, or_iff_left (hnone name)]⟩

theorem refer_reads {o o' : Outline} (h : o.Keeps o') {i : Nat} (hident : s.ident i = true) :
    o.Reads (ReadAt s i) (o'.refer s i) := by
  unfold Outline.refer
  split
  · rename_i hdot
    refine h.reads fun name hread => ?_
    rw [hread.free] at hdot
    cases hdot
  · rename_i hdot
    refine ⟨h.1, fun name => ?_⟩
    rw [OrdSet.contains_add, h.2, Bool.or_eq_true, or_comm, beq_iff_eq, Std.LawfulEqOrd.compare_eq_iff_eq]
    refine or_congr_right ⟨fun hname => ⟨hident, hname.symm, Bool.eq_false_iff.mpr hdot⟩, fun hread => ?_⟩
    exact hread.text.symm

theorem Outline.Reads.erase {o o' : Outline} {more : String → Prop} (h : o.Reads more o') (typeOnly : Bool)
    (x : Span) : o.Reads more (o'.erase typeOnly x) := by
  obtain ⟨hcomponents, hreferences⟩ := erase_keeps o' typeOnly x
  refine ⟨hcomponents.trans h.1, fun name => ?_⟩
  rw [hreferences]
  exact h.2 name

theorem exportListAt_reads {i j next : Nat} {typeOnly : Bool} {o o' : Outline}
    (h : exportListAt s i j typeOnly o = some (o', next)) :
    o.Reads (fun name => ∃ n ∈ (match s.partner? j with
      | some close => if s.fromClause (close + 1) then [] else listedExports s close s.size (j + 1)
      | none => []), n.imported = name) o' := by
  unfold exportListAt at h
  obtain ⟨close, hclose, h⟩ := Option.bind_eq_some_iff.mp h
  rw [hclose]
  dsimp only at h ⊢
  split at h
  · rename_i hfrom
    obtain ⟨specifier, -, h⟩ := Option.bind_eq_some_iff.mp h
    cases h
    rw [if_pos hfrom]
    refine Outline.Reads.erase (Outline.Keeps.reads ⟨rfl, rfl⟩ ?_) typeOnly _
    rintro name ⟨n, hn, -⟩
    cases hn
  · rename_i hfrom
    cases h
    rw [if_neg hfrom]
    have hnames : ∀ names, o.Reads (fun name => ∃ n ∈ names, n.imported = name) (o.exportNames names) :=
      fun names => ⟨rfl, fun name => by rw [Outline.exportNames, OrdSet.mem_addAll, List.mem_map]⟩
    exact (hnames _).erase typeOnly _

theorem exportAt_reads {i next : Nat} {o o' : Outline} (hword : s.text i = "export")
    (h : exportAt s i o = some (o', next)) :
    o.Reads (fun name => ∃ n ∈ ownNames s i, n.imported = name) o' := by
  unfold exportAt at h
  unfold ownNames
  dsimp only at h ⊢
  generalize (s.word (i + 1) "type" &&
    (s.punct (i + 2) '\x7b' || s.punct (i + 2) '*')) = typeOnly at h ⊢
  generalize (if typeOnly = true then i + 2 else i + 1) = j at h ⊢
  have hother : ∀ {o'}, o.Keeps o' → s.punct j '\x7b' = false →
      o.Reads (fun name => ∃ n ∈ (if (decide (s.text i = "export") && s.punct j '\x7b') = true then
        match s.partner? j with
        | some close => if s.fromClause (close + 1) then [] else listedExports s close s.size (j + 1)
        | none => [] else []), n.imported = name) o' := by
    intro o' hkeeps hbrace
    refine hkeeps.reads ?_
    simp [hbrace]
  split at h
  · rename_i hstar
    refine hother (exportAllAt_keeps h) (Bool.eq_false_iff.mpr fun hbrace => ?_)
    simp only [Stream.punct, Token.isPunct, decide_eq_true_eq] at hstar hbrace
    rw [hstar] at hbrace
    cases hbrace
  split at h
  · rename_i hbrace
    rw [if_pos (by simp [hword, hbrace])]
    exact exportListAt_reads h
  rename_i hbrace
  split at h
  · obtain ⟨rfl, -⟩ := Prod.mk.inj (Option.some.inj h)
    exact hother ⟨rfl, rfl⟩ (Bool.eq_false_iff.mpr hbrace)
  · obtain ⟨rfl, -⟩ := Prod.mk.inj (Option.some.inj h)
    exact hother (exportDeclarationAt_keeps i j o) (Bool.eq_false_iff.mpr hbrace)

theorem rel_map_snd {o : Outline} {r a : Option (Outline × Nat)} (h : Option.Rel (Alongside o) r a) :
    r.map (·.2) = a.map (·.2) := by
  cases h with
  | none => rfl
  | some h => exact congrArg some h.2

theorem wordAt_statement {i stop : Nat} (hstop : statementStop? s i = some stop) (o : Outline) :
    (wordAt s true i o).2 = stop ∧
      o.Reads (fun name => ∃ n ∈ ownNames s i, n.imported = name) (wordAt s true i o).1 := by
  unfold statementStop? at hstop
  split at hstop
  · rename_i hstart
    unfold wordAt
    simp only [hstart, Bool.true_and, ↓reduceIte]
    split at hstop
    · rename_i himport
      split at hstop
      · cases hstop
      · rename_i hcall
        simp only [himport, hcall, decide_true, Bool.and_false, Bool.false_eq_true, ↓reduceIte]
        rw [← rel_map_snd (importAt_grows i o)] at hstop
        obtain ⟨r, hr, rfl⟩ := Option.map_eq_some_iff.mp hstop
        rw [hr]
        refine ⟨rfl, (importAt_keeps hr).reads ?_⟩
        simp [ownNames, himport]
    split at hstop
    · rename_i himport hexport
      simp only [hexport, String.reduceEq, decide_false, Bool.false_and, Bool.false_eq_true, ↓reduceIte]
      rw [← rel_map_snd (exportAt_grows i o)] at hstop
      obtain ⟨r, hr, rfl⟩ := Option.map_eq_some_iff.mp hstop
      rw [hr]
      exact ⟨rfl, exportAt_reads hexport hr⟩
    · cases hstop
  · cases hstop

theorem wordAt_visit {i : Nat} {top : Bool} (hident : s.ident i = true)
    (hstop : top = true → statementStop? s i = none) (o : Outline) :
    (wordAt s top i o).2 = i + 1 ∧ o.Reads (ReadAt s i) (wordAt s top i o).1 := by
  unfold wordAt
  dsimp only
  split
  · exact ⟨rfl, refer_reads (dynamicImportAt_keeps i o) hident⟩
  rename_i hcall
  split
  · rename_i htop
    obtain ⟨rfl, hstart⟩ := Bool.and_eq_true_iff.mp htop
    have hnone := hstop rfl
    unfold statementStop? at hnone
    rw [if_pos hstart] at hnone
    split
    · rename_i himport
      rw [if_pos himport, if_neg (by simpa [himport] using hcall), ← rel_map_snd (importAt_grows i o),
        Option.map_eq_none_iff] at hnone
      rw [hnone]
      exact ⟨rfl, refer_reads ⟨rfl, rfl⟩ hident⟩
    rename_i himport
    split
    · rename_i hexport
      rw [if_neg himport, if_pos hexport, ← rel_map_snd (exportAt_grows i o), Option.map_eq_none_iff] at hnone
      rw [hnone]
      exact ⟨rfl, refer_reads ⟨rfl, rfl⟩ hident⟩
    · exact ⟨rfl, refer_reads (declarationAt_keeps i o) hident⟩
  · exact ⟨rfl, refer_reads ⟨rfl, rfl⟩ hident⟩

theorem passed?_eq_some {depth i stop : Nat} (h : passed? s depth i = some stop) :
    s.ident i = true ∧ depth = 0 ∧ statementStop? s i = some stop := by
  unfold passed? at h
  split at h
  · rename_i htop
    obtain ⟨hident, hdepth⟩ := Bool.and_eq_true_iff.mp htop
    exact ⟨hident, of_decide_eq_true hdepth, h⟩
  · cases h

theorem outlineFrom_pass {depth i stop : Nat} (h : passed? s depth i = some stop) (fuel : Nat) (o : Outline) :
    ∃ o', outlineFrom s (fuel + 1) depth i o = outlineFrom s fuel 0 stop o' ∧
      o.Reads (fun name => ∃ n ∈ ownNames s i, n.imported = name) o' := by
  obtain ⟨hident, rfl, hstop⟩ := passed?_eq_some h
  obtain ⟨hnext, hreads⟩ := wordAt_statement hstop o
  have hkind : (s.token i).kind = .ident := by simpa [Stream.ident] using hident
  refine ⟨(wordAt s true i o).1, ?_, hreads⟩
  rw [outlineFrom_succ, hkind]
  simp only [decide_true, hnext]

theorem outlineFrom_visit {depth i : Nat} (hend : s.atEnd i = false) (h : passed? s depth i = none)
    (fuel : Nat) (o : Outline) :
    ∃ o', outlineFrom s (fuel + 1) depth i o = outlineFrom s fuel (depthAfter s depth i) (i + 1) o' ∧
      o'.components = o.components ++ annotated s i ∧
      ∀ name, o'.references.contains name = true ↔ o.references.contains name = true ∨ ReadAt s i name := by
  rw [outlineFrom_succ]
  have hplain : s.ident i = false → ∀ name, ¬ ReadAt s i name := fun hident name hread => by
    rw [hread.ident] at hident
    cases hident
  cases hkind : (s.token i).kind with
  | eof => simp [Stream.atEnd, hkind] at hend
  | punct mark =>
    have hread := hplain (by simp [Stream.ident, hkind])
    simp only [depthAfter, annotated, Stream.punct, Token.isPunct, hkind, TokenKind.punct.injEq,
      decide_eq_true_eq, Bool.and_eq_true]
    split
    · rename_i hmark
      subst hmark
      exact ⟨o, rfl, by simp, fun name => (or_iff_left (hread name)).symm⟩
    split
    · rename_i hmark
      subst hmark
      exact ⟨o, rfl, by simp, fun name => (or_iff_left (hread name)).symm⟩
    split
    · exact ⟨_, rfl, rfl, fun name => (or_iff_left (hread name)).symm⟩
    · exact ⟨o, rfl, (List.append_nil _).symm, fun name => (or_iff_left (hread name)).symm⟩
  | ident =>
    have hident : s.ident i = true := by simp [Stream.ident, hkind]
    have hdepth : depthAfter s depth i = depth := by simp [depthAfter, Stream.punct, Token.isPunct, hkind]
    have hnone : annotated s i = [] := by simp [annotated, Stream.punct, Token.isPunct, hkind]
    have hstop : decide (depth = 0) = true → statementStop? s i = none := fun htop => by
      rwa [passed?, hident, htop, Bool.and_true, if_pos rfl] at h
    obtain ⟨hnext, hcomponents, hreads⟩ := wordAt_visit hident hstop o
    simp only [hnext, hdepth, hnone, List.append_nil]
    exact ⟨_, rfl, hcomponents, hreads⟩
  | number | string | template | regex =>
    have hread := hplain (by simp [Stream.ident, hkind])
    have hdepth : depthAfter s depth i = depth := by simp [depthAfter, Stream.punct, Token.isPunct, hkind]
    have hnone : annotated s i = [] := by simp [annotated, Stream.punct, Token.isPunct, hkind]
    simp only [hdepth, hnone, List.append_nil]
    exact ⟨o, rfl, rfl, fun name => (or_iff_left (hread name)).symm⟩

/-- An outline has the components that are annotated where the pass looks, and the names that are read
there or exported by a statement. -/
theorem outlineFrom_visits (fuel : Nat) : ∀ (depth i : Nat) (o : Outline),
    (outlineFrom s fuel depth i o).components =
        o.components ++ (visitsFrom s fuel depth i).flatMap (annotated s) ∧
      ∀ name, (outlineFrom s fuel depth i o).references.contains name = true ↔
        o.references.contains name = true ∨ (∃ p ∈ visitsFrom s fuel depth i, ReadAt s p name) ∨
          ∃ x ∈ statementsFrom s fuel depth i, ∃ n ∈ ownNames s x.1, n.imported = name := by
  induction fuel with
  | zero =>
    refine fun _ _ o => ⟨(List.append_nil _).symm, fun name => (or_iff_left ?_).symm⟩
    rintro (⟨p, hp, -⟩ | ⟨x, hx, -⟩)
    · exact List.not_mem_nil hp
    · exact List.not_mem_nil hx
  | succ fuel ih =>
    intro depth i o
    rw [visitsFrom_succ, statementsFrom_succ]
    cases hend : s.atEnd i with
    | true =>
      have hkind : (s.token i).kind = .eof := by simpa [Stream.atEnd] using hend
      rw [outlineFrom_succ, hkind]
      exact ⟨(List.append_nil _).symm, fun name => by simp⟩
    | false =>
      simp only [Bool.false_eq_true, ↓reduceIte]
      cases hpass : passed? s depth i with
      | some stop =>
        obtain ⟨o', heq, hcomponents, hreads⟩ := outlineFrom_pass hpass fuel o
        obtain ⟨ihcomponents, ihreads⟩ := ih 0 stop o'
        refine ⟨by rw [heq, ihcomponents, hcomponents], fun name => ?_⟩
        rw [heq, ihreads, hreads, or_assoc]
        simp only [List.mem_cons, or_and_right, exists_or, exists_eq_left]
        exact or_congr_right or_left_comm
      | none =>
        obtain ⟨o', heq, hcomponents, hreads⟩ := outlineFrom_visit hend hpass fuel o
        obtain ⟨ihcomponents, ihreads⟩ := ih (depthAfter s depth i) (i + 1) o'
        refine ⟨by rw [heq, ihcomponents, hcomponents, List.flatMap_cons, List.append_assoc], fun name => ?_⟩
        rw [heq, ihreads, hreads]
        simp only [List.mem_cons, or_and_right, exists_or, exists_eq_left, or_assoc]

theorem components_outlineOf (s : Stream) : (outlineOf s).components = (visits s).flatMap (annotated s) :=
  (outlineFrom_visits _ 0 0 Outline.empty).1

theorem references_outlineOf (s : Stream) (name : String) :
    (outlineOf s).references.contains name = true ↔ (∃ p ∈ visits s, ReadAt s p name) ∨
      ∃ x ∈ statements s, ∃ n ∈ ownNames s x.1, n.imported = name := by
  refine ((outlineFrom_visits _ 0 0 Outline.empty).2 name).trans (or_iff_right ?_)
  simp [Outline.empty, OrdMap.contains_eq_isSome]

theorem passed_of_mem_statementsFrom {x : Nat × Nat} (fuel : Nat) : ∀ {depth i : Nat},
    x ∈ statementsFrom s fuel depth i → s.ident x.1 = true ∧ statementStop? s x.1 = some x.2 := by
  induction fuel with
  | zero => exact fun h => (List.not_mem_nil h).elim
  | succ fuel ih =>
    intro depth i h
    rw [statementsFrom_succ] at h
    split at h
    · cases h
    split at h
    · rename_i stop hpass
      rcases List.mem_cons.mp h with rfl | h
      · obtain ⟨hident, -, hstop⟩ := passed?_eq_some hpass
        exact ⟨hident, hstop⟩
      · exact ih h
    · exact ih h

theorem statement_of_mem {x : Nat × Nat} (h : x ∈ statements s) :
    s.ident x.1 = true ∧ statementStop? s x.1 = some x.2 := passed_of_mem_statementsFrom _ h

section Positions

variable (hs : s.Ordered)

include hs

theorem lt_of_passed? {depth i stop : Nat} (h : passed? s depth i = some stop) : i < stop := by
  obtain ⟨-, -, hstop⟩ := passed?_eq_some h
  have hlt := (wordAt_placed hs true i Outline.empty).1
  rwa [(wordAt_statement hstop Outline.empty).1] at hlt

theorem le_of_mem_statementsFrom {x : Nat × Nat} (fuel : Nat) : ∀ {depth i : Nat},
    x ∈ statementsFrom s fuel depth i → i ≤ x.1 := by
  induction fuel with
  | zero => exact fun h => (List.not_mem_nil h).elim
  | succ fuel ih =>
    intro depth i h
    rw [statementsFrom_succ] at h
    split at h
    · cases h
    split at h
    · rename_i stop hpass
      rcases List.mem_cons.mp h with rfl | h
      · exact Nat.le_refl _
      · exact Nat.le_of_lt (Nat.lt_of_lt_of_le (lt_of_passed? hs hpass) (ih h))
    · exact Nat.le_of_succ_le (ih h)

theorem mem_visitsFrom (hend : ∀ i, s.atEnd i = true ↔ s.size ≤ i + 1) {p : Nat} (fuel : Nat) :
    ∀ {depth i : Nat}, s.size ≤ fuel + i → (p ∈ visitsFrom s fuel depth i ↔
      i ≤ p ∧ s.atEnd p = false ∧ ¬ ∃ x ∈ statementsFrom s fuel depth i, x.1 ≤ p ∧ p < x.2) := by
  induction fuel with
  | zero =>
    intro depth i hsize
    refine iff_of_false List.not_mem_nil fun h => ?_
    rw [(hend p).mpr (by omega)] at h
    cases h.2.1
  | succ fuel ih =>
    intro depth i hsize
    rw [visitsFrom_succ, statementsFrom_succ]
    split
    · rename_i hstop
      have hle := (hend i).mp hstop
      refine iff_of_false List.not_mem_nil fun h => ?_
      rw [(hend p).mpr (by omega)] at h
      cases h.2.1
    rename_i hstop
    split
    · rename_i stop hpass
      have hlt := lt_of_passed? hs hpass
      rw [ih (by omega)]
      simp only [List.mem_cons, or_and_right, exists_or, exists_eq_left, not_or, not_and]
      constructor
      · rintro ⟨hle, hp, hout⟩
        exact ⟨by omega, hp, fun _ => by omega, hout⟩
      · rintro ⟨hle, hp, hfirst, hout⟩
        exact ⟨Nat.le_of_not_lt (hfirst hle), hp, hout⟩
    · rw [List.mem_cons, ih (by omega)]
      constructor
      · rintro (rfl | ⟨hle, hp, hout⟩)
        · refine ⟨Nat.le_refl _, Bool.eq_false_iff.mpr hstop, ?_⟩
          rintro ⟨x, hx, hxp, -⟩
          have := le_of_mem_statementsFrom hs fuel hx
          omega
        · exact ⟨by omega, hp, hout⟩
      · rintro ⟨hle, hp, hout⟩
        rcases Nat.eq_or_lt_of_le hle with rfl | hlt
        · exact .inl rfl
        · exact .inr ⟨hlt, hp, hout⟩

end Positions

section Text

variable {id : FileId} {text : String} {p : Nat}

theorem atEnd_iff (id : FileId) (text : String) (i : Nat) :
    (streamOf id text).atEnd i = true ↔ (streamOf id text).size ≤ i + 1 := by
  have hsize : (streamOf id text).size = (scan id text).length := by
    simp [streamOf, Stream.size, Stream.ofTokens]
  rw [hsize, Stream.atEnd, decide_eq_true_eq]
  constructor
  · refine fun hkind => Nat.le_of_not_lt fun hlt => ?_
    obtain ⟨ts, last, hscan, hsolid, -⟩ :=
      @scanFrom_ends id (text.toList.length + 1) 0 none _ (Nat.lt_succ_self text.toList.length)
    rw [← scan] at hscan
    have htoken := (tiles_scan id text).getElem?_token id i
    rw [Nat.min_eq_left (by omega), hscan, List.getElem?_append_left (by simp [hscan] at hlt; omega)] at htoken
    rw [streamOf, hscan] at hkind
    exact (hsolid _ (List.mem_of_getElem? htoken)).kind hkind
  · intro hle
    exact ((tiles_scan id text).getLast_kind ((tiles_scan id text).token_of_le id hle)).1

theorem mem_visits : p ∈ visits (streamOf id text) ↔
    (streamOf id text).atEnd p = false ∧ ¬ TakenUp (streamOf id text) p :=
  (mem_visitsFrom (ordered_streamOf id text) (atEnd_iff id text) _ (Nat.le_refl _)).trans
    (and_iff_right (Nat.zero_le p))

/-- A name is read in a text when it stands outside of import and export statements and not right after
a dot, or when it is in the list of a statement that exports names of the module itself. -/
theorem reads_iff (id : FileId) (text name : String) :
    (analyze id (scan id text)).references.contains name = true ↔
      (∃ p, ReadAt (streamOf id text) p name ∧ ¬ TakenUp (streamOf id text) p) ∨
        ∃ x ∈ statements (streamOf id text), ∃ n ∈ ownNames (streamOf id text) x.1, n.imported = name := by
  refine (references_outlineOf _ name).trans (or_congr_left ?_)
  constructor
  · rintro ⟨p, hp, hread⟩
    exact ⟨p, hread, (mem_visits.mp hp).2⟩
  · rintro ⟨p, hread, hout⟩
    have hend : (streamOf id text).atEnd p = false := by
      have hident := hread.ident
      simp only [Stream.ident, decide_eq_true_eq] at hident
      simp [Stream.atEnd, hident]
    exact ⟨p, mem_visits.mpr ⟨hend, hout⟩, hread⟩

end Text

end Recompile.Script
