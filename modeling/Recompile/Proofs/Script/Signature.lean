import Mathlib.Data.List.Basic
import Recompile.Proofs.Data.OrdMap
import Recompile.Script.Analysis

/-!
What the signature of a module tells of its exports. Its parts are listed without counts, so they
determine what the module exports and passes on exactly up to the number of its exports, and of the
names in each re-export.
-/

namespace Recompile.Script

/-- What a re-export passes on: all names of a module, or some of them under new names. -/
def Reexport.passed (r : Reexport) : String × Option (List (String × String)) :=
  (r.specifier, r.names.map (List.map fun n => (n.imported, n.exported)))

namespace Outline

/-- The counts that the parts of a signature leave out. -/
def counts (o : Outline) : Nat × List (Option Nat) :=
  (o.exports.length, o.reexports.map fun r => r.names.map List.length)

def signedExports (o : Outline) : List (String × String) :=
  (o.exports.map fun e => (e.name, o.surfaceOf e)).mergeSort pairBefore

theorem signatureParts_eq (o : Outline) : o.signatureParts =
    o.signedExports.flatMap (fun p => [p.1, p.2]) ++ o.reexports.flatMap reexportParts := rfl

theorem length_signedExports (o : Outline) : o.signedExports.length = o.exports.length := by
  simp [signedExports]

theorem length_flatMap_pairs (pairs : List (String × String)) :
    (pairs.flatMap fun p => [p.1, p.2]).length = 2 * pairs.length := by
  induction pairs with
  | nil => rfl
  | cons p rest ih =>
    rw [List.flatMap_cons, List.length_append, ih, List.length_cons]
    simp only [List.length_cons, List.length_nil]
    omega

theorem flatMap_pairs_injective : ∀ {ps qs : List (String × String)},
    (ps.flatMap fun p => [p.1, p.2]) = (qs.flatMap fun p => [p.1, p.2]) → ps = qs
  | [], [], _ => rfl
  | [], _ :: _, h => by simp at h
  | _ :: _, [], h => by simp at h
  | p :: ps, q :: qs, h => by
    simp only [List.flatMap_cons, List.cons_append, List.nil_append, List.cons.injEq] at h
    rw [flatMap_pairs_injective h.2.2, Prod.ext h.1 h.2.1]

theorem reexportParts_eq (r : Reexport) : reexportParts r = r.passed.1 ::
    match r.passed.2 with
    | none => ["*"]
    | some names => names.flatMap fun p => [p.1, p.2] := by
  unfold reexportParts Reexport.passed
  cases r.names with
  | none => rfl
  | some names => simp [List.flatMap_map]

theorem passed_of_parts {r r' : Reexport} (h : reexportParts r = reexportParts r')
    (hcount : r.names.map List.length = r'.names.map List.length) : r.passed = r'.passed := by
  rw [reexportParts_eq, reexportParts_eq, List.cons.injEq] at h
  refine Prod.ext h.1 ?_
  cases hr : r.names with
  | none =>
    cases hr' : r'.names with
    | none => simp [Reexport.passed, hr, hr']
    | some names' => simp [hr, hr'] at hcount
  | some names =>
    cases hr' : r'.names with
    | none => simp [hr, hr'] at hcount
    | some names' =>
      have hnames := h.2
      simp only [Reexport.passed, hr, hr', Option.map_some] at hnames ⊢
      rw [flatMap_pairs_injective hnames]

theorem length_reexportParts {r r' : Reexport}
    (hcount : r.names.map List.length = r'.names.map List.length) :
    (reexportParts r).length = (reexportParts r').length := by
  have hlength : ∀ r : Reexport, (reexportParts r).length =
      (r.names.map List.length).elim 2 fun n => 1 + 2 * n := by
    intro r
    rw [reexportParts_eq]
    cases hr : r.names with
    | none => simp [Reexport.passed, hr]
    | some names =>
      simp only [Reexport.passed, hr, Option.map_some, List.length_cons, length_flatMap_pairs,
        List.length_map]
      exact Nat.add_comm _ _
  rw [hlength, hlength, hcount]

theorem passed_of_flatMap_parts : ∀ {rs rs' : List Reexport},
    rs.flatMap reexportParts = rs'.flatMap reexportParts →
    (rs.map fun r => r.names.map List.length) = (rs'.map fun r => r.names.map List.length) →
      rs.map Reexport.passed = rs'.map Reexport.passed
  | [], [], _, _ => rfl
  | [], _ :: _, _, hcounts => by simp at hcounts
  | _ :: _, [], _, hcounts => by simp at hcounts
  | r :: rs, r' :: rs', h, hcounts => by
    simp only [List.map_cons, List.cons.injEq] at hcounts ⊢
    rw [List.flatMap_cons, List.flatMap_cons] at h
    obtain ⟨hfirst, hrest⟩ := List.append_inj h (length_reexportParts hcounts.1)
    exact ⟨passed_of_parts hfirst hcounts.1, passed_of_flatMap_parts hrest hcounts.2⟩

theorem parts_of_passed {rs rs' : List Reexport} (h : rs.map Reexport.passed = rs'.map Reexport.passed) :
    rs.flatMap reexportParts = rs'.flatMap reexportParts := by
  have hparts : ∀ rs : List Reexport, rs.flatMap reexportParts =
      (rs.map Reexport.passed).flatMap fun x => x.1 :: match x.2 with
        | none => ["*"]
        | some names => names.flatMap fun p => [p.1, p.2] := by
    intro rs
    rw [List.flatMap_map]
    exact List.flatMap_congr fun r _ => reexportParts_eq r
  rw [hparts, hparts, h]

theorem counts_of_passed {rs rs' : List Reexport}
    (h : rs.map Reexport.passed = rs'.map Reexport.passed) :
    (rs.map fun r => r.names.map List.length) = rs'.map fun r => r.names.map List.length := by
  have hcounts : ∀ rs : List Reexport, (rs.map fun r => r.names.map List.length) =
      (rs.map Reexport.passed).map fun x => x.2.map List.length := by
    intro rs
    rw [List.map_map]
    refine List.map_congr_left fun r _ => ?_
    cases hr : r.names <;> simp [Reexport.passed, hr]
  rw [hcounts, hcounts, h]

theorem mem_names_signedExports {o : Outline} {name : String} :
    name ∈ o.exports.map (·.name) ↔ name ∈ o.signedExports.map (·.1) := by
  simp [signedExports, List.mem_mergeSort]

theorem mem_directExports {o : Outline} {name : String} : o.directExports.contains name = true ↔
    name ∈ o.signedExports.map (·.1) ∨
      ∃ x ∈ o.reexports.map Reexport.passed, ∃ names, x.2 = some names ∧ name ∈ names.map (·.2) := by
  unfold directExports
  rw [OrdSet.mem_ofList, List.mem_append, mem_names_signedExports]
  refine or_congr_right ?_
  simp only [List.mem_flatMap, List.mem_map, exists_exists_and_eq_and]
  refine exists_congr fun r => and_congr_right fun _ => ?_
  cases hr : r.names <;> simp [Reexport.passed, hr]

/-- Outlines with the same parts export and pass on the same exactly when they have the same number
of exports, and of names in each re-export. -/
theorem same_exports_iff {a b : Outline} (h : a.signatureParts = b.signatureParts) :
    (a.directExports = b.directExports ∧
      a.reexports.map Reexport.passed = b.reexports.map Reexport.passed) ↔ a.counts = b.counts := by
  rw [signatureParts_eq, signatureParts_eq] at h
  constructor
  · rintro ⟨-, hpassed⟩
    rw [parts_of_passed hpassed] at h
    have hlength := congrArg List.length (List.append_cancel_right h)
    rw [length_flatMap_pairs, length_flatMap_pairs, length_signedExports, length_signedExports]
      at hlength
    exact Prod.ext (by simp only [counts]; omega) (counts_of_passed hpassed)
  · intro hcounts
    obtain ⟨hexports, hnames⟩ := Prod.ext_iff.mp hcounts
    obtain ⟨hsigned, hparts⟩ := List.append_inj h (by
      rw [length_flatMap_pairs, length_flatMap_pairs, length_signedExports, length_signedExports]
      exact congrArg (2 * ·) hexports)
    have hsigned := flatMap_pairs_injective hsigned
    have hpassed := passed_of_flatMap_parts hparts hnames
    refine ⟨OrdSet.ext_of_sorted (OrdSet.sorted_ofList _) (OrdSet.sorted_ofList _) fun name => ?_,
      hpassed⟩
    rw [mem_directExports, mem_directExports, hsigned, hpassed]

end Outline

/-- Two script texts whose signatures have the same parts export the same names and pass the same
names on exactly when the counts that the parts leave out are the same. -/
theorem exports_signed_up_to_counts (f g : FileId) (a b : String)
    (h : (analyze f (scan f a)).signatureParts = (analyze g (scan g b)).signatureParts) :
    ((analyze f (scan f a)).directExports = (analyze g (scan g b)).directExports ∧
      (analyze f (scan f a)).reexports.map Reexport.passed =
        (analyze g (scan g b)).reexports.map Reexport.passed) ↔
      (analyze f (scan f a)).counts = (analyze g (scan g b)).counts :=
  Outline.same_exports_iff h

set_option maxRecDepth 100000

theorem exports_signed_up_to_counts_renamed :
    let a := analyze 0 (scan 0 "export { y as x };")
    let b := analyze 0 (scan 0 "export type { y as x }")
    a.signatureParts = b.signatureParts ∧ a.counts = b.counts ∧ a.directExports = b.directExports ∧
      a.reexports.map Reexport.passed = b.reexports.map Reexport.passed := by
  have hparts : (analyze 0 (scan 0 "export { y as x };")).signatureParts =
      (analyze 0 (scan 0 "export type { y as x }")).signatureParts := by decide +kernel
  have hcounts : (analyze 0 (scan 0 "export { y as x };")).counts =
      (analyze 0 (scan 0 "export type { y as x }")).counts := by decide +kernel
  exact ⟨hparts, hcounts, (exports_signed_up_to_counts 0 0 _ _ hparts).mpr hcounts⟩

/-- One export of a name and two empty re-exports are signed alike, although only the first module
exports anything. -/
theorem signature_hides_export :
    let a := analyze 0 (scan 0 "export { y as x };")
    let b := analyze 0 (scan 0 "export {} from 'x'; export {} from 'y';")
    a.signatureParts = ["x", "y"] ∧ b.signatureParts = ["x", "y"] ∧
      OrdSet.toList a.directExports = ["x"] ∧ OrdSet.toList b.directExports = [] ∧
      a.reexports.map Reexport.passed = [] ∧
      b.reexports.map Reexport.passed = [("x", some []), ("y", some [])] := by
  decide +kernel

end Recompile.Script
