import Mathlib.Data.List.Basic
import Mathlib.Data.List.Induction
import Recompile.Bundle.Result
import Recompile.Proofs.Data.Layers

/-!
Combining results. In whatever groups results are combined, the outcome is that of combining all of them at
once: a success when all of them are, and what is known of an initial file is what the last of them says,
except that entry points stay entry points.
-/

namespace Recompile.Bundle

def InitialFile.after (was : Option InitialFile) (f : InitialFile) : InitialFile :=
  { f with entrypoint := f.entrypoint || (was.map (·.entrypoint)).getD false }

theorem InitialFile.layered_after : Layered InitialFile.after where
  none f := by simp [after]
  some was f g := by simp [after, Bool.or_assoc]

theorem layered_later {α : Type} : Layered fun (_ : Option α) (a : α) => a := ⟨fun _ => rfl, fun _ _ _ => rfl⟩

/-- The last of several records, an entry point when one of them is. -/
def InitialFile.lastOf (records : List InitialFile) : Option InitialFile :=
  records.getLast?.map fun f => { f with entrypoint := records.any (·.entrypoint) }

theorem InitialFile.lastOf_append (records : List InitialFile) (f : InitialFile) :
    lastOf (records ++ [f]) = some (after (lastOf records) f) := by
  have hwas : ((lastOf records).map (·.entrypoint)).getD false = records.any (·.entrypoint) := by
    unfold lastOf
    cases hlast : records.getLast? with
    | none => rw [List.getLast?_eq_none_iff.mp hlast]; rfl
    | some g => rfl
  rw [after, hwas, lastOf, List.getLast?_concat, List.any_append, List.any_cons, List.any_nil, Bool.or_false,
    Bool.or_comm]
  rfl

theorem foldl_overlay_after (known : List (Option InitialFile)) :
    known.foldl (overlay InitialFile.after) none = InitialFile.lastOf (known.filterMap id) := by
  induction known using List.reverseRecOn with
  | nil => rfl
  | append_singleton known last ih =>
    rw [List.foldl_append, ih, List.filterMap_append]
    cases last with
    | none => simp [overlay]
    | some f => simpa [overlay] using (InitialFile.lastOf_append _ f).symm

theorem foldl_overlay_later {α : Type} (known : List (Option α)) :
    known.foldl (overlay fun _ a => a) none = (known.filterMap id).getLast? := by
  induction known using List.reverseRecOn with
  | nil => rfl
  | append_singleton known last ih =>
    rw [List.foldl_append, ih, List.filterMap_append]
    cases last <;> simp [overlay]

namespace Result

/-- The maps of a result keep their entries in order. -/
structure Ordered (r : Result) : Prop where
  inputs : r.metafile.inputs.Sorted
  outputs : r.metafile.outputs.Sorted
  initial : r.initial.Sorted

section Combine

variable (results : List Result)

theorem foldl_metafile : ∀ m : Metafile, results.foldl (fun m r => m.merge r.metafile) m =
    ⟨(results.map (·.metafile.inputs)).foldl (OrdMap.layer fun _ a => a) m.inputs,
      (results.map (·.metafile.outputs)).foldl (OrdMap.layer fun _ a => a) m.outputs⟩ := by
  induction results with
  | nil => exact fun _ => rfl
  | cons r rest ih => exact fun m => ih (m.merge r.metafile)

theorem foldl_initial (m : InitialFiles) : results.foldl (fun m r => mergeInitial m r.initial) m =
    (results.map (·.initial)).foldl (OrdMap.layer InitialFile.after) m := by
  rw [List.foldl_map]
  rfl

theorem isSuccess_combine : (combine results).isSuccess = results.all isSuccess := by
  unfold combine
  dsimp only
  split
  · rename_i h
    exact h.symm
  · rename_i h
    exact (Bool.not_eq_true _ ▸ h : results.all isSuccess = false).symm

theorem warnings_combine : (combine results).warnings = results.flatMap warnings := by
  unfold combine
  dsimp only
  split <;> rfl

theorem errors_combine : (combine results).errors = results.flatMap errors := by
  unfold combine
  dsimp only
  split
  · rename_i h
    symm
    refine List.flatMap_eq_nil_iff.mpr fun r hr => ?_
    have hsuccess := List.all_eq_true.mp h r hr
    cases r with
    | failure errors warnings => cases hsuccess
    | success => rfl
  · rfl

variable {results}

theorem combine_of_success (h : results.all isSuccess = true) : combine results =
    success (results.flatMap warnings)
      ⟨(results.map (·.metafile.inputs)).foldl (OrdMap.layer fun _ a => a) OrdMap.empty,
        (results.map (·.metafile.outputs)).foldl (OrdMap.layer fun _ a => a) OrdMap.empty⟩
      (results.flatMap outputs)
      ((results.map (·.initial)).foldl (OrdMap.layer InitialFile.after) OrdMap.empty) := by
  unfold combine
  dsimp only
  rw [if_pos h, foldl_metafile, foldl_initial]
  rfl

theorem combine_of_failure (h : results.all isSuccess = false) :
    combine results = failure (results.flatMap errors) (results.flatMap warnings) := by
  unfold combine
  dsimp only
  rw [if_neg (by simp [h])]

theorem ordered_combine (results : List Result) : (combine results).Ordered := by
  cases h : results.all isSuccess with
  | false =>
    rw [combine_of_failure h]
    exact ⟨OrdMap.sorted_empty, OrdMap.sorted_empty, OrdMap.sorted_empty⟩
  | true =>
    rw [combine_of_success h]
    exact ⟨OrdMap.Sorted.foldl_layer _ OrdMap.sorted_empty, OrdMap.Sorted.foldl_layer _ OrdMap.sorted_empty,
      OrdMap.Sorted.foldl_layer _ OrdMap.sorted_empty⟩

theorem combine_singleton {r : Result} (h : r.Ordered) : combine [r] = r := by
  cases r with
  | failure errors warnings => simp [combine, isSuccess, Result.errors, Result.warnings]
  | success warnings metafile outputs initial =>
    rw [combine_of_success rfl]
    simp only [List.map_cons, List.map_nil, List.foldl_cons, List.foldl_nil, List.flatMap_cons, List.flatMap_nil,
      List.append_nil]
    rw [OrdMap.empty_layer layered_later h.inputs, OrdMap.empty_layer layered_later h.outputs,
      OrdMap.empty_layer InitialFile.layered_after h.initial]
    rfl

theorem merge_eq_combine (h : ∀ r ∈ results, r.Ordered) : merge results = combine results := by
  match results, h with
  | [], _ => rfl
  | [r], h => exact (combine_singleton (h r List.mem_cons_self)).symm
  | _ :: _ :: _, _ => rfl

end Combine

section Groups

variable {groups : List (List Result)}

theorem all_map_combine : (groups.map combine).all isSuccess = groups.flatten.all isSuccess := by
  rw [List.all_map, List.all_flatten]
  congr 1
  funext group
  exact isSuccess_combine group

theorem flatMap_map_combine {α : Type} {part : Result → List α}
    (h : ∀ group ∈ groups, part (combine group) = group.flatMap part) :
    (groups.map combine).flatMap part = groups.flatten.flatMap part := by
  rw [List.flatMap_map, List.flatten_eq_flatMap, List.flatMap_assoc]
  exact List.flatMap_congr h

theorem map_flatten_ordered {α : Type} {part : Result → OrdMap String α}
    (h : ∀ group ∈ groups, ∀ r ∈ group, (part r).Sorted) :
    ∀ maps ∈ groups.map (·.map part), ∀ n ∈ maps, n.Sorted := by
  intro maps hmaps n hn
  obtain ⟨group, hgroup, rfl⟩ := List.mem_map.mp hmaps
  obtain ⟨r, hr, rfl⟩ := List.mem_map.mp hn
  exact h group hgroup r hr

theorem foldl_map_combine {α : Type} {part : Result → OrdMap String α} {f : Option α → α → α} (hf : Layered f)
    (hpart : ∀ group ∈ groups, part (combine group) = (group.map part).foldl (OrdMap.layer f) OrdMap.empty)
    (h : ∀ group ∈ groups, ∀ r ∈ group, (part r).Sorted) :
    ((groups.map combine).map part).foldl (OrdMap.layer f) OrdMap.empty =
      (groups.flatten.map part).foldl (OrdMap.layer f) OrdMap.empty := by
  rw [List.map_flatten, ← OrdMap.foldl_layer_flatten hf _ (map_flatten_ordered h), List.map_map, List.map_map]
  congr 1
  exact List.map_congr_left hpart

theorem combine_map_combine (h : ∀ group ∈ groups, ∀ r ∈ group, r.Ordered) :
    combine (groups.map combine) = combine groups.flatten := by
  have hwarnings : (groups.map combine).flatMap warnings = groups.flatten.flatMap warnings :=
    flatMap_map_combine fun group _ => warnings_combine group
  cases hall : groups.flatten.all isSuccess with
  | false =>
    rw [combine_of_failure hall, combine_of_failure (all_map_combine.trans hall), hwarnings,
      flatMap_map_combine fun group _ => errors_combine group]
  | true =>
    have hgroup : ∀ group ∈ groups, group.all isSuccess = true := by
      rw [List.all_flatten, List.all_eq_true] at hall
      exact hall
    have hcombine := fun group hmem => combine_of_success (hgroup group hmem)
    rw [combine_of_success hall, combine_of_success (all_map_combine.trans hall), hwarnings]
    congr 1
    · congr 1
      · exact foldl_map_combine layered_later (fun group hmem => by rw [hcombine group hmem]; rfl)
          fun group hmem r hr => (h group hmem r hr).inputs
      · exact foldl_map_combine layered_later (fun group hmem => by rw [hcombine group hmem]; rfl)
          fun group hmem r hr => (h group hmem r hr).outputs
    · exact flatMap_map_combine fun group hmem => by rw [hcombine group hmem]; rfl
    · exact foldl_map_combine InitialFile.layered_after (fun group hmem => by rw [hcombine group hmem]; rfl)
        fun group hmem r hr => (h group hmem r hr).initial

theorem map_merge (h : ∀ group ∈ groups, ∀ r ∈ group, r.Ordered) : groups.map merge = groups.map combine :=
  List.map_congr_left fun group hgroup => merge_eq_combine (h group hgroup)

end Groups

/-- What the results hold under a key, in order. -/
def found {α : Type} (part : Result → OrdMap String α) (results : List Result) (key : String) : List α :=
  results.filterMap fun r => (part r).get? key

theorem get?_foldl_part {α : Type} {part : Result → OrdMap String α} {f : Option α → α → α} {results : List Result}
    (h : ∀ r ∈ results, (part r).Sorted) (key : String) :
    ((results.map part).foldl (OrdMap.layer f) OrdMap.empty).get? key =
      (results.map fun r => (part r).get? key).foldl (overlay f) none := by
  have hsorted : ∀ m ∈ results.map part, m.Sorted := by
    intro m hm
    obtain ⟨r, hr, rfl⟩ := List.mem_map.mp hm
    exact h r hr
  rw [OrdMap.get?_foldl_layer _ hsorted, OrdMap.get?_empty, List.map_map]
  rfl

/-- What a merged success holds: all outputs, of each entry of the metafiles the last one there is, and of
each initial file the last record, as an entry point when one of the records says so. -/
structure Gathers (results : List Result) (merged : Result) : Prop where
  outputs : merged.outputs = results.flatMap outputs
  metafileInput : ∀ key, merged.metafile.inputs.get? key = (found (·.metafile.inputs) results key).getLast?
  metafileOutput : ∀ key, merged.metafile.outputs.get? key = (found (·.metafile.outputs) results key).getLast?
  initial : ∀ key, merged.initial.get? key = InitialFile.lastOf (found initial results key)

theorem gathers_combine {results : List Result} (h : ∀ r ∈ results, r.Ordered)
    (hall : results.all isSuccess = true) : Gathers results (combine results) := by
  rw [combine_of_success hall]
  refine ⟨rfl, fun key => ?_, fun key => ?_, fun key => ?_⟩
  · show ((results.map (·.metafile.inputs)).foldl _ OrdMap.empty).get? key = _
    rw [get?_foldl_part fun r hr => (h r hr).inputs, foldl_overlay_later, List.filterMap_map]
    rfl
  · show ((results.map (·.metafile.outputs)).foldl _ OrdMap.empty).get? key = _
    rw [get?_foldl_part fun r hr => (h r hr).outputs, foldl_overlay_later, List.filterMap_map]
    rfl
  · show ((results.map (·.initial)).foldl _ OrdMap.empty).get? key = _
    rw [get?_foldl_part fun r hr => (h r hr).initial, foldl_overlay_after, List.filterMap_map]
    rfl

/-- Merging what groups of results merge to is merging all of them. The outcome is a success exactly when all
results are, its messages are theirs in order, and a success gathers what they hold. -/
theorem merge_map_merge (groups : List (List Result)) (h : ∀ group ∈ groups, ∀ r ∈ group, r.Ordered) :
    let results := groups.flatten
    merge (groups.map merge) = merge results ∧
    ((merge results).isSuccess = true ↔ ∀ r ∈ results, r.isSuccess = true) ∧
    (merge results).warnings = results.flatMap warnings ∧ (merge results).errors = results.flatMap errors ∧
    ((merge results).isSuccess = true → Gathers results (merge results)) := by
  intro results
  have hall : ∀ r ∈ results, r.Ordered := by
    intro r hr
    obtain ⟨group, hgroup, hr⟩ := List.mem_flatten.mp hr
    exact h group hgroup r hr
  have hmerged : ∀ r ∈ groups.map combine, r.Ordered := by
    intro r hr
    obtain ⟨group, -, rfl⟩ := List.mem_map.mp hr
    exact ordered_combine group
  rw [merge_eq_combine hall, map_merge h, merge_eq_combine hmerged]
  refine ⟨combine_map_combine h, ?_, warnings_combine results, errors_combine results, fun hsuccess => ?_⟩
  · rw [isSuccess_combine, List.all_eq_true]
  · rw [isSuccess_combine] at hsuccess
    exact gathers_combine hall hsuccess

def passes : List Result := [
  .success [] Metafile.empty [] (.ofList [("main.js", ⟨some "main", .script, true, none⟩)]),
  .success [Message.plain "unused"] Metafile.empty [OutputFile.ofText ⟨"b.js"⟩ ""]
    (.ofList [("main.js", ⟨none, .script, false, none⟩), ("b.js", ⟨none, .script, false, none⟩)]),
  .success [] Metafile.empty [] (.ofList [("main.js", ⟨none, .script, false, some true⟩)])]

theorem merge_map_merge_passes :
    let groups := [passes.take 1, [], passes.drop 1]
    (∀ group ∈ groups, ∀ r ∈ group, r.Ordered) ∧ merge (groups.map merge) = merge passes ∧
      (merge passes).initial.entries =
        [("b.js", ⟨none, .script, false, none⟩), ("main.js", ⟨none, .script, true, some true⟩)] := by
  intro groups
  have hordered : ∀ group ∈ groups, ∀ r ∈ group, r.Ordered := by
    have hsorted : ∀ r ∈ passes, r.Ordered := by
      simp only [passes, List.forall_mem_cons]
      refine ⟨?_, ?_, ?_, fun r hr => (List.not_mem_nil hr).elim⟩ <;>
        exact ⟨OrdMap.sorted_empty, OrdMap.sorted_empty, OrdMap.sorted_ofList _⟩
    have hmem : ∀ group ∈ groups, ∀ r ∈ group, r ∈ passes := by
      simp only [groups, List.forall_mem_cons]
      exact ⟨fun r => List.mem_of_mem_take, fun r hr => (List.not_mem_nil hr).elim, fun r => List.mem_of_mem_drop,
        fun group hgroup => (List.not_mem_nil hgroup).elim⟩
    exact fun group hgroup r hr => hsorted r (hmem group hgroup r hr)
  exact ⟨hordered, (merge_map_merge groups hordered).1, by decide⟩

end Result

end Recompile.Bundle
