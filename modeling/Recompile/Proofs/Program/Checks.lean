import Mathlib.Data.List.Basic
import Recompile.Engine.Findings
import Recompile.Proofs.Data.Closure
import Recompile.Proofs.Data.OrdMap

/-!
What the checks of a file depend on: its module, the names that its targets export, and the texts
of its templates.
-/

namespace Recompile

namespace Module

theorem mem_targets_of_resolution {m : Module} {res : Resolution} {target : FileId}
    (h : res ∈ m.resolutions) (ht : res.target? = some target) : target ∈ m.targets :=
  List.mem_append_left _ (List.mem_filterMap.mpr ⟨res, h, ht⟩)

theorem mem_targets_of_resource {m : Module} {ref : ResourceRef} {target : FileId}
    (h : ref ∈ m.resources) (ht : ref.file = some target) : target ∈ m.targets :=
  List.mem_append_right _ (List.mem_filterMap.mpr ⟨ref, h, ht⟩)

theorem resolution_of_mem_imports {m : Module} {i : Script.Import × Resolution}
    (h : i ∈ m.imports) : i.2 ∈ m.resolutions := (List.of_mem_zip h).2

theorem resolution_of_mem_reexports {m : Module} {r : Script.Reexport × Resolution}
    (h : r ∈ m.reexports) : r.2 ∈ m.resolutions := List.mem_of_mem_drop (List.of_mem_zip h).2

end Module

theorem Program.exportedNames_of_no_module {p : Program} {id : FileId}
    (h : p.module? id = none) : p.exportedNames id = OrdMap.empty := by
  unfold exportedNames directExports starTargets
  simp only [h, Closure.closure_nil]
  rfl

namespace Check

variable {p p' : Program} {id : FileId} {m m' : Module}

theorem member_congr {target : FileId} (h : p.exportedNames target = p'.exportedNames target)
    (specifier name : String) (span : Span) :
    member p target specifier name span = member p' target specifier name span := by
  unfold member
  rw [h]

theorem semantic_congr (hm : p.module? id = some m) (hm' : p'.module? id = some m')
    (houtline : m.outline = m'.outline) (hres : m.resolutions = m'.resolutions)
    (hnames : ∀ target ∈ m.targets, p.exportedNames target = p'.exportedNames target)
    (hkind : p.hasKind id .declaration = p'.hasKind id .declaration) :
    semantic p id = semantic p' id := by
  have himports : m.imports = m'.imports := by rw [Module.imports, Module.imports, houtline, hres]
  have hreexports : m.reexports = m'.reexports := by
    rw [Module.reexports, Module.reexports, houtline, hres]
  have hunresolved : unresolved m = unresolved m' := by rw [unresolved, unresolved, houtline, hres]
  have hunused : unused m = unused m' := by rw [unused, unused, houtline]
  have himported : m.imports.flatMap (importMembers p) = m.imports.flatMap (importMembers p') := by
    refine List.flatMap_congr fun i hi => ?_
    unfold importMembers
    cases ht : i.2.target? with
    | none => rfl
    | some target =>
      have hmem := Module.mem_targets_of_resolution (Module.resolution_of_mem_imports hi) ht
      exact List.flatMap_congr fun b _ => member_congr (hnames target hmem) _ _ _
  have hreexported : m.reexports.flatMap (reexportMembers p) =
      m.reexports.flatMap (reexportMembers p') := by
    refine List.flatMap_congr fun r hr => ?_
    unfold reexportMembers
    cases ht : r.2.target? with
    | none => rfl
    | some target =>
      have hmem := Module.mem_targets_of_resolution (Module.resolution_of_mem_reexports hr) ht
      exact List.flatMap_congr fun n _ => member_congr (hnames target hmem) _ _ _
  unfold semantic
  simp only [hm, hm', himported, hreexported, hunresolved, hunused, hkind]
  rw [himports, hreexports]

theorem template?_congr {component : Nat} {c : Script.Component}
    (h : ∀ ref ∈ m.resources, ref.kind = .template → ∀ file, ref.file = some file →
      p.file? file = p'.file? file) :
    Shadow.template? p id m component c = Shadow.template? p' id m component c := by
  unfold Shadow.template?
  cases c.template with
  | none => rfl
  | some source =>
    cases source with
    | inline text literal => rfl
    | external url literal property =>
      dsimp only
      cases href : m.templateRef? component with
      | none => rfl
      | some ref =>
        have hmem : ref ∈ m.resources := List.mem_of_find?_eq_some href
        have hkind : ref.kind = .template := by
          have htest := List.find?_some href
          simp only [Bool.and_eq_true, decide_eq_true_eq] at htest
          exact htest.2
        cases hfile : ref.file with
        | none => simp [hfile]
        | some file => simp [hfile, h ref hmem hkind file hfile]

theorem templates_congr (strict : Bool) (hm : p.module? id = some m) (hm' : p'.module? id = some m)
    (h : ∀ ref ∈ m.resources, ref.kind = .template → ∀ file, ref.file = some file →
      p.file? file = p'.file? file) :
    templates p id strict = templates p' id strict := by
  have hnames : unknownNames p id m = unknownNames p' id m := by
    funext component c
    unfold unknownNames
    rw [template?_congr h]
  unfold templates
  simp only [hm, hm', hnames]

end Check

end Recompile
