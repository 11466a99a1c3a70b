import Recompile.Proofs.Data.Alike
import Recompile.Proofs.Ledger.Affected
import Recompile.Proofs.Program.Links
import Recompile.Proofs.Script.Places

/-!
Programs that differ in the identities of their files only. Whatever is read off the modules is the
same, up to those identities.
-/

namespace Recompile

variable {R : FileId → FileId → Prop}

inductive Resolution.Same (R : FileId → FileId → Prop) : Resolution → Resolution → Prop where
  | file {i j : FileId} : R i j → Same R (.file i) (.file j)
  | external : Same R .external .external
  | unresolved : Same R .unresolved .unresolved

theorem Resolution.Same.target? {a b : Resolution} (h : Same R a b) :
    Option.Rel R a.target? b.target? := by
  cases h with
  | file hij => exact .some hij
  | external => exact .none
  | unresolved => exact .none

structure ResourceRef.Same (R : FileId → FileId → Prop) (a b : ResourceRef) : Prop where
  label : a.label = b.label
  file : Option.Rel R a.file b.file

theorem eq_some_iff_of_rel {α β : Type} {R : α → β → Prop} (hR : Relator.BiUnique R)
    {x : Option α} {y : Option β} (h : Option.Rel R x y) {a : α} {b : β} (hab : R a b) :
    x = some a ↔ y = some b := by
  cases h with
  | none => simp
  | some h =>
    simp only [Option.some.injEq]
    constructor
    · rintro rfl
      exact hR.2 h hab
    · rintro rfl
      exact hR.1 h hab

theorem rel_some {α β : Type} {S : α → β → Prop} {a : α} {y : Option β} (h : Option.Rel S (some a) y) :
    ∃ b, y = some b ∧ S a b := by
  cases h with
  | some hab => exact ⟨_, rfl, hab⟩

theorem rel_mono {α β : Type} {S T : α → β → Prop} {x : Option α} {y : Option β} (h : Option.Rel S x y)
    (hST : ∀ {a b}, S a b → T a b) : Option.Rel T x y := by
  cases h with
  | none => exact .none
  | some hab => exact .some (hST hab)

theorem some_rel {α β : Type} {S : α → β → Prop} {x : Option α} {b : β} (h : Option.Rel S x (some b)) :
    ∃ a, x = some a ∧ S a b := by
  cases h with
  | some hab => exact ⟨_, rfl, hab⟩

namespace Module

structure Same (R : FileId → FileId → Prop) (m m' : Module) : Prop where
  outline : ∃ g, m'.outline = m.outline.moved g
  resolutions : List.Forall₂ (Resolution.Same R) m.resolutions m'.resolutions
  resources : List.Forall₂ (ResourceRef.Same R) m.resources m'.resources

namespace Same

variable {m m' : Module}

theorem mono {S : FileId → FileId → Prop} (h : Same R m m') (hRS : ∀ {i j}, R i j → S i j) : Same S m m' where
  outline := h.outline
  resolutions := h.resolutions.imp fun _ _ hab => by
    cases hab with
    | file hij => exact .file (hRS hij)
    | external => exact .external
    | unresolved => exact .unresolved
  resources := h.resources.imp fun _ _ hab => ⟨hab.label, rel_mono hab.file hRS⟩

theorem targets (h : Same R m m') : Alike R m.targets m'.targets :=
  ((Alike.of_forall₂ h.resolutions).filterMap Resolution.Same.target?).append
    ((Alike.of_forall₂ h.resources).filterMap ResourceRef.Same.file)

theorem reexports (h : Same R m m') :
    Alike (fun a b => a.1.names.isNone = b.1.names.isNone ∧ Resolution.Same R a.2 b.2)
      m.reexports m'.reexports := by
  obtain ⟨g, hg⟩ := h.outline
  have hlength : (m.outline.moved g).imports.length = m.outline.imports.length := by
    simp [Script.Outline.moved]
  have hres := List.forall₂_drop m.outline.imports.length h.resolutions
  unfold Module.reexports
  rw [hg, hlength]
  refine Alike.of_forall₂ ?_
  have hzip : ∀ {rs : List Script.Reexport} {xs ys : List Resolution},
      List.Forall₂ (Resolution.Same R) xs ys →
        List.Forall₂ (fun a b => a.1.names.isNone = b.1.names.isNone ∧ Resolution.Same R a.2 b.2)
          (rs.zip xs) ((rs.map (Script.Reexport.moved g)).zip ys) := by
    intro rs xs ys hxy
    induction hxy generalizing rs with
    | nil => simp
    | cons hab _ ih =>
      cases rs with
      | nil => exact .nil
      | cons r rs => exact .cons ⟨by simp [Script.Reexport.moved], hab⟩ ih
  exact hzip hres

theorem starTargets (h : Same R m m') : Alike R m.starTargets m'.starTargets :=
  (h.reexports.filter fun hab => hab.1).filterMap fun hab => hab.2.target?

theorem passesOn (h : Same R m m') (hR : Relator.BiUnique R) {i j : FileId} (hij : R i j) :
    m.passesOn i = m'.passesOn j := by
  unfold Module.passesOn
  congr 1
  · refine h.reexports.any_eq fun hab => ?_
    rw [Bool.eq_iff_iff, decide_eq_true_eq, decide_eq_true_eq]
    exact eq_some_iff_of_rel hR hab.2.target? hij
  · congr 1
    refine (Alike.of_forall₂ h.resources).any_eq fun hab => ?_
    rw [Bool.eq_iff_iff, decide_eq_true_eq, decide_eq_true_eq]
    exact eq_some_iff_of_rel hR hab.file hij

theorem templateRef? (h : Same R m m') (component : Nat) :
    Option.Rel (ResourceRef.Same R) (m.templateRef? component) (m'.templateRef? component) := by
  unfold Module.templateRef?
  have hresources := h.resources
  generalize m.resources = xs at hresources
  generalize m'.resources = ys at hresources
  induction hresources with
  | nil => exact .none
  | @cons a b _ _ hab _ ih =>
    have hlabel := hab.label
    simp only [ResourceRef.label, Prod.mk.injEq] at hlabel
    simp only [List.find?_cons, hlabel.1, hlabel.2.1]
    split
    · exact .some hab
    · exact ih

theorem directExports (h : Same R m m') : m.outline.directExports = m'.outline.directExports := by
  obtain ⟨g, hg⟩ := h.outline
  rw [hg, Script.Outline.moved_directExports]

end Same

end Module

def SourceFile.content (f : SourceFile) : Path × String × SourceKind := (f.path, f.text, f.kind)

namespace SourceFile

variable {f g : SourceFile}

theorem path_congr (h : f.content = g.content) : f.path = g.path := congrArg (·.1) h

theorem text_congr (h : f.content = g.content) : f.text = g.text := congrArg (·.2.1) h

theorem kind_congr (h : f.content = g.content) : f.kind = g.kind := congrArg (·.2.2) h

theorem version_congr (h : f.content = g.content) : f.version = g.version := by
  rw [version, version, text_congr h]

end SourceFile

namespace Program

structure Proper (p : Program) : Prop where
  files : p.files.Sorted
  modules : p.modules.Sorted
  id_eq : ∀ {i f}, p.file? i = some f → f.id = i
  file_of_module : ∀ {i m}, p.module? i = some m → ∃ f, p.file? i = some f

/-- The same files, modules and shadows under other identities. -/
structure Same (R : FileId → FileId → Prop) (p p' : Program) : Prop where
  file : ∀ {i j}, R i j →
    Option.Rel (fun f g : SourceFile => f.content = g.content) (p.file? i) (p'.file? j)
  module : ∀ {i j}, R i j → Option.Rel (Module.Same R) (p.module? i) (p'.module? j)
  origin : ∀ {i j}, R i j → Option.Rel R (p.origins.get? i) (p'.origins.get? j)
  left : ∀ {i f}, p.file? i = some f → ∃ j, R i j
  right : ∀ {j f}, p'.file? j = some f → ∃ i, R i j
  proper_left : p.Proper
  proper_right : p'.Proper

namespace Same

variable {p p' : Program} {i j : FileId}

theorem hasKind_eq (h : Same R p p') (hij : R i j) (kind : SourceKind) :
    p.hasKind i kind = p'.hasKind j kind := by
  have hfile := h.file hij
  unfold hasKind
  generalize p.file? i = x at hfile
  generalize p'.file? j = y at hfile
  cases hfile with
  | none => rfl
  | some hfg => simp only [SourceFile.kind_congr hfg]

theorem resource (h : Same R p p') {a b : ResourceRef} (hab : ResourceRef.Same R a b) :
    Option.Rel (fun f g : SourceFile => f.content = g.content) (a.file.bind p.file?) (b.file.bind p'.file?) := by
  have hfile := hab.file
  generalize a.file = x at hfile
  generalize b.file = y at hfile
  cases hfile with
  | none => exact .none
  | some hij => exact h.file hij

theorem mem_keys_iff (h : Same R p p') (hij : R i j) : i ∈ p.modules.keys ↔ j ∈ p'.modules.keys := by
  have hmodule := h.module hij
  rw [OrdMap.mem_keys_iff, OrdMap.mem_keys_iff, OrdMap.contains_eq_isSome, OrdMap.contains_eq_isSome]
  unfold Program.module? at hmodule
  generalize p.modules.get? i = x at hmodule
  generalize p'.modules.get? j = y at hmodule
  cases hmodule <;> rfl

theorem alike_keys (h : Same R p p') : Alike R p.modules.keys p'.modules.keys := by
  refine Alike.of_mem_iff (fun i hi => ?_) (fun j hj => ?_) h.mem_keys_iff
  · obtain ⟨m, hm⟩ := OrdMap.contains_iff.mp (OrdMap.mem_keys_iff.mp hi)
    obtain ⟨f, hf⟩ := h.proper_left.file_of_module hm
    exact h.left hf
  · obtain ⟨m, hm⟩ := OrdMap.contains_iff.mp (OrdMap.mem_keys_iff.mp hj)
    obtain ⟨f, hf⟩ := h.proper_right.file_of_module hm
    exact h.right hf

theorem size_eq (h : Same R p p') (hR : Relator.BiUnique R) : p.modules.size = p'.modules.size := by
  have hlength := Alike.length_eq hR h.proper_left.modules.nodup_keys h.proper_right.modules.nodup_keys h.alike_keys
  simpa [OrdMap.keys, OrdMap.size] using hlength

theorem starTargets (h : Same R p p') (hij : R i j) : Alike R (p.starTargets i) (p'.starTargets j) := by
  have hmodule := h.module hij
  unfold Program.starTargets
  generalize p.module? i = x at hmodule
  generalize p'.module? j = y at hmodule
  cases hmodule with
  | none => exact Alike.nil
  | some hm => exact hm.starTargets

theorem directExports (h : Same R p p') (hij : R i j) : p.directExports i = p'.directExports j := by
  have hmodule := h.module hij
  unfold Program.directExports
  generalize p.module? i = x at hmodule
  generalize p'.module? j = y at hmodule
  cases hmodule with
  | none => rfl
  | some hm =>
    dsimp only
    rw [hm.directExports]

theorem exportedNames (h : Same R p p') (hR : Relator.BiUnique R) (hij : R i j) :
    p.exportedNames i = p'.exportedNames j := by
  have hbehind := (h.starTargets hij).closure hR h.starTargets p'.modules.size
  have hnames : Alike Eq
      ((Closure.closure p.starTargets p'.modules.size (p.starTargets i)).flatMap p.directExports)
      ((Closure.closure p'.starTargets p'.modules.size (p'.starTargets j)).flatMap p'.directExports) :=
    hbehind.flatMap fun hab => by
      rw [h.directExports hab]
      exact Alike.refl _
  unfold Program.exportedNames
  rw [h.directExports hij, h.size_eq hR]
  refine Alike.ofList_eq ((Alike.refl _).append (hnames.filter fun hab => ?_)) fun _ _ _ _ => Std.LawfulEqOrd.eq_of_compare
  rw [hab]

theorem signature? (h : Same R p p') (hR : Relator.BiUnique R) (hij : R i j) :
    p.signature? i = p'.signature? j := by
  have hmodule := h.module hij
  have hnames := h.exportedNames hR hij
  have hfile := h.file hij
  unfold Program.signature?
  rw [hnames]
  generalize p.module? i = x at hmodule
  generalize p'.module? j = y at hmodule
  cases hmodule with
  | none =>
    dsimp only
    generalize p.file? i = x at hfile
    generalize p'.file? j = y at hfile
    cases hfile with
    | none => rfl
    | some hfg => simp only [Option.map_some, SourceFile.version_congr hfg]
  | some hm =>
    obtain ⟨g, hg⟩ := hm.outline
    have hall : ∀ o : Script.Outline, ((o.moved g).reexports.all fun r => r.names.isSome) =
        o.reexports.all fun r => r.names.isSome := by
      intro o
      simp [Script.Outline.moved, Script.Reexport.moved, Function.comp_def]
    dsimp only
    rw [hg, Script.Outline.moved_signature, hall]

theorem dependencies (h : Same R p p') (hij : R i j) :
    Alike R (OrdSet.toList (p.dependencies i)) (OrdSet.toList (p'.dependencies j)) := by
  have hmodule := h.module hij
  unfold Program.dependencies
  generalize p.module? i = x at hmodule
  generalize p'.module? j = y at hmodule
  cases hmodule with
  | none => exact Alike.nil
  | some hm => exact hm.targets.ofList

theorem importers (h : Same R p p') (hR : Relator.BiUnique R) (hij : R i j) :
    Alike (fun a b => R a.1 b.1 ∧ a.2 = b.2) (p.importers i) (p'.importers j) := by
  constructor
  · rintro ⟨a, passes⟩ ha
    obtain ⟨m, hm, htarget, rfl⟩ := (mem_importers h.proper_left.modules).mp ha
    obtain ⟨f, hf⟩ := h.proper_left.file_of_module hm
    obtain ⟨b, hab⟩ := h.left hf
    have hmodule := h.module hab
    rw [hm] at hmodule
    generalize hy : p'.module? b = y at hmodule
    cases hmodule with
    | @some _ m' hmm =>
      exact ⟨(b, m'.passesOn j), (mem_importers h.proper_right.modules).mpr
        ⟨m', hy, (hmm.targets.mem_iff hR hij).mp htarget, rfl⟩, hab, hmm.passesOn hR hij⟩
  · rintro ⟨b, passes⟩ hb
    obtain ⟨m', hm', htarget, rfl⟩ := (mem_importers h.proper_right.modules).mp hb
    obtain ⟨f, hf⟩ := h.proper_right.file_of_module hm'
    obtain ⟨a, hab⟩ := h.right hf
    have hmodule := h.module hab
    rw [hm'] at hmodule
    generalize hx : p.module? a = x at hmodule
    cases hmodule with
    | @some m _ hmm =>
      exact ⟨(a, m.passesOn i), (mem_importers h.proper_left.modules).mpr
        ⟨m, hx, (hmm.targets.mem_iff hR hij).mpr htarget, rfl⟩, hab, hmm.passesOn hR hij⟩

end Same

end Program

end Recompile
