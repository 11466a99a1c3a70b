import Recompile.Proofs.Program.Lockstep
import Recompile.Proofs.Program.Renaming
import Recompile.Proofs.Program.Resources
import Recompile.Proofs.Source.Aligned

/-!
Builds that go alongside leave the same program, up to the identities of its files.
-/

namespace Recompile

theorem forall₂_of_map_eq {α β γ : Type} {f : α → γ} {g : β → γ} {xs : List α} {ys : List β}
    (h : xs.map f = ys.map g) : List.Forall₂ (fun a b => a ∈ xs ∧ b ∈ ys ∧ f a = g b) xs ys := by
  have hall : List.Forall₂ (fun a b => f a = g b) xs ys :=
    List.forall₂_map_left_iff.mp (List.forall₂_map_right_iff.mp (h ▸ List.forall₂_same.mpr fun _ _ => rfl))
  rw [List.forall₂_iff_zip] at hall ⊢
  exact ⟨hall.1, fun hab => ⟨(List.of_mem_zip hab).1, (List.of_mem_zip hab).2, hall.2 hab⟩⟩

namespace BuildState

open Registry

variable {σ : Type} [FileSystem σ] {c c' : BuildContext σ} {s s' : BuildState} {Good : Path → Prop}
variable {i j : FileId}

/-- Two builds of the same files that have come equally far. -/
structure Twins (Good : Path → Prop) (c c' : BuildContext σ) (s s' : BuildState) : Prop where
  along : Alongside Good c c'
  beside : Beside Good s s'
  stays : Stays Good c' s'
  left : Sound c s
  right : Sound c' s'

namespace Twins

theorem biUnique (h : Twins Good c c' s s') : Relator.BiUnique (Aligned s.registry s'.registry) :=
  biUnique_aligned h.left.distinct h.right.distinct

theorem file_right (h : Twins Good c c' s s') {f : SourceFile} (hf : s.program.file? i = some f) :
    ∃ j, Aligned s.registry s'.registry i j ∧ s'.program.file? j = some (fileAt j f.path f.text) := by
  obtain ⟨-, htidy, hlookup, hvisited, hread⟩ := h.left.file_read hf
  rw [h.beside.visited] at hvisited
  rw [h.along.read (h.beside.good hvisited)] at hread
  obtain ⟨j, hj, hfile⟩ := h.right.read_file hvisited htidy hread
  exact ⟨j, aligned_of_lookup? hlookup hj rfl, hfile⟩

theorem file_left (h : Twins Good c c' s s') {g : SourceFile} (hg : s'.program.file? j = some g) :
    ∃ i, Aligned s.registry s'.registry i j ∧ s.program.file? i = some (fileAt i g.path g.text) := by
  obtain ⟨-, htidy, hlookup, hvisited, hread⟩ := h.right.file_read hg
  rw [← h.along.read (h.beside.good hvisited)] at hread
  rw [← h.beside.visited] at hvisited
  obtain ⟨i, hi, hfile⟩ := h.left.read_file hvisited htidy hread
  exact ⟨i, aligned_of_lookup? hi hlookup rfl, hfile⟩

theorem file_cases (h : Twins Good c c' s s') (hij : Aligned s.registry s'.registry i j) :
    s.program.file? i = none ∧ s'.program.file? j = none ∨
      ∃ p text, s.program.file? i = some (fileAt i p text) ∧ s'.program.file? j = some (fileAt j p text) := by
  cases hf : s.program.file? i with
  | some f =>
    obtain ⟨k, hik, hfile⟩ := h.file_right hf
    obtain rfl := h.biUnique.2 hik hij
    exact .inr ⟨f.path, f.text, by rw [← (h.left.file_read hf).1], hfile⟩
  | none =>
    cases hg : s'.program.file? j with
    | none => exact .inl ⟨rfl, rfl⟩
    | some g =>
      obtain ⟨k, hkj, hfile⟩ := h.file_left hg
      obtain rfl := h.biUnique.1 hkj hij
      rw [hf] at hfile
      cases hfile

theorem contains_eq (h : Twins Good c c' s s') (hij : Aligned s.registry s'.registry i j) :
    s.program.contains i = s'.program.contains j := by
  rw [Bool.eq_iff_iff, Program.contains_iff_file?, Program.contains_iff_file?]
  rcases h.file_cases hij with ⟨hi, hj⟩ | ⟨p, text, hi, hj⟩
  · simp [hi, hj]
  · simp [hi, hj]

theorem links (h : Twins Good c c' s s') {p : Path} {text : String} (i : FileId)
    (hg : s'.program.file? j = some (fileAt j p text))
    (hkind : (SourceKind.ofPath p).isModule = true) :
    foundOf c (fileAt i p text) = foundOf c' (fileAt j p text) ∧
      (c.full = true → (refsOf c (fileAt i p text)).map ResourceRef.status =
        (refsOf c' (fileAt j p text)).map ResourceRef.status) := by
  obtain ⟨-, htidy, -, hvisited, hread⟩ := h.right.file_read hg
  have hnext : nextOf c' (fileAt j p text) = linksOf c' (fileAt j p text) := nextOf_eq_linksOf hkind
  have hgood := h.stays htidy hvisited hread j
  exact h.along.links i j (h.beside.good hvisited) fun q hq => hgood q (hnext ▸ hq)

theorem intern_aligned (h : Twins Good c c' s s') {f g : SourceFile} (hf : s.program.file? i = some f)
    (hg : s'.program.file? j = some g) {q : Path} (hq : q ∈ nextOf c f) (hq' : q ∈ nextOf c' g) :
    Aligned s.registry s'.registry (s.registry.intern q).1 (s'.registry.intern q).1 := by
  obtain ⟨a, ha⟩ := h.left.links_known hf q hq
  obtain ⟨b, hb⟩ := h.right.links_known hg q hq'
  rw [intern_of_lookup? ha, intern_of_lookup? hb]
  exact aligned_of_lookup? ha hb rfl

theorem same_module (h : Twins Good c c' s s') {p : Path} {text : String}
    (hf : s.program.file? i = some (fileAt i p text)) (hg : s'.program.file? j = some (fileAt j p text))
    (hkind : (SourceKind.ofPath p).isModule = true) :
    Module.Same (Aligned s.registry s'.registry)
      (Program.settleModule s.program (moduleOf c s.registry (fileAt i p text)))
      (Program.settleModule s'.program (moduleOf c' s'.registry (fileAt j p text))) := by
  obtain ⟨hfound, hstatus⟩ := h.links i hg hkind
  have hnext : ∀ (k : BuildContext σ) id, nextOf k (fileAt id p text) = linksOf k (fileAt id p text) :=
    fun k id => nextOf_eq_linksOf hkind
  -- Both builds have given identities to all links of the file, so settling looks up aligned
  -- ones.
  have hintern : ∀ {q q'}, q = q' → q ∈ linksOf c (fileAt i p text) → q' ∈ linksOf c' (fileAt j p text) →
      Aligned s.registry s'.registry (s.registry.intern q).1 (s'.registry.intern q').1 := by
    rintro q _ rfl hq hq'
    rw [← hnext] at hq hq'
    exact h.intern_aligned hf hg hq hq'
  refine ⟨⟨j, outlineOf_fileAt i j p text⟩, ?_, ?_⟩
  · simp only [Program.settleModule, moduleOf]
    rw [← hfound, List.map_map, List.map_map, List.forall₂_map_left_iff, List.forall₂_map_right_iff,
      List.forall₂_same]
    intro x hx
    cases x with
    | external => exact .external
    | unresolved => exact .unresolved
    | file q =>
      have haligned := hintern rfl (mem_linksOf.mpr (.inl hx)) (mem_linksOf.mpr (.inl (hfound ▸ hx)))
      simp only [Function.comp_apply, resolution]
      rw [h.contains_eq haligned]
      split
      · exact .file haligned
      · exact .unresolved
  · simp only [Program.settleModule, moduleOf]
    rw [List.map_map, List.map_map, List.forall₂_map_left_iff, List.forall₂_map_right_iff]
    cases hfull : c.full with
    | true =>
      refine (forall₂_of_map_eq (hstatus hfull)).imp fun a b hboth => ?_
      obtain ⟨ha, hb, hab⟩ := hboth
      obtain ⟨hlabel, hpresent⟩ := Prod.mk.inj hab
      have hpath : a.path = b.path := congrArg (·.2.2) hlabel
      simp only [Function.comp_apply, identified, hfull, ← h.along.full, Bool.true_and, ← hpresent]
      by_cases hp : a.present = true
      · have haligned := hintern hpath (mem_linksOf.mpr (.inr ⟨hfull, a, ha, hp, rfl⟩))
          (mem_linksOf.mpr (.inr ⟨h.along.full ▸ hfull, b, hb, hpresent ▸ hp, rfl⟩))
        simp only [hp, if_true]
        rw [h.contains_eq haligned]
        split
        · exact ⟨hlabel, .some haligned⟩
        · exact ⟨hlabel, .none⟩
      · simp only [if_neg hp, (mem_refsOf ha).2.1, (mem_refsOf hb).2.1]
        exact ⟨hlabel, by rw [(mem_refsOf ha).2.1, (mem_refsOf hb).2.1]; exact .none⟩
    | false =>
      have hlabels : (refsOf c (fileAt i p text)).map ResourceRef.label =
          (refsOf c' (fileAt j p text)).map ResourceRef.label := by
        rw [refsOf_labels c c']
        have hstatus := congrArg (List.map Prod.fst) (status_refsOf c' i j p text)
        rwa [List.map_map, List.map_map] at hstatus
      refine (forall₂_of_map_eq hlabels).imp fun a b hboth => ?_
      obtain ⟨ha, hb, hlabel⟩ := hboth
      simp only [Function.comp_apply, identified, hfull, ← h.along.full, Bool.false_and, Bool.false_eq_true,
        if_false, (mem_refsOf ha).2.1, (mem_refsOf hb).2.1]
      exact ⟨hlabel, by rw [(mem_refsOf ha).2.1, (mem_refsOf hb).2.1]; exact .none⟩

end Twins

theorem Sound.proper_settle (h : Sound c s) : (Program.settle s.program).Proper where
  files := h.files_sorted
  modules := h.modules_sorted.map _
  id_eq hf := by rw [(h.file_read hf).1, fileAt]
  file_of_module {i m} hm := by
    rw [Program.module?_settle, h.module?_eq] at hm
    cases hf : s.program.file? i with
    | none => simp [hf] at hm
    | some f => exact ⟨f, hf⟩

theorem Twins.same_settled (h : Twins Good c c' s s') :
    Program.Same (Aligned s.registry s'.registry) (Program.settle s.program) (Program.settle s'.program) where
  file {i j} hij := by
    rw [Program.file?_settle, Program.file?_settle]
    rcases h.file_cases hij with ⟨hi, hj⟩ | ⟨p, text, hi, hj⟩
    · rw [hi, hj]
      exact .none
    · rw [hi, hj]
      exact .some rfl
  module {i j} hij := by
    rw [Program.module?_settle, Program.module?_settle, h.left.module?_eq, h.right.module?_eq]
    rcases h.file_cases hij with ⟨hi, hj⟩ | ⟨p, text, hi, hj⟩
    · rw [hi, hj]
      exact .none
    · rw [hi, hj]
      by_cases hkind : (SourceKind.ofPath p).isModule = true
      · have hkeep : ∀ id, (some (fileAt id p text)).filter (fun f => f.kind.isModule) =
            some (fileAt id p text) := fun id => by simp [Option.filter, fileAt, hkind]
        rw [hkeep, hkeep]
        exact .some (h.same_module hi hj hkind)
      · have hdrop : ∀ id, (some (fileAt id p text)).filter (fun f => f.kind.isModule) = none :=
          fun id => by simp [Option.filter, fileAt, hkind]
        rw [hdrop, hdrop]
        exact .none
  origin _ := by
    show Option.Rel _ (s.program.origins.get? _) (s'.program.origins.get? _)
    rw [h.left.origins_empty, h.right.origins_empty]
    exact .none
  left hf := (h.file_right hf).imp fun _ hj => hj.1
  right hf := (h.file_left hf).imp fun _ hi => hi.1
  proper_left := h.left.proper_settle
  proper_right := h.right.proper_settle

end BuildState

end Recompile
