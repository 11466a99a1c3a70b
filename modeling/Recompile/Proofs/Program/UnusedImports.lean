import Recompile.Host.Volume
import Recompile.Proofs.Program.Shadow
import Recompile.Proofs.Program.Spans
import Recompile.Proofs.Script.Visits

/-!
When an import is reported as unused. A name counts as read where it is a word by itself that is not in
an import or export statement, or listed by a statement that exports names of the module itself. What
comes right after a dot does not count, the operand of a spread included, and a template literal is one
token, so the names in its substitutions do not count either.
-/

namespace Recompile.Check

open Script (streamOf statements ownNames ReadAt TakenUp)

variable {σ : Type} [FileSystem σ] {p : Program} {id : FileId} {r : Registry}

def unusedWarning (b : Script.ImportBinding) : Diagnostic :=
  Diagnostic.warning unusedImport ("'" ++ b.name ++ "' is declared but its value is never read.") b.span

/-- A name that no token of a text reads. -/
structure Unread (s : Script.Stream) (name : String) : Prop where
  outside : ∀ q, ReadAt s q name → TakenUp s q
  listed : ∀ x ∈ statements s, ∀ n ∈ ownNames s x.1, n.imported ≠ name

theorem unread_iff {text name : String} : Unread (streamOf id text) name ↔
    (Script.analyze id (Script.scan id text)).references.contains name = false := by
  rw [← Bool.not_eq_true, Script.reads_iff]
  constructor
  · rintro ⟨houtside, hlisted⟩ (⟨q, hread, hout⟩ | ⟨x, hx, n, hn, hname⟩)
    · exact hout (houtside q hread)
    · exact hlisted x hx n hn hname
  · intro h
    refine ⟨fun q hread => ?_, fun x hx n hn hname => h (.inr ⟨x, hx, n, hn, hname⟩)⟩
    by_contra hout
    exact h (.inl ⟨q, hread, hout⟩)

theorem mem_unused {m : Module} {d : Diagnostic} : d ∈ unused m ↔
    ∃ i ∈ m.outline.imports, ∃ b ∈ i.bindings, m.outline.references.contains b.name = false ∧
      d = unusedWarning b := by
  unfold unused
  rw [List.mem_map]
  constructor
  · rintro ⟨b, hb, rfl⟩
    obtain ⟨hb, hunread⟩ := List.mem_filter.mp hb
    obtain ⟨i, hi, hb⟩ := List.mem_flatMap.mp hb
    exact ⟨i, hi, b, hb, by simpa using hunread, rfl⟩
  · rintro ⟨i, hi, b, hb, hunread, rfl⟩
    exact ⟨b, List.mem_filter.mpr ⟨List.mem_flatMap.mpr ⟨i, hi, hb⟩, by simp [hunread]⟩, rfl⟩

theorem name_of_unusedWarning {b b' : Script.ImportBinding} (h : unusedWarning b = unusedWarning b') :
    b.name = b'.name := by
  have hmessage := congrArg String.toList (congrArg Diagnostic.message h)
  simp only [unusedWarning, Diagnostic.warning, String.toList_append] at hmessage
  exact String.toList_inj.mp (List.append_cancel_left (List.append_cancel_right hmessage))

theorem code_member {target : FileId} {specifier name : String} {span : Span} {d : Diagnostic}
    (h : d ∈ member p target specifier name span) : d.code = noExportedMember := by
  unfold member at h
  split at h
  · cases h
  split at h
  · rw [List.mem_singleton.mp h]
    rfl
  · rw [List.mem_singleton.mp h]
    rfl

theorem mem_semantic_unused {m : Module} {d : Diagnostic} (hm : p.module? id = some m)
    (hkind : p.hasKind id .declaration = false) (hcode : d.code = unusedImport) :
    d ∈ semantic p id ↔ d ∈ unused m := by
  have hne : cannotFindModule ≠ unusedImport ∧ noExportedMember ≠ unusedImport := by decide
  unfold semantic
  rw [hm, hkind]
  simp only [Bool.false_eq_true, ↓reduceIte]
  refine ⟨fun hd => ?_, List.mem_append_right _⟩
  rcases List.mem_append.mp hd with hd | hd
  · exfalso
    rcases List.mem_append.mp hd with hd | hd
    · rcases List.mem_append.mp hd with hd | hd
      · obtain ⟨x, -, rfl⟩ := List.mem_map.mp hd
        exact hne.1 hcode
      · obtain ⟨i, -, hd⟩ := List.mem_flatMap.mp hd
        unfold importMembers at hd
        split at hd
        · cases hd
        · obtain ⟨b, -, hd⟩ := List.mem_flatMap.mp hd
          exact hne.2 ((code_member hd).symm.trans hcode)
    · obtain ⟨x, -, hd⟩ := List.mem_flatMap.mp hd
      unfold reexportMembers at hd
      split at hd
      · cases hd
      · obtain ⟨n, -, hd⟩ := List.mem_flatMap.mp hd
        exact hne.2 ((code_member hd).symm.trans hcode)
  · exact hd

/-- In a script of a program an import is reported as unused exactly when no token reads its name, and
nothing else is reported so. -/
theorem unused_import_iff (options : Options) (host : Host) (fs : σ) (full : Bool) (roots : List Path)
    {registry : Registry} (hr : registry.Distinct)
    (hbuild : Program.build options host fs full registry roots = (.ok p, r)) (hscript : p.isScript id = true) :
    ∃ m f, p.module? id = some m ∧ p.file? id = some f ∧ m.outline = Script.analyze id (Script.scan id f.text) ∧
      (∀ d ∈ semantic p id, d.code = unusedImport →
        ∃ i ∈ m.outline.imports, ∃ b ∈ i.bindings, d = unusedWarning b) ∧
      ∀ i ∈ m.outline.imports, ∀ b ∈ i.bindings,
        (unusedWarning b ∈ semantic p id ↔ Unread (streamOf id f.text) b.name) := by
  obtain ⟨s, -, -, ⟨e, heq⟩ | ⟨p', r', heq, hbuilt⟩⟩ := Program.build_cases options host fs full roots hr
  · rw [hbuild] at heq
    cases heq
  rw [hbuild] at heq
  cases heq
  obtain ⟨f, hf, hkind⟩ : ∃ f, p.file? id = some f ∧ f.kind = .script := by
    unfold Program.isScript Program.hasKind at hscript
    split at hscript
    · rename_i f hf
      exact ⟨f, hf, of_decide_eq_true hscript⟩
    · cases hscript
  have hread : s.program.file? id = some f := by
    rcases hbuilt.file_cases hf with ⟨-, hread⟩ | ⟨-, hshadow, -⟩
    · exact hread
    · rw [hkind] at hshadow
      cases hshadow
  obtain ⟨m, hm, houtline⟩ : ∃ m, p.module? id = some m ∧
      m.outline = Script.analyze id (Script.scan id f.text) := by
    refine ⟨_, hbuilt.module?_of_file hread (by rw [hkind]; rfl), ?_⟩
    rw [← hbuilt.id_eq hf]
    rfl
  have hdeclaration : p.hasKind id .declaration = false := by simp [Program.hasKind, hf, hkind]
  refine ⟨m, f, hm, hf, houtline, fun d hd hcode => ?_, fun i hi b hb => ?_⟩
  · obtain ⟨i, hi, b, hb, -, rfl⟩ := mem_unused.mp ((mem_semantic_unused hm hdeclaration hcode).mp hd)
    exact ⟨i, hi, b, hb, rfl⟩
  · rw [mem_semantic_unused hm hdeclaration rfl, mem_unused, unread_iff, ← houtline]
    constructor
    · rintro ⟨i', -, b', -, hunread, hwarning⟩
      rwa [name_of_unusedWarning hwarning]
    · exact fun hunread => ⟨i, hi, b, hb, hunread, rfl⟩

set_option maxRecDepth 100000

def threeReads : Volume := .ofTexts [
  (⟨"/a.ts"⟩, "import { a, b, c } from 'p';
f(...a, `${b}`, c.a);
")]

theorem unused_import_iff_threeReads :
    let built := Program.build (Options.ofConfigPath ⟨"/k"⟩) ⟨OrdMap.empty, .passthrough⟩ threeReads false
      Registry.empty [⟨"/a.ts"⟩]
    ∃ p r m f, built = (.ok p, r) ∧ p.isScript 0 = true ∧ p.module? 0 = some m ∧ p.file? 0 = some f ∧
      Unread (streamOf 0 f.text) "a" ∧ ¬ Unread (streamOf 0 f.text) "c" := by
  have hresult : ((Program.build (Options.ofConfigPath ⟨"/k"⟩) ⟨OrdMap.empty, .passthrough⟩ threeReads false
      Registry.empty [⟨"/a.ts"⟩]).1.toOption.map fun p =>
        (p.isScript 0, (p.module? 0).map (·.outline.imports), semantic p 0)) =
      some (true, some [⟨"p", ⟨0, 24, 27⟩, [⟨"a", "a", ⟨0, 9, 10⟩, false⟩, ⟨"b", "b", ⟨0, 12, 13⟩, false⟩,
          ⟨"c", "c", ⟨0, 15, 16⟩, false⟩], false, ⟨0, 0, 28⟩⟩],
        [unusedWarning ⟨"a", "a", ⟨0, 9, 10⟩, false⟩, unusedWarning ⟨"b", "b", ⟨0, 12, 13⟩, false⟩]) := by
    decide
  generalize hbuild : Program.build (Options.ofConfigPath ⟨"/k"⟩) ⟨OrdMap.empty, .passthrough⟩ threeReads false
    Registry.empty [⟨"/a.ts"⟩] = built at hresult
  obtain ⟨made, r⟩ := built
  cases made with
  | error e => cases hresult
  | ok p =>
    obtain ⟨hscript, hresult⟩ := Prod.mk.inj (Option.some.inj hresult)
    obtain ⟨himports, hsemantic⟩ := Prod.mk.inj hresult
    obtain ⟨m, f, hm, hf, -, -, hunread⟩ := unused_import_iff (Options.ofConfigPath ⟨"/k"⟩)
      ⟨OrdMap.empty, .passthrough⟩ threeReads false [⟨"/a.ts"⟩] Registry.distinct_empty hbuild hscript
    rw [hm, Option.map_some, Option.some.injEq] at himports
    rw [himports, hsemantic] at hunread
    refine ⟨p, r, m, f, rfl, hscript, hm, hf, ?_, fun hc => ?_⟩
    · exact (hunread _ List.mem_cons_self ⟨"a", "a", ⟨0, 9, 10⟩, false⟩ (by decide)).mp (by decide)
    · exact absurd ((hunread _ List.mem_cons_self ⟨"c", "c", ⟨0, 15, 16⟩, false⟩ (by decide)).mpr hc) (by decide)

/-- Of three imports that are all read the one that is read by itself is not reported. -/
theorem spread_and_substitution_unread :
    let built := Program.build (Options.ofConfigPath ⟨"/k"⟩) ⟨OrdMap.empty, .passthrough⟩ threeReads false
      Registry.empty [⟨"/a.ts"⟩]
    built.1.toOption.map (fun p => (semantic p 0, (p.file? 0).map fun f =>
      ((f.snippet? 31 35, f.snippet? 37 43), f.snippet? 45 46))) =
        some ([unusedWarning ⟨"a", "a", ⟨0, 9, 10⟩, false⟩, unusedWarning ⟨"b", "b", ⟨0, 12, 13⟩, false⟩],
          some ((some "...a", some "`${b}`"), some "c")) := by
  decide

end Recompile.Check
