import Recompile.Engine.Findings
import Recompile.Proofs.Emit.Cuts
import Recompile.Proofs.Program.Shadow
import Recompile.Proofs.Source.Lines

/-!
The spans that findings are about. Whatever a script holds, the spans of its tokens and of its faults
end where they start or later, and so do those of everything that is found about a program.
-/

namespace Recompile

theorem Diagnostic.ordered_error {code : Code} {message : String} {span : Span} (h : span.Ordered) :
    (Diagnostic.error code message span).Ordered :=
  ⟨h, fun _ hr => (List.not_mem_nil hr).elim⟩

theorem Diagnostic.ordered_warning {code : Code} {message : String} {span : Span} (h : span.Ordered) :
    (Diagnostic.warning code message span).Ordered :=
  ⟨h, fun _ hr => (List.not_mem_nil hr).elim⟩

theorem Span.ordered_none : Span.none.Ordered := Nat.le_refl 0

def AllOrdered (ds : List Diagnostic) : Prop := ∀ d ∈ ds, d.Ordered

theorem AllOrdered.append {xs ys : List Diagnostic} (hx : AllOrdered xs) (hy : AllOrdered ys) :
    AllOrdered (xs ++ ys) :=
  fun d hd => (List.mem_append.mp hd).elim (hx d) (hy d)

theorem allOrdered_nil : AllOrdered [] := fun _ hd => (List.not_mem_nil hd).elim

theorem AllOrdered.ite {P : Prop} [Decidable P] {xs ys : List Diagnostic} (hx : P → AllOrdered xs)
    (hy : ¬ P → AllOrdered ys) : AllOrdered (if P then xs else ys) := by
  split
  · exact hx ‹_›
  · exact hy ‹_›

theorem allOrdered_flatMap {α : Type} {xs : List α} {f : α → List Diagnostic}
    (h : ∀ a ∈ xs, AllOrdered (f a)) : AllOrdered (xs.flatMap f) := by
  intro d hd
  obtain ⟨a, ha, hd⟩ := List.mem_flatMap.mp hd
  exact h a ha d hd

theorem allOrdered_map {α : Type} {xs : List α} {f : α → Diagnostic} (h : ∀ a ∈ xs, (f a).Ordered) :
    AllOrdered (xs.map f) := by
  intro d hd
  obtain ⟨a, ha, rfl⟩ := List.mem_map.mp hd
  exact h a ha

namespace Script

def GapMode.OpenedBy (pos : Nat) : GapMode → Prop
  | .block start => start ≤ pos
  | _ => True

theorem openComment_le (pos : Nat) (mode : GapMode) (cs : List Char) : mode.OpenedBy pos →
    ∀ n ∈ (skipGap pos mode cs).openComment, n ≤ pos + Text.width (skipGap pos mode cs).text := by
  have hgrow : ∀ {pos n : Nat} {g : Gap} {lead : List Char}, n ≤ pos + Text.width lead + Text.width g.text →
      n ≤ pos + Text.width (g.grow lead).text := by
    intro pos n g lead h
    rw [Gap.grow, Text.width_append]
    omega
  fun_induction skipGap pos mode cs with
  | case1 pos rest ih => exact fun _ n hn => hgrow (ih trivial n hn)
  | case2 pos rest ih => exact fun _ n hn => hgrow (ih (Nat.le_add_right pos 2) n hn)
  | case3 pos c rest _ _ _ ih =>
    intro _ n hn
    refine hgrow ?_
    simpa using ih trivial n hn
  | case4 => exact fun _ n hn => by cases hn
  | case5 pos rest ih => exact fun _ n hn => hgrow (ih trivial n hn)
  | case6 pos c rest _ ih =>
    intro _ n hn
    refine hgrow ?_
    simpa using ih trivial n hn
  | case7 pos start rest ih => exact fun _ n hn => hgrow (ih trivial n hn)
  | case8 pos start c rest _ ih =>
    intro hopen n hn
    refine hgrow ?_
    simpa using ih (Nat.le_add_right_of_le hopen) n hn
  | case9 pos start =>
    intro hopen n hn
    cases hn
    exact Nat.le_add_right_of_le hopen
  | case10 => exact fun _ n hn => by cases hn
  | case11 => exact fun _ n hn => by cases hn

structure Token.Ordered (t : Token) : Prop where
  span : t.span.Ordered
  openComment : ∀ n ∈ t.openComment, n ≤ t.span.start

theorem ordered_scanFrom (file : FileId) (fuel : Nat) : ∀ {pos : Nat} {previous : Option Token}
    {cs : List Char}, ∀ t ∈ scanFrom file fuel pos previous cs, t.Ordered := by
  induction fuel with
  | zero => exact fun t ht => by cases ht
  | succ fuel ih =>
    intro pos previous cs t ht
    have hcomment := openComment_le pos .plain cs trivial
    rw [scanFrom] at ht
    dsimp only at ht
    split at ht
    · rw [List.mem_singleton.mp ht]
      exact ⟨Nat.le_refl _, hcomment⟩
    · rcases List.mem_cons.mp ht with rfl | ht
      · exact ⟨Nat.le_add_right _ _, hcomment⟩
      · exact ih t ht

theorem ordered_trackDelimiter {stack : List OpenBracket} {t : Token} (ht : t.Ordered)
    (h : ∀ b ∈ stack, b.2.Ordered) : (∀ b ∈ (trackDelimiter stack t).1, b.2.Ordered) ∧
      AllOrdered (trackDelimiter stack t).2 := by
  have hunclosed : ∀ {bs : List OpenBracket}, (∀ b ∈ bs, b.2.Ordered) → AllOrdered (bs.map unclosed) :=
    fun hbs => allOrdered_map fun b hb => ⟨hbs b hb, fun r hr => by
      rw [List.mem_singleton.mp hr]
      exact hbs b hb⟩
  unfold trackDelimiter
  split
  · split
    · refine ⟨fun b hb => ?_, allOrdered_nil⟩
      rcases List.mem_cons.mp hb with rfl | hb
      · exact ht.span
      · exact h b hb
    · split
      · dsimp only
        split
        · exact ⟨h, fun d hd => by
            rw [List.mem_singleton.mp hd]
            exact Diagnostic.ordered_error ht.span⟩
        · rename_i b below hdrop
          have hbelow : (b :: below).Sublist stack := hdrop ▸ List.dropWhile_sublist _
          exact ⟨fun x hx => h x (hbelow.mem (List.mem_cons_of_mem b hx)),
            hunclosed fun x hx => h x ((List.takeWhile_sublist _).mem hx)⟩
      · exact ⟨h, allOrdered_nil⟩
  · exact ⟨h, allOrdered_nil⟩

theorem ordered_tokenFaults {t : Token} (h : t.Ordered) : AllOrdered (tokenFaults t) := by
  have hliteral : ∀ {code message}, AllOrdered [Diagnostic.error code message t.span] := by
    intro code message d hd
    rw [List.mem_singleton.mp hd]
    exact Diagnostic.ordered_error h.span
  unfold tokenFaults
  refine AllOrdered.append ?_ ?_
  · split
    · rename_i start hstart
      intro d hd
      rw [List.mem_singleton.mp hd]
      exact Diagnostic.ordered_error (h.openComment start hstart)
    · exact allOrdered_nil
  · exact .ite (fun _ => allOrdered_nil) fun _ => .ite (fun _ => hliteral) fun _ => hliteral

theorem ordered_faultsFrom : ∀ {ts : List Token} {stack : List OpenBracket}, (∀ t ∈ ts, t.Ordered) →
    (∀ b ∈ stack, b.2.Ordered) → AllOrdered (faultsFrom stack ts)
  | [], stack, _, hstack => allOrdered_map fun b hb => ⟨hstack b hb, fun r hr => by
      rw [List.mem_singleton.mp hr]
      exact hstack b hb⟩
  | t :: ts, stack, hts, hstack => by
    have ht := hts t List.mem_cons_self
    obtain ⟨hnext, hfound⟩ := ordered_trackDelimiter ht hstack
    exact ((ordered_tokenFaults ht).append hfound).append
      (ordered_faultsFrom (fun u hu => hts u (List.mem_cons_of_mem t hu)) hnext)

theorem ordered_faults (id : FileId) (text : String) : AllOrdered (faults (scan id text)) :=
  ordered_faultsFrom (fun _ ht => ordered_scanFrom id _ _ ht) fun _ hb => (List.not_mem_nil hb).elim

theorem ordered_of_isToken {id : FileId} {text : String} {x : Span}
    (h : (streamOf id text).IsToken x) : x.Ordered := by
  obtain ⟨i, rfl⟩ := h
  obtain ⟨-, -, hstop⟩ := token_place id text i
  rw [Span.Ordered, hstop]
  exact Nat.le_add_right _ _

end Script

structure Module.Ordered (m : Module) : Prop where
  faults : AllOrdered m.faults
  specifiers : ∀ x ∈ m.outline.specifiers, x.2.Ordered
  bindings : ∀ i ∈ m.outline.imports, ∀ b ∈ i.bindings, b.span.Ordered
  names : ∀ r ∈ m.outline.reexports, ∀ n ∈ r.names.getD [], n.span.Ordered
  resources : ∀ r ∈ m.resources, r.literal.Ordered

namespace Program

open Script (streamOf)

variable {σ : Type} [FileSystem σ] {c : BuildContext σ} {s : BuildState} {p : Program} {r : Registry}

theorem ordered_literal_of_mem_refsOf {f : SourceFile} {ref : ResourceRef}
    (h : ref ∈ BuildState.refsOf c f) : ref.literal.Ordered := by
  have hplaced := Script.analyze_placed f.id f.text
  unfold BuildState.refsOf BuildState.resourceRefs at h
  obtain ⟨refs, hrefs, hmem⟩ := List.mem_flatten.mp h
  obtain ⟨n, hn, rfl⟩ := List.mem_mapIdx.mp hrefs
  obtain ⟨u, hu, rfl⟩ := List.mem_map.mp hmem
  have hcomponent := hplaced.components _ (List.getElem_mem hn)
  suffices hliteral : (streamOf f.id f.text).IsToken u.2.2 from Script.ordered_of_isToken hliteral
  unfold BuildState.urls at hu
  rcases List.mem_append.mp hu with hu | hu
  · split at hu
    · rename_i url literal property htemplate
      rw [List.mem_singleton.mp hu]
      exact (hcomponent.template htemplate).1
    · cases hu
  · obtain ⟨x, hx, rfl⟩ := List.mem_map.mp hu
    exact hcomponent.styleUrls x hx

theorem ordered_moduleOf (c : BuildContext σ) (r : Registry) (f : SourceFile) :
    (BuildState.moduleOf c r f).Ordered := by
  have hplaced := Script.analyze_placed f.id f.text
  constructor
  · exact Script.ordered_faults f.id f.text
  · intro x hx
    rcases List.mem_append.mp hx with hx | hx
    · rcases List.mem_append.mp hx with hx | hx
      · obtain ⟨i, hi, rfl⟩ := List.mem_map.mp hx
        exact Script.ordered_of_isToken (hplaced.imports i hi).1
      · obtain ⟨i, hi, rfl⟩ := List.mem_map.mp hx
        exact Script.ordered_of_isToken (hplaced.reexports i hi).1
    · obtain ⟨d, hd, rfl⟩ := List.mem_map.mp hx
      exact Script.ordered_of_isToken (hplaced.dynamicImports d hd)
  · exact fun i hi b hb => Script.ordered_of_isToken ((hplaced.imports i hi).2 b hb)
  · exact fun x hx n hn => Script.ordered_of_isToken ((hplaced.reexports x hx).2 n hn)
  · intro ref href
    obtain ⟨ref₀, href₀, rfl⟩ := List.mem_map.mp href
    have hliteral : (BuildState.identified c r ref₀).literal = ref₀.literal := by
      unfold BuildState.identified
      split <;> rfl
    rw [hliteral]
    exact ordered_literal_of_mem_refsOf href₀

theorem ordered_settleModule {m : Module} (h : m.Ordered) (p : Program) : (settleModule p m).Ordered := by
  refine ⟨h.faults, h.specifiers, h.bindings, h.names, fun ref href => ?_⟩
  obtain ⟨ref₀, href₀, rfl⟩ := List.mem_map.mp href
  have hold := h.resources ref₀ href₀
  split
  · split <;> exact hold
  · exact hold

theorem Built.ordered_module (h : Built c s p r) {id : FileId} {m : Module}
    (hm : p.module? id = some m) : m.Ordered := by
  obtain ⟨f, -, -, rfl⟩ := h.module_cases hm
  exact ordered_settleModule (ordered_moduleOf c s.registry f) s.program

theorem Built.placed (h : Built c s p r) {id : FileId} {f : SourceFile} {m : Module}
    (hscript : Emit.scriptOf? p id = some (f, m)) : m.outline.Placed (streamOf id f.text) := by
  unfold Emit.scriptOf? at hscript
  obtain ⟨f', hf', hscript⟩ := Option.bind_eq_some_iff.mp hscript
  obtain ⟨m', hm', hscript⟩ := Option.bind_eq_some_iff.mp hscript
  split at hscript
  · rename_i hkind
    cases hscript
    obtain ⟨g, hg, -, rfl⟩ := h.module_cases hm'
    rcases h.file_cases hf' with ⟨-, hf'⟩ | ⟨-, hshadow, -⟩
    · obtain rfl := Option.some.inj (hf'.symm.trans hg)
      have hplaced := Script.analyze_placed f.id f.text
      rw [(h.sound.file_read hf').1] at hplaced
      rw [(h.sound.file_read hf').1]
      exact hplaced
    · rw [hkind] at hshadow
      cases hshadow
  · cases hscript

end Program

namespace Check

variable {p : Program} {m : Module}

theorem ordered_member (p : Program) (target : FileId) (specifier name : String) {span : Span}
    (h : span.Ordered) : AllOrdered (member p target specifier name span) := by
  have hone : ∀ {message}, AllOrdered [Diagnostic.error noExportedMember message span] := by
    intro message d hd
    rw [List.mem_singleton.mp hd]
    exact Diagnostic.ordered_error h
  exact .ite (fun _ => allOrdered_nil) fun _ => .ite (fun _ => hone) fun _ => hone

theorem ordered_semantic (h : ∀ {id m}, p.module? id = some m → m.Ordered) (id : FileId) :
    AllOrdered (semantic p id) := by
  unfold semantic
  split
  · exact allOrdered_nil
  · rename_i m hm
    have hordered := h hm
    refine ((AllOrdered.append ?_ ?_).append ?_).append ?_
    · refine allOrdered_map fun x hx => Diagnostic.ordered_error ?_
      exact hordered.specifiers x.1 (List.of_mem_zip (List.mem_filter.mp hx).1).1
    · refine allOrdered_flatMap fun i hi => ?_
      unfold importMembers
      split
      · exact allOrdered_nil
      · exact allOrdered_flatMap fun b hb => ordered_member p _ _ _
          (hordered.bindings i.1 (List.of_mem_zip hi).1 b hb)
    · refine allOrdered_flatMap fun x hx => ?_
      unfold reexportMembers
      split
      · exact allOrdered_nil
      · exact allOrdered_flatMap fun n hn => ordered_member p _ _ _
          (hordered.names x.1 (List.of_mem_zip hx).1 n hn)
    · refine .ite (fun _ => allOrdered_nil) fun _ => ?_
      refine allOrdered_map fun b hb => Diagnostic.ordered_warning ?_
      obtain ⟨i, hi, hb⟩ := List.mem_flatMap.mp (List.mem_filter.mp hb).1
      exact hordered.bindings i hi b hb

theorem ordered_templates (h : ∀ {id m}, p.module? id = some m → m.Ordered) (id : FileId)
    (strict : Bool) : AllOrdered (templates p id strict) := by
  unfold templates
  split
  · exact allOrdered_nil
  · rename_i m hm
    refine AllOrdered.append ?_ ?_
    · exact allOrdered_map fun ref href => Diagnostic.ordered_error
        ((h hm).resources ref (List.mem_filter.mp href).1)
    · refine .ite (fun _ => ?_) fun _ => allOrdered_nil
      intro d hd
      obtain ⟨ds, hds, hd⟩ := List.mem_flatten.mp hd
      obtain ⟨n, hn, rfl⟩ := List.mem_mapIdx.mp hds
      unfold unknownNames at hd
      split at hd
      · cases hd
      · obtain ⟨b, -, rfl⟩ := List.mem_map.mp hd
        exact Diagnostic.ordered_error (Nat.le_add_right _ _)

theorem ordered_global (p : Program) (o : Options) (roots : List Path) :
    AllOrdered (global p o roots) := by
  refine AllOrdered.append (.ite (fun _ d hd => ?_) fun _ => allOrdered_nil) ?_
  · rw [List.mem_singleton.mp hd]
    exact Diagnostic.ordered_error Span.ordered_none
  · exact allOrdered_map fun _ _ => Diagnostic.ordered_error Span.ordered_none

end Check

theorem Options.ordered_diagnostics (o : Options) : AllOrdered o.diagnostics := by
  refine AllOrdered.append (.ite (fun _ d hd => ?_) fun _ => allOrdered_nil) ?_
  · rw [List.mem_singleton.mp hd]
    exact Diagnostic.ordered_error Span.ordered_none
  · exact allOrdered_map fun _ _ => Diagnostic.ordered_error Span.ordered_none

end Recompile
