import Recompile.Proofs.Template.Bytes

/-!
Where the names stand that a template reads. Every construct of a template hands its expressions on as
parts of the text with their places, so the offset of each name that is read is that of the name in the
text, down to the byte.
-/

namespace Recompile

namespace Text

theorem splitOn_cases (sep : Char) (cs : List Char) : splitOn (· = sep) cs = [cs] ∨
    ∃ piece tail, cs = piece ++ sep :: tail ∧ splitOn (· = sep) cs = piece :: splitOn (· = sep) tail := by
  induction cs with
  | nil => exact .inl rfl
  | cons c cs ih =>
    rw [splitOn]
    by_cases hc : c = sep
    · subst hc
      exact .inr ⟨[], cs, rfl, by simp⟩
    · rw [if_neg (by simpa using hc)]
      rcases ih with hone | ⟨piece, tail, rfl, hmore⟩
      · rw [hone]
        exact .inl rfl
      · rw [hmore]
        exact .inr ⟨c :: piece, tail, rfl, rfl⟩

/-- A part of a text, by where it starts. -/
def Stands (text : List Char) (pos : Nat) (cs : List Char) : Prop := ∃ rest, Place text pos (cs ++ rest)

namespace Stands

variable {text cs xs ys : List Char} {pos : Nat}

theorem of_place (h : Place text pos cs) : Stands text pos cs := ⟨[], by simpa using h⟩

theorem left (h : Stands text pos (xs ++ ys)) : Stands text pos xs := by
  obtain ⟨rest, h⟩ := h
  exact ⟨ys ++ rest, by simpa using h⟩

theorem right (h : Stands text pos (xs ++ ys)) : Stands text (pos + width xs) ys := by
  obtain ⟨rest, h⟩ := h
  rw [List.append_assoc] at h
  exact ⟨rest, h.skip⟩

theorem suffix (h : Stands text pos xs) (hsuffix : ys <:+ xs) :
    Stands text (pos + (width xs - width ys)) ys := by
  obtain ⟨lead, rfl⟩ := hsuffix
  rw [width_append, Nat.add_sub_cancel]
  exact h.right

theorem within {n : Nat} (h : Stands text pos xs) (hin : Stands xs n ys) : Stands text (pos + n) ys := by
  obtain ⟨rest, before, rfl, rfl⟩ := hin
  exact h.right.left

theorem strip (h : Stands text pos cs) {lead : List Char} (hstrip : stripLead? lead cs = some ys) :
    Stands text (pos + width lead) ys := by
  rw [stripLead?_eq_some.mp hstrip] at h
  exact h.right

theorem before (h : Stands text pos cs) {pat : List Char} (hsplit : splitFirst? pat cs = some (xs, ys)) :
    Stands text pos xs := by
  rw [splitFirst?_eq_some hsplit] at h
  exact h.left

theorem after (h : Stands text pos cs) {pat : List Char} (hsplit : splitFirst? pat cs = some (xs, ys)) :
    Stands text (pos + width xs + width pat) ys := by
  rw [splitFirst?_eq_some hsplit] at h
  exact h.right.right

theorem slice? (h : Stands text pos cs) : Text.slice? text pos (pos + width cs) = some cs := by
  obtain ⟨rest, h⟩ := h
  exact h.slice?

theorem stop_le (h : Stands text pos cs) : pos + width cs ≤ width text := by
  obtain ⟨rest, h⟩ := h
  exact h.skip.pos_le

end Stands

end Text

namespace Template

open Text (width Place Stands splitFirst? stripLead? isBlank)
open Bytes (Reached)

def IsWord (cs : List Char) : Prop := cs ≠ [] ∧ ∀ c ∈ cs, Script.isNameChar c = true

/-- The names of an analysis are words, and stand in the text at their offsets. -/
def Info.Exact (text : List Char) (i : Info) : Prop :=
  ∀ b ∈ i.bindings, Stands text b.offset b.name.toList ∧ IsWord b.name.toList

namespace Info

variable {text : List Char} {i j : Info}

theorem exact_empty (text : List Char) : Info.empty.Exact text := fun _ hb => (List.not_mem_nil hb).elim

theorem exact_declare (text name : List Char) : (Info.declare name).Exact text :=
  fun _ hb => (List.not_mem_nil hb).elim

theorem Exact.append (hi : i.Exact text) (hj : j.Exact text) : (i ++ j).Exact text :=
  fun b hb => (List.mem_append.mp hb).elim (hi b) (hj b)

theorem exact_foldl {α : Type} {f : α → Info} {xs : List α} (hf : ∀ x ∈ xs, (f x).Exact text) :
    ∀ {i : Info}, i.Exact text → (xs.foldl (fun info x => info ++ f x) i).Exact text := by
  induction xs with
  | nil => exact fun hi => hi
  | cons x xs ih =>
    exact fun hi => ih (fun y hy => hf y (List.mem_cons_of_mem x hy)) (hi.append (hf x List.mem_cons_self))

end Info

variable {text cs : List Char} {pos : Nat}

theorem mem_namesRead {offset : Nat} {b : Binding} : ∀ {ts : List Script.Token}
    {before2 before : Option Script.Token}, b ∈ namesRead offset before2 before ts →
      ∃ t ∈ ts, t.kind = .ident ∧ b = ⟨t.text, offset + t.span.start⟩ := by
  intro ts
  induction ts with
  | nil => exact fun h => (List.not_mem_nil h).elim
  | cons t ts ih =>
    intro before2 before h
    have hrest : b ∈ namesRead offset before (some t) ts →
        ∃ u ∈ t :: ts, u.kind = .ident ∧ b = ⟨u.text, offset + u.span.start⟩ := by
      intro h
      obtain ⟨u, hu, hread⟩ := ih h
      exact ⟨u, List.mem_cons_of_mem t hu, hread⟩
    rw [namesRead] at h
    split at h
    · rename_i hread
      rcases List.mem_cons.mp h with rfl | h
      · exact ⟨t, List.mem_cons_self, by simpa using (Bool.and_eq_true_iff.mp hread).1, rfl⟩
      · exact hrest h
    · exact hrest h

theorem exact_expression (h : Stands text pos cs) : (expression cs pos).Exact text := by
  intro b hb
  obtain ⟨t, ht, hkind, rfl⟩ := mem_namesRead hb
  have htiles := Script.tiles_scan noFile (String.ofList cs)
  rw [String.toList_ofList] at htiles
  obtain ⟨rest, hplace, -⟩ := htiles.text_place ht
  exact ⟨h.within ⟨rest, hplace⟩, Script.ident_scanFrom noFile _ t ht hkind⟩

theorem exact_interpolations (fuel : Nat) : ∀ {pos : Nat} {cs : List Char}, Stands text pos cs →
    (interpolations pos fuel cs).Exact text := by
  induction fuel with
  | zero => exact fun _ => Info.exact_empty text
  | succ fuel ih =>
    intro pos cs h
    rw [interpolations]
    cases hopen : splitFirst? "\x7b\x7b".toList cs with
    | none => exact Info.exact_empty text
    | some r =>
      dsimp only
      cases hclose : splitFirst? "\x7d\x7d".toList r.2 with
      | none => exact Info.exact_empty text
      | some r' =>
        have hafter : Stands text (pos + width r.1 + 2) r.2 := h.after hopen
        exact (exact_expression (hafter.before hclose)).append (ih (hafter.after hclose))

theorem stands_clauses {cs : List Char} {pos : Nat} (h : Stands text pos cs) :
    ∀ piece ∈ clauses cs pos, Stands text piece.1 piece.2 := by
  intro piece hpiece
  rw [clauses] at hpiece
  induction hlength : cs.length using Nat.strongRecOn generalizing cs pos with
  | ind n ih =>
    subst hlength
    rcases Text.splitOn_cases ';' cs with hone | ⟨first, tail, rfl, hmore⟩
    · rw [hone] at hpiece
      rw [List.mem_singleton.mp hpiece]
      exact h
    · rw [hmore] at hpiece
      rcases List.mem_cons.mp hpiece with rfl | hpiece
      · exact h.left
      · have hmark : Stands text (pos + width first) ([';'] ++ tail) := h.right
        exact ih tail.length (by simp; omega) hmark.right hpiece rfl

theorem stands_trimClause {piece : Nat × List Char} (h : Stands text piece.1 piece.2) :
    Stands text (trimClause piece).1 (trimClause piece).2 := h.suffix (List.dropWhile_suffix isBlank)

theorem exact_letClause (h : Stands text pos cs) : (letClause cs pos).Exact text := by
  unfold letClause
  have htail : ((splitWhere? (fun c => isBlank c || c = '=') cs).getD (cs, [])).2 <:+ cs := by
    cases hsplit : splitWhere? (fun c => isBlank c || c = '=') cs with
    | none => exact List.nil_suffix
    | some r =>
      obtain ⟨c, hc, -⟩ := Bytes.splitWhere?_eq_some hsplit
      exact ⟨r.1 ++ [c], by simp [hc]⟩
  generalize (splitWhere? (fun c => isBlank c || c = '=') cs).getD (cs, []) = split at htail ⊢
  obtain ⟨name, tail⟩ := split
  dsimp only at htail ⊢
  have hdropped := (List.dropWhile_suffix isBlank).trans
    ((List.dropWhile_suffix (· = '=')).trans ((List.dropWhile_suffix isBlank).trans htail))
  refine (Info.exact_declare text _).append ?_
  split
  · rename_i iterable hstrip
    have hsuffix : iterable <:+ cs :=
      List.IsSuffix.trans ⟨_, (Text.stripLead?_eq_some.mp hstrip).symm⟩ hdropped
    exact exact_expression (h.suffix hsuffix)
  · exact Info.exact_empty text

theorem exact_directiveClause {piece : Nat × List Char} (h : Stands text piece.1 piece.2) :
    (directiveClause piece).Exact text := by
  have hpiece := stands_trimClause h
  unfold directiveClause
  dsimp only
  split
  · rename_i hlet
    exact exact_letClause (hpiece.strip hlet)
  split
  · rename_i has
    exact (exact_expression (hpiece.before has)).append (Info.exact_declare text _)
  split
  · rename_i hkey
    split
    · exact exact_expression (hpiece.after hkey)
    · exact exact_expression hpiece
  · exact exact_expression hpiece

theorem exact_directive (h : Stands text pos cs) : (directive cs pos).Exact text :=
  Info.exact_foldl (fun _ hpiece => exact_directiveClause (stands_clauses h _ hpiece))
    (Info.exact_empty text)

theorem exact_attributeInfo (name : List Char) {value : Option (Nat × List Char)}
    (h : ∀ v ∈ value, Stands text v.1 v.2) : (attributeInfo name value).Exact text := by
  unfold attributeInfo
  split
  · exact Info.exact_declare text _
  split
  · exact Info.exact_declare text _
  split
  · exact Info.exact_empty text
  · have hvalue := h _ rfl
    split
    · exact exact_directive hvalue
    split
    · exact exact_expression hvalue
    · exact exact_interpolations _ hvalue

theorem stands_attributeValue (h : Place text pos cs) :
    ∀ v ∈ (attributeValue pos cs).1, Stands text v.1 v.2 := by
  intro v hv
  unfold attributeValue at hv
  split at hv
  · rename_i quote rest
    have hone : Place text (pos + 1) (quote :: rest) := h.next
    split at hv
    · rename_i hquote
      have htwo : Place text (pos + 2) rest := by
        have hnext := hone.next
        rcases hquote with rfl | rfl <;> exact hnext
      split at hv
      · rename_i value after hsplit
        obtain ⟨c, rfl, -⟩ := Bytes.splitWhere?_eq_some hsplit
        cases hv
        exact ⟨_, htwo⟩
      · cases hv
        exact .of_place htwo
    · cases hv
      exact ⟨_, by rwa [List.takeWhile_append_dropWhile]⟩
  · cases hv
    exact .of_place h.next
  · cases hv

theorem exact_attributesFrom (fuel : Nat) : ∀ {pos : Nat} {cs : List Char}, Reached text pos cs →
    (attributesFrom fuel pos cs).1.Exact text := by
  induction fuel with
  | zero => exact fun _ => Info.exact_empty text
  | succ fuel ih =>
    intro pos cs h
    obtain ⟨-, hstart⟩ := Bytes.pass_eq Script.coarse_isAsciiBlank h
    cases hdrop : cs.dropWhile Text.isAsciiBlank with
    | nil =>
      rw [Bytes.attributesFrom_ends hdrop (.inl rfl)]
      exact Info.exact_empty text
    | cons c rest =>
      cases hend : Bytes.endsTag (c :: rest) with
      | true =>
        rw [Bytes.attributesFrom_ends hdrop (.inr hend)]
        exact Info.exact_empty text
      | false =>
        rw [hdrop] at hstart
        obtain ⟨-, hname⟩ := Bytes.pass_eq Bytes.coarse_insideName hstart
        obtain ⟨-, hafter, -⟩ := Bytes.attributeValue_eq hname
        have hplace := hstart.resolve_right fun hnil => by cases hnil.1
        rw [Bytes.attributesFrom_cons hdrop hend]
        exact (exact_attributeInfo _ (stands_attributeValue (hplace.pass _))).append (ih hafter)

theorem exact_tag (h : Place text pos ('<' :: cs)) : (tag (pos + 1) cs).1.Exact text := by
  obtain ⟨-, hreached⟩ := Bytes.pass_eq Bytes.coarse_insideTag (.inl h.next)
  exact exact_attributesFrom _ hreached

theorem exact_loopClause {piece : Nat × List Char} (h : Stands text piece.1 piece.2) :
    (loopClause piece).Exact text := by
  have hpiece := stands_trimClause h
  unfold loopClause
  dsimp only
  split
  · rename_i htrack
    exact exact_expression (hpiece.strip htrack)
  split
  · exact fun _ hb => (List.not_mem_nil hb).elim
  · exact Info.exact_empty text

theorem exact_loopHead {piece : Nat × List Char} (h : Stands text piece.1 piece.2) :
    (loopHead piece).Exact text := by
  have hpiece := stands_trimClause h
  unfold loopHead
  dsimp only
  split
  · rename_i hof
    exact (Info.exact_declare text _).append (exact_expression (hpiece.after hof))
  · exact Info.exact_empty text

theorem exact_blockArgument (keyword : String) (h : Stands text pos cs) :
    (blockArgument keyword cs pos).Exact text := by
  unfold blockArgument
  split
  · have hpieces := stands_clauses h
    split
    · exact Info.exact_empty text
    · rename_i head rest hclauses
      rw [hclauses] at hpieces
      exact Info.exact_foldl
        (fun _ hpiece => exact_loopClause (hpieces _ (List.mem_cons_of_mem head hpiece)))
        (exact_loopHead (hpieces _ List.mem_cons_self))
  split
  · split
    · rename_i hsplit
      refine (exact_expression (h.before hsplit)).append ?_
      split
      · exact Info.exact_declare text _
      · exact Info.exact_empty text
    · exact exact_expression h
  · exact exact_expression h

theorem exact_block (h : Place text pos ('@' :: cs)) : (block (pos + 1) cs).1.Exact text := by
  have hcs : Place text (pos + 1) cs := h.next
  have hplace := (hcs.pass Text.isAsciiAlpha).pass (· = ' ')
  by_cases hhead : ((cs.dropWhile Text.isAsciiAlpha).dropWhile (· = ' ')).head? = some '('
  · obtain ⟨rest, hrest⟩ := List.head?_eq_some_iff.mp hhead
    rw [hrest] at hplace
    have hinner : Stands text (pos + 1 + width (cs.takeWhile Text.isAsciiAlpha) +
        width ((cs.dropWhile Text.isAsciiAlpha).takeWhile (· = ' ')) + 1) rest := .of_place hplace.next
    rw [Bytes.block_open hrest]
    dsimp only
    split
    · rename_i inner after hgroup
      rw [Bytes.groupTail_eq_some hgroup] at hinner
      exact exact_blockArgument _ hinner.left
    · exact Info.exact_empty text
  · rw [block]
    split
    · rename_i hrest
      rw [hrest] at hhead
      exact absurd rfl hhead
    · exact Info.exact_empty text

theorem exact_analyzeFrom (fuel : Nat) : ∀ {pos : Nat} {cs : List Char}, Reached text pos cs →
    (analyzeFrom fuel pos cs).Exact text := by
  induction fuel with
  | zero => exact fun _ => Info.exact_empty text
  | succ fuel ih =>
    intro pos cs h
    unfold analyzeFrom
    split
    · exact Info.exact_empty text
    · rename_i rest
      -- A text that is not used up has been reached at a place of its own.
      have hplace := h.resolve_right fun hnil => by cases hnil.1
      have hrest : Place text (pos + 2) rest := hplace.next.next
      split
      · exact Info.exact_empty text
      · rename_i inner after hclose
        obtain ⟨-, -, hpair⟩ := Bytes.find?_place hrest hclose
        exact (exact_expression ((Stands.of_place hrest).before hclose)).append (ih (.inl hpair.skip))
    · rename_i c rest _
      have hplace := h.resolve_right fun hnil => by cases hnil.1
      by_cases htag : (c = '<' && startsName rest) = true
      · obtain rfl : c = '<' := by simpa using (Bool.and_eq_true_iff.mp htag).1
        obtain ⟨-, hreached, -⟩ := Bytes.tag_eq hplace
        rw [if_pos htag]
        exact (exact_tag hplace).append (ih hreached)
      rw [if_neg htag]
      by_cases hblock : (c = '@' && startsName rest) = true
      · obtain rfl : c = '@' := by simpa using (Bool.and_eq_true_iff.mp hblock).1
        obtain ⟨-, hreached, -⟩ := Bytes.block_eq hplace
        rw [if_pos hblock]
        exact (exact_block hplace).append (ih hreached)
      rw [if_neg hblock]
      exact ih (.inl hplace.next)

theorem exact_analyze (source : String) : (analyze source).Exact source.toList :=
  exact_analyzeFrom _ (.inl (Place.start _))

/-- Every template is read to its end, and each name that it reads stands in the template at the offset
that is noted for it. So no offset is out of the range of the template's size. -/
theorem binding_offsets_exact (source : String) :
    Bytes.analyze source.toList = .ok (analyze source) ∧
    ∀ b ∈ (analyze source).bindings,
      Text.slice? source.toList b.offset (b.offset + width b.name.toList) = some b.name.toList ∧
        b.offset + width b.name.toList ≤ width source.toList :=
  ⟨Bytes.analyze_eq source, fun b hb =>
    ⟨(exact_analyze source b hb).1.slice?, (exact_analyze source b hb).1.stop_le⟩⟩

def variedTemplate : String :=
  "é<p *f='let x \u3000of ünits; key: ä; z as w' (c)=\"d\" t=\"é\x7b\x7b e \x7d\x7d\">@for(r of rows;track r.id)\x7b@if (ok;as o)\x7b\x7d\x7d"

theorem binding_offsets_exact_variedTemplate :
    (analyze variedTemplate).bindings.map (fun b => (b.name, b.offset)) =
      [("ünits", 21), ("ä", 34), ("z", 38), ("d", 51), ("e", 62), ("rows", 78), ("r", 89), ("ok", 100)] ∧
    Text.slice? variedTemplate.toList 21 27 = some "ünits".toList := by
  have hbindings : (analyze variedTemplate).bindings.map (fun b => (b.name, b.offset)) =
      [("ünits", 21), ("ä", 34), ("z", 38), ("d", 51), ("e", 62), ("rows", 78), ("r", 89), ("ok", 100)] := by
    decide +kernel
  have hmem : (⟨"ünits", 21⟩ : Binding) ∈ (analyze variedTemplate).bindings := by decide +kernel
  exact ⟨hbindings, ((binding_offsets_exact variedTemplate).2 _ hmem).1⟩

end Template

end Recompile
