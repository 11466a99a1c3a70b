import Recompile.Proofs.Text.Cuts
import Recompile.Script.Analysis

/-!
The tokens of a text tile it: gaps and lexemes in turn, from the first character to the last, with a
mark at the end. So the spans of tokens cut the text where their own texts begin and end.
-/

namespace Recompile.Script

open Text (width Place)

theorem grow_append {g : Gap} {lead cs : List Char} (h : g.text ++ g.rest = cs) :
    (g.grow lead).text ++ (g.grow lead).rest = lead ++ cs := by
  rw [← h, ← List.append_assoc]
  rfl

theorem skipGap_append (pos : Nat) (mode : GapMode) (cs : List Char) :
    (skipGap pos mode cs).text ++ (skipGap pos mode cs).rest = cs := by
  fun_induction skipGap pos mode cs with
  | case1 _ _ ih => exact grow_append ih
  | case2 _ _ ih => exact grow_append ih
  | case3 _ _ _ _ _ _ ih => exact grow_append ih
  | case4 => rfl
  | case5 _ _ ih => exact grow_append ih
  | case6 _ _ _ _ ih => exact grow_append ih
  | case7 _ _ _ ih => exact grow_append ih
  | case8 _ _ _ _ _ ih => exact grow_append ih
  | case9 => rfl
  | case10 => rfl
  | case11 => rfl

theorem quotedTail_append (quote : Char) (multiline : Bool) (cs : List Char) :
    (quotedTail quote multiline cs).1 ++ (quotedTail quote multiline cs).2.1 = cs := by
  fun_induction quotedTail quote multiline cs with
  | case1 => rfl
  | case2 => rfl
  | case3 c rest text rest' closed heq ih =>
    rw [heq] at ih
    simpa using ih
  | case4 => rfl
  | case5 => rfl
  | case6 c rest _ _ _ _ text rest' closed heq ih =>
    rw [heq] at ih
    simpa using ih

theorem regexTail_append {inClass : Bool} {cs text rest : List Char}
    (h : regexTail inClass cs = some (text, rest)) : text ++ rest = cs := by
  fun_induction regexTail inClass cs generalizing text rest with
  | case1 => cases h
  | case2 => cases h
  | case3 inClass c cs ih =>
    obtain ⟨⟨text', rest'⟩, hr, heq⟩ := Option.map_eq_some_iff.mp h
    cases heq
    simpa using ih hr
  | case4 => cases h
  | case5 =>
    cases h
    rfl
  | case6 inClass c cs =>
    rename_i ih
    obtain ⟨⟨text', rest'⟩, hr, heq⟩ := Option.map_eq_some_iff.mp h
    cases heq
    simpa using ih hr

theorem lexeme_append (previous : Option Token) (c : Char) (rest : List Char) :
    ∃ tail, (lexeme previous c rest).text = c :: tail ∧
      tail ++ (lexeme previous c rest).rest = rest := by
  unfold lexeme
  split
  · exact ⟨_, rfl, List.takeWhile_append_dropWhile⟩
  · split
    · exact ⟨_, rfl, List.takeWhile_append_dropWhile⟩
    · split
      · exact ⟨_, rfl, quotedTail_append _ _ _⟩
      · split
        · exact ⟨_, rfl, quotedTail_append _ _ _⟩
        · split
          · rename_i text rest' hregex
            split at hregex
            · refine ⟨text ++ rest'.takeWhile isNameChar, rfl, ?_⟩
              rw [List.append_assoc, List.takeWhile_append_dropWhile]
              exact regexTail_append hregex
            · cases hregex
          · exact ⟨[], rfl, rfl⟩

theorem lexeme_ident {previous : Option Token} {c : Char} {rest : List Char}
    (h : (lexeme previous c rest).kind = .ident) :
    ∀ d ∈ (lexeme previous c rest).text, isNameChar d = true := by
  by_cases hstart : isNameStart c = true
  · intro d hd
    rw [lexeme, if_pos hstart] at hd
    rcases List.mem_cons.mp hd with rfl | hd
    · simp [isNameChar, hstart]
    · exact List.mem_takeWhile_imp hd
  · rw [lexeme, if_neg hstart] at h
    repeat' split at h
    all_goals cases h

inductive Tiles (text : List Char) : Nat → List Token → Prop where
  | last {pos : Nat} {t : Token} (gap : Place text pos t.gap.toList) (kind : t.kind = .eof)
      (empty : t.text = "") (start : t.span.start = width text) (stop : t.span.stop = width text) :
      Tiles text pos [t]
  | cons {pos : Nat} {t : Token} {ts : List Token} {rest : List Char}
      (place : Place text pos (t.gap.toList ++ (t.text.toList ++ rest)))
      (start : t.span.start = pos + width t.gap.toList)
      (stop : t.span.stop = t.span.start + width t.text.toList)
      (tail : Tiles text t.span.stop ts) : Tiles text pos (t :: ts)

theorem tiles_scanFrom (file : FileId) {text : List Char} (fuel : Nat) :
    ∀ {pos : Nat} {previous : Option Token} {cs : List Char}, Place text pos cs → cs.length < fuel →
      Tiles text pos (scanFrom file fuel pos previous cs) := by
  induction fuel with
  | zero => exact fun _ hfuel => absurd hfuel (Nat.not_lt_zero _)
  | succ fuel ih =>
    intro pos previous cs hplace hfuel
    have hgap := skipGap_append pos .plain cs
    rw [scanFrom]
    dsimp only
    split
    · rename_i hrest
      rw [hrest, List.append_nil] at hgap
      rw [← hgap] at hplace
      exact .last (by simpa using hplace) rfl rfl hplace.pos_add_width hplace.pos_add_width
    · rename_i c rest hrest
      obtain ⟨tail, htext, htail⟩ := lexeme_append previous c rest
      rw [hrest] at hgap
      have hwhole : Place text pos ((skipGap pos .plain cs).text ++
          ((lexeme previous c rest).text ++ (lexeme previous c rest).rest)) := by
        rw [htext, List.cons_append, htail, hgap]
        exact hplace
      have hshort : (lexeme previous c rest).rest.length < fuel := by
        rw [← hgap, ← htail] at hfuel
        simp only [List.length_append, List.length_cons] at hfuel
        omega
      have hread : Place text pos ((String.ofList (skipGap pos .plain cs).text).toList ++
          ((String.ofList (lexeme previous c rest).text).toList ++ (lexeme previous c rest).rest)) := by
        simpa using hwhole
      exact .cons hread (by simp) (by simp) (ih hwhole.skip.skip hshort)

theorem tiles_scan (file : FileId) (source : String) : Tiles source.toList 0 (scan file source) :=
  tiles_scanFrom file _ (Place.start _) (Nat.lt_succ_self _)

theorem ident_scanFrom (file : FileId) (fuel : Nat) : ∀ {pos : Nat} {previous : Option Token}
    {cs : List Char}, ∀ t ∈ scanFrom file fuel pos previous cs, t.kind = .ident →
      t.text.toList ≠ [] ∧ ∀ c ∈ t.text.toList, isNameChar c = true := by
  induction fuel with
  | zero => exact fun t ht => by cases ht
  | succ fuel ih =>
    intro pos previous cs t ht hkind
    rw [scanFrom] at ht
    dsimp only at ht
    split at ht
    · rw [List.mem_singleton.mp ht] at hkind
      cases hkind
    · rename_i c rest _
      rcases List.mem_cons.mp ht with rfl | ht
      · obtain ⟨tail, htext, -⟩ := lexeme_append previous c rest
        rw [String.toList_ofList]
        exact ⟨by simp [htext], lexeme_ident hkind⟩
      · exact ih t ht hkind

namespace Tiles

variable {text : List Char} {pos : Nat} {ts : List Token}

theorem ne_nil (h : Tiles text pos ts) : ts ≠ [] := by
  cases h <;> simp

theorem text_place (h : Tiles text pos ts) {t : Token} (ht : t ∈ ts) :
    ∃ rest, Place text t.span.start (t.text.toList ++ rest) ∧
      t.span.stop = t.span.start + width t.text.toList := by
  induction h with
  | last gap kind empty start stop =>
    rw [List.mem_singleton] at ht
    subst ht
    refine ⟨[], ?_, ?_⟩
    · rw [start, empty]
      exact Place.stop text
    · rw [start, stop, empty]
      rfl
  | cons place start stop tail ih =>
    rcases List.mem_cons.mp ht with rfl | ht
    · exact ⟨_, start ▸ place.skip, stop⟩
    · exact ih ht

theorem gap_place (h : Tiles text pos ts) {i : Nat} {t u : Token} (ht : ts[i]? = some t)
    (hu : ts[i + 1]? = some u) : ∃ rest, Place text t.span.stop (u.gap.toList ++ rest) ∧
      u.span.start = t.span.stop + width u.gap.toList := by
  induction h generalizing i with
  | last => simp at hu
  | cons place start stop tail ih =>
    cases i with
    | zero =>
      rw [List.getElem?_cons_zero, Option.some.injEq] at ht
      subst ht
      cases tail with
      | last gap _ _ start' _ =>
        simp only [Nat.zero_add, List.getElem?_cons_succ, List.getElem?_cons_zero, Option.some.injEq] at hu
        subst hu
        exact ⟨[], by simpa using gap, by rw [start', gap.pos_add_width]⟩
      | cons place' start' _ _ =>
        simp only [Nat.zero_add, List.getElem?_cons_succ, List.getElem?_cons_zero, Option.some.injEq] at hu
        subst hu
        exact ⟨_, place', start'⟩
    | succ i => exact ih ht hu

theorem le_start (h : Tiles text pos ts) : ∀ t ∈ ts, pos ≤ t.span.start := by
  induction h with
  | last gap kind empty start stop =>
    intro t ht
    rw [List.mem_singleton.mp ht, start]
    exact gap.pos_le
  | cons place start stop tail ih =>
    intro t ht
    rcases List.mem_cons.mp ht with rfl | ht
    · omega
    · have := ih t ht
      omega

theorem pairwise (h : Tiles text pos ts) : ts.Pairwise fun a b => a.span.stop ≤ b.span.start := by
  induction h with
  | last => exact List.pairwise_singleton _ _
  | cons place start stop tail ih => exact List.pairwise_cons.mpr ⟨tail.le_start, ih⟩

theorem getLast_kind (h : Tiles text pos ts) {t : Token} (ht : ts.getLast? = some t) :
    t.kind = .eof ∧ t.text = "" ∧ t.span.start = t.span.stop := by
  induction h with
  | last gap kind empty start stop =>
    rw [List.getLast?_singleton, Option.some.injEq] at ht
    subst ht
    exact ⟨kind, empty, start.trans stop.symm⟩
  | cons _ _ _ tail ih =>
    obtain ⟨u, us, rfl⟩ := List.exists_cons_of_ne_nil tail.ne_nil
    exact ih (by rwa [List.getLast?_cons_cons] at ht)

end Tiles

end Recompile.Script
