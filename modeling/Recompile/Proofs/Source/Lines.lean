import Mathlib.Data.List.Forall2
import Recompile.Diagnostic.Message
import Recompile.Proofs.Text.Octets

/-!
Lines found by their starts. The starts of the lines of a text are in order and begin with the start
of the text, so every offset lies in a line, at a distance from its start, and the lines are cut out
of the text by them.
-/

namespace Recompile

open Text (width octets isAscii Place)

namespace SourceFile

def startsFrom (pos : Nat) : List Char → List Nat
  | [] => []
  | b :: bs => if b = '\n' then (pos + 1) :: startsFrom (pos + 1) bs else startsFrom (pos + 1) bs

def lineStarts (f : SourceFile) : List Nat := 0 :: startsFrom 0 (octets f.text.toList)

/-- The index of the line that an offset is in: that of the start found there, or else the one
before the place where the offset would have to stand. -/
def lineIndex (starts : List Nat) (offset : Nat) : Checked Nat :=
  let below := (starts.takeWhile (· < offset)).length
  if starts[below]? = some offset then return below else Checked.sub below 1

def lineColumnAt (f : SourceFile) (offset : Nat) : Checked (Nat × Nat) := do
  let offset := min offset (width f.text.toList)
  let index ← lineIndex f.lineStarts offset
  let start ← Checked.get f.lineStarts index
  return (index + 1, (← Checked.sub offset start) + 1)

def lineTextAt (f : SourceFile) (line : Nat) : Checked String :=
  match line with
  | 0 => return ""
  | n + 1 =>
      match f.lineStarts[n]? with
      | none => return ""
      | some start => do
          let stop := (f.lineStarts[n + 1]?).getD (width f.text.toList)
          let text ← Checked.cut f.text.toList start stop
          return String.ofList (Text.trimEndBy (fun c => c = '\n' || c = '\r') text)

def offsets (pos : Nat) : List (List Char) → List Nat
  | [] => []
  | l :: ls => pos :: offsets (pos + width l + 1) ls

theorem startsFrom_append (pos : Nat) : ∀ {os bs : List Char}, (∀ o ∈ os, o ≠ '\n') →
    startsFrom pos (os ++ bs) = startsFrom (pos + os.length) bs
  | [], _, _ => rfl
  | o :: os, bs, h => by
    rw [List.cons_append, startsFrom, if_neg (h o List.mem_cons_self),
      startsFrom_append (pos + 1) fun b hb => h b (List.mem_cons_of_mem o hb), List.length_cons,
      Nat.add_right_comm, Nat.add_assoc]

theorem newline_not_mem_charOctets {c : Char} (h : c ≠ '\n') : ∀ o ∈ Text.charOctets c, o ≠ '\n' := by
  rintro o ho rfl
  cases hc : isAscii c with
  | true =>
    rw [Text.charOctets_of_isAscii hc, List.mem_singleton] at ho
    exact h ho.symm
  | false =>
    have := Text.isAscii_charOctets hc ho
    cases this

theorem startsFrom_eq : ∀ (pos : Nat) (cs : List Char),
    pos :: startsFrom pos (octets cs) = offsets pos (Text.splitOn (· = '\n') cs) := by
  -- the first line grows by one character, and the starts after it move by its bytes
  have hshift : ∀ (pos n : Nat) (l : List Char) (ls : List (List Char)),
      (offsets (pos + n) (l :: ls)).tail = offsets (pos + (n + width l) + 1) ls := by
    intro pos n l ls
    rw [offsets, List.tail_cons, Nat.add_assoc pos n]
  intro pos cs
  induction cs generalizing pos with
  | nil => rfl
  | cons c cs ih =>
    rw [Text.octets_cons, Text.splitOn]
    by_cases hc : c = '\n'
    · subst hc
      rw [if_pos (by simp), offsets, ← Nat.add_zero pos, Nat.add_assoc pos 0]
      rw [Text.charOctets_of_isAscii rfl, List.singleton_append, startsFrom, if_pos rfl, ih]
      rfl
    · rw [if_neg (by simpa using hc), startsFrom_append pos (newline_not_mem_charOctets hc),
        Text.length_charOctets]
      have htail := congrArg List.tail (ih (pos + c.utf8Size))
      rw [List.tail_cons] at htail
      rw [htail]
      cases hsplit : Text.splitOn (· = '\n') cs with
      | nil => simp [offsets]
      | cons l ls =>
        rw [hshift, offsets, Text.width_cons]

theorem splitOn_ne_nil (sep : Char → Bool) (cs : List Char) : Text.splitOn sep cs ≠ [] := by
  cases cs with
  | nil => simp [Text.splitOn]
  | cons c cs =>
    rw [Text.splitOn]
    split
    · simp
    · split <;> simp

theorem lineStarts_eq (f : SourceFile) : f.lineStarts = offsets 0 f.lines := startsFrom_eq 0 _

theorem lineIndex_cons {pos offset : Nat} {starts : List Nat} (hlt : pos < offset) {index : Nat}
    (h : lineIndex starts offset = .ok index) : lineIndex (pos :: starts) offset = .ok (index + 1) := by
  unfold lineIndex at h ⊢
  rw [List.takeWhile_cons_of_pos (by simpa using hlt), List.length_cons]
  dsimp only at h ⊢
  rw [List.getElem?_cons_succ]
  split at h
  · rename_i hfound
    rw [if_pos hfound]
    cases h
    rfl
  · rename_i hfound
    rw [if_neg hfound, Checked.sub_add]
    unfold Checked.sub at h
    split at h
    · cases h
      congr 1
      omega
    · cases h

/-- An offset is in the line that a search among the starts gives, as far from its start as the
column tells. -/
theorem lineIndex_locate : ∀ (ls : List (List Char)) {pos offset : Nat} (line : Nat), ls ≠ [] →
    pos ≤ offset → ∃ index start, lineIndex (offsets pos ls) offset = .ok index ∧
      (offsets pos ls)[index]? = some start ∧ start ≤ offset ∧
      locate line ls (offset - pos) = (line + index, offset - start + 1)
  | [], _, _, _, hne, _ => absurd rfl hne
  | [l], pos, offset, line, _, hle => by
    refine ⟨0, pos, ?_, rfl, hle, rfl⟩
    unfold lineIndex offsets offsets
    by_cases hlt : pos < offset
    · rw [List.takeWhile_cons_of_pos (by simpa using hlt)]
      rfl
    · obtain rfl : pos = offset := by omega
      rw [List.takeWhile_cons_of_neg (by simp)]
      exact if_pos rfl
  | l :: l' :: ls, pos, offset, line, _, hle => by
    rw [offsets, locate]
    · by_cases hin : offset - pos ≤ width l
      · refine ⟨0, pos, ?_, rfl, hle, by rw [if_pos hin]; rfl⟩
        unfold lineIndex
        by_cases hlt : pos < offset
        · rw [List.takeWhile_cons_of_pos (by simpa using hlt), offsets,
            List.takeWhile_cons_of_neg (by simp; omega)]
          exact if_neg (by simp; omega)
        · obtain rfl : pos = offset := by omega
          rw [List.takeWhile_cons_of_neg (by simp)]
          exact if_pos rfl
      · have hnext : pos + width l + 1 ≤ offset := by omega
        obtain ⟨index, start, hindex, hstart, hstartLe, hlocate⟩ :=
          lineIndex_locate (l' :: ls) (line + 1) (List.cons_ne_nil _ _) hnext
        refine ⟨index + 1, start, lineIndex_cons (by omega) hindex, hstart, hstartLe, ?_⟩
        rw [if_neg hin, show offset - pos - (width l + 1) = offset - (pos + width l + 1) by omega,
          hlocate, Nat.add_assoc, Nat.add_comm 1 index]
    · simp

theorem lineColumnAt_eq (f : SourceFile) (offset : Nat) :
    f.lineColumnAt offset = .ok (f.lineColumn offset) := by
  obtain ⟨index, start, hindex, hstart, hle, hlocate⟩ := @lineIndex_locate f.lines 0
    (min offset (width f.text.toList)) 1 (splitOn_ne_nil _ _) (Nat.zero_le _)
  rw [Nat.sub_zero] at hlocate
  rw [lineColumnAt, lineStarts_eq, hindex, Checked.ok_bind, Checked.get_of_eq_some hstart,
    Checked.ok_bind, Checked.sub_of_le hle, lineColumn, hlocate, Nat.add_comm 1 index]
  rfl

def joined : List (List Char) → List Char
  | [] => []
  | [l] => l
  | l :: ls => l ++ '\n' :: joined ls

theorem joined_splitOn (cs : List Char) : joined (Text.splitOn (· = '\n') cs) = cs := by
  induction cs with
  | nil => rfl
  | cons c cs ih =>
    rw [Text.splitOn]
    obtain ⟨l, ls, hsplit⟩ := List.exists_cons_of_ne_nil (splitOn_ne_nil (· = '\n') cs)
    rw [hsplit] at ih ⊢
    by_cases hc : c = '\n'
    · subst hc
      rw [if_pos (by simp), joined, ih]
      · rfl
      · simp
    · rw [if_neg (by simpa using hc)]
      cases ls with
      | nil => exact congrArg (c :: ·) ih
      | cons l' ls => exact congrArg (c :: ·) ih

theorem length_offsets : ∀ (pos : Nat) (ls : List (List Char)), (offsets pos ls).length = ls.length
  | _, [] => rfl
  | pos, l :: ls => by rw [offsets, List.length_cons, List.length_cons, length_offsets]

theorem cut_line {text : List Char} : ∀ {ls : List (List Char)} {pos n : Nat} {line : List Char},
    Place text pos (joined ls) → ls[n]? = some line → ∃ start feed, (offsets pos ls)[n]? = some start ∧
      Checked.cut text start (((offsets pos ls)[n + 1]?).getD (width text)) = .ok (line ++ feed) ∧
      (feed = [] ∨ feed = ['\n'])
  | [], _, _, _, _, hline => by simp at hline
  | [l], pos, 0, line, h, hline => by
    cases hline
    exact ⟨pos, [], rfl, by rw [List.append_nil]; exact h.cutFrom, .inl rfl⟩
  | [l], pos, n + 1, line, h, hline => by simp at hline
  | l :: l' :: ls, pos, 0, line, h, hline => by
    cases hline
    have hfeed : Place text pos ((l ++ ['\n']) ++ joined (l' :: ls)) := by
      rw [List.append_assoc]
      exact h
    have hcut := hfeed.cut
    rw [Text.width_append, ← Nat.add_assoc] at hcut
    exact ⟨pos, ['\n'], rfl, hcut, .inr rfl⟩
  | l :: l' :: ls, pos, n + 1, line, h, hline => by
    have hnext : Place text (pos + width l + 1) (joined (l' :: ls)) := by
      have hskip : Place text (pos + width l) ('\n' :: joined (l' :: ls)) := Place.skip h
      exact hskip.next
    rw [List.getElem?_cons_succ] at hline
    obtain ⟨start, feed, hstart, hcut, hfeed⟩ := cut_line hnext hline
    exact ⟨start, feed, hstart, hcut, hfeed⟩

theorem trimEndBy_feed (l : List Char) {feed : List Char} (h : feed = [] ∨ feed = ['\n']) :
    Text.trimEndBy (fun c => c = '\n' || c = '\r') (l ++ feed) =
      Text.trimEndBy (fun c => c = '\n' || c = '\r') l := by
  rcases h with rfl | rfl
  · rw [List.append_nil]
  · simp [Text.trimEndBy]

theorem lineTextAt_eq (f : SourceFile) (line : Nat) : f.lineTextAt line = .ok (f.lineText line) := by
  cases line with
  | zero => rfl
  | succ n =>
    rw [lineTextAt, lineText, lineStarts_eq]
    cases hline : f.lines[n]? with
    | none =>
      have hstart : (offsets 0 f.lines)[n]? = none := by
        rw [List.getElem?_eq_none_iff, length_offsets]
        exact List.getElem?_eq_none_iff.mp hline
      rw [hstart]
      rfl
    | some l =>
      have hplace : Place f.text.toList 0 (joined f.lines) := by
        rw [lines, joined_splitOn]
        exact Place.start _
      obtain ⟨start, feed, hstart, hcut, hfeed⟩ := cut_line hplace hline
      rw [hstart]
      dsimp only
      rw [hcut, Checked.ok_bind, trimEndBy_feed l hfeed]
      rfl

theorem lineColumn_pos (f : SourceFile) (offset : Nat) : 1 ≤ (f.lineColumn offset).2 := by
  have h : ∀ (ls : List (List Char)) (line offset : Nat), 1 ≤ (locate line ls offset).2 := by
    intro ls line offset
    fun_induction locate line ls offset with
    | case1 => exact Nat.le_add_left ..
    | case2 => exact Nat.le_add_left ..
    | case3 => exact Nat.le_add_left ..
    | case4 line l rest offset _ _ ih => exact ih
  exact h _ _ _

end SourceFile

/-- A span whose end does not lie before its start. -/
def Span.Ordered (s : Span) : Prop := s.start ≤ s.stop

namespace Location

def atSpan (t : SourceTable) (span : Span) : Checked (Option Location) :=
  match OrdMap.get? t span.file with
  | none => return none
  | some f => do
      let (line, column) ← f.lineColumnAt span.start
      let _ ← f.lineColumnAt (max (span.stop - 1) span.start)
      let lineText ← f.lineTextAt line
      let column ← Checked.sub column 1
      let size ← Checked.sub span.stop span.start
      return some ⟨f.path.toSlash, line, column, min size (width lineText.toList - column), lineText⟩

theorem atSpan_eq (t : SourceTable) {span : Span} (h : span.Ordered) :
    ∃ location, atSpan t span = .ok location ∧ ofSpan t span = .ok location := by
  unfold atSpan ofSpan
  cases OrdMap.get? t span.file with
  | none => exact ⟨none, rfl, rfl⟩
  | some f =>
    have hsize : span.size? = some (span.stop - span.start) := if_neg (Nat.not_lt_of_le h)
    refine ⟨some (inFile f span.start (span.stop - span.start)), ?_, by rw [hsize]⟩
    dsimp only
    rw [f.lineColumnAt_eq, Checked.ok_bind, f.lineColumnAt_eq, Checked.ok_bind, f.lineTextAt_eq,
      Checked.ok_bind, Checked.sub_of_le (f.lineColumn_pos span.start), Checked.ok_bind,
      Checked.sub_of_le h]
    rfl

end Location

namespace Diagnostic

def spans (d : Diagnostic) : List Span := d.span :: d.related.map (·.span)

structure Ordered (d : Diagnostic) : Prop where
  span : d.span.Ordered
  related : ∀ r ∈ d.related, r.span.Ordered

theorem Ordered.of_mem {d : Diagnostic} (h : d.Ordered) : ∀ span ∈ d.spans, span.Ordered := by
  intro span hspan
  rcases List.mem_cons.mp hspan with rfl | hspan
  · exact h.span
  · obtain ⟨r, hr, rfl⟩ := List.mem_map.mp hspan
    exact h.related r hr

end Diagnostic

namespace Message

def atDiagnostic (t : SourceTable) (d : Diagnostic) : Checked Message := do
  let related ← d.related.mapM fun r => (Note.mk r.message) <$> Location.atSpan t r.span
  let location ← Location.atSpan t d.span
  return ⟨d.code.display ++ ": " ++ d.message, location,
    related ++ d.notes.map (fun n => ⟨n, none⟩), some d⟩

section Found

variable {t : SourceTable} {R : Span → Option Location → Prop}

theorem related_found : ∀ {rs : List RelatedSpan},
    (∀ span ∈ rs.map (·.span), ∃ location, Location.atSpan t span = .ok location ∧
      Location.ofSpan t span = .ok location ∧ R span location) →
    ∃ notes, rs.mapM (fun r => (Note.mk r.message) <$> Location.atSpan t r.span) = .ok notes ∧
      rs.mapM (Note.ofRelated t) = .ok notes ∧
      List.Forall₂ R (rs.map (·.span)) (notes.map (·.location))
  | [], _ => ⟨[], rfl, rfl, .nil⟩
  | r :: rs, h => by
    obtain ⟨location, hatSpan, hofSpan, hlocation⟩ := h r.span List.mem_cons_self
    obtain ⟨notes, hat, hof, hnotes⟩ := related_found fun span hspan =>
      h span (List.mem_cons_of_mem _ hspan)
    refine ⟨⟨r.message, location⟩ :: notes, ?_, ?_, .cons hlocation hnotes⟩
    · rw [List.mapM_cons, hatSpan, Checked.map_ok, Checked.ok_bind, hat]
      rfl
    · rw [List.mapM_cons, Note.ofRelated, hofSpan, hof]
      rfl

theorem atDiagnostic_found {d : Diagnostic}
    (h : ∀ span ∈ d.spans, ∃ location, Location.atSpan t span = .ok location ∧
      Location.ofSpan t span = .ok location ∧ R span location) :
    ∃ m locations, atDiagnostic t d = .ok m ∧ ofDiagnostic t d = .ok m ∧
      m.location :: m.notes.map (·.location) = locations ++ d.notes.map (fun _ => none) ∧
      List.Forall₂ R d.spans locations := by
  obtain ⟨location, hatSpan, hofSpan, hlocation⟩ := h d.span List.mem_cons_self
  obtain ⟨notes, hat, hof, hnotes⟩ := related_found fun span hspan =>
    h span (List.mem_cons_of_mem _ hspan)
  refine ⟨⟨d.code.display ++ ": " ++ d.message, location,
    notes ++ d.notes.map (fun n => ⟨n, none⟩), some d⟩, location :: notes.map (·.location),
    ?_, ?_, ?_, .cons hlocation hnotes⟩
  · rw [atDiagnostic, hat, Checked.ok_bind, hatSpan]
    rfl
  · rw [ofDiagnostic, hofSpan, hof]
    rfl
  · rw [List.map_append, List.map_map]
    rfl

end Found

theorem atDiagnostic_eq (t : SourceTable) {d : Diagnostic} (h : d.Ordered) :
    ∃ message, atDiagnostic t d = .ok message ∧ ofDiagnostic t d = .ok message := by
  obtain ⟨message, -, hat, hof, -, -⟩ := atDiagnostic_found (R := fun _ _ => True) fun span hspan => by
    obtain ⟨location, hat, hof⟩ := Location.atSpan_eq t (h.of_mem span hspan)
    exact ⟨location, hat, hof, trivial⟩
  exact ⟨message, hat, hof⟩

end Message

end Recompile
