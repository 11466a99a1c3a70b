import Recompile.Proofs.Emit.Cuts
import Recompile.Proofs.Text.Encoded

/-!
What edits make of a text. Of edits that overlap, each is kept that does not start before the end of
the last one kept, and the others are of no account. At every position of the text stand the texts
put in there, and the byte that stood there before, unless a kept edit covers it.
-/

namespace Recompile.Edit

/-- The edits kept of a list in order, after one that ends at a position: always the next one that
does not start before the end of the last. -/
def keptFrom (last : Nat) : List Edit → List Edit
  | [] => []
  | e :: rest => if e.start < last then keptFrom last rest else e :: keptFrom e.stop rest

/-- The edits that are kept, in the order of their ranges. -/
def kept (edits : List Edit) : List Edit := keptFrom 0 (edits.mergeSort before)

/-- One range ends before the other starts, or where it starts. -/
def Apart (a b : Edit) : Prop := a.stop ≤ b.start ∨ b.stop ≤ a.start

def range (e : Edit) : Nat × Nat := (e.start, e.stop)

def covers (e : Edit) (pos : Nat) : Bool := e.start ≤ pos && pos < e.stop

/-- The bytes that edits of an empty range put in at a position. -/
def inserted (edits : List Edit) (pos : Nat) : List UInt8 :=
  (edits.filter fun e => e.start = pos ∧ e.stop = pos).flatMap fun e => Text.bytes e.text

/-- The bytes that take the place of a range that starts at a position. -/
def replaced (edits : List Edit) (pos : Nat) : List UInt8 :=
  (edits.filter fun e => e.start = pos ∧ pos < e.stop).flatMap fun e => Text.bytes e.text

/-- What stands at a position after the edits: what is put in there, what takes the place of a range,
and the byte itself, unless an edit covers it. -/
def around (source : List UInt8) (edits : List Edit) (pos : Nat) : List UInt8 :=
  inserted edits pos ++ replaced edits pos ++
    if edits.any (·.covers pos) then [] else (source[pos]?).toList

/-- The bytes after the edits, from the first position to the end of the text. -/
def spliced (source : List UInt8) (edits : List Edit) : List UInt8 :=
  (List.range (source.length + 1)).flatMap (around source edits)

section Kept

variable {edits : List Edit} {last : Nat}

theorem keptFrom_cons (last : Nat) (e : Edit) (rest : List Edit) : keptFrom last (e :: rest) =
    if e.start < last then keptFrom last rest else e :: keptFrom e.stop rest := rfl

theorem splice?_keptFrom (source : List Char) (last : Nat) (edits : List Edit) :
    splice? source last (keptFrom last edits) = splice? source last edits := by
  induction edits generalizing last with
  | nil => rfl
  | cons e rest ih =>
    rw [keptFrom_cons]
    by_cases hlt : e.start < last
    · rw [if_pos hlt, ih, splice?, if_pos hlt]
    · rw [if_neg hlt, splice?, if_neg hlt, ih, splice?, if_neg hlt]

theorem keptFrom_sublist (last : Nat) (edits : List Edit) : (keptFrom last edits).Sublist edits := by
  induction edits generalizing last with
  | nil => exact .slnil
  | cons e rest ih =>
    rw [keptFrom_cons]
    split
    · exact (ih last).cons e
    · exact (ih e.stop).cons_cons e

theorem le_start_of_mem_keptFrom (h : ∀ e ∈ edits, e.start ≤ e.stop) :
    ∀ e ∈ keptFrom last edits, last ≤ e.start := by
  induction edits generalizing last with
  | nil => exact fun e he => (List.not_mem_nil he).elim
  | cons e rest ih =>
    have hrest : ∀ x ∈ rest, x.start ≤ x.stop := fun x hx => h x (List.mem_cons_of_mem e hx)
    rw [keptFrom_cons]
    split
    · exact ih hrest
    · rename_i hlt
      intro x hx
      rcases List.mem_cons.mp hx with rfl | hx
      · exact Nat.le_of_not_lt hlt
      · have hstop := ih hrest x hx
        have hrange := h e List.mem_cons_self
        omega

theorem pairwise_keptFrom (h : ∀ e ∈ edits, e.start ≤ e.stop) :
    (keptFrom last edits).Pairwise fun a b => a.stop ≤ b.start := by
  induction edits generalizing last with
  | nil => exact .nil
  | cons e rest ih =>
    have hrest : ∀ x ∈ rest, x.start ≤ x.stop := fun x hx => h x (List.mem_cons_of_mem e hx)
    rw [keptFrom_cons]
    split
    · exact ih hrest
    · exact .cons (le_start_of_mem_keptFrom hrest) (ih hrest)

theorem before_trans (a b c : Edit) (hab : before a b) (hbc : before b c) : before a c := by
  simp only [before, Bool.or_eq_true, decide_eq_true_eq, Bool.and_eq_true] at *
  omega

theorem before_total (a b : Edit) : before a b || before b a := by
  simp only [before, Bool.or_eq_true, decide_eq_true_eq, Bool.and_eq_true]
  omega

theorem pairwise_mergeSort (edits : List Edit) :
    (edits.mergeSort before).Pairwise fun a b => before a b :=
  List.pairwise_mergeSort before_trans before_total edits

theorem mem_of_mem_kept {e : Edit} (h : e ∈ kept edits) : e ∈ edits :=
  List.mem_mergeSort.mp ((keptFrom_sublist _ _).mem h)

theorem mergeSort_kept (edits : List Edit) : (kept edits).mergeSort before = kept edits :=
  List.mergeSort_of_pairwise ((pairwise_mergeSort edits).sublist (keptFrom_sublist _ _))

theorem apply_kept (source : String) (edits : List Edit) :
    apply source (kept edits) = apply source edits := by
  unfold apply applied?
  rw [mergeSort_kept, kept, splice?_keptFrom]

theorem keptFrom_eq_self (hranges : ∀ e ∈ edits, last ≤ e.start ∧ e.start ≤ e.stop)
    (hsorted : edits.Pairwise fun a b => before a b) (hapart : edits.Pairwise Apart) :
    keptFrom last edits = edits := by
  induction edits generalizing last with
  | nil => rfl
  | cons e rest ih =>
    have he := hranges e List.mem_cons_self
    rw [keptFrom_cons, if_neg (by omega), ih _ hsorted.of_cons hapart.of_cons]
    intro x hx
    have hx' := hranges x (List.mem_cons_of_mem e hx)
    have hbefore := List.rel_of_pairwise_cons hsorted hx
    have hor := List.rel_of_pairwise_cons hapart hx
    simp only [before, Bool.or_eq_true, decide_eq_true_eq, Bool.and_eq_true] at hbefore
    unfold Apart at hor
    omega

end Kept

section Around

variable {source : List UInt8} {e : Edit} {rest : List Edit} {pos : Nat}

theorem flatMap_filter_cons (test : Edit → Bool) (f : Edit → List UInt8) (e : Edit) (rest : List Edit) :
    ((e :: rest).filter test).flatMap f =
      (if test e = true then f e else []) ++ (rest.filter test).flatMap f := by
  rw [List.filter_cons]
  split <;> rfl

theorem inserted_cons (e : Edit) (rest : List Edit) (pos : Nat) : inserted (e :: rest) pos =
    (if e.start = pos ∧ e.stop = pos then Text.bytes e.text else []) ++ inserted rest pos := by
  simp only [inserted, flatMap_filter_cons, decide_eq_true_eq]

theorem replaced_cons (e : Edit) (rest : List Edit) (pos : Nat) : replaced (e :: rest) pos =
    (if e.start = pos ∧ pos < e.stop then Text.bytes e.text else []) ++ replaced rest pos := by
  simp only [replaced, flatMap_filter_cons, decide_eq_true_eq]

theorem flatMap_filter_of_lt {test : Edit → Bool} (htest : ∀ e, test e = true → e.start = pos)
    (f : Edit → List UInt8) (h : ∀ e ∈ rest, pos < e.start) : (rest.filter test).flatMap f = [] := by
  have hnone : rest.filter test = [] := List.filter_eq_nil_iff.mpr fun e he hpos =>
    Nat.ne_of_gt (h e he) (htest e hpos)
  rw [hnone]
  rfl

theorem inserted_of_lt (h : ∀ e ∈ rest, pos < e.start) : inserted rest pos = [] :=
  flatMap_filter_of_lt (fun _ he => (of_decide_eq_true he).1) _ h

theorem replaced_of_lt (h : ∀ e ∈ rest, pos < e.start) : replaced rest pos = [] :=
  flatMap_filter_of_lt (fun _ he => (of_decide_eq_true he).1) _ h

theorem covers_iff {e : Edit} {pos : Nat} : e.covers pos = true ↔ e.start ≤ pos ∧ pos < e.stop := by
  rw [covers, Bool.and_eq_true, decide_eq_true_eq, decide_eq_true_eq]

theorem covers_eq_false_iff {e : Edit} {pos : Nat} :
    e.covers pos = false ↔ pos < e.start ∨ e.stop ≤ pos := by
  rw [← Bool.not_eq_true, covers_iff]
  omega

theorem around_of_lt (h : ∀ e ∈ rest, pos < e.start) : around source rest pos = (source[pos]?).toList := by
  have hcovers : rest.any (·.covers pos) = false :=
    List.any_eq_false.mpr fun e he => by simpa using covers_eq_false_iff.mpr (.inl (h e he))
  rw [around, inserted_of_lt h, replaced_of_lt h, hcovers]
  rfl

theorem around_cons_of_stop_le (hstart : e.start ≠ pos) (hstop : e.stop ≤ pos) :
    around source (e :: rest) pos = around source rest pos := by
  rw [around, inserted_cons, if_neg (by omega), replaced_cons, if_neg (by omega), List.any_cons,
    covers_eq_false_iff.mpr (.inr hstop)]
  rfl

theorem around_cons_of_empty (hstart : e.start = pos) (hstop : e.stop = pos) :
    around source (e :: rest) pos = Text.bytes e.text ++ around source rest pos := by
  rw [around, inserted_cons, if_pos ⟨hstart, hstop⟩, replaced_cons, if_neg (by omega), List.any_cons,
    covers_eq_false_iff.mpr (.inr (Nat.le_of_eq hstop)), Bool.false_or, List.nil_append, List.append_assoc,
    List.append_assoc, around, List.append_assoc]

theorem around_cons_of_start (hstart : e.start = pos) (hstop : pos < e.stop)
    (h : ∀ x ∈ rest, pos < x.start) : around source (e :: rest) pos = Text.bytes e.text := by
  rw [around, inserted_cons, if_neg (by omega), inserted_of_lt h, replaced_cons, if_pos ⟨hstart, hstop⟩,
    replaced_of_lt h, List.any_cons, covers_iff.mpr ⟨Nat.le_of_eq hstart, hstop⟩]
  simp

theorem around_cons_of_inside (hstart : e.start < pos) (hstop : pos < e.stop)
    (h : ∀ x ∈ rest, pos < x.start) : around source (e :: rest) pos = [] := by
  rw [around, inserted_cons, if_neg (by omega), inserted_of_lt h, replaced_cons, if_neg (by omega),
    replaced_of_lt h, List.any_cons, covers_iff.mpr ⟨Nat.le_of_lt hstart, hstop⟩]
  rfl

end Around

theorem flatMap_getElem? (bytes : List UInt8) (pos count : Nat) :
    (List.range' pos count).flatMap (fun p => (bytes[p]?).toList) = (bytes.drop pos).take count := by
  induction count generalizing pos with
  | zero => simp
  | succ count ih =>
    rw [List.range'_succ, List.flatMap_cons, ih]
    by_cases hlt : pos < bytes.length
    · rw [List.drop_eq_getElem_cons hlt, List.getElem?_eq_getElem hlt, List.take_succ_cons]
      rfl
    · rw [List.getElem?_eq_none (Nat.le_of_not_lt hlt), List.drop_eq_nil_of_le (Nat.le_of_not_lt hlt),
        List.drop_eq_nil_of_le (by omega)]
      simp

theorem flatMap_congr_range' {f g : Nat → List UInt8} {pos count : Nat}
    (h : ∀ p, pos ≤ p → p < pos + count → f p = g p) :
    (List.range' pos count).flatMap f = (List.range' pos count).flatMap g :=
  List.flatMap_congr fun p hp => by
    rw [List.mem_range'_1] at hp
    exact h p hp.1 hp.2

theorem flatMap_range'_split (f : Nat → List UInt8) {start mid stop : Nat} (h : start ≤ mid)
    (h' : mid ≤ stop) : (List.range' start (stop - start)).flatMap f =
      (List.range' start (mid - start)).flatMap f ++ (List.range' mid (stop - mid)).flatMap f := by
  have hcount : stop - start = (mid - start) + (stop - mid) := by omega
  have hnext : start + (mid - start) = mid := by omega
  rw [hcount, ← List.range'_append_1, hnext, List.flatMap_append]

theorem flatMap_around_cons {source : List UInt8} {e : Edit} {rest : List Edit} (hrange : e.start ≤ e.stop)
    (hstop : e.stop ≤ source.length) (h : ∀ x ∈ rest, e.stop ≤ x.start) :
    (List.range' e.start (source.length + 1 - e.start)).flatMap (around source (e :: rest)) =
      Text.bytes e.text ++
        (List.range' e.stop (source.length + 1 - e.stop)).flatMap (around source rest) := by
  have hafter : ∀ {pos count : Nat}, e.stop ≤ pos → e.start < pos →
      (List.range' pos count).flatMap (around source (e :: rest)) =
        (List.range' pos count).flatMap (around source rest) := fun hle hlt =>
    flatMap_congr_range' fun p hp _ => around_cons_of_stop_le (by omega) (by omega)
  rcases Nat.eq_or_lt_of_le hrange with heq | hlt
  · have hsplit : source.length + 1 - e.start = (source.length - e.start) + 1 := by omega
    rw [← heq, hsplit, List.range'_succ, List.flatMap_cons, List.flatMap_cons,
      around_cons_of_empty rfl heq.symm, hafter (by omega) (by omega), List.append_assoc]
  · have hinside : (List.range' (e.start + 1) (e.stop - e.start - 1)).flatMap
        (around source (e :: rest)) = [] := by
      refine List.flatMap_eq_nil_iff.mpr fun p hp => ?_
      rw [List.mem_range'_1] at hp
      exact around_cons_of_inside (by omega) (by omega) fun x hx => by have := h x hx; omega
    have htext : (List.range' e.start (e.stop - e.start)).flatMap (around source (e :: rest)) =
        Text.bytes e.text := by
      have hcount : e.stop - e.start = (e.stop - e.start - 1) + 1 := by omega
      rw [hcount, List.range'_succ, List.flatMap_cons, hinside, List.append_nil,
        around_cons_of_start rfl hlt fun x hx => by have := h x hx; omega]
    rw [flatMap_range'_split _ hrange (by omega), htext, hafter (Nat.le_refl _) hlt]

theorem encoded_splice? {source : List Char} : ∀ {edits : List Edit} {cursor : Nat} {out : List Char},
    (edits.Pairwise fun a b => a.stop ≤ b.start) →
    (∀ e ∈ edits, cursor ≤ e.start ∧ e.start ≤ e.stop ∧ e.stop ≤ Text.width source) →
    cursor ≤ Text.width source → splice? source cursor edits = some out →
      Text.encoded out = (List.range' cursor (Text.width source + 1 - cursor)).flatMap
        (around (Text.encoded source) edits)
  | [], cursor, out, _, _, hcursor, h => by
    obtain ⟨parts, hparts, rfl⟩ := Option.map_eq_some_iff.mp h
    rw [Text.encoded_splitAt? hparts, flatMap_congr_range' fun p _ _ => around_of_lt (by simp),
      flatMap_getElem?, List.take_of_length_le]
    rw [List.length_drop, Text.length_encoded]
    omega
  | e :: rest, cursor, out, hpairs, hranges, hcursor, h => by
    obtain ⟨hstart, hrange, hstop⟩ := hranges e List.mem_cons_self
    have hafter : ∀ x ∈ rest, e.stop ≤ x.start := fun x hx => List.rel_of_pairwise_cons hpairs hx
    rw [splice?, if_neg (by omega)] at h
    obtain ⟨between, hbetween, h⟩ := Option.bind_eq_some_iff.mp h
    obtain ⟨tail, htail, h⟩ := Option.bind_eq_some_iff.mp h
    cases h
    have hrest := encoded_splice? hpairs.of_cons (fun x hx => ⟨hafter x hx,
      (hranges x (List.mem_cons_of_mem e hx)).2⟩) hstop htail
    have hbefore : (List.range' cursor (e.start - cursor)).flatMap
        (around (Text.encoded source) (e :: rest)) = Text.encoded between := by
      rw [Text.encoded_slice? hbetween, ← flatMap_getElem?]
      refine flatMap_congr_range' fun p hp hp' => around_of_lt fun x hx => ?_
      have := hranges x hx
      rcases List.mem_cons.mp hx with rfl | hx
      · omega
      · have := hafter x hx
        omega
    have hfrom := flatMap_around_cons hrange (by rwa [Text.length_encoded]) hafter
    rw [Text.length_encoded] at hfrom
    rw [flatMap_range'_split _ hstart (by omega), hbefore, hfrom, ← hrest, Text.encoded_append,
      Text.encoded_append, Text.bytes_eq_encoded, List.append_assoc]

/-- An edit of a range of a text: it does not end before it starts, and fits. -/
structure Sound (source : List Char) (e : Edit) : Prop extends e.Fits source where
  range : e.start ≤ e.stop

theorem Sound.stop_le {source : List Char} {e : Edit} (h : e.Sound source) :
    e.stop ≤ Text.width source := h.stop.le_width

theorem bytes_apply {source text : String} {edits : List Edit} (h : ∀ e ∈ edits, e.Sound source.toList)
    (happly : apply source edits = .ok text) :
    Text.bytes text = spliced (Text.bytes source) (kept edits) := by
  have hsorted : ∀ e ∈ edits.mergeSort before, e.start ≤ e.stop := fun e he =>
    (h e (List.mem_mergeSort.mp he)).range
  unfold apply at happly
  split at happly
  · rename_i made hmade
    cases happly
    obtain ⟨out, hout, rfl⟩ := Option.map_eq_some_iff.mp hmade
    rw [← splice?_keptFrom] at hout
    have hranges : ∀ e ∈ kept edits, 0 ≤ e.start ∧ e.start ≤ e.stop ∧
        e.stop ≤ Text.width source.toList := fun e he =>
      have hsound := h e (mem_of_mem_kept he)
      ⟨Nat.zero_le _, hsound.range, hsound.stop_le⟩
    have hencoded := encoded_splice? (pairwise_keptFrom hsorted) hranges (Nat.zero_le _) hout
    rw [Text.bytes_eq_encoded, String.toList_ofList, hencoded, spliced, Text.bytes_eq_encoded,
      List.range_eq_range', Text.length_encoded]
    rfl
  · cases happly

section Order

variable {edits edits' : List Edit}

theorem eq_of_perm_of_alone {R : Edit → Edit → Prop} (hperm : edits.Perm edits') (hpair : edits.Pairwise R)
    (hnot : ∀ a ∈ edits, ∀ b ∈ edits, ¬ R a b) : edits = edits' := by
  match edits, hpair with
  | [], _ => exact hperm.nil_eq
  | [e], _ => exact List.singleton_perm.mp hperm
  | a :: b :: rest, hpair =>
    exact absurd (List.rel_of_pairwise_cons hpair List.mem_cons_self)
      (hnot a List.mem_cons_self b (List.mem_cons_of_mem a List.mem_cons_self))

theorem around_perm (hperm : edits.Perm edits') (hapart : edits.Pairwise Apart)
    (hnodup : (edits.map range).Nodup) (source : List UInt8) (pos : Nat) :
    around source edits pos = around source edits' pos := by
  have hinserted : inserted edits pos = inserted edits' pos := by
    have hpairs : edits.Pairwise fun a b => a.range ≠ b.range := List.pairwise_map.mp hnodup
    unfold inserted
    rw [eq_of_perm_of_alone (hperm.filter _) (hpairs.filter _)]
    intro a ha b hb hne
    have ha := (List.mem_filter.mp ha).2
    have hb := (List.mem_filter.mp hb).2
    simp only [decide_eq_true_eq] at ha hb
    exact hne (by rw [range, range, ha.1, ha.2, hb.1, hb.2])
  have hreplaced : replaced edits pos = replaced edits' pos := by
    unfold replaced
    rw [eq_of_perm_of_alone (hperm.filter _) (hapart.filter _)]
    intro a ha b hb hor
    have ha := (List.mem_filter.mp ha).2
    have hb := (List.mem_filter.mp hb).2
    simp only [decide_eq_true_eq] at ha hb
    unfold Apart at hor
    omega
  rw [around, hinserted, hreplaced, hperm.any_eq, around]

theorem spliced_perm (hperm : edits.Perm edits') (hapart : edits.Pairwise Apart)
    (hnodup : (edits.map range).Nodup) (source : List UInt8) :
    spliced source edits = spliced source edits' :=
  List.flatMap_congr fun pos _ => around_perm hperm hapart hnodup source pos

theorem Apart.symm {a b : Edit} (h : Apart a b) : Apart b a := Or.symm h

theorem kept_perm (hranges : ∀ e ∈ edits, e.start ≤ e.stop) (hapart : edits.Pairwise Apart) :
    (kept edits).Perm edits := by
  have hperm : (edits.mergeSort before).Perm edits := List.mergeSort_perm edits before
  rw [kept, keptFrom_eq_self (fun e he => ⟨Nat.zero_le _, hranges e (List.mem_mergeSort.mp he)⟩)
    (pairwise_mergeSort edits) ((hperm.pairwise_iff Apart.symm).mpr hapart)]
  exact hperm

end Order

/-- Edits of sound ranges are spliced exactly. The edits that are kept make the same text as all of
them, and each of them starts where the one before it ends or after that. Where no two ranges overlap
at all, and no range is there twice, every edit counts, whatever the order in which they are given. -/
theorem apply_exact {source : String} {edits : List Edit} (h : ∀ e ∈ edits, e.Sound source.toList) :
    ∃ text, apply source edits = .ok text ∧
      apply source (kept edits) = .ok text ∧
      (kept edits).Sublist (edits.mergeSort before) ∧
      ((kept edits).Pairwise fun a b => a.stop ≤ b.start) ∧
      Text.bytes text = spliced (Text.bytes source) (kept edits) ∧
      (edits.Pairwise Apart → (edits.map range).Nodup →
        Text.bytes text = spliced (Text.bytes source) edits ∧
        ∀ {edits' : List Edit}, edits'.Perm edits → apply source edits' = .ok text) := by
  obtain ⟨text, htext⟩ := apply_of_fits fun e he => (h e he).toFits
  have hsorted : ∀ e ∈ edits.mergeSort before, e.start ≤ e.stop := fun e he =>
    (h e (List.mem_mergeSort.mp he)).range
  have hall : ∀ {edits' : List Edit} {text' : String}, edits'.Perm edits → edits.Pairwise Apart →
      (edits.map range).Nodup → apply source edits' = .ok text' →
        Text.bytes text' = spliced (Text.bytes source) edits := by
    intro edits' text' hperm hapart hnodup htext'
    have h' : ∀ e ∈ edits', e.Sound source.toList := fun e he => h e (hperm.subset he)
    have hapart' := (hperm.pairwise_iff Apart.symm).mpr hapart
    have hkept := (kept_perm (fun e he => (h' e he).range) hapart').trans hperm
    rw [bytes_apply h' htext', spliced_perm hkept.symm hapart hnodup]
  refine ⟨text, htext, by rw [apply_kept, htext], keptFrom_sublist _ _, pairwise_keptFrom hsorted,
    bytes_apply h htext, fun hapart hnodup => ⟨?_, fun hperm => ?_⟩⟩
  · exact hall (.refl edits) hapart hnodup htext
  · obtain ⟨text', htext'⟩ := apply_of_fits fun e he => (h e (hperm.subset he)).toFits
    rw [htext', Text.bytes_injective ((hall hperm hapart hnodup htext').trans
      (hall (.refl edits) hapart hnodup htext).symm)]

theorem Sound.of_splitAt? {source : List Char} {e : Edit} (hrange : e.start ≤ e.stop)
    (hstart : (Text.splitAt? source e.start).isSome = true)
    (hstop : (Text.splitAt? source e.stop).isSome = true) : e.Sound source := by
  have hboundary : ∀ {pos : Nat}, (Text.splitAt? source pos).isSome = true → Text.Boundary source pos := by
    intro pos h
    obtain ⟨parts, hparts⟩ := Option.isSome_iff_exists.mp h
    obtain ⟨hsource, hwidth⟩ := Text.splitAt?_eq_some hparts
    exact ⟨parts.2, parts.1, hsource, hwidth.symm⟩
  exact ⟨⟨hboundary hstart, hboundary hstop⟩, hrange⟩

theorem apply_exact_touching :
    (∃ text, apply "é = 1;" [⟨3, 3, "!"⟩, ⟨0, 3, ""⟩, ⟨0, 0, "x"⟩] = .ok text ∧
      Text.bytes text = spliced (Text.bytes "é = 1;") [⟨3, 3, "!"⟩, ⟨0, 3, ""⟩, ⟨0, 0, "x"⟩]) ∧
    apply "é = 1;" [⟨0, 0, "x"⟩, ⟨3, 3, "!"⟩, ⟨0, 3, ""⟩] =
      apply "é = 1;" [⟨3, 3, "!"⟩, ⟨0, 3, ""⟩, ⟨0, 0, "x"⟩] := by
  have hsound : ∀ e ∈ ([⟨3, 3, "!"⟩, ⟨0, 3, ""⟩, ⟨0, 0, "x"⟩] : List Edit), e.Sound "é = 1;".toList := by
    intro e he
    simp only [List.mem_cons, List.not_mem_nil, or_false] at he
    rcases he with rfl | rfl | rfl <;> exact .of_splitAt? (by decide) (by decide) (by decide)
  obtain ⟨text, htext, -, -, -, -, hall⟩ := apply_exact hsound
  obtain ⟨hbytes, hperm⟩ := hall (by simp [Apart]) (by decide)
  exact ⟨⟨text, htext, hbytes⟩, by rw [htext]; exact hperm (by decide)⟩

end Recompile.Edit
