import Mathlib.Data.List.TakeWhile
import Recompile.Text.Basic

/-!
Work on positions of a text, with every step that can go wrong made visible: cuts, indices,
differences, and loops that may not come to an end.
-/

namespace Recompile

/-- What can go wrong in a step that works on positions. -/
inductive Fault where
  /-- A cut off a character boundary, out of range, or with its end before its start. -/
  | cut
  /-- An index out of range. -/
  | index
  /-- A difference below zero. -/
  | underflow
  /-- A loop that has not come to its end within the bounds of its input. -/
  | unfinished
deriving DecidableEq, Repr

/-- A result, or the fault that keeps it from being reached. -/
abbrev Checked := Except Fault

namespace Checked

variable {α β : Type}

@[simp] theorem ok_bind (a : α) (f : α → Checked β) : (Except.ok a >>= f) = f a := rfl

@[simp] theorem map_ok (a : α) (f : α → β) : f <$> (Except.ok a : Checked α) = .ok (f a) := rfl

@[simp] theorem pure_eq (a : α) : (pure a : Checked α) = .ok a := rfl

/-- The difference of two numbers. -/
def sub (a b : Nat) : Checked Nat := if b ≤ a then .ok (a - b) else .error .underflow

@[simp] theorem sub_add (a b : Nat) : sub (a + b) b = .ok a := by
  rw [sub, if_pos (Nat.le_add_left b a), Nat.add_sub_cancel]

theorem sub_of_le {a b : Nat} (h : b ≤ a) : sub a b = .ok (a - b) := if_pos h

def get (xs : List α) (i : Nat) : Checked α :=
  match xs[i]? with
  | some a => .ok a
  | none => .error .index

theorem get_of_eq_some {xs : List α} {i : Nat} {a : α} (h : xs[i]? = some a) : get xs i = .ok a := by
  rw [get, h]

def part (xs : List α) (start stop : Nat) : Checked (List α) :=
  if start ≤ stop ∧ stop ≤ xs.length then .ok ((xs.drop start).take (stop - start))
  else .error .index

def cut (cs : List Char) (start stop : Nat) : Checked (List Char) :=
  match Text.slice? cs start stop with
  | some mid => .ok mid
  | none => .error .cut

def cutFrom (cs : List Char) (start : Nat) : Checked (List Char) := cut cs start (Text.width cs)

theorem mapM_ok {f : α → Checked β} {g : α → β} : ∀ {xs : List α}, (∀ a ∈ xs, f a = .ok (g a)) →
    xs.mapM f = .ok (xs.map g)
  | [], _ => rfl
  | a :: xs, h => by
    rw [List.mapM_cons, h a List.mem_cons_self, ok_bind,
      mapM_ok fun b hb => h b (List.mem_cons_of_mem a hb)]
    rfl

theorem foldlM_ok {f : β → α → Checked β} {g : β → α → β} (h : ∀ b a, f b a = .ok (g b a)) :
    ∀ (xs : List α) (b : β), xs.foldlM f b = .ok (xs.foldl g b)
  | [], _ => rfl
  | a :: xs, b => by rw [List.foldlM_cons, h, ok_bind, foldlM_ok h xs, List.foldl_cons]

end Checked

namespace Text

@[simp] theorem width_nil : width [] = 0 := rfl

@[simp] theorem width_cons (c : Char) (cs : List Char) : width (c :: cs) = c.utf8Size + width cs := rfl

theorem length_le_width (cs : List Char) : cs.length ≤ width cs := by
  induction cs with
  | nil => exact Nat.le_refl 0
  | cons c cs ih =>
    have := c.utf8Size_pos
    simp only [List.length_cons, width_cons]
    omega

theorem width_eq_zero {cs : List Char} (h : width cs = 0) : cs = [] :=
  List.eq_nil_of_length_eq_zero (Nat.le_zero.mp (h ▸ length_le_width cs))

theorem splitAt?_width (xs ys : List Char) : splitAt? (xs ++ ys) (width xs) = some (xs, ys) := by
  induction xs with
  | nil => cases ys <;> rfl
  | cons c cs ih =>
    obtain ⟨n, hn⟩ := Nat.exists_eq_succ_of_ne_zero (Nat.ne_of_gt c.utf8Size_pos)
    rw [width_cons, List.cons_append, hn, Nat.succ_add, splitAt?, if_pos (by omega), hn]
    rw [show n + width cs + 1 - n.succ = width cs by omega, ih]
    rfl

theorem splitAt?_eq_some {cs : List Char} {n : Nat} {parts : List Char × List Char}
    (h : splitAt? cs n = some parts) : cs = parts.1 ++ parts.2 ∧ width parts.1 = n := by
  fun_induction splitAt? cs n generalizing parts with
  | case1 =>
    cases h
    exact ⟨rfl, rfl⟩
  | case2 => cases h
  | case3 c cs n hle ih =>
    obtain ⟨rest, hrest, rfl⟩ := Option.map_eq_some_iff.mp h
    obtain ⟨rfl, hwidth⟩ := ih hrest
    exact ⟨rfl, by rw [width_cons]; omega⟩
  | case4 => cases h

/-- A position of a text, by what follows it. -/
def Place (text : List Char) (pos : Nat) (rest : List Char) : Prop :=
  ∃ before, text = before ++ rest ∧ pos = width before

namespace Place

variable {text rest rest' mid : List Char} {pos : Nat}

theorem start (text : List Char) : Place text 0 text := ⟨[], rfl, rfl⟩

theorem stop (text : List Char) : Place text (width text) [] := ⟨text, (List.append_nil text).symm, rfl⟩

theorem skip (h : Place text pos (mid ++ rest)) : Place text (pos + width mid) rest := by
  obtain ⟨before, rfl, rfl⟩ := h
  exact ⟨before ++ mid, (List.append_assoc ..).symm, (width_append before mid).symm⟩

theorem next {c : Char} (h : Place text pos (c :: rest)) : Place text (pos + c.utf8Size) rest := by
  have hskip : Place text (pos + width [c]) rest := skip h
  simpa using hskip

theorem pos_add_width (h : Place text pos rest) : pos + width rest = width text := by
  obtain ⟨before, rfl, rfl⟩ := h
  exact (width_append before rest).symm

theorem pos_le (h : Place text pos rest) : pos ≤ width text := by
  have := h.pos_add_width
  omega

theorem lt_iff (h : Place text pos rest) : pos < width text ↔ rest ≠ [] := by
  have hwidth := h.pos_add_width
  constructor
  · rintro hlt rfl
    rw [width_nil] at hwidth
    omega
  · intro hne
    have : width rest ≠ 0 := fun hzero => hne (width_eq_zero hzero)
    omega

theorem slice? (h : Place text pos (mid ++ rest)) :
    Text.slice? text pos (pos + width mid) = some mid := by
  obtain ⟨before, rfl, rfl⟩ := h
  simp only [Text.slice?, splitAt?_width, Nat.add_sub_cancel_left, Option.bind_eq_bind, Option.bind_some]
  rw [if_neg (by omega)]
  rfl

theorem of_slice? {stop : Nat} (h : Text.slice? text pos stop = some mid) :
    stop = pos + width mid ∧ ∃ rest, Place text pos (mid ++ rest) := by
  rw [Text.slice?] at h
  split at h
  · cases h
  · rename_i hle
    obtain ⟨⟨before, rest⟩, hbefore, h⟩ := Option.bind_eq_some_iff.mp h
    obtain ⟨⟨mid', rest'⟩, hmid, h⟩ := Option.bind_eq_some_iff.mp h
    cases h
    obtain ⟨rfl, rfl⟩ := splitAt?_eq_some hbefore
    obtain ⟨rfl, hwidth⟩ := splitAt?_eq_some hmid
    dsimp only at hwidth hle ⊢
    exact ⟨by omega, rest', before, rfl, rfl⟩

theorem cut (h : Place text pos (mid ++ rest)) :
    Checked.cut text pos (pos + width mid) = .ok mid := by
  rw [Checked.cut, h.slice?]

theorem cutFrom (h : Place text pos rest) : Checked.cutFrom text pos = .ok rest := by
  have hwhole : Place text pos (rest ++ []) := by rwa [List.append_nil]
  have hcut := hwhole.cut
  rwa [h.pos_add_width] at hcut

theorem slice?_of_le {pos' : Nat} (h : Place text pos rest) (h' : Place text pos' rest')
    (hle : pos ≤ pos') : ∃ mid, rest = mid ++ rest' ∧ pos' = pos + width mid := by
  obtain ⟨before, rfl, rfl⟩ := h
  obtain ⟨before', heq, rfl⟩ := h'
  rcases List.append_eq_append_iff.mp heq with ⟨mid, rfl, rfl⟩ | ⟨mid, rfl, rfl⟩
  · exact ⟨mid, rfl, width_append ..⟩
  · rw [width_append] at hle
    have hmid : mid = [] := width_eq_zero (by omega)
    subst hmid
    exact ⟨[], rfl, by simp⟩

end Place

end Text

end Recompile
