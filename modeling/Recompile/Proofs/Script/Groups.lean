import Recompile.Proofs.Emit.Cuts
import Recompile.Proofs.Script.Matching

/-!
Groups of tokens between two brackets. When the brackets inside a group all have partners in it, its own
two brackets are partners, whatever stands before and after it.
-/

namespace Recompile.Script

/-- Tokens between two brackets of one form, whose own brackets all have partners. -/
structure Group (mark : Char) where
  opener : Token
  inner : List Token
  closer : Token
  opener_kind : opener.kind = .punct mark
  closer_kind : closer.kind = .punct (closerOf mark)
  balanced : Balanced (brackets inner)

def Group.tokens {mark : Char} (g : Group mark) : List Token := g.opener :: (g.inner ++ [g.closer])

def Follows (ts : List Token) (i : Nat) (rest : List Token) : Prop :=
  ∃ lead, ts = lead ++ rest ∧ i = lead.length

namespace Follows

variable {ts mid rest : List Token} {t : Token} {i : Nat}

theorem skip (h : Follows ts i (mid ++ rest)) : Follows ts (i + mid.length) rest := by
  obtain ⟨lead, rfl, rfl⟩ := h
  exact ⟨lead ++ mid, (List.append_assoc ..).symm, List.length_append.symm⟩

theorem next (h : Follows ts i (t :: rest)) : Follows ts (i + 1) rest := @skip ts [t] rest i h

theorem inside {mark : Char} {g : Group mark} (h : Follows ts i (g.tokens ++ rest)) :
    Follows ts (i + 1) (g.inner ++ g.closer :: rest) := by
  rw [Group.tokens, List.cons_append, List.append_assoc, List.singleton_append] at h
  exact h.next

theorem length_eq (h : Follows ts i rest) : i + rest.length = ts.length := by
  obtain ⟨lead, rfl, rfl⟩ := h
  exact List.length_append.symm

theorem getElem? (h : Follows ts i (t :: rest)) : ts[i]? = some t := by
  obtain ⟨lead, rfl, rfl⟩ := h
  rw [List.getElem?_append_right (Nat.le_refl _), Nat.sub_self, List.getElem?_cons_zero]

end Follows

section Pairs

variable {ts rest : List Token} {t : Token} {mark : Char} {stack : List OpenPosition} {i k : Nat}

theorem bracket?_eq_some (h : t.bracket? = some mark) : t.kind = .punct mark := by
  unfold Token.bracket? at h
  split at h
  · rename_i hkind
    split at h
    · rwa [← Option.some.inj h]
    · cases h
  · cases h

theorem pairsFrom_plain (h : ∀ t ∈ ts, t.bracket? = none) (stack : List OpenPosition) (i : Nat) :
    pairsFrom stack i (ts ++ rest) = pairsFrom stack (i + ts.length) rest := by
  induction ts generalizing i with
  | nil => rfl
  | cons t ts ih =>
    obtain ⟨ht, hts⟩ := List.forall_mem_cons.mp h
    obtain ⟨hopen, hclose⟩ := isOneOf_of_plain ht
    rw [List.cons_append, pairsFrom, List.length_cons, Nat.add_comm ts.length, ← Nat.add_assoc, ← ih hts]
    unfold Token.isOneOf at hopen hclose
    split
    · rename_i hkind
      rw [hkind] at hopen hclose
      simp only [hopen, hclose, Bool.false_eq_true, ↓reduceIte]
    · rfl

theorem pairsFrom_open (kind : t.kind = .punct mark) (h : mark ∈ openers) :
    pairsFrom stack i (t :: rest) = pairsFrom ((mark, i) :: stack) (i + 1) rest := by
  rw [pairsFrom, kind]
  exact if_pos (List.contains_iff_mem.mpr h)

theorem pairsFrom_close (kind : t.kind = .punct (closerOf mark)) (h : mark ∈ openers) :
    pairsFrom ((mark, k) :: stack) i (t :: rest) = (k, i) :: pairsFrom stack (i + 1) rest := by
  have hopen : openers.contains (closerOf mark) = false := by
    rw [← Bool.not_eq_true, List.contains_iff_mem]
    exact fun hmem => not_closer_of_opener _ hmem (closerOf_mem mark)
  have hclose : closers.contains (closerOf mark) = true := List.contains_iff_mem.mpr (closerOf_mem mark)
  rw [pairsFrom, kind]
  simp only [hopen, hclose, Bool.false_eq_true, ↓reduceIte, openerOf_closerOf mark h]
  simp

theorem pairsFrom_balanced {marks : List Char} (h : Balanced marks) : ∀ {ts : List Token},
    brackets ts = marks → ∀ (stack : List OpenPosition) (i : Nat) (rest : List Token), ∃ pairs,
      pairsFrom stack i (ts ++ rest) = pairs ++ pairsFrom stack (i + ts.length) rest := by
  induction h with
  | nil =>
    intro ts hts stack i rest
    exact ⟨[], pairsFrom_plain (List.filterMap_eq_nil_iff.mp hts) stack i⟩
  | @enclose opener inner beside hopener _ _ ihwithin ihbeside =>
    intro ts hts stack i rest
    obtain ⟨lead, t, tail, rfl, hlead, ht, htail⟩ := List.filterMap_eq_cons_iff.mp hts
    obtain ⟨within, tail, rfl, hwithin, htail⟩ := List.filterMap_eq_append_iff.mp htail
    obtain ⟨gap, u, tail, rfl, hgap, hu, htail⟩ := List.filterMap_eq_cons_iff.mp htail
    obtain ⟨pairs, hpairs⟩ := ihwithin hwithin ((opener, i + lead.length) :: stack) (i + lead.length + 1)
      (gap ++ u :: (tail ++ rest))
    obtain ⟨pairs', hpairs'⟩ := ihbeside htail stack (i + lead.length + 1 + within.length + gap.length + 1) rest
    have hlength : i + (lead ++ t :: (within ++ (gap ++ u :: tail))).length =
        i + lead.length + 1 + within.length + gap.length + 1 + tail.length := by
      simp only [List.length_append, List.length_cons]
      omega
    refine ⟨pairs ++ (i + lead.length, i + lead.length + 1 + within.length + gap.length) :: pairs', ?_⟩
    rw [hlength, List.append_assoc, pairsFrom_plain hlead, List.cons_append,
      pairsFrom_open (bracket?_eq_some ht) hopener, List.append_assoc, List.append_assoc, List.cons_append,
      hpairs, pairsFrom_plain hgap, pairsFrom_close (bracket?_eq_some hu) hopener, hpairs']
    rw [List.append_assoc, List.cons_append]

theorem pairsFrom_append (ts : List Token) : ∀ (stack : List OpenPosition) (i : Nat) (rest : List Token),
    ∃ pairs stack', pairsFrom stack i (ts ++ rest) = pairs ++ pairsFrom stack' (i + ts.length) rest := by
  induction ts with
  | nil => exact fun stack i rest => ⟨[], stack, rfl⟩
  | cons t ts ih =>
    intro stack i rest
    have hnext : ∀ stack, ∃ pairs stack', pairsFrom stack (i + 1) (ts ++ rest) =
        pairs ++ pairsFrom stack' (i + (t :: ts).length) rest := fun stack => by
      rw [List.length_cons, Nat.add_comm ts.length, ← Nat.add_assoc]
      exact ih stack (i + 1) rest
    rw [List.cons_append, pairsFrom]
    split
    · split
      · exact hnext _
      split
      · split
        · exact hnext _
        · obtain ⟨pairs, stack', heq⟩ := hnext _
          rw [heq]
          exact ⟨_ :: pairs, stack', rfl⟩
      · exact hnext _
    · exact hnext _

theorem mem_bracketPairs {g : Group mark} (hmark : mark ∈ openers) (h : Follows ts i (g.tokens ++ rest)) :
    (i, i + 1 + g.inner.length) ∈ bracketPairs ts := by
  obtain ⟨lead, rfl, rfl⟩ := h
  obtain ⟨pairs, stack, hlead⟩ := pairsFrom_append lead [] 0 (g.tokens ++ rest)
  obtain ⟨pairs', hinner⟩ := pairsFrom_balanced g.balanced rfl ((mark, 0 + lead.length) :: stack)
    (0 + lead.length + 1) (g.closer :: rest)
  rw [Group.tokens, List.cons_append, List.append_assoc, List.singleton_append,
    pairsFrom_open g.opener_kind hmark, hinner, pairsFrom_close g.closer_kind hmark] at hlead
  rw [bracketPairs, Group.tokens, List.cons_append, List.append_assoc, List.singleton_append, hlead, Nat.zero_add]
  simp

end Pairs

section Streams

variable {file : FileId} {source : String} {i : Nat} {t : Token} {rest : List Token}

theorem Follows.token (h : Follows (scan file source) i (t :: rest)) : (streamOf file source).token i = t := by
  have hlen := h.length_eq
  have htoken := (tiles_scan file source).getElem?_token file i
  rw [List.length_cons] at hlen
  rw [Nat.min_eq_left (by omega), h.getElem?] at htoken
  exact (Option.some.inj htoken).symm

theorem Follows.partner? {mark : Char} {g : Group mark} (h : Follows (scan file source) i (g.tokens ++ rest))
    (hmark : mark ∈ openers) : (streamOf file source).partner? i = some (i + 1 + g.inner.length) :=
  (partner?_eq_some rfl).mpr (mem_bracketPairs hmark h)

end Streams

end Recompile.Script
