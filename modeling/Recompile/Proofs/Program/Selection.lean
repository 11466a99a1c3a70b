import Mathlib.Data.List.Forall2
import Mathlib.Data.List.Nodup
import Recompile.Proofs.Data.OrdMap
import Recompile.Proofs.Program.Aliases
import Recompile.Proofs.Text.Order

/-!
Which alias stands for a specifier. A pattern without a star stands for itself and comes first. Of the
patterns with one star whose parts lie side by side in the specifier, the one with the longest part
before the star is taken, and of equally long ones the smallest by its bytes.
-/

namespace Recompile.Specifier

open Text (width bytes splitFirst?)

/-- The star of a pattern with one star stands for a text between two parts of a specifier. -/
def Captures (specifier pattern : String) (before text : List Char) : Prop :=
  ∃ after, pattern.toList = before ++ '*' :: after ∧ '*' ∉ before ∧ '*' ∉ after ∧
    specifier.toList = before ++ (text ++ after)

/-- A target with a text in the place of its first star. -/
inductive Filled (text : List Char) : String → String → Prop where
  | star {before after : List Char} (first : '*' ∉ before) :
      Filled text (String.ofList (before ++ '*' :: after)) (String.ofList (before ++ text ++ after))
  | plain {target : String} (none : '*' ∉ target.toList) : Filled text target target

/-- The targets of a pattern without a star, which equals the specifier. -/
def Exact (aliases : OrdMap String (List String)) (specifier : String) (targets : List String) : Prop :=
  (specifier, targets) ∈ aliases.entries ∧ '*' ∉ specifier.toList

structure Chosen (aliases : OrdMap String (List String)) (specifier : String)
    (entry : String × List String) (before text : List Char) : Prop where
  mem : entry ∈ aliases.entries
  captures : Captures specifier entry.1 before text
  first : ∀ other ∈ aliases.entries, ∀ {before' text'}, Captures specifier other.1 before' text' →
    width before' < width before ∨ width before' = width before ∧ bytes entry.1 ≤ bytes other.1

theorem filled_fillStar (text : List Char) (target : String) : Filled text target (fillStar text target) := by
  unfold fillStar
  cases hsplit : splitFirst? ['*'] target.toList with
  | none => exact .plain (splitFirst?_star_eq_none.mp hsplit)
  | some parts =>
    obtain ⟨hparts, hfirst⟩ := splitFirst?_star_eq_some.mp hsplit
    have htarget : target = String.ofList (parts.1 ++ '*' :: parts.2) := by
      rw [← hparts, String.ofList_toList]
    rw [htarget]
    exact .star hfirst

theorem Filled.eq_fillStar {text : List Char} {target filled : String} (h : Filled text target filled) :
    filled = fillStar text target := by
  unfold fillStar
  cases h with
  | star first =>
    rw [String.toList_ofList, splitFirst?_star_eq_some.mpr ⟨rfl, first⟩]
  | plain none => rw [splitFirst?_star_eq_none.mpr none]

theorem filled_iff {text : List Char} {targets filled : List String} :
    List.Forall₂ (Filled text) targets filled ↔ filled = targets.map (fillStar text) := by
  constructor
  · intro h
    induction h with
    | nil => rfl
    | cons hhead _ ih => rw [List.map_cons, ← ih, hhead.eq_fillStar]
  · rintro rfl
    exact List.forall₂_map_right_iff.mpr (List.forall₂_same.mpr fun target _ => filled_fillStar text target)

theorem count_star_eq_one {before after : List Char} (hfirst : '*' ∉ before) :
    (before ++ '*' :: after).count '*' = 1 ↔ '*' ∉ after := by
  rw [List.count_append, List.count_cons_self, List.count_eq_zero.mpr hfirst, ← List.count_eq_zero]
  omega

theorem starParts?_eq_some {pattern : String} {before after : List Char} :
    starParts? pattern = some (before, after) ↔
      pattern.toList = before ++ '*' :: after ∧ '*' ∉ before ∧ '*' ∉ after := by
  unfold starParts? Options.stars
  constructor
  · intro h
    split at h
    · rename_i hone
      obtain ⟨hpattern, hfirst⟩ := splitFirst?_star_eq_some.mp h
      rw [hpattern, count_star_eq_one hfirst] at hone
      exact ⟨hpattern, hfirst, hone⟩
    · cases h
  · rintro ⟨hpattern, hfirst, hlast⟩
    rw [hpattern, if_pos ((count_star_eq_one hfirst).mpr hlast)]
    exact splitFirst?_star_eq_some.mpr ⟨rfl, hfirst⟩

theorem Captures.unique {specifier pattern : String} {before before' text text' : List Char}
    (h : Captures specifier pattern before text) (h' : Captures specifier pattern before' text') :
    before = before' ∧ text = text' := by
  obtain ⟨after, hpattern, hfirst, hlast, hspecifier⟩ := h
  obtain ⟨after', hpattern', hfirst', hlast', hspecifier'⟩ := h'
  have hparts := starParts?_eq_some.mpr ⟨hpattern, hfirst, hlast⟩
  rw [starParts?_eq_some.mpr ⟨hpattern', hfirst', hlast'⟩] at hparts
  cases hparts
  rw [hspecifier] at hspecifier'
  exact ⟨rfl, List.append_cancel_right (List.append_cancel_left hspecifier')⟩

theorem wildcard?_eq_some {specifier : String} {entry : String × List String}
    {choice : Nat × List String} : wildcard? specifier entry = some choice ↔
      ∃ before text, Captures specifier entry.1 before text ∧
        choice = (width before, entry.2.map (fillStar text)) := by
  unfold wildcard? Captures
  simp only [Option.bind_eq_bind, Option.bind_eq_some_iff, Prod.exists, starParts?_eq_some,
    capture?_eq_some, Option.pure_def, Option.some.injEq]
  constructor
  · rintro ⟨before, after, ⟨hpattern, hfirst, hlast⟩, text, hspecifier, rfl⟩
    exact ⟨before, text, ⟨after, hpattern, hfirst, hlast, hspecifier⟩, rfl⟩
  · rintro ⟨before, text, ⟨after, hpattern, hfirst, hlast, hspecifier⟩, rfl⟩
    exact ⟨before, after, ⟨hpattern, hfirst, hlast⟩, text, hspecifier, rfl⟩

theorem longest_some_cases (best : Nat × List String) (choices : List (Nat × List String)) :
    (longest (some best) choices = some best ∧ ∀ c ∈ choices, c.1 ≤ best.1) ∨
      ∃ lead c tail, choices = lead ++ c :: tail ∧ longest (some best) choices = some c ∧
        best.1 < c.1 ∧ (∀ d ∈ lead, d.1 < c.1) ∧ ∀ d ∈ tail, d.1 ≤ c.1 := by
  induction choices generalizing best with
  | nil => exact .inl ⟨rfl, fun c hc => (List.not_mem_nil hc).elim⟩
  | cons c choices ih =>
    rw [longest]
    by_cases hlt : best.1 < c.1
    · rw [if_pos hlt]
      rcases ih c with ⟨hbest, hall⟩ | ⟨lead, d, tail, rfl, hbest, hcd, hlead, htail⟩
      · exact .inr ⟨[], c, choices, rfl, hbest, hlt, fun d hd => (List.not_mem_nil hd).elim, hall⟩
      · exact .inr ⟨c :: lead, d, tail, rfl, hbest, Nat.lt_trans hlt hcd,
          List.forall_mem_cons.mpr ⟨hcd, hlead⟩, htail⟩
    · rw [if_neg hlt]
      rcases ih best with ⟨hbest, hall⟩ | ⟨lead, d, tail, rfl, hbest, hbd, hlead, htail⟩
      · exact .inl ⟨hbest, List.forall_mem_cons.mpr ⟨Nat.le_of_not_lt hlt, hall⟩⟩
      · exact .inr ⟨c :: lead, d, tail, rfl, hbest, hbd,
          List.forall_mem_cons.mpr ⟨by omega, hlead⟩, htail⟩

theorem longest_none_cases (choices : List (Nat × List String)) :
    choices = [] ∨ ∃ lead c tail, choices = lead ++ c :: tail ∧ longest none choices = some c ∧
      (∀ d ∈ lead, d.1 < c.1) ∧ ∀ d ∈ tail, d.1 ≤ c.1 := by
  cases choices with
  | nil => exact .inl rfl
  | cons c choices =>
    rw [longest]
    rcases longest_some_cases c choices with ⟨hbest, hall⟩ | ⟨lead, d, tail, rfl, hbest, hcd, hlead, htail⟩
    · exact .inr ⟨[], c, choices, rfl, hbest, fun d hd => (List.not_mem_nil hd).elim, hall⟩
    · exact .inr ⟨c :: lead, d, tail, rfl, hbest, List.forall_mem_cons.mpr ⟨hcd, hlead⟩, htail⟩

section Sorted

variable {aliases : OrdMap String (List String)} {specifier : String} {targets : List String}

theorem longest_chosen (h : aliases.Sorted) :
    (longest none (aliases.entries.filterMap (wildcard? specifier)) = none ∧
        ∀ entry ∈ aliases.entries, ∀ before text, ¬ Captures specifier entry.1 before text) ∨
      ∃ entry before text, Chosen aliases specifier entry before text ∧
        longest none (aliases.entries.filterMap (wildcard? specifier)) =
          some (width before, entry.2.map (fillStar text)) := by
  rcases longest_none_cases (aliases.entries.filterMap (wildcard? specifier)) with
    hnil | ⟨lead, c, tail, hsplit, hbest, hlead, htail⟩
  · refine .inl ⟨by rw [hnil]; rfl, fun entry hentry before text hcaptures => ?_⟩
    have hnone := List.filterMap_eq_nil_iff.mp hnil entry hentry
    rw [wildcard?_eq_some.mpr ⟨before, text, hcaptures, rfl⟩] at hnone
    cases hnone
  · right
    obtain ⟨xs, rest, hentries, rfl, hrest⟩ := List.filterMap_eq_append_iff.mp hsplit
    obtain ⟨ys, entry, zs, rfl, hys, hentry, rfl⟩ := List.filterMap_eq_cons_iff.mp hrest
    obtain ⟨before, text, hcaptures, rfl⟩ := wildcard?_eq_some.mp hentry
    refine ⟨entry, before, text, ⟨?_, hcaptures, ?_⟩, hbest⟩
    · rw [hentries]
      simp
    intro other hother before' text' hcaptures'
    have hwild := wildcard?_eq_some.mpr ⟨before', text', hcaptures', rfl⟩
    have hsorted : (xs ++ ys ++ entry :: zs).Pairwise (compare ·.1 ·.1 = .lt) := by
      rw [List.append_assoc, ← hentries]
      exact h
    rw [hentries, ← List.append_assoc] at hother
    rcases List.mem_append.mp hother with hprevious | hlater
    · rcases List.mem_append.mp hprevious with hx | hy
      · exact .inl (hlead _ (List.mem_filterMap.mpr ⟨other, hx, hwild⟩))
      · rw [hys other hy] at hwild
        cases hwild
    rcases List.mem_cons.mp hlater with rfl | hz
    · obtain ⟨rfl, -⟩ := hcaptures.unique hcaptures'
      exact .inr ⟨rfl, List.le_refl _⟩
    · have hle := htail _ (List.mem_filterMap.mpr ⟨other, hz, hwild⟩)
      have hbehind := (List.pairwise_cons.mp (List.pairwise_append.mp hsorted).2.1).1 other hz
      rcases Nat.lt_or_eq_of_le hle with hlt | heq
      · exact .inl hlt
      · exact .inr ⟨heq, List.le_of_lt (Text.bytes_lt_iff.mpr (compare_lt_iff_lt.mp hbehind))⟩

theorem Chosen.unique (h : aliases.Sorted) {entry entry' : String × List String}
    {before before' text text' : List Char} (hc : Chosen aliases specifier entry before text)
    (hc' : Chosen aliases specifier entry' before' text') : entry = entry' ∧ text = text' := by
  have hpattern : entry.1 = entry'.1 := by
    -- neither has the longer part before its star, so each pattern is at most the other
    rcases hc.first entry' hc'.mem hc'.captures with hlt | ⟨heq, hle⟩ <;>
      rcases hc'.first entry hc.mem hc.captures with hlt' | ⟨heq', hle'⟩
    · exact absurd hlt (Nat.lt_asymm hlt')
    · exact absurd heq' (Nat.ne_of_gt hlt)
    · exact absurd heq (Nat.ne_of_gt hlt')
    · exact le_antisymm (Text.bytes_le_iff.mp hle) (Text.bytes_le_iff.mp hle')
  have hentry : entry = entry' := List.inj_on_of_nodup_map h.nodup_keys hc.mem hc'.mem hpattern
  subst hentry
  exact ⟨rfl, (hc.captures.unique hc'.captures).2⟩

theorem exact_of_find? {entry : String × List String}
    (h : (aliases.entries.find? fun e => Options.stars e.1 = 0 && e.1 = specifier) = some entry) :
    Exact aliases specifier entry.2 := by
  have hfound := List.find?_some h
  rw [Bool.and_eq_true, decide_eq_true_eq, decide_eq_true_eq] at hfound
  obtain ⟨hstars, rfl⟩ := hfound
  exact ⟨List.mem_of_find?_eq_some h, List.count_eq_zero.mp hstars⟩

theorem not_exact_of_find?
    (h : (aliases.entries.find? fun e => Options.stars e.1 = 0 && e.1 = specifier) = none)
    (exact : List String) : ¬ Exact aliases specifier exact := by
  rintro ⟨hmem, hstars⟩
  have hnot := List.find?_eq_none.mp h _ hmem
  rw [Bool.and_eq_true, decide_eq_true_eq, decide_eq_true_eq] at hnot
  exact hnot ⟨List.count_eq_zero.mpr hstars, rfl⟩

theorem aliasTargets?_cases (h : aliases.Sorted) (specifier : String) :
    (∃ targets, Exact aliases specifier targets ∧ aliasTargets? aliases specifier = some targets) ∨
      (∀ exact, ¬ Exact aliases specifier exact) ∧
        ((∃ entry before text, Chosen aliases specifier entry before text ∧
            aliasTargets? aliases specifier = some (entry.2.map (fillStar text))) ∨
          (∀ entry ∈ aliases.entries, ∀ before text, ¬ Captures specifier entry.1 before text) ∧
            aliasTargets? aliases specifier = none) := by
  rw [aliasTargets?]
  cases hfound : aliases.entries.find? fun e => Options.stars e.1 = 0 && e.1 = specifier with
  | some entry => exact .inl ⟨entry.2, exact_of_find? hfound, rfl⟩
  | none =>
    refine .inr ⟨not_exact_of_find? hfound, ?_⟩
    rcases @longest_chosen aliases specifier h with
      ⟨hnone, hall⟩ | ⟨entry, before, text, hchosen, hbest⟩
    · exact .inr ⟨hall, by rw [hnone]; rfl⟩
    · exact .inl ⟨entry, before, text, hchosen, by rw [hbest]; rfl⟩

/-- The targets of a specifier are those of the pattern without a star that equals it, else those of the
first of the patterns with one star that match it, filled with what the star stands for, and there are
none without such patterns. The pass over the table in order, which cuts the text out of the specifier by
sizes, ends with them and never cuts inside a character. -/
theorem alias_selected (h : aliases.Sorted) (specifier : String) :
    aliasTargetsFrom specifier none aliases.entries = .ok (aliasTargets? aliases specifier) ∧
      (∀ targets, aliasTargets? aliases specifier = some targets ↔
        Exact aliases specifier targets ∨ (∀ exact, ¬ Exact aliases specifier exact) ∧
          ∃ entry before text, Chosen aliases specifier entry before text ∧
            List.Forall₂ (Filled text) entry.2 targets) ∧
      (aliasTargets? aliases specifier = none ↔ (∀ exact, ¬ Exact aliases specifier exact) ∧
        ∀ entry ∈ aliases.entries, ∀ before text, ¬ Captures specifier entry.1 before text) := by
  refine ⟨aliasTargets_eq aliases specifier, fun targets => ?_, ?_⟩
  · rcases aliasTargets?_cases h specifier with ⟨exact, hexact, htargets⟩ | ⟨hnot, hrest⟩
    · rw [htargets, Option.some.injEq]
      constructor
      · rintro rfl
        exact .inl hexact
      · rintro (hother | ⟨hnot, -⟩)
        · exact congrArg Prod.snd (List.inj_on_of_nodup_map h.nodup_keys hexact.1 hother.1 rfl)
        · exact absurd hexact (hnot exact)
    rcases hrest with ⟨entry, before, text, hchosen, htargets⟩ | ⟨hall, htargets⟩
    · rw [htargets, Option.some.injEq]
      constructor
      · rintro rfl
        exact .inr ⟨hnot, entry, before, text, hchosen, filled_iff.mpr rfl⟩
      · rintro (hexact | ⟨-, entry', before', text', hchosen', hfilled⟩)
        · exact absurd hexact (hnot targets)
        · obtain ⟨rfl, rfl⟩ := hchosen.unique h hchosen'
          exact (filled_iff.mp hfilled).symm
    · rw [htargets]
      refine iff_of_false nofun ?_
      rintro (hexact | ⟨-, entry, before, text, hchosen, -⟩)
      · exact hnot targets hexact
      · exact hall entry hchosen.mem before text hchosen.captures
  · rcases aliasTargets?_cases h specifier with ⟨exact, hexact, htargets⟩ | ⟨hnot, hrest⟩
    · rw [htargets]
      exact iff_of_false nofun fun hnone => hnone.1 exact hexact
    rcases hrest with ⟨entry, before, text, hchosen, htargets⟩ | ⟨hall, htargets⟩
    · rw [htargets]
      exact iff_of_false nofun fun hnone => hnone.2 entry hchosen.mem before text hchosen.captures
    · exact iff_of_true htargets ⟨hnot, hall⟩

end Sorted

def crowded : OrdMap String (List String) := .ofList [("lib/*", ["src/*", "*/*"]), ("lib/*.js", ["js/*"]),
  ("lib/a*a", ["overlap"]), ("lib/*/*", ["twice"]), ("*", ["any/*"]), ("lib/é", ["plain"])]

theorem alias_selected_crowded : crowded.Sorted ∧ Exact crowded "lib/é" ["plain"] ∧
    (∃ entry before text, Chosen crowded "lib/a" entry before text ∧
      List.Forall₂ (Filled text) entry.2 ["src/a", "a/*"]) ∧
    ∃ entry before text, Chosen crowded "lib/ü.js" entry before text ∧
      List.Forall₂ (Filled text) entry.2 ["src/ü.js", "ü.js/*"] := by
  have hsorted : crowded.Sorted := OrdMap.sorted_ofList _
  refine ⟨hsorted, ?_, ?_, ?_⟩
  · rcases ((alias_selected hsorted "lib/é").2.1 ["plain"]).mp (by decide) with hexact | ⟨hnot, -⟩
    · exact hexact
    · exact absurd ⟨by decide, by decide⟩ (hnot ["plain"])
  · rcases ((alias_selected hsorted "lib/a").2.1 ["src/a", "a/*"]).mp (by decide) with
      ⟨hmem, -⟩ | ⟨-, hchosen⟩
    · exact absurd hmem (by decide)
    · exact hchosen
  · rcases ((alias_selected hsorted "lib/ü.js").2.1 ["src/ü.js", "ü.js/*"]).mp (by decide) with
      ⟨hmem, -⟩ | ⟨-, hchosen⟩
    · exact absurd hmem (by decide)
    · exact hchosen

end Recompile.Specifier
