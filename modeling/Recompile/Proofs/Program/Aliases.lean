import Recompile.Proofs.Path.Tidy
import Recompile.Proofs.Text.Cuts

/-!
Aliases looked up one pattern after the other, with what a star stands for cut out of the specifier
by sizes. The parts around the star are parts of the specifier that do not overlap, so the cut is
always well formed.
-/

namespace Recompile.Specifier

open Text (width Place splitFirst? startsWith endsWith)

theorem capture?_eq_some {before after specifier text : List Char} :
    capture? before after specifier = some text ↔ specifier = before ++ (text ++ after) := by
  unfold capture?
  rw [Option.bind_eq_some_iff]
  constructor
  · rintro ⟨rest, hlead, htail⟩
    rw [Text.stripLead?_eq_some.mp hlead, Text.stripTail?_eq_some htail]
  · rintro rfl
    refine ⟨text ++ after, Text.stripLead?_eq_some.mpr rfl, ?_⟩
    have hlead : Text.stripLead? after.reverse (text ++ after).reverse = some text.reverse :=
      Text.stripLead?_eq_some.mpr (by simp)
    rw [Text.stripTail?, hlead, Option.map_some, List.reverse_reverse]

theorem matches_iff {before after specifier : List Char} :
    (decide (width before + width after ≤ width specifier) && startsWith before specifier &&
      endsWith after specifier) = (capture? before after specifier).isSome := by
  rw [Bool.eq_iff_iff, Option.isSome_iff_exists]
  simp only [Bool.and_eq_true, decide_eq_true_eq, capture?_eq_some]
  constructor
  · rintro ⟨⟨hroom, hstart⟩, hend⟩
    obtain ⟨rest, hrest⟩ := Option.isSome_iff_exists.mp hstart
    obtain ⟨front, hfront⟩ := Text.endsWith_iff.mp hend
    have hlead := Text.stripLead?_eq_some.mp hrest
    rw [hlead] at hfront hroom
    rcases List.append_eq_append_iff.mp hfront with ⟨mid, -, hmid⟩ | ⟨mid, hmid, hafter⟩
    · exact ⟨mid, by rw [hlead, hmid]⟩
    · -- an overlap would leave too little room for both parts
      have hempty : mid = [] := by
        rw [hafter] at hroom
        simp only [Text.width_append] at hroom
        exact Text.width_eq_zero (by omega)
      subst hempty
      exact ⟨[], by rw [hlead, hafter]; rfl⟩
  · rintro ⟨text, rfl⟩
    refine ⟨⟨by simp only [Text.width_append]; omega, ?_⟩, Text.endsWith_iff.mpr ⟨before ++ text, by simp⟩⟩
    exact Option.isSome_iff_exists.mpr ⟨_, Text.stripLead?_eq_some.mpr rfl⟩

theorem cut_capture {before after specifier text : List Char}
    (h : capture? before after specifier = some text) : ∃ stop,
      Checked.sub (width specifier) (width after) = .ok stop ∧
        Checked.cut specifier (width before) stop = .ok text := by
  obtain rfl := capture?_eq_some.mp h
  have hplace : Place (before ++ (text ++ after)) (0 + width before) (text ++ after) :=
    (Place.start _).skip
  rw [Nat.zero_add] at hplace
  refine ⟨width before + width text, ?_, hplace.cut⟩
  rw [Text.width_append, Text.width_append, ← Nat.add_assoc, Checked.sub_add]

def aliasTargetsFrom (specifier : String) :
    Option (Nat × List String) → List (String × List String) → Checked (Option (List String))
  | best, [] => return best.map (·.2)
  | best, (pattern, targets) :: rest =>
      if Options.stars pattern = 0 && pattern = specifier then return some targets
      else if Options.stars pattern ≠ 1 then aliasTargetsFrom specifier best rest
      else
        match splitFirst? ['*'] pattern.toList with
        | none => return none
        | some (before, after) =>
            let fits := decide (width before + width after ≤ width specifier.toList) &&
              startsWith before specifier.toList && endsWith after specifier.toList
            if !fits || (best.map fun b => decide (width before ≤ b.1)).getD false then
              aliasTargetsFrom specifier best rest
            else do
              let stop ← Checked.sub (width specifier.toList) (width after)
              let text ← Checked.cut specifier.toList (width before) stop
              aliasTargetsFrom specifier (some (width before, targets.map (fillStar text))) rest

theorem splitFirst?_star_eq_some {cs before after : List Char} :
    splitFirst? ['*'] cs = some (before, after) ↔ cs = before ++ '*' :: after ∧ '*' ∉ before := by
  induction cs generalizing before with
  | nil => simp [Text.splitFirst?_nil]
  | cons c cs ih =>
    rw [Text.splitFirst?_cons]
    by_cases hc : c = '*'
    · subst hc
      cases before with
      | nil => simp
      | cons d before =>
        refine iff_of_false (by simp) ?_
        rintro ⟨heq, hfirst⟩
        rw [← (List.cons.inj heq).1] at hfirst
        exact hfirst List.mem_cons_self
    · rw [Text.stripLead?_cons, if_neg (Ne.symm hc)]
      rw [Option.map_eq_some_iff]
      constructor
      · rintro ⟨⟨before', after'⟩, hparts, heq⟩
        obtain ⟨rfl, rfl⟩ := Prod.mk.inj heq
        obtain ⟨rfl, hfirst⟩ := ih.mp hparts
        exact ⟨rfl, List.not_mem_cons_of_ne_of_not_mem (Ne.symm hc) hfirst⟩
      · rintro ⟨heq, hfirst⟩
        cases before with
        | nil => exact absurd (List.cons.inj heq).1 hc
        | cons d before =>
          obtain ⟨rfl, rfl⟩ := List.cons.inj heq
          exact ⟨(before, after), ih.mpr ⟨rfl, List.not_mem_of_not_mem_cons hfirst⟩, rfl⟩

theorem splitFirst?_star_eq_none {cs : List Char} : splitFirst? ['*'] cs = none ↔ '*' ∉ cs := by
  induction cs with
  | nil => simp [Text.splitFirst?_nil]
  | cons c cs ih =>
    rw [Text.splitFirst?_cons]
    by_cases hc : '*' = c
    · subst hc
      simp
    · simp [hc, ih]

theorem splitFirst?_star {cs : List Char} (h : cs.count '*' = 1) :
    ∃ r, splitFirst? ['*'] cs = some r := by
  cases hsplit : splitFirst? ['*'] cs with
  | none =>
    rw [List.count_eq_zero.mpr (splitFirst?_star_eq_none.mp hsplit)] at h
    cases h
  | some r => exact ⟨r, rfl⟩

theorem longest_cons (best : Option (Nat × List String)) (c : Nat × List String)
    (rest : List (Nat × List String)) : longest best (c :: rest) =
      longest (if (best.map fun b => decide (c.1 ≤ b.1)).getD false then best else some c) rest := by
  cases best with
  | none => rfl
  | some b =>
    rw [longest]
    by_cases h : b.1 < c.1
    · rw [if_pos h, if_neg (by simpa using h)]
    · rw [if_neg h, if_pos (by simpa using h)]

theorem aliasTargetsFrom_eq (specifier : String) : ∀ (entries : List (String × List String))
    (best : Option (Nat × List String)), aliasTargetsFrom specifier best entries =
      .ok (match entries.find? fun e => Options.stars e.1 = 0 && e.1 = specifier with
        | some e => some e.2
        | none => (longest best (entries.filterMap (wildcard? specifier))).map (·.2))
  | [], best => by cases best <;> rfl
  | (pattern, targets) :: rest, best => by
    have ih := aliasTargetsFrom_eq specifier rest
    rw [aliasTargetsFrom, List.find?_cons]
    by_cases hexact : (Options.stars pattern = 0 && pattern = specifier) = true
    · rw [if_pos hexact]
      simp only [hexact]
      rfl
    rw [if_neg hexact]
    simp only [Bool.eq_false_iff.mpr hexact]
    by_cases hstars : Options.stars pattern = 1
    · obtain ⟨⟨before, after⟩, hsplit⟩ := splitFirst?_star hstars
      rw [if_neg (not_not.mpr hstars), hsplit]
      dsimp only
      rw [matches_iff]
      cases hcapture : capture? before after specifier.toList with
      | none =>
        have hwild : wildcard? specifier (pattern, targets) = none := by
          simp [wildcard?, starParts?, hstars, hsplit, hcapture]
        rw [List.filterMap_cons_none hwild]
        simpa using ih best
      | some text =>
        have hwild : wildcard? specifier (pattern, targets) =
            some (width before, targets.map (fillStar text)) := by
          simp [wildcard?, starParts?, hstars, hsplit, hcapture]
        obtain ⟨stop, hstop, hcut⟩ := cut_capture hcapture
        rw [List.filterMap_cons_some hwild, longest_cons, hstop, Checked.ok_bind, hcut, Checked.ok_bind]
        simp only [Option.isSome_some, Bool.not_true, Bool.false_or]
        split
        · exact ih best
        · exact ih _
    · have hwild : wildcard? specifier (pattern, targets) = none := by
        simp [wildcard?, starParts?, hstars]
      rw [if_pos hstars, List.filterMap_cons_none hwild]
      exact ih best

theorem aliasTargets_eq (aliases : OrdMap String (List String)) (specifier : String) :
    aliasTargetsFrom specifier none aliases.entries = .ok (aliasTargets? aliases specifier) :=
  aliasTargetsFrom_eq specifier aliases.entries none

end Recompile.Specifier
