import Recompile.Program.Shadow
import Recompile.Proofs.Path.Tidy

/-!
Names of files: a name joined to a directory is the last component of the result, so a file beside
another has the kind that its ending tells.
-/

namespace Recompile

namespace Path

theorem slash_not_mem_fileName? {p : Path} {s : String} (h : p.fileName? = some s) :
    '/' ∉ s.toList := by
  have hmem : Component.name s ∈ p.components := by
    unfold fileName? at h
    split at h
    · rename_i t hlast
      cases h
      exact List.mem_of_getLast? hlast
    · cases h
  obtain ⟨start, steps, heq, hstart, hsteps⟩ := components_eq_lead p
  rw [heq] at hmem
  rcases List.mem_append.mp hmem with hmem | hmem
  · rcases hstart with rfl | rfl | rfl <;> simp at hmem
  · exact (hsteps _ hmem).2.2

theorem getLast?_cons_segments (seg cs : List Char) :
    (seg :: segments cs).getLast? = (segments cs).getLast? := by
  obtain ⟨x, hx⟩ := Option.ne_none_iff_exists'.mp
    (mt List.getLast?_eq_none_iff.mp (segments_ne_nil cs))
  simp [List.getLast?_cons, hx]

theorem getLast?_segments_lead {cs : List Char} (h : cs ≠ ['.']) :
    (segments (lead cs).2).getLast? = (segments cs).getLast? := by
  rcases lead_cases cs with ⟨t, rfl, hlead⟩ | ⟨hdot, -⟩ | ⟨t, rfl, hlead⟩ | hlead
  · rw [hlead, segments_slash, getLast?_cons_segments]
  · exact absurd hdot h
  · have hdot : segments ('.' :: '/' :: t) = ['.'] :: segments t := segments_append_slash ['.'] t
    rw [hlead, hdot, segments_slash, getLast?_cons_segments, getLast?_cons_segments]
  · rw [hlead]

def EndsIn (cs name : List Char) : Prop := cs = name ∨ ∃ front, cs = front ++ '/' :: name

theorem EndsIn.getLast?_segments {cs name : List Char} (h : EndsIn cs name) (hname : '/' ∉ name) :
    (segments cs).getLast? = some name := by
  rcases h with rfl | ⟨front, rfl⟩
  · rw [segments_of_not_mem hname]
    rfl
  · rw [segments_append_slash, segments_of_not_mem hname]
    simp

theorem fileName?_of_endsIn {p : Path} {name : String} (h : EndsIn p.text.toList name.toList)
    (hname : IsName name.toList) : p.fileName? = some name := by
  obtain ⟨hsolid, hup, hslash⟩ := hname
  have hne : p.text.toList ≠ ['.'] := by
    rintro hdot
    rcases h with h | ⟨front, h⟩
    · exact hsolid.2 (h ▸ hdot)
    · rw [hdot] at h
      cases front with
      | nil => simp at h
      | cons a front => simp at h
  have hseg : (segments (lead p.text.toList).2).getLast? = some name.toList := by
    rw [getLast?_segments_lead hne, h.getLast?_segments hslash]
  obtain ⟨front, hfront⟩ := List.getLast?_eq_some_iff.mp hseg
  have hof : Component.ofSegment? name.toList = some (.name name) := by
    simp [Component.ofSegment?, hsolid.1, hsolid.2, hup]
  have hlast : p.components.getLast? = some (.name name) := by
    unfold components
    simp only [hfront, List.filterMap_append]
    simp [hof]
  unfold fileName?
  rw [hlast]

theorem isAbsolute_iff {p : Path} : p.isAbsolute = true ↔ ∃ cs, p.text.toList = '/' :: cs := by
  unfold isAbsolute Text.startsWith
  cases p.text.toList with
  | nil => simp
  | cons c cs =>
    by_cases h : '/' = c
    · simp [← h]
    · simp [h, Ne.symm h]

theorem endsIn_join {p : Path} {name : String} (hname : '/' ∉ name.toList) :
    EndsIn (p.join ⟨name⟩).text.toList name.toList := by
  have hrel : ¬ isAbsolute ⟨name⟩ = true := by
    intro habs
    obtain ⟨cs, hcs⟩ := isAbsolute_iff.mp habs
    exact hname (by simp [show name.toList = '/' :: cs from hcs])
  unfold join
  rw [if_neg hrel]
  split
  · rename_i hp
    rcases Bool.or_eq_true_iff.mp hp with hp | hp
    · refine .inl ?_
      have hempty : p.text = "" := by simpa using hp
      simp [hempty]
    · obtain ⟨front, hfront⟩ := Text.endsWith_iff.mp hp
      exact .inr ⟨front, by simp [hfront]⟩
  · exact .inr ⟨p.text.toList, by simp⟩

theorem fileName?_join {p : Path} {name : String} (hname : IsName name.toList) :
    (p.join ⟨name⟩).fileName? = some name :=
  fileName?_of_endsIn (endsIn_join hname.2.2) hname

def stem (p : Path) : List Char :=
  let name := (p.fileName?.getD "").toList
  (Text.stripTail? ".ts".toList name).getD name

theorem slash_not_mem_stem (p : Path) : '/' ∉ p.stem := by
  have hname : '/' ∉ (p.fileName?.getD "").toList := by
    cases h : p.fileName? with
    | none => simp
    | some s => exact slash_not_mem_fileName? h
  unfold stem
  dsimp only
  cases h : Text.stripTail? ".ts".toList (p.fileName?.getD "").toList with
  | none => exact hname
  | some front =>
    intro hmem
    rw [Text.stripTail?_eq_some h] at hname
    exact hname (List.mem_append_left _ hmem)

theorem fileName?_beside (p : Path) {ending : String} (hslash : '/' ∉ ending.toList)
    (hlength : 3 ≤ ending.toList.length) :
    (p.beside ending).fileName? = some (String.ofList p.stem ++ ending) := by
  refine fileName?_join ⟨?_, ?_, ?_⟩
  · refine solid_of_length ?_
    simp only [String.toList_append, List.length_append]
    omega
  · intro h
    have hlen := congrArg List.length h
    simp only [String.toList_append, List.length_append, List.length_cons, List.length_nil] at hlen
    omega
  · simpa using ⟨p.slash_not_mem_stem, hslash⟩

end Path

theorem Text.endsWith_append_eq_false {front tail ending : List Char}
    (hlength : ending.length ≤ tail.length) (h : Text.endsWith ending tail = false) :
    Text.endsWith ending (front ++ tail) = false := by
  cases hends : Text.endsWith ending (front ++ tail) with
  | false => rfl
  | true =>
    obtain ⟨rest, hrest⟩ := Text.endsWith_iff.mp hends
    rcases List.append_eq_append_iff.mp hrest with ⟨mid, -, htail⟩ | ⟨mid, hfront, hend⟩
    · rw [Text.endsWith_iff.mpr ⟨mid, htail⟩] at h
      cases h
    · have hmid : mid = [] := by
        have hlen := congrArg List.length hend
        simp only [List.length_append] at hlen
        exact List.length_eq_zero_iff.mp (by omega)
      rw [Text.endsWith_iff.mpr ⟨[], by simp [hend, hmid]⟩] at h
      cases h

theorem SourceKind.ofPath_congr {p q : Path} (h : p.components = q.components) :
    ofPath p = ofPath q := by
  unfold ofPath Path.fileName?
  rw [h]

theorem Shadow.ofPath_path (p : Path) : SourceKind.ofPath (Shadow.path p) = .script := by
  have hname : (Shadow.path p).fileName? = some (String.ofList p.stem ++ ".typecheck.ts") :=
    p.fileName?_beside (by decide) (by decide)
  have hnot : ∀ ending : String, ending.toList.length ≤ ".typecheck.ts".toList.length →
      Text.endsWith ending.toList ".typecheck.ts".toList = false →
      Text.endsWith ending.toList (p.stem ++ ".typecheck.ts".toList) = false :=
    fun ending => Text.endsWith_append_eq_false
  unfold SourceKind.ofPath SourceKind.hasEnding
  simp only [hname, Option.getD_some, String.toList_append, String.toList_ofList, List.any_cons,
    List.any_nil]
  rw [hnot ".d.ts" (by decide) (by decide), hnot ".html" (by decide) (by decide),
    hnot ".htm" (by decide) (by decide), hnot ".svg" (by decide) (by decide),
    hnot ".css" (by decide) (by decide), hnot ".scss" (by decide) (by decide),
    hnot ".sass" (by decide) (by decide), hnot ".less" (by decide) (by decide)]
  rfl

end Recompile
