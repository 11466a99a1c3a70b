import Recompile.Proofs.Path.Rooted
import Recompile.Proofs.Program.ShadowText

/-!
Where the files of a build lie. When its roots and its aliases are rooted and the root directory is no
file, all files are rooted, shadows included.
-/

namespace Recompile

namespace BuildState

variable {σ : Type} [FileSystem σ] {c : BuildContext σ} {P : Path → Prop}

theorem path_visit {s : BuildState} {p : Path} (hnext : ∀ {p text} id, P p →
      c.host.read c.fs p = .ok (some text) → ∀ q ∈ nextOf c (fileAt id p text), P q)
    (hs : ∀ {id f}, s.program.file? id = some f → P f.path) (hp : P p) :
    (∀ {id f}, (visit c s p).1.program.file? id = some f → P f.path) ∧ ∀ q ∈ (visit c s p).2, P q := by
  rcases visit_cases c s p with ⟨-, heq⟩ | ⟨-, -, ⟨fault, missing, -, heq⟩ | ⟨text, roots, hread, heq⟩⟩
  · rw [heq]
    exact ⟨hs, by simp⟩
  · rw [heq]
    exact ⟨hs, by simp⟩
  · rw [heq]
    refine ⟨fun {id f} hf => ?_, hnext _ hp hread⟩
    rw [file?_withFile] at hf
    split at hf
    · cases hf
      exact hp
    · exact hs hf

theorem path_round (hnext : ∀ {p text} id, P p → c.host.read c.fs p = .ok (some text) →
      ∀ q ∈ nextOf c (fileAt id p text), P q) (queue : List Path) :
    ∀ {s : BuildState}, (∀ {id f}, s.program.file? id = some f → P f.path) → (∀ p ∈ queue, P p) →
      (∀ {id f}, (round c s queue).1.program.file? id = some f → P f.path) ∧
        ∀ q ∈ (round c s queue).2, P q := by
  induction queue with
  | nil => exact fun hs _ => ⟨hs, by simp [round]⟩
  | cons p rest ih =>
    intro s hs hqueue
    obtain ⟨hfiles, hfirst⟩ := path_visit hnext hs (hqueue p (by simp))
    obtain ⟨hfiles, hmore⟩ := ih hfiles fun q hq => hqueue q (by simp [hq])
    exact ⟨hfiles, fun q hq => (List.mem_append.mp hq).elim (hfirst q) (hmore q)⟩

theorem path_rounds (hnext : ∀ {p text} id, P p → c.host.read c.fs p = .ok (some text) →
      ∀ q ∈ nextOf c (fileAt id p text), P q) (fuel : Nat) :
    ∀ {s : BuildState} {queue : List Path}, (∀ {id f}, s.program.file? id = some f → P f.path) →
      (∀ p ∈ queue, P p) → ∀ {id f}, (rounds c fuel s queue).program.file? id = some f → P f.path := by
  induction fuel with
  | zero =>
    intro s queue hs _
    cases queue <;> exact hs
  | succ fuel ih =>
    intro s queue hs hqueue
    cases queue with
    | nil => exact hs
    | cons p rest =>
      obtain ⟨hfiles, hmore⟩ := path_round hnext (p :: rest) hs hqueue
      exact ih hfiles hmore

theorem rooted_linksOf (hroot : Path.Rooted c.options.moduleRoot.text.toList) {f : SourceFile}
    (hdir : Path.Rooted f.path.dirname.text.toList) {q : Path} (hq : q ∈ linksOf c f) :
    Path.Rooted q.text.toList := by
  rcases mem_linksOf.mp hq with hq | ⟨-, ref, href, -, rfl⟩
  · obtain ⟨spec, -, hspec⟩ := mem_foundOf.mp hq
    obtain ⟨paths, hpaths, hfirst⟩ := Specifier.find_eq_file hspec
    have hmem := List.mem_of_find?_eq_some hfirst
    unfold Specifier.alternatives? at hpaths
    split at hpaths
    · cases hpaths
      exact Path.rooted_candidates (Path.rooted_resolve hdir _) q hmem
    · obtain ⟨targets, -, rfl⟩ := Option.map_eq_some_iff.mp hpaths
      obtain ⟨target, -, htarget⟩ := List.mem_flatMap.mp hmem
      exact Path.rooted_candidates (Path.rooted_resolve hroot _) q htarget
  · rw [(mem_refsOf href).2.2]
    exact Path.rooted_resolve hdir _

end BuildState

namespace Host

variable {σ : Type} [FileSystem σ]

def RootClosed (h : Host) (fs : σ) : Prop := ∀ text, h.read fs ⟨"/"⟩ ≠ .ok (some text)

theorem RootClosed.components_ne {h : Host} {fs : σ} (hclosed : h.RootClosed fs) {p : Path} {text : String}
    (htidy : Path.Tidy p.text.toList) (hread : h.read fs p = .ok (some text)) : p.components ≠ [.root] := by
  intro hp
  have hslash : p = ⟨"/"⟩ := Path.eq_of_components_eq htidy (Path.tidy_normalize ⟨"/"⟩) (by rw [hp]; decide)
  exact hclosed text (hslash ▸ hread)

end Host

namespace Program

open BuildState

variable {σ : Type} [FileSystem σ] {c : BuildContext σ} {r s : Registry} {p : Program}

theorem rooted_outcome (hclosed : c.host.RootClosed c.fs) (hroot : Path.Rooted c.options.moduleRoot.text.toList)
    {queue : List Path} (hqueue : ∀ p ∈ queue, Path.Rooted p.text.toList ∧ Path.Tidy p.text.toList) {id : FileId}
    {f : SourceFile} (hf : (outcome c r queue).program.file? id = some f) :
    Path.Rooted f.path.text.toList := by
  refine (path_rounds (P := fun p => Path.Rooted p.text.toList ∧ Path.Tidy p.text.toList) ?_ _ ?_ hqueue hf).1
  · rintro p text id ⟨hrooted, htidy⟩ hread q hq
    have hname : p.components ≠ [.root] := hclosed.components_ne htidy hread
    have hdir : Path.Rooted p.dirname.text.toList := Path.rooted_dirname hrooted hname
    unfold nextOf at hq
    split at hq
    · exact ⟨rooted_linksOf hroot (f := fileAt id p text) hdir hq, tidy_linksOf hq⟩
    · cases hq
  · intro id f hf
    cases hf

theorem Built.rooted {queue : List Path} (h : Built c (outcome c r queue) p s) (hapart : p.ShadowsApart)
    (hclosed : c.host.RootClosed c.fs) (hroot : Path.Rooted c.options.moduleRoot.text.toList)
    (hqueue : ∀ p ∈ queue, Path.Rooted p.text.toList ∧ Path.Tidy p.text.toList) {id : FileId} {f : SourceFile}
    (hf : p.file? id = some f) : Path.Rooted f.path.text.toList := by
  rcases h.file_cases hf with ⟨-, hread⟩ | ⟨⟨o, ho⟩, -⟩
  · exact rooted_outcome hclosed hroot hqueue hread
  · obtain ⟨-, g, m, hg, -, hfile, -⟩ := (h.made (h.full_of_origin ho) hapart).shadow ho
    obtain rfl := Option.some.inj (hf.symm.trans hfile)
    obtain ⟨-, htidy, -, -, hread⟩ := h.sound.file_read hg
    have hrooted : Path.Rooted g.path.text.toList := rooted_outcome hclosed hroot hqueue hg
    show Path.Rooted (g.path.beside ".typecheck.ts").text.toList
    exact Path.rooted_beside hrooted (hclosed.components_ne htidy hread) (by decide) (by decide)

end Program

end Recompile
