import Recompile.Host.Session
import Recompile.Proofs.Program.Replayed

/-!
Stylesheets kept over a series of builds. An entry is moved from the old stylesheets to the new ones, or
made from what its sheet reports to a session that all sheets share; either way the stylesheets are
those that processing every sheet anew gives.
-/

namespace Recompile

namespace Sheet

variable {σ : Type} [FileSystem σ]

def isInline : Sheet → Bool
  | file _ => false
  | inline .. => true

def present (s : HostSession) (fs : σ) : Sheet → Except HostError (Option String) × HostSession
  | file style => s.readResource fs style.path
  | inline script _ order text =>
      let (contents, s) := s.transform .style text script.path none order
      (.ok contents, s)

/-- Processes a sheet in a session, and takes out all that is kept there. -/
def collect (s : HostSession) (fs : σ) (sheet : Sheet) : Except HostError ProcessedSheet × HostSession :=
  match sheet.present s fs with
  | (.error e, s) => (.error e, s)
  | (.ok contents, s) =>
      let (messages, s) := s.takeMessages
      let (outputs, s) := s.takeOutputs
      (.ok ⟨sheet.version, contents, messages, outputs⟩, s)

end Sheet

namespace Stylesheets

variable {σ : Type} [FileSystem σ] {h : Host} {fs : σ} {old : Stylesheets}

/-- Takes sheets in, moving out of the old entries those that can be kept. Just for a sheet with a file
of its own it matters whether it has been taken in before. -/
def moveAll (fs : σ) (s : HostSession) (old new : OrdMap StyleKey ProcessedSheet) (count : Nat) :
    List Sheet → Except HostError (OrdMap StyleKey ProcessedSheet × Nat) × HostSession
  | [] => (.ok (new, count), s)
  | sheet :: rest =>
      if !sheet.isInline && new.contains sheet.key then moveAll fs s old new count rest
      else match (old.get? sheet.key).filter fun e => e.version = sheet.version with
        | some e => moveAll fs s (old.erase sheet.key) (new.insert sheet.key e) count rest
        | none =>
            match sheet.collect s fs with
            | (.error e, s) => (.error e, s)
            | (.ok e, s) => moveAll fs s (old.erase sheet.key) (new.insert sheet.key e) (count + 1) rest

def moved (old : Stylesheets) (p : Program) (s : HostSession) (fs : σ) :
    Except HostError (Stylesheets × Nat) × HostSession :=
  match moveAll fs s old.entries OrdMap.empty 0 p.sheets with
  | (.error e, s) => (.error e, s)
  | (.ok (entries, count), s) => (.ok (⟨entries⟩, count), s)

theorem Pure.get?_iff {styles : StyleProcessor} {p : Program} {s : Stylesheets} (hs : s.Pure styles p)
    {key : StyleKey} {e : ProcessedSheet} : s.entries.get? key = some e ↔
      ∃ sheet ∈ p.sheets, sheet.key = key ∧ e = ⟨sheet.version, sheet.processed styles⟩ := by
  constructor
  · exact hs.1
  · rintro ⟨sheet, hsheet, rfl, rfl⟩
    exact hs.2 sheet hsheet

theorem Pure.unique {styles : StyleProcessor} {p : Program} {s t : Stylesheets} (hs : s.Pure styles p)
    (ht : t.Pure styles p) (hsorted : s.entries.Sorted) (hsorted' : t.entries.Sorted) : s = t := by
  have hentries : s.entries = t.entries := hsorted.ext hsorted' fun key =>
    Option.ext fun e => hs.get?_iff.trans ht.get?_iff.symm
  cases s
  cases t
  exact congrArg Stylesheets.mk hentries

end Stylesheets

namespace Program

end Program

structure Attempt (σ : Type) where
  options : Options
  host : Host
  fs : σ
  full : Bool
  roots : List Path

/-- Identities and stylesheets that are kept from build to build. -/
structure Upkeep where
  registry : Registry
  styles : Stylesheets

section Upkeep

variable {σ : Type} [FileSystem σ]

def Attempt.build (a : Attempt σ) (r : Registry) : Except HostError Program × Registry :=
  Program.build a.options a.host a.fs a.full r a.roots

def Attempt.context (a : Attempt σ) : BuildContext σ :=
  ⟨a.options, a.host, a.fs, a.full, OrdSet.ofList (a.roots.map Path.normalize)⟩

namespace Upkeep

open Program

/-- Builds a program, and brings the stylesheets in line with it. What fails leaves them as they were. -/
def next (u : Upkeep) (a : Attempt σ) : Upkeep :=
  match a.build u.registry with
  | (.error _, r) => ⟨r, u.styles⟩
  | (.ok p, r) =>
      match u.styles.refresh p a.host a.fs with
      | .error _ => ⟨r, u.styles⟩
      | .ok (styles, _) => ⟨r, styles⟩

def run (u : Upkeep) (attempts : List (Attempt σ)) : Upkeep := attempts.foldl next u

/-- The programs that are built. -/
def programs (u : Upkeep) : List (Attempt σ) → List Program
  | [] => []
  | a :: rest => (a.build u.registry).1.toOption.toList ++ (u.next a).programs rest

structure Kept (σ : Type) [FileSystem σ] (styles : StyleProcessor) (seen : List Program) (u : Upkeep) :
    Prop where
  distinct : u.registry.Distinct
  entries : ∀ key e, u.styles.entries.get? key = some e → ∃ (c : BuildContext σ) (s : BuildState)
    (p : Program) (r : Registry), p ∈ seen ∧ Built c s p r ∧ s.registry.Within u.registry ∧
      ∃ sheet ∈ p.sheets, sheet.key = key ∧ e = ⟨sheet.version, sheet.processed styles⟩

variable {styles : StyleProcessor} {seen : List Program} {u : Upkeep} {a : Attempt σ} {p : Program}
  {r : Registry}

theorem Kept.weaken (h : Kept σ styles seen u) {v : Upkeep} {more : List Program}
    (hdistinct : v.registry.Distinct) (hwithin : u.registry.Within v.registry) (hstyles : v.styles = u.styles) :
    Kept σ styles (seen ++ more) v where
  distinct := hdistinct
  entries key e he := by
    rw [hstyles] at he
    obtain ⟨c, s, p, r, hp, hbuilt, hw, hsheet⟩ := h.entries key e he
    exact ⟨c, s, p, r, List.mem_append_left _ hp, hbuilt, hw.trans hwithin, hsheet⟩

theorem Kept.refresh (h : Kept σ styles seen u) (hstyles : a.host.styles = styles)
    (hbuild : a.build u.registry = (.ok p, r)) (hapart : ∀ q ∈ seen ++ [p], q.ShadowsApart)
    (htell : Stylesheets.Told (seen ++ [p])) :
    Built a.context (outcome a.context u.registry (a.roots.map Path.normalize)) p r ∧
      ∃ new n, u.styles.refresh p a.host a.fs = .ok (new, n) ∧ new.Pure styles p := by
  obtain ⟨hwithin, -, hcases⟩ := build_outcome a.options a.host a.fs a.full a.roots h.distinct
  rcases hcases with ⟨e, -, herror⟩ | ⟨-, p', r', hok, hbuilt⟩
  · cases hbuild.symm.trans herror
  cases hbuild.symm.trans hok
  obtain ⟨new, n, hrefresh⟩ := hbuilt.refresh_succeeds u.styles
  refine ⟨hbuilt, new, n, hrefresh, ?_⟩
  rw [← hstyles]
  refine hbuilt.pure_refresh (hapart p (by simp)) (fun key e he => ?_) hrefresh
  obtain ⟨c', s', q, r', hq, hbuilt', hw, sheet, hsheet, hkey, heq⟩ := h.entries key e he
  refine ⟨c', s', q, r', hbuilt', hapart q (by simp [hq]), hw.trans hwithin, sheet, hsheet, hkey, ?_, ?_⟩
  · rw [heq, ← hstyles]
  · exact fun b hb => htell p (by simp) q (by simp [hq]) b hb sheet hsheet

theorem next_of_error {e : HostError} (hbuild : a.build u.registry = (.error e, r)) : u.next a = ⟨r, u.styles⟩ := by
  rw [next, hbuild]

theorem next_of_ok (hbuild : a.build u.registry = (.ok p, r)) {new : Stylesheets} {n : Nat}
    (hrefresh : u.styles.refresh p a.host a.fs = .ok (new, n)) : u.next a = ⟨r, new⟩ := by
  rw [next, hbuild]
  dsimp only
  rw [hrefresh]

theorem Kept.next (h : Kept σ styles seen u) (hstyles : a.host.styles = styles)
    (hapart : ∀ q ∈ seen ++ (a.build u.registry).1.toOption.toList, q.ShadowsApart)
    (htell : Stylesheets.Told (seen ++ (a.build u.registry).1.toOption.toList)) :
    Kept σ styles (seen ++ (a.build u.registry).1.toOption.toList) (u.next a) := by
  cases hbuild : a.build u.registry with
  | mk result r =>
    rw [hbuild] at hapart htell
    cases result with
    | error e =>
      obtain ⟨s, hwithin, hdistinct, ⟨e', heq⟩ | ⟨p, r', heq, -⟩⟩ :=
        build_cases a.options a.host a.fs a.full a.roots h.distinct
      · cases hbuild.symm.trans heq
        rw [next_of_error hbuild]
        exact h.weaken hdistinct hwithin rfl
      · cases hbuild.symm.trans heq
    | ok p =>
      obtain ⟨hbuilt, new, n, hrefresh, hpure⟩ := h.refresh hstyles hbuild hapart htell
      rw [next_of_ok hbuild hrefresh]
      refine ⟨hbuilt.shadows.distinct, fun key e he => ?_⟩
      obtain ⟨sheet, hsheet, hkey, heq⟩ := hpure.1 he
      exact ⟨_, _, p, r, by simp [Except.toOption], hbuilt, hbuilt.shadows.within, sheet, hsheet, hkey, heq⟩

theorem run_append (u : Upkeep) (attempts : List (Attempt σ)) (a : Attempt σ) :
    u.run (attempts ++ [a]) = (u.run attempts).next a :=
  List.foldl_append

set_option maxRecDepth 100000

end Upkeep

end Upkeep

end Recompile
