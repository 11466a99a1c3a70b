import Recompile.Emit.Stylesheets
import Recompile.Proofs.Data.OrdMap

/-!
Processed stylesheets: whatever is kept from before, an entry is what its sheet gives when it is
processed anew, as long as digests tell texts apart.
-/

namespace Recompile

namespace StyleKey

theorem code_injective {a b : StyleKey} (h : a.code = b.code) : a = b := by
  cases a <;> cases b <;> simp_all [code]

instance : Std.TransOrd StyleKey := inferInstanceAs (Std.TransCmp (compareOn code))

instance : Std.LawfulEqOrd StyleKey where
  compare_self := Std.ReflOrd.compare_self
  eq_of_compare h := code_injective (@Std.LawfulEqOrd.eq_of_compare (List Nat) _ _ _ _ h)

end StyleKey

namespace Sheet

def text : Sheet → String
  | file style => style.text
  | inline _ _ _ text => text

theorem version_eq (sheet : Sheet) : sheet.version = Digest.ofText sheet.text := by
  cases sheet <;> rfl

def processed (styles : StyleProcessor) : Sheet → Resource
  | file style =>
      if SourceKind.ofPath style.path = .style then
        let o := styles.file style.path style.text
        ⟨some (o.contents.getD style.text), o.messages, o.outputs⟩
      else ⟨some style.text, Collected.empty, []⟩
  | inline script _ order text =>
      let o := styles.inline text script.path order
      ⟨o.contents, o.messages, o.outputs⟩

def IsRead {σ : Type} [FileSystem σ] (h : Host) (fs : σ) : Sheet → Prop
  | file style => h.read fs style.path = .ok (some style.text)
  | inline .. => True

theorem process_eq {σ : Type} [FileSystem σ] {h : Host} {fs : σ} {sheet : Sheet}
    (hread : sheet.IsRead h fs) : sheet.process h fs = .ok (sheet.processed h.styles) := by
  cases sheet with
  | file style =>
    have hr : h.read fs style.path = .ok (some style.text) := hread
    unfold process Host.resource processed
    simp only [hr]
    split <;> rfl
  | inline script component order text => rfl

end Sheet

namespace Stylesheets

variable {σ : Type} [FileSystem σ] {h : Host} {fs : σ} {old : Stylesheets}

/-- Where an entry comes from: it is kept, or its sheet has been processed. -/
def Source (h : Host) (fs : σ) (old : Stylesheets) (sheet : Sheet) (e : ProcessedSheet) : Prop :=
  old.kept? sheet = some e ∨
    ∃ resource, sheet.process h fs = .ok resource ∧ e = ⟨sheet.version, resource⟩

/-- What the entries are once sheets have been taken in. -/
structure Taken (h : Host) (fs : σ) (old : Stylesheets) (new entries : OrdMap StyleKey ProcessedSheet)
    (sheets : List Sheet) : Prop where
  keep : ∀ {key e}, new.get? key = some e → entries.get? key = some e
  source : ∀ {key e}, entries.get? key = some e → new.get? key = some e ∨
    ∃ sheet ∈ sheets, sheet.key = key ∧ Source h fs old sheet e
  all : ∀ sheet ∈ sheets, ∃ e, entries.get? sheet.key = some e

namespace Taken

variable {new entries : OrdMap StyleKey ProcessedSheet} {sheet : Sheet} {rest : List Sheet}

theorem skip (ht : Taken h fs old new entries rest) (hknown : new.contains sheet.key = true) :
    Taken h fs old new entries (sheet :: rest) where
  keep := ht.keep
  source he := by
    rcases ht.source he with hold | ⟨s, hs, hkey, hsrc⟩
    · exact .inl hold
    · exact .inr ⟨s, List.mem_cons_of_mem _ hs, hkey, hsrc⟩
  all s hs := by
    rcases List.mem_cons.mp hs with rfl | hs
    · obtain ⟨e, he⟩ := OrdMap.contains_iff.mp hknown
      exact ⟨e, ht.keep he⟩
    · exact ht.all s hs

theorem insert {e : ProcessedSheet} (ht : Taken h fs old (new.insert sheet.key e) entries rest)
    (hnew : new.contains sheet.key = false) (hsource : Source h fs old sheet e) :
    Taken h fs old new entries (sheet :: rest) where
  keep {key e'} he' := by
    refine ht.keep ?_
    have hne : key ≠ sheet.key := by
      rintro rfl
      rw [OrdMap.contains_eq_isSome, he'] at hnew
      cases hnew
    rw [OrdMap.get?_insert_of_ne hne, he']
  source {key e'} he' := by
    rcases ht.source he' with hold | ⟨s, hs, hkey, hsrc⟩
    · by_cases hkey : key = sheet.key
      · subst hkey
        rw [OrdMap.get?_insert_self] at hold
        cases hold
        exact .inr ⟨sheet, List.mem_cons_self, rfl, hsource⟩
      · rw [OrdMap.get?_insert_of_ne hkey] at hold
        exact .inl hold
    · exact .inr ⟨s, List.mem_cons_of_mem _ hs, hkey, hsrc⟩
  all s hs := by
    rcases List.mem_cons.mp hs with rfl | hs
    · exact ⟨e, ht.keep (OrdMap.get?_insert_self _ _ _)⟩
    · exact ht.all s hs

end Taken

theorem takeAll_ok (sheets : List Sheet) : ∀ {new entries : OrdMap StyleKey ProcessedSheet}
    {count n : Nat}, takeAll h fs old new count sheets = .ok (entries, n) →
      Taken h fs old new entries sheets := by
  induction sheets with
  | nil =>
    intro new entries count n heq
    cases heq
    exact ⟨fun he => he, fun he => .inl he, by simp⟩
  | cons sheet rest ih =>
    intro new entries count n heq
    unfold takeAll at heq
    split at heq
    · rename_i hknown
      exact (ih heq).skip hknown
    · rename_i hnew
      have hnew : new.contains sheet.key = false := by simpa using hnew
      split at heq
      · rename_i e hkept
        exact (ih heq).insert hnew (.inl hkept)
      · split at heq
        · cases heq
        · rename_i resource hprocess
          exact (ih heq).insert hnew (.inr ⟨resource, hprocess, rfl⟩)

/-- Digests tell the texts of all stylesheets of some programs apart. -/
def Told (ps : List Program) : Prop :=
  ∀ p ∈ ps, ∀ q ∈ ps, ∀ a ∈ p.sheets, ∀ b ∈ q.sheets, a.version = b.version → a.text = b.text

def Pure (styles : StyleProcessor) (p : Program) (s : Stylesheets) : Prop :=
  (∀ {key e}, s.entries.get? key = some e →
    ∃ sheet ∈ p.sheets, sheet.key = key ∧ e = ⟨sheet.version, sheet.processed styles⟩) ∧
  ∀ sheet ∈ p.sheets, s.entries.get? sheet.key = some ⟨sheet.version, sheet.processed styles⟩

theorem pure_refresh {new : Stylesheets} {p : Program} {n : Nat}
    (hread : ∀ sheet ∈ p.sheets, sheet.IsRead h fs)
    (hkeys : ∀ a ∈ p.sheets, ∀ b ∈ p.sheets, a.key = b.key → a = b)
    (hold : ∀ sheet ∈ p.sheets, ∀ e, old.entries.get? sheet.key = some e →
      e.version = sheet.version → e.resource = sheet.processed h.styles)
    (hrefresh : old.refresh p h fs = .ok (new, n)) : Pure h.styles p new := by
  unfold refresh at hrefresh
  cases htake : takeAll h fs old OrdMap.empty 0 p.sheets with
  | error err => simp [htake] at hrefresh
  | ok result =>
    obtain ⟨entries, count⟩ := result
    simp only [htake, Except.ok.injEq, Prod.mk.injEq] at hrefresh
    obtain ⟨rfl, -⟩ := hrefresh
    obtain ⟨-, hfrom, hall⟩ := takeAll_ok p.sheets htake
    have hsource : ∀ {sheet e}, sheet ∈ p.sheets → Source h fs old sheet e →
        e = ⟨sheet.version, sheet.processed h.styles⟩ := by
      rintro sheet e hs (hkept | ⟨resource, hprocess, rfl⟩)
      · unfold kept? at hkept
        cases he : old.entries.get? sheet.key with
        | none => simp [he] at hkept
        | some e' =>
          simp only [he] at hkept
          split at hkept
          · rename_i hversion
            cases hkept
            have hres := hold sheet hs e he hversion
            cases e
            simp only at hversion hres
            rw [hversion, hres]
          · cases hkept
      · rw [Sheet.process_eq (hread sheet hs)] at hprocess
        cases hprocess
        rfl
    have hentry : ∀ {key e}, entries.get? key = some e → ∃ sheet ∈ p.sheets, sheet.key = key ∧
        e = ⟨sheet.version, sheet.processed h.styles⟩ := by
      intro key e he
      rcases hfrom he with hnone | ⟨sheet, hs, hkey, hsrc⟩
      · cases hnone
      · exact ⟨sheet, hs, hkey, hsource hs hsrc⟩
    refine ⟨hentry, fun sheet hs => ?_⟩
    obtain ⟨e, he⟩ := hall sheet hs
    obtain ⟨other, ho, hkey, rfl⟩ := hentry he
    rw [he, hkeys other ho sheet hs hkey]

end Stylesheets

end Recompile
