import Recompile.Ledger.BuildInfo
import Recompile.Proofs.Data.OrdMap
import Recompile.Proofs.Digest.Bytes
import Recompile.Proofs.Json.RoundTrip

/-!
The written form of a ledger is read back as it was written.
-/

namespace Recompile

namespace Json

theorem mapM_map {α β γ : Type} {f : α → β} {g : β → Option γ} {k : α → γ} (items : List α)
    (h : ∀ a ∈ items, g (f a) = some (k a)) : (items.map f).mapM g = some (items.map k) := by
  induction items with
  | nil => rfl
  | cons a rest ih =>
    have hrest := ih fun b hb => h b (List.mem_cons_of_mem _ hb)
    simp [h a List.mem_cons_self, hrest]

theorem read_texts (items : List String) : Read.list Read.text (texts items) = some items := by
  have h := mapM_map (f := text) (g := Read.text) (k := id) items fun _ _ => rfl
  rwa [List.map_id] at h

theorem readBack_list {α : Type} {f : α → Json} {items : List α} (h : ∀ a ∈ items, ReadBack (f a)) :
    ReadBack (list f items) := by
  refine readBack_array fun v hv => ?_
  obtain ⟨a, ha, rfl⟩ := List.mem_map.mp hv
  exact h a ha

theorem readBack_texts (items : List String) : ReadBack (texts items) :=
  readBack_list fun s _ => readBack_text s

theorem all_isAsciiDigit_toString (n : Nat) : (toString n).toList.all Text.isAsciiDigit = true := by
  rw [Nat.toString_eq_repr, Nat.toList_repr, List.all_eq_true]
  intro c hc
  exact Nat.isDigit_of_mem_toDigits (by decide) (by decide) hc

theorem digitsValue_toString (n : Nat) : Read.digitsValue (toString n).toList = n := by
  have hstep : (fun (acc : Nat) (c : Char) => acc * 10 + (c.toNat - 48)) =
      fun acc c => 10 * acc + (c.toNat - '0'.toNat) := by
    funext acc c
    rw [Nat.mul_comm]
    rfl
  rw [Nat.toString_eq_repr, Nat.toList_repr, Read.digitsValue, hstep]
  exact Nat.ofDigitChars_toDigits (by decide) (by decide)

theorem natBelow_nat {bound n : Nat} (h : n < bound) : Read.natBelow bound (nat n) = some n := by
  have hdigits : (toString n).toList.all Text.isAsciiDigit = true ∧
      Read.digitsValue (toString n).toList < bound :=
    ⟨all_isAsciiDigit_toString n, by rwa [digitsValue_toString]⟩
  refine (if_pos hdigits).trans ?_
  rw [digitsValue_toString]

theorem toDigits_head {n : Nat} (h : n ≠ 0) : (Nat.toDigits 10 n).head? ≠ some '0' := by
  induction n using Nat.strongRecOn with
  | ind n ih =>
    rw [Nat.toDigits_eq_if (by decide)]
    split
    · rw [List.head?_cons, Ne, Option.some.injEq]
      exact mt Nat.digitChar_eq_zero.mp h
    · rename_i hge
      have hfront := ih (n / 10) (by omega) (by omega)
      cases hds : Nat.toDigits 10 (n / 10) with
      | nil => exact absurd hds Nat.toDigits_ne_nil
      | cons d ds => rwa [hds] at hfront

theorem isNatural_toString (n : Nat) : IsNatural (toString n) := by
  by_cases hzero : n = 0
  · subst hzero
    exact .inl rfl
  · have hhead := toDigits_head hzero
    have hall := all_isAsciiDigit_toString n
    rw [Nat.toString_eq_repr, Nat.toList_repr] at hall
    cases hds : Nat.toDigits 10 n with
    | nil => exact absurd hds Nat.toDigits_ne_nil
    | cons d ds =>
      rw [hds] at hhead hall
      refine .inr ⟨d, ds, ?_, by simpa using hhead, hall⟩
      rw [Nat.toString_eq_repr, Nat.toList_repr, hds]

end Json

open Json

theorem Digest.ofJson?_toJson (d : Digest) : Digest.ofJson? d.toJson = some d := by
  have hbytes : Read.list (Read.natBelow 256) d.toJson = some (d.toBytes.map UInt8.toNat) :=
    mapM_map d.toBytes fun b _ => natBelow_nat b.toNat_lt
  have hback : (d.toBytes.map UInt8.toNat).map UInt8.ofNat = d.toBytes := by
    simp [List.map_map, Function.comp_def]
  unfold Digest.ofJson?
  rw [hbytes]
  show Digest.ofBytes? ((d.toBytes.map UInt8.toNat).map UInt8.ofNat) = some d
  rw [hback, Digest.ofBytes?_toBytes]

theorem Digest.readBack_toJson (d : Digest) : ReadBack d.toJson :=
  readBack_list fun b _ => readBack_number (isNatural_toString b.toNat)

namespace SavedFile

theorem ofJson?_toJson (f : SavedFile) : ofJson? f.toJson = some f := by
  obtain ⟨version, signature, dependencies, fingerprint⟩ := f
  cases fingerprint with
  | none =>
    have hfields : fieldValues [required "version", required "signature",
        defaulted "dependencies" (.array []), defaulted "emitFingerprint" .null]
        (toJson ⟨version, signature, dependencies, none⟩) =
          some [version.toJson, signature.toJson, texts dependencies, .null] := by
      simp [toJson, Json.present, record, fieldValues, fieldValue, required, defaulted]
    unfold ofJson?
    rw [hfields]
    simp only [Option.bind_eq_bind, Option.bind_some, Digest.ofJson?_toJson, read_texts]
    rfl
  | some d =>
    have hfields : fieldValues [required "version", required "signature",
        defaulted "dependencies" (.array []), defaulted "emitFingerprint" .null]
        (toJson ⟨version, signature, dependencies, some d⟩) =
          some [version.toJson, signature.toJson, texts dependencies, d.toJson] := by
      simp [toJson, Json.present, record, fieldValues, fieldValue, required, defaulted]
    have hfingerprint : Read.option Digest.ofJson? d.toJson = some (some d) := by
      show (Digest.ofJson? d.toJson).map some = _
      rw [Digest.ofJson?_toJson]
      rfl
    unfold ofJson?
    rw [hfields]
    simp only [Option.bind_eq_bind, Option.bind_some, Digest.ofJson?_toJson, read_texts,
      hfingerprint]
    rfl

theorem readBack_toJson (f : SavedFile) : ReadBack f.toJson := by
  refine readBack_record fun e he => ?_
  rcases List.mem_append.mp he with he | he
  · simp only [List.mem_cons, List.not_mem_nil, or_false] at he
    rcases he with rfl | rfl | rfl
    · exact Digest.readBack_toJson _
    · exact Digest.readBack_toJson _
    · exact readBack_texts _
  · cases hf : f.fingerprint with
    | none => simp [hf, Json.present] at he
    | some d =>
      simp only [hf, Json.present, List.mem_singleton] at he
      subst he
      exact Digest.readBack_toJson d

end SavedFile

namespace BuildInfo

theorem read_files {files : OrdMap String SavedFile} (h : files.Sorted) :
    Read.dict SavedFile.ofJson? (record (files.entries.map fun e => (e.1, e.2.toJson))) =
      some files := by
  unfold Read.dict record
  dsimp only
  rw [List.map_map, mapM_map (k := id) files.entries fun e _ => by simp [SavedFile.ofJson?_toJson],
    List.map_id]
  show some (OrdMap.ofList files.entries) = some files
  rw [h.ofList_entries]

theorem ofJson?_toJson {i : BuildInfo} (hformat : i.format = currentFormat) (hfiles : i.files.Sorted) :
    ofJson? i.toJson = some i := by
  have hfields : fieldValues [required "format", required "optionsHash", required "files",
      defaulted "pendingEmit" (.array [])] i.toJson =
        some [nat i.format, i.options.toJson,
          record (i.files.entries.map fun e => (e.1, e.2.toJson)), texts i.pending] := by
    simp [toJson, record, fieldValues, fieldValue, required, defaulted]
  have hread : readU32 (nat i.format) = some i.format := by
    rw [hformat]
    decide
  unfold ofJson?
  rw [hfields]
  simp only [Option.bind_eq_bind, Option.bind_some, Digest.ofJson?_toJson, read_texts, hread,
    read_files hfiles]
  rfl

theorem readBack_toJson (i : BuildInfo) : ReadBack i.toJson := by
  refine readBack_record fun e he => ?_
  simp only [List.mem_cons, List.not_mem_nil, or_false] at he
  rcases he with rfl | rfl | rfl | rfl
  · exact readBack_number (isNatural_toString i.format)
  · exact Digest.readBack_toJson _
  · refine readBack_record fun f hf => ?_
    obtain ⟨g, -, rfl⟩ := List.mem_map.mp hf
    exact SavedFile.readBack_toJson g.2
  · exact readBack_texts _

/-- What is written is read back. -/
theorem parse?_render {i : BuildInfo} (hformat : i.format = currentFormat) (hfiles : i.files.Sorted) :
    parse? i.render = some i := by
  unfold parse? render
  rw [parse?_pretty (readBack_toJson i)]
  exact ofJson?_toJson hformat hfiles

end BuildInfo

end Recompile
