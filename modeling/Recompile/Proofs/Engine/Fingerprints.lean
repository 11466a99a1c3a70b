import Mathlib
import Recompile.Proofs.Digest.Frames
import Recompile.Proofs.Engine.Coverage
import Recompile.Proofs.Engine.Known
import Recompile.Proofs.Program.Spans

/-!
Fingerprints tell when an output can be left as it is. They are digests of streams, and two streams of
one engine are the same only when their parts are; the parts determine all that an output is made from.
-/

namespace Recompile

namespace Emit

open Digest

variable {p p' : Program}

theorem size_resource (p : Program) (ref : ResourceRef) :
    ∃ part, resourceParts p ref = [ref.path.toSlash.toUTF8, part] ∧ part.size < 2 ^ 64 := by
  refine ⟨_, rfl, ?_⟩
  split
  · rw [size_toData]
    decide
  · decide

theorem resources_eq_of_frame {refs : List ResourceRef} : ∀ {refs' : List ResourceRef},
    refs.map ResourceRef.path = refs'.map ResourceRef.path →
      frameBytes (refs.flatMap (resourceParts p)) = frameBytes (refs'.flatMap (resourceParts p')) →
        refs.flatMap (resourceParts p) = refs'.flatMap (resourceParts p') := by
  induction refs with
  | nil =>
    intro refs' hpaths _
    rw [List.map_nil] at hpaths
    rw [List.map_eq_nil_iff.mp hpaths.symm]
    rfl
  | cons ref refs ih =>
    intro refs' hpaths hframe
    cases refs' with
    | nil => cases hpaths
    | cons ref' refs' =>
      rw [List.map_cons, List.map_cons, List.cons.injEq] at hpaths
      obtain ⟨part, hparts, hsize⟩ := size_resource p ref
      obtain ⟨part', hparts', hsize'⟩ := size_resource p' ref'
      simp only [List.flatMap_cons, hparts, hparts', ← hpaths.1, List.cons_append, List.nil_append] at hframe ⊢
      -- the path may be of any length, but it is the same in both streams
      obtain ⟨-, hfile⟩ := frameBytes_cons_inj hframe (.inl rfl)
      obtain ⟨hpart, hrest⟩ := frameBytes_cons_inj hfile (.inr ⟨hsize, hsize'⟩)
      rw [hpart, ih hpaths.2 hrest]

end Emit

namespace Program.Built

open BuildState Emit Digest

variable {σ : Type} [FileSystem σ] {c c' : BuildContext σ} {s s' : BuildState} {p p' : Program}
variable {r r' known : Registry}

theorem parts_eq_of_frame (h : Built c s p r) (h' : Built c' s' p' r') (hw : s.registry.Within known)
    (hw' : s'.registry.Within known)
    (htexts : ∀ f ∈ p.members, ∀ g ∈ p'.members, f.version = g.version → f.text = g.text)
    {id : FileId} {options options' : Digest} (hscript : (scriptOf? p id).isSome = true)
    (hscript' : (scriptOf? p' id).isSome = true)
    (hframe : (fingerprintParts? p id options).map frame = (fingerprintParts? p' id options').map frame) :
    fingerprintParts? p id options = fingerprintParts? p' id options' := by
  obtain ⟨⟨f, m⟩, hs⟩ := Option.isSome_iff_exists.mp hscript
  obtain ⟨⟨f', m'⟩, hs'⟩ := Option.isSome_iff_exists.mp hscript'
  obtain ⟨hf, hm, hkind⟩ := scriptOf?_eq_some.mp hs
  obtain ⟨hf', hm', hkind'⟩ := scriptOf?_eq_some.mp hs'
  unfold fingerprintParts? at hframe ⊢
  simp only [hf, hm, hf', hm', Option.map_some, List.cons_append, List.nil_append,
    Option.some.injEq] at hframe ⊢
  have hsize : ∀ d d' : Digest, d.toData.size = d'.toData.size := fun d d' => by
    rw [size_toData, size_toData]
  obtain ⟨hversion, hrest⟩ := frameBytes_cons_inj (frameBytes_eq_of_frame hframe) (.inl (hsize _ _))
  obtain ⟨hoptions, hrest⟩ := frameBytes_cons_inj hrest (.inl (hsize _ _))
  have hread := h.read_of_script hf hkind
  have hread' := h'.read_of_script hf' hkind'
  obtain rfl : f = f' := by
    refine h.read_eq h' hw hw' hread hread' (htexts f ?_ f' ?_ (toData_injective hversion))
    · rw [h.mem_members, h.id_eq hf]
      exact hf
    · rw [h'.mem_members, h'.id_eq hf']
      exact hf'
  have hlabels : m.resources.map ResourceRef.label = m'.resources.map ResourceRef.label := by
    rw [h.labels_module hread hm, h'.labels_module hread' hm', refsOf_labels c c']
  have hpaths : m.resources.map ResourceRef.path = m'.resources.map ResourceRef.path := by
    simpa [Function.comp_def, ResourceRef.label] using congrArg (List.map fun label => label.2.2) hlabels
  rw [hoptions, resources_eq_of_frame hpaths hrest]

end Program.Built

open Digest

/-- The values that a snapshot has digests of: the texts of its files and stylesheets, and the streams
that fingerprints are made from. -/
def Snapshot.hashed (s : Snapshot) : List ByteArray :=
  s.program.members.map (fun f => f.text.toUTF8) ++ s.program.sheets.map (fun sheet => sheet.text.toUTF8) ++
    s.program.members.filterMap fun f =>
      (Emit.fingerprintParts? s.program f.id s.optionsDigest).map frame

namespace Engine

/-- No two values that are hashed collide. -/
def CollisionFree (taken : List Snapshot) : Prop :=
  ∀ s ∈ taken, ∀ t ∈ taken, ∀ a ∈ s.hashed, ∀ b ∈ t.hashed, ofData a = ofData b → a = b

variable {taken : List Snapshot} {s t : Snapshot}

theorem CollisionFree.texts (h : CollisionFree taken) (hs : s ∈ taken) (ht : t ∈ taken) :
    ∀ f ∈ s.program.members, ∀ g ∈ t.program.members, f.version = g.version → f.text = g.text := by
  intro f hf g hg hversion
  refine String.toByteArray_inj.mp (h s hs t ht _ ?_ _ ?_ hversion)
  · exact List.mem_append_left _ (List.mem_append_left _ (List.mem_map.mpr ⟨f, hf, rfl⟩))
  · exact List.mem_append_left _ (List.mem_append_left _ (List.mem_map.mpr ⟨g, hg, rfl⟩))

theorem CollisionFree.told (h : CollisionFree taken) : Stylesheets.Told (taken.map (·.program)) := by
  intro p hp q hq a ha b hb hversion
  obtain ⟨s, hs, rfl⟩ := List.mem_map.mp hp
  obtain ⟨t, ht, rfl⟩ := List.mem_map.mp hq
  rw [a.version_eq, b.version_eq] at hversion
  refine String.toByteArray_inj.mp (h s hs t ht _ ?_ _ ?_ hversion)
  · exact List.mem_append_left _ (List.mem_append_right _ (List.mem_map.mpr ⟨a, ha, rfl⟩))
  · exact List.mem_append_left _ (List.mem_append_right _ (List.mem_map.mpr ⟨b, hb, rfl⟩))

theorem mem_hashed_frame {f : SourceFile} {parts : List ByteArray} (hf : f ∈ s.program.members)
    (hparts : Emit.fingerprintParts? s.program f.id s.optionsDigest = some parts) :
    frame parts ∈ s.hashed := by
  refine List.mem_append_right _ (List.mem_filterMap.mpr ⟨f, hf, ?_⟩)
  rw [hparts]
  rfl

theorem CollisionFree.frames (h : CollisionFree taken) (hs : s ∈ taken) (ht : t ∈ taken) {f g : SourceFile}
    (hf : f ∈ s.program.members) (hg : g ∈ t.program.members) {id : FileId} (hfid : f.id = id)
    (hgid : g.id = id) (heq : s.fingerprint? id = t.fingerprint? id) :
    (Emit.fingerprintParts? s.program id s.optionsDigest).map frame =
      (Emit.fingerprintParts? t.program id t.optionsDigest).map frame := by
  rw [Snapshot.fingerprint?, Snapshot.fingerprint?, Emit.fingerprint?_eq, Emit.fingerprint?_eq] at heq
  cases hparts : Emit.fingerprintParts? s.program id s.optionsDigest with
  | none =>
    rw [hparts] at heq
    rw [Option.map_eq_none_iff.mp heq.symm]
  | some parts =>
    rw [hparts] at heq
    obtain ⟨parts', hparts', hsame⟩ := Option.map_eq_some_iff.mp heq.symm
    rw [hparts', Option.map_some, Option.map_some, Option.some.injEq]
    subst hfid
    rw [← hgid] at hparts'
    exact h s hs t ht _ (mem_hashed_frame hf hparts) _ (mem_hashed_frame hg hparts') hsame.symm

variable {σ : Type} [FileSystem σ]

/-- A fingerprint is a sound reason to leave an output as it is. Where two snapshots of an engine give a
script the same fingerprint, they give it an output, and the same one. -/
theorem fingerprint_sound {styles : StyleProcessor} (calls : List (Call σ))
    (hstyles : ∀ fs configPath host change, Call.start fs configPath host change ∈ calls →
      host.styles = styles)
    (hapart : ∀ t ∈ snapshots (create .aot) calls, t.program.ShadowsApart)
    (hfree : CollisionFree (snapshots (create .aot) calls)) {s t : Snapshot}
    (hs : s ∈ snapshots (create .aot) calls) (ht : t ∈ snapshots (create .aot) calls) {id : FileId}
    (hscript : s.program.isScript id = true) (hscript' : t.program.isScript id = true)
    (heq : s.fingerprint? id = t.fingerprint? id) :
    ∃ r, Emit.inlined s.program s.styles id = .ok (some r) ∧
      Emit.inlined t.program t.styles id = .ok (some r) := by
  have hhistory := history_run (P := fun (_ : σ) host => host.styles = styles) .aot calls hstyles
  have hpure := pure_snapshots calls hstyles hapart hfree.told
  obtain ⟨c, b, reg, hbuilt, hreg, -⟩ := hhistory.known s hs
  obtain ⟨c', b', reg', hbuilt', hreg', -⟩ := hhistory.known t ht
  have hw := hbuilt.shadows.within.trans hreg
  have hw' := hbuilt'.shadows.within.trans hreg'
  obtain ⟨f, hf, hkind⟩ := Program.isScript_iff.mp hscript
  obtain ⟨f', hf', hkind'⟩ := Program.isScript_iff.mp hscript'
  have hsome : (Emit.scriptOf? s.program id).isSome = true := by
    rw [hbuilt.scriptOf?_of_script hf hkind]
    rfl
  have hsome' : (Emit.scriptOf? t.program id).isSome = true := by
    rw [hbuilt'.scriptOf?_of_script hf' hkind']
    rfl
  have hframe := hfree.frames hs ht (hbuilt.mem_members.mpr (by rwa [hbuilt.id_eq hf]))
    (hbuilt'.mem_members.mpr (by rwa [hbuilt'.id_eq hf'])) (hbuilt.id_eq hf) (hbuilt'.id_eq hf') heq
  have hparts := hbuilt.parts_eq_of_frame hbuilt' hw hw' (hfree.texts hs ht) hsome hsome' hframe
  obtain ⟨made, hmade⟩ := Emit.inlined_ok s.styles hbuilt.placed
  obtain ⟨r, rfl⟩ := Emit.inlined_made hsome hmade
  refine ⟨r, hmade, ?_⟩
  rw [← hmade]
  exact (hbuilt.inlined_eq hbuilt' (hapart s hs) (hapart t ht) hw hw' (hfree.texts hs ht) (hpure s hs)
    (hpure t ht) hsome hsome' hparts).symm

theorem collisionFree_of_nodup {taken : List Snapshot}
    (h : ((taken.flatMap Snapshot.hashed).dedup.map ofData).Nodup) : CollisionFree taken := by
  intro s hs t ht a ha b hb
  refine List.inj_on_of_nodup_map h ?_ ?_
  · exact List.mem_dedup.mpr (List.mem_flatMap.mpr ⟨s, hs, ha⟩)
  · exact List.mem_dedup.mpr (List.mem_flatMap.mpr ⟨t, ht, hb⟩)

set_option maxRecDepth 100000

def besideStyled (text : String) : Volume :=
  .ofTexts [(⟨"/k"⟩, "files=['a.ts','b.ts']"),
    (⟨"/a.ts"⟩, "@Component(\x7bstyleUrls:['b'],styles:['']\x7d)class A"), (⟨"/b.ts"⟩, text)]

def editedBeside : List (Call Volume) := [Call.startAt (besideStyled ""), Call.startAt (besideStyled ";")]

theorem snapshots_editedBeside :
    (snapshots (create .aot) editedBeside).map (fun s =>
      (s.program.origins.keys, s.program.isScript 0, s.program.members.map (·.text.length))) =
        [([], true, [48, 0]), ([], true, [48, 1])] ∧
    ((snapshots (create .aot) editedBeside).map (·.fingerprint? 0)).Pairwise (· = ·) ∧
    (((snapshots (create .aot) editedBeside).flatMap Snapshot.hashed).dedup.map ofData).Nodup := by
  have hplain : ∀ text ∈ ["", ";"], Plain (besideStyled text) false [⟨"/a.ts"⟩, ⟨"/b.ts"⟩] := by
    decide +kernel
  have hempty := hplain "" (by simp)
  have hmark := hplain ";" (by simp)
  rw [editedBeside, Call.startAt, Call.startAt, hempty.snapshots_cons, hmark.snapshots_cons,
    snapshots_nil]
  decide +kernel

theorem fingerprint_sound_editedBeside : ∃ s t r, snapshots (create .aot) editedBeside = [s, t] ∧
    s.program ≠ t.program ∧ Emit.inlined s.program s.styles 0 = .ok (some r) ∧
      Emit.inlined t.program t.styles 0 = .ok (some r) := by
  obtain ⟨hsnapshots, hsame, hnodup⟩ := snapshots_editedBeside
  have hstyles : ∀ fs configPath host change, Call.start fs configPath host change ∈ editedBeside →
      host.styles = .passthrough := by
    intro fs configPath host change hcall
    rcases List.mem_cons.mp hcall with hcall | hcall
    · cases hcall
      rfl
    · cases List.mem_singleton.mp hcall
      rfl
  obtain ⟨s, rest, htaken, hs, hrest⟩ := List.map_eq_cons_iff.mp hsnapshots
  obtain ⟨t, rfl, ht⟩ := List.map_eq_singleton_iff.mp hrest
  simp only [Prod.mk.injEq] at hs ht
  have hapart : ∀ u ∈ snapshots (create .aot) editedBeside, u.program.ShadowsApart := by
    rw [htaken]
    intro u hu id hid
    rcases List.mem_cons.mp hu with rfl | hu
    · rw [hs.1] at hid
      cases hid
    · rw [List.mem_singleton.mp hu, ht.1] at hid
      cases hid
  have heq : s.fingerprint? 0 = t.fingerprint? 0 := by
    rw [htaken] at hsame
    exact List.rel_of_pairwise_cons hsame List.mem_cons_self
  obtain ⟨r, hr, hr'⟩ := fingerprint_sound editedBeside hstyles hapart (collisionFree_of_nodup hnodup)
    (by rw [htaken]; simp) (by rw [htaken]; simp) hs.2.1 ht.2.1 heq
  refine ⟨s, t, r, htaken, fun hprogram => ?_, hr, hr'⟩
  rw [hprogram, ht.2.2] at hs
  simp at hs

end Engine

end Recompile
