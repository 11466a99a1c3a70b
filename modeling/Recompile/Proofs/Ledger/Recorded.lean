import Recompile.Proofs.Ledger.Named
import Recompile.Proofs.Ledger.Renaming
import Recompile.Proofs.Path.Rooted
import Recompile.Proofs.Source.Aligned

/-!
What a written ledger says. Its names stand for identities, given by any registry that knows them, and
the ledgers that two registries read off it differ in identities only. A ledger that is written and read
again says the same.
-/

namespace Recompile

namespace OrdMap

variable {α : Type} {β : Type} {R : FileId → FileId → Prop} {S : α → β → Prop}

theorem rel_foldl_insert (hR : Relator.BiUnique R) {xs : List (FileId × α)} {ys : List (FileId × β)}
    (h : List.Forall₂ (fun a b => R a.1 b.1 ∧ S a.2 b.2) xs ys) :
    ∀ {m : OrdMap FileId α} {n : OrdMap FileId β},
      (∀ {i j}, R i j → Option.Rel S (m.get? i) (n.get? j)) → ∀ {i j}, R i j →
        Option.Rel S ((xs.foldl (fun m e => m.insert e.1 e.2) m).get? i)
          ((ys.foldl (fun n e => n.insert e.1 e.2) n).get? j) := by
  induction h with
  | nil => exact fun h => h
  | @cons a b _ _ hab _ ih =>
    intro m n hmn
    refine ih fun {i j} hij => ?_
    have hiff : i = a.1 ↔ j = b.1 :=
      ⟨fun hi => hR.2 hij (hi ▸ hab.1), fun hj => hR.1 hij (hj ▸ hab.1)⟩
    simp only [get?_insert, Std.LawfulEqOrd.compare_eq_iff_eq, hiff]
    split
    · exact .some hab.2
    · exact hmn hij

theorem rel_ofList (hR : Relator.BiUnique R) {xs : List (FileId × α)} {ys : List (FileId × β)}
    (h : List.Forall₂ (fun a b => R a.1 b.1 ∧ S a.2 b.2) xs ys) {i j : FileId} (hij : R i j) :
    Option.Rel S ((ofList xs).get? i) ((ofList ys).get? j) := by
  refine rel_foldl_insert hR h (fun _ => ?_) hij
  rw [get?_empty, get?_empty]
  exact .none

end OrdMap

namespace Ledger

theorem next_of_clean {p : Program} {l : Ledger} (h : (next p l).1.dirty = false) :
    l.dirty = false ∧ records p = l.files ∧ ∀ {id}, l.files.contains id = true →
      (next p l).1.fingerprints.get? id = l.fingerprints.get? id ∧
        (next p l).1.pending.contains id = l.pending.contains id := by
  have hdirty : (l.dirty || !(next p l).2.isEmpty || decide (records p ≠ l.files)) = false := h
  simp only [Bool.or_eq_false_iff, Bool.not_eq_false', decide_eq_false_iff_not, not_not] at hdirty
  obtain ⟨⟨hclean, hempty⟩, hfiles⟩ := hdirty
  have hfresh : ((records p).filter l.isFresh).keys = [] := by
    refine List.eq_nil_iff_forall_not_mem.mpr fun id hid => ?_
    have haffected : (next p l).2.contains id = true := OrdSet.mem_ofList.mpr (by simp [hid])
    rw [OrdMap.isEmpty, List.isEmpty_iff] at hempty
    rw [OrdMap.contains, OrdMap.entry?, hempty] at haffected
    cases haffected
  refine ⟨hclean, hfiles, fun {id} hid => ?_⟩
  rw [← hfiles] at hid
  unfold next
  dsimp only
  rw [hfresh]
  refine ⟨by rw [OrdMap.get?_filter, if_pos hid], ?_⟩
  rw [List.filter_nil]
  show (l.pending.filter fun id _ => (records p).contains id).contains id = _
  rw [OrdMap.contains_eq_isSome, OrdMap.contains_eq_isSome, OrdMap.get?_filter, if_pos hid]

end Ledger

namespace BuildInfo

def idOf (r : Registry) (base : Path) (name : String) : FileId := (r.intern (base.resolve ⟨name⟩)).1

def names (i : BuildInfo) : List String :=
  i.files.entries.flatMap (fun e => e.1 :: e.2.dependencies) ++ i.pending

def recordOf (idOf : String → FileId) (f : SavedFile) : FileRecord :=
  ⟨f.version, f.signature, OrdSet.ofList (f.dependencies.map idOf)⟩

def decode (idOf : String → FileId) (i : BuildInfo) : Ledger :=
  ⟨i.options, OrdMap.ofList (i.files.entries.map fun e => (idOf e.1, recordOf idOf e.2)),
    OrdSet.ofList (i.pending.map idOf),
    OrdMap.ofList (i.files.entries.filterMap fun e => e.2.fingerprint.map fun d => (idOf e.1, d)), false⟩

def Knows (r : Registry) (base : Path) (name : String) : Prop :=
  ∃ id, r.lookup? (base.resolve ⟨name⟩) = some id

theorem idOf_within {r s : Registry} (hw : r.Within s) {base : Path} {name : String} (h : Knows r base name) :
    idOf s base name = idOf r base name := hw.intern_fst h

theorem Knows.mono {r s : Registry} {base : Path} {name : String} (h : Knows r base name) (hw : r.Within s) :
    Knows s base name := h.imp fun _ hid => hw.lookup? hid

theorem decode_congr {f g : String → FileId} {i : BuildInfo} (h : ∀ name ∈ i.names, f name = g name) :
    i.decode f = i.decode g := by
  have hentry : ∀ e ∈ i.files.entries, f e.1 = g e.1 ∧ recordOf f e.2 = recordOf g e.2 := by
    intro e he
    have hname : ∀ name ∈ e.1 :: e.2.dependencies, f name = g name := fun name hname =>
      h name (List.mem_append_left _ (List.mem_flatMap.mpr ⟨e, he, hname⟩))
    refine ⟨hname e.1 (by simp), ?_⟩
    unfold recordOf
    rw [List.map_congr_left fun name hmem => hname name (by simp [hmem])]
  unfold decode
  congr 2
  · exact List.map_congr_left fun e he => by rw [(hentry e he).1, (hentry e he).2]
  · exact List.map_congr_left fun name hname => h name (List.mem_append_right _ hname)
  · exact List.filterMap_congr fun e he => by rw [(hentry e he).1]

variable {R : FileId → FileId → Prop}

theorem rel_eq {α : Type} {x y : Option α} (h : Option.Rel Eq x y) : x = y := by
  cases h with
  | none => rfl
  | some hab => rw [hab]

theorem same_decode {f g : String → FileId} {i : BuildInfo} (hR : Relator.BiUnique R)
    (h : ∀ name ∈ i.names, R (f name) (g name)) : Ledger.Same R (i.decode f) (i.decode g) := by
  have hentry : ∀ e ∈ i.files.entries, ∀ name ∈ e.1 :: e.2.dependencies, R (f name) (g name) :=
    fun e he name hname => h name (List.mem_append_left _ (List.mem_flatMap.mpr ⟨e, he, hname⟩))
  have hmap : ∀ {names : List String}, (∀ name ∈ names, R (f name) (g name)) →
      List.Forall₂ R (names.map f) (names.map g) := by
    intro names hnames
    rw [List.forall₂_map_left_iff, List.forall₂_map_right_iff, List.forall₂_same]
    exact hnames
  have hfiles : List.Forall₂ (fun a b => R a.1 b.1 ∧ FileRecord.Same R a.2 b.2)
      (i.files.entries.map fun e => (f e.1, recordOf f e.2))
      (i.files.entries.map fun e => (g e.1, recordOf g e.2)) := by
    rw [List.forall₂_map_left_iff, List.forall₂_map_right_iff, List.forall₂_same]
    refine fun e he => ⟨hentry e he e.1 (by simp), rfl, rfl, ?_, OrdSet.sorted_ofList _, OrdSet.sorted_ofList _⟩
    exact (Alike.of_forall₂ (hmap fun name hname => hentry e he name (by simp [hname]))).ofList
  have hfingerprints : List.Forall₂ (fun a b : FileId × Digest => R a.1 b.1 ∧ a.2 = b.2)
      (i.files.entries.filterMap fun e => e.2.fingerprint.map fun d => (f e.1, d))
      (i.files.entries.filterMap fun e => e.2.fingerprint.map fun d => (g e.1, d)) := by
    have hnames : ∀ e ∈ i.files.entries, R (f e.1) (g e.1) := fun e he => hentry e he e.1 (by simp)
    generalize i.files.entries = entries at hnames
    induction entries with
    | nil => exact .nil
    | cons e rest ih =>
      have hrest := ih fun e' he' => hnames e' (by simp [he'])
      cases hd : e.2.fingerprint with
      | none => simpa [List.filterMap_cons, hd] using hrest
      | some d => simpa [List.filterMap_cons, hd] using ⟨hnames e (by simp), hrest⟩
  refine ⟨fun hij => OrdMap.rel_ofList hR hfiles hij, ?_, ?_, ⟨OrdMap.sorted_ofList _, OrdMap.sorted_ofList _⟩,
    fun hij _ => rel_eq (OrdMap.rel_ofList hR hfingerprints hij), fun hij _ => ?_⟩
  · intro k _ hk
    obtain ⟨e, he, heq⟩ := List.mem_map.mp (OrdMap.mem_of_get?_ofList hk)
    obtain ⟨rfl, -⟩ := Prod.mk.inj heq
    exact ⟨g e.1, hentry e he e.1 (by simp)⟩
  · intro k _ hk
    obtain ⟨e, he, heq⟩ := List.mem_map.mp (OrdMap.mem_of_get?_ofList hk)
    obtain ⟨rfl, -⟩ := Prod.mk.inj heq
    exact ⟨f e.1, hentry e he e.1 (by simp)⟩
  · have hpending := Alike.of_forall₂ (hmap fun name hname => h name (List.mem_append_right _ hname))
    exact hpending.ofList.contains_iff hR hij

structure Recorded (i : BuildInfo) (base : Path) (r : Registry) (l : Ledger) : Prop where
  options : i.options = l.options
  known : ∀ name ∈ i.names, Knows r base name
  files : (i.decode (idOf r base)).files = l.files
  fingerprint : ∀ {id}, l.files.contains id = true →
    (i.decode (idOf r base)).fingerprints.get? id = l.fingerprints.get? id
  pending : ∀ {id}, l.files.contains id = true →
    (i.decode (idOf r base)).pending.contains id = l.pending.contains id

namespace Recorded

variable {i : BuildInfo} {base : Path} {r s : Registry} {l k : Ledger}

theorem mono (h : Recorded i base r l) (hw : r.Within s) : Recorded i base s l := by
  have hdecode : i.decode (idOf s base) = i.decode (idOf r base) :=
    decode_congr fun name hname => idOf_within hw (h.known name hname)
  refine ⟨h.options, fun name hname => (h.known name hname).mono hw, ?_, ?_, ?_⟩
  · rw [hdecode]
    exact h.files
  · rw [hdecode]
    exact h.fingerprint
  · rw [hdecode]
    exact h.pending

theorem congr (h : Recorded i base r l) (hoptions : k.options = l.options) (hfiles : k.files = l.files)
    (hfingerprints : ∀ {id}, l.files.contains id = true → k.fingerprints.get? id = l.fingerprints.get? id)
    (hpending : ∀ {id}, l.files.contains id = true → k.pending.contains id = l.pending.contains id) :
    Recorded i base r k where
  options := h.options.trans hoptions.symm
  known := h.known
  files := h.files.trans hfiles.symm
  fingerprint hid := by
    rw [hfiles] at hid
    rw [h.fingerprint hid, hfingerprints hid]
  pending hid := by
    rw [hfiles] at hid
    rw [h.pending hid, hpending hid]

theorem next (h : Recorded i base r l) {p : Program} (hclean : (Ledger.next p l).1.dirty = false) :
    Recorded i base r (Ledger.next p l).1 := by
  obtain ⟨-, hfiles, hkept⟩ := Ledger.next_of_clean hclean
  exact h.congr rfl hfiles (fun hid => (hkept hid).1) fun hid => (hkept hid).2

theorem same (h : Recorded i base r l) (hr : r.Distinct) (hs : s.Distinct)
    (hknown : ∀ name ∈ i.names, Knows s base name) :
    Ledger.Same (Registry.Aligned r s) l (i.decode (idOf s base)) := by
  have hdecoded : Ledger.Same (Registry.Aligned r s) (i.decode (idOf r base)) (i.decode (idOf s base)) := by
    refine same_decode (Registry.biUnique_aligned hr hs) fun name hname => ?_
    obtain ⟨a, ha⟩ := h.known name hname
    obtain ⟨b, hb⟩ := hknown name hname
    rw [idOf, idOf, Registry.intern_of_lookup? ha, Registry.intern_of_lookup? hb]
    exact Registry.aligned_of_lookup? ha hb rfl
  refine ⟨?_, ?_, hdecoded.right, ⟨h.files ▸ hdecoded.sorted.1, hdecoded.sorted.2⟩, ?_, ?_⟩
  · rw [← h.files]
    exact hdecoded.file
  · rw [← h.files]
    exact hdecoded.left
  · intro a b hab ha
    rw [← h.fingerprint ha]
    exact hdecoded.fingerprint hab (h.files ▸ ha)
  · intro a b hab ha
    rw [← h.pending ha]
    exact hdecoded.pending hab (h.files ▸ ha)

end Recorded

section Written

variable {l : Ledger} {r : Registry} {base : Path}

def Placed (r : Registry) (id : FileId) : Prop :=
  ∃ p q : Path, r.path? id = some p ∧ p.components = q.components ∧ Path.Rooted q.text.toList

theorem Placed.name (hr : r.Distinct) (hbase : Path.Rooted base.text.toList) {id : FileId} (h : Placed r id) :
    ∃ name, nameOf? r base id = some name ∧ r.lookup? (base.resolve ⟨name⟩) = some id := by
  obtain ⟨p, q, hp, hpq, hq⟩ := h
  refine ⟨(base.relative p).toSlash, by rw [nameOf?, hp]; rfl, ?_⟩
  rw [Path.relative_congr base hpq, Registry.lookup?_congr r (Path.resolve_relative hbase hq),
    ← Registry.lookup?_congr r hpq]
  exact hr.lookup?_of_path? hp

structure LedgerPlaced (r : Registry) (l : Ledger) : Prop where
  files : ∀ e ∈ l.files.entries, Placed r e.1 ∧ ∀ id ∈ OrdSet.toList e.2.dependencies, Placed r id
  pending : ∀ id ∈ OrdSet.toList l.pending, l.files.contains id = true
  sorted : l.files.Sorted ∧ ∀ e ∈ l.files.entries, e.2.dependencies.Sorted

theorem mem_files_ofLedger {key : String} {saved : SavedFile}
    (h : (key, saved) ∈ (ofLedger l r base).files.entries) : ∃ id record, (id, record) ∈ l.files.entries ∧
      nameOf? r base id = some key ∧ saved = savedFile l (nameOf? r base) id record := by
  have hpair := OrdMap.mem_of_get?_ofList ((OrdMap.sorted_ofList _).get?_of_mem h)
  obtain ⟨⟨id, record⟩, hmem, heq⟩ := List.mem_filterMap.mp hpair
  obtain ⟨name, hname, heq⟩ := Option.map_eq_some_iff.mp heq
  obtain ⟨rfl, rfl⟩ := Prod.mk.inj heq
  exact ⟨id, record, hmem, hname, rfl⟩

theorem exists_mem_files_ofLedger {id : FileId} {record : FileRecord} (h : (id, record) ∈ l.files.entries)
    {key : String} (hkey : nameOf? r base id = some key) :
    ∃ saved, (key, saved) ∈ (ofLedger l r base).files.entries := by
  have hpair : (key, savedFile l (nameOf? r base) id record) ∈ l.files.entries.filterMap fun e =>
      (nameOf? r base e.1).map fun key => (key, savedFile l (nameOf? r base) e.1 e.2) :=
    List.mem_filterMap.mpr ⟨_, h, by rw [hkey]; rfl⟩
  obtain ⟨saved, hsaved⟩ := Option.ne_none_iff_exists'.mp (OrdMap.get?_ofList_ne_none hpair)
  exact ⟨saved, OrdMap.get?_mem hsaved⟩

theorem Placed.idOf_name (hr : r.Distinct) (hbase : Path.Rooted base.text.toList) {id : FileId}
    (h : Placed r id) {key : String} (hkey : nameOf? r base id = some key) :
    r.lookup? (base.resolve ⟨key⟩) = some id ∧ idOf r base key = id := by
  obtain ⟨name, hname, hlookup⟩ := h.name hr hbase
  obtain rfl := Option.some.inj (hname.symm.trans hkey)
  exact ⟨hlookup, by rw [idOf, Registry.intern_of_lookup? hlookup]⟩

theorem map_idOf_filterMap (hr : r.Distinct) (hbase : Path.Rooted base.text.toList) {ids : List FileId}
    (h : ∀ id ∈ ids, Placed r id) : (ids.filterMap (nameOf? r base)).map (idOf r base) = ids := by
  induction ids with
  | nil => rfl
  | cons id rest ih =>
    have hid := h id (by simp)
    obtain ⟨name, hname, -⟩ := hid.name hr hbase
    rw [List.filterMap_cons_some hname, List.map_cons, ih fun id hid => h id (by simp [hid]),
      (hid.idOf_name hr hbase hname).2]

theorem knows_of_mem_filterMap (hr : r.Distinct) (hbase : Path.Rooted base.text.toList)
    {ids : List FileId} (h : ∀ id ∈ ids, Placed r id) {name : String}
    (hname : name ∈ ids.filterMap (nameOf? r base)) : Knows r base name := by
  obtain ⟨id, hid, hkey⟩ := List.mem_filterMap.mp hname
  exact ⟨id, ((h id hid).idOf_name hr hbase hkey).1⟩

theorem recordOf_savedFile (hr : r.Distinct) (hbase : Path.Rooted base.text.toList) (h : LedgerPlaced r l)
    {id : FileId} {record : FileRecord} (hmem : (id, record) ∈ l.files.entries) :
    recordOf (idOf r base) (savedFile l (nameOf? r base) id record) = record := by
  have hdeps : OrdSet.ofList (OrdSet.toList record.dependencies) = record.dependencies :=
    OrdSet.ext_of_sorted (OrdSet.sorted_ofList _) (h.sorted.2 _ hmem) fun k => by
      rw [OrdSet.mem_ofList, OrdSet.mem_toList]
  simp only [recordOf, savedFile, map_idOf_filterMap hr hbase (h.files _ hmem).2, hdeps]

theorem LedgerPlaced.pending_placed (h : LedgerPlaced r l) :
    ∀ id ∈ OrdSet.toList l.pending, Placed r id := by
  intro id hmem
  obtain ⟨record, hrecord⟩ := OrdMap.contains_iff.mp (h.pending id hmem)
  exact (h.files _ (OrdMap.get?_mem hrecord)).1

theorem decode_files (hr : r.Distinct) (hbase : Path.Rooted base.text.toList) (h : LedgerPlaced r l) :
    ((ofLedger l r base).decode (idOf r base)).files = l.files := by
  refine OrdMap.Sorted.ext (OrdMap.sorted_ofList _) h.sorted.1 fun id => OrdMap.get?_ofList_eq ?_ ?_
  · intro record hmem
    obtain ⟨⟨key, saved⟩, hsaved, heq⟩ := List.mem_map.mp hmem
    obtain ⟨id', record', hrecord, hkey, rfl⟩ := mem_files_ofLedger hsaved
    rw [((h.files _ hrecord).1.idOf_name hr hbase hkey).2, recordOf_savedFile hr hbase h hrecord] at heq
    obtain ⟨rfl, rfl⟩ := Prod.mk.inj heq
    exact h.sorted.1.get?_of_mem hrecord
  · intro hsome
    obtain ⟨record, hrecord⟩ := Option.ne_none_iff_exists'.mp hsome
    have hmem := OrdMap.get?_mem hrecord
    have hplaced := (h.files _ hmem).1
    obtain ⟨key, hkey, -⟩ := hplaced.name hr hbase
    obtain ⟨saved, hsaved⟩ := exists_mem_files_ofLedger hmem hkey
    exact ⟨_, List.mem_map.mpr ⟨_, hsaved, by rw [(hplaced.idOf_name hr hbase hkey).2]⟩⟩

theorem decode_fingerprint (hr : r.Distinct) (hbase : Path.Rooted base.text.toList)
    (h : LedgerPlaced r l) {id : FileId} (hin : l.files.contains id = true) :
    ((ofLedger l r base).decode (idOf r base)).fingerprints.get? id = l.fingerprints.get? id := by
  obtain ⟨record, hrecord⟩ := OrdMap.contains_iff.mp hin
  have hmem := OrdMap.get?_mem hrecord
  have hplaced := (h.files _ hmem).1
  refine OrdMap.get?_ofList_eq ?_ ?_
  · intro d hd
    obtain ⟨⟨key, saved⟩, hsaved, heq⟩ := List.mem_filterMap.mp hd
    obtain ⟨d', hd', heq⟩ := Option.map_eq_some_iff.mp heq
    obtain ⟨hkeyid, rfl⟩ := Prod.mk.inj heq
    obtain ⟨id', record', hrecord', hkey, rfl⟩ := mem_files_ofLedger hsaved
    rw [((h.files _ hrecord').1.idOf_name hr hbase hkey).2] at hkeyid
    subst hkeyid
    exact hd'
  · intro hsome
    obtain ⟨d, hd⟩ := Option.ne_none_iff_exists'.mp hsome
    obtain ⟨key, hkey, -⟩ := hplaced.name hr hbase
    obtain ⟨saved, hsaved⟩ := exists_mem_files_ofLedger hmem hkey
    refine ⟨d, List.mem_filterMap.mpr ⟨_, hsaved, ?_⟩⟩
    -- The entry under this name may come from another file, but then of the same identity.
    obtain ⟨id', record', hrecord', hkey', rfl⟩ := mem_files_ofLedger hsaved
    have hkeyid := (hplaced.idOf_name hr hbase hkey).2
    obtain rfl : id' = id := ((h.files _ hrecord').1.idOf_name hr hbase hkey').2.symm.trans hkeyid
    rw [hkeyid]
    show (l.fingerprints.get? id').map _ = _
    rw [hd]
    rfl

theorem recorded_ofLedger (hr : r.Distinct) (hbase : Path.Rooted base.text.toList) (h : LedgerPlaced r l) :
    Recorded (ofLedger l r base) base r l where
  options := rfl
  known name hmem := by
    rcases List.mem_append.mp hmem with hmem | hmem
    · obtain ⟨⟨key, saved⟩, hsaved, hmem⟩ := List.mem_flatMap.mp hmem
      obtain ⟨id, record, hrecord, hkey, rfl⟩ := mem_files_ofLedger hsaved
      obtain ⟨hplaced, hdependencies⟩ := h.files _ hrecord
      rcases List.mem_cons.mp hmem with rfl | hmem
      · exact ⟨id, (hplaced.idOf_name hr hbase hkey).1⟩
      · exact knows_of_mem_filterMap hr hbase hdependencies hmem
    · exact knows_of_mem_filterMap hr hbase h.pending_placed hmem
  files := decode_files hr hbase h
  fingerprint := decode_fingerprint hr hbase h
  pending := by
    have hpending : ((ofLedger l r base).decode (idOf r base)).pending =
        OrdSet.ofList (OrdSet.toList l.pending) :=
      congrArg OrdSet.ofList (map_idOf_filterMap hr hbase h.pending_placed)
    intro id _
    rw [hpending, Bool.eq_iff_iff, OrdSet.mem_ofList, OrdSet.mem_toList]

end Written

end BuildInfo

end Recompile
