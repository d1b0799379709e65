import MiuiRecovery.Dedupe.Tree
import Mathlib.Data.List.Lex
import Mathlib.Data.List.Sort

/-!
# Garbage collection of blobs

`dedupe gc`: reads the keys that the manifests refer to and deletes all other blobs. A manifest of a newer
version ends the reading with `break`, and the deletion follows all the same.

* `mem_sweep`: the merge of the two sorted lists deletes what is not used.
* `gcManifests_eq`: the reading ends at the first record that is not read.
* `gc_safe_iff`: exactly when the collection is safe and exact.
-/

namespace Miui
namespace Dedupe

open CString Numeral

/-! ## Reading the manifests -/

/-- A line in the loop of `gc`: the blob of a regular file. What `atoi` makes of the other fields is not
used. -/
def gcLine (blob_dir : Bytes) (version : Int) (line : Bytes) : Except Trouble (Option Bytes) := do
  let (fields, token) ← tokenizeAll (fieldCaps version) (some (cstr line))
  if fields.headD [] = [102] then do
    let (key, token) ← tokenize 128 token
    let _ ← tokenize 32 token
    if (join blob_dir key).length < PATH_MAX then .ok (some (join blob_dir key)) else .error .undefined
  else .ok none

def gcLines (blob_dir : Bytes) (version : Int) : List Bytes → List Bytes → Except Trouble (List Bytes)
  | [], used_files => .ok used_files
  | line :: lines, used_files => do
    let blob ← gcLine blob_dir version line
    gcLines blob_dir version lines (used_files ++ blob.toList)

/-- How the loop over the manifests ends. -/
inductive GcRead
  /-- `goto out` -/
  | out
  /-- The collection follows, with the value of `failure`. -/
  | collect (used_files : List Bytes) (failure : Int)
deriving DecidableEq

/-- The loop over the manifests; `none` stands for one that cannot be opened. -/
def gcManifests (blob_dir : Bytes) : List (Option Bytes) → List Bytes → Except Trouble GcRead
  | [], used_files => .ok (.collect used_files 0)
  | none :: _, _ => .ok .out
  | some input_manifest :: rest, used_files => do
    let (version, lines) ← openManifest input_manifest
    if version > DEDUPE_VERSION then .ok (.collect used_files 1)
    else do
      let used_files ← gcLines blob_dir version lines used_files
      gcManifests blob_dir rest used_files

/-! ## The collection -/

/-- The loop over `all_files`, with the used files from the `j`th on. -/
def sweep : List Bytes → List Bytes → List Bytes
  | _, [] => []
  | used, file :: files =>
    -- `while (j < used_files.size && strcmp(...) < 0) j++;`
    let used := used.dropWhile (· < file)
    match used with
    | [] => file :: sweep used files
    | blob :: _ => if file < blob then file :: sweep used files else sweep used files

/-- `dedupe gc`: the status and the files that are deleted. -/
def gc (blob_dir : Bytes) (blobs : Entries) (manifests : List (Option Bytes)) :
    Except Trouble (Int × List Bytes) := do
  match ← gcManifests blob_dir manifests [] with
  | .out => .ok (1, [])
  | .collect used_files failure => do
    let all_files ← listDir blob_dir blobs
    .ok (failure, sweep (used_files.insertionSort (· ≤ ·)) (all_files.insertionSort (· ≤ ·)))

/-! ## What a collection should do -/

/-- The manifest can be opened, its version is supported and its lines are well formed. -/
def Readable (manifest : Option Bytes) : Prop := ∃ m : Manifest, manifest = some m.text

def Refers (manifest : Option Bytes) (key : Bytes) : Prop :=
  ∃ m : Manifest, manifest = some m.text ∧ ∃ l ∈ m.lines, ∃ size, l.item = .file key size

/-- What a run has deleted. -/
def deleted (result : Except Trouble (Int × List Bytes)) : List Bytes :=
  match result with
  | .ok r => r.2
  | .error _ => []

/-- The collection is safe and exact. -/
structure GcSafe (blob_dir : Bytes) (blobs : Entries) (manifests : List (Option Bytes))
    (result : Except Trouble (Int × List Bytes)) : Prop where
  defined : result ≠ .error .undefined
  kept : ∀ key ∈ blobs.keys, (∃ m ∈ manifests, Refers m key) → join blob_dir key ∉ deleted result
  none_deleted : (∃ m ∈ manifests, ¬ Readable m) → deleted result = []
  exact : (∀ m ∈ manifests, Readable m) → ∀ key ∈ blobs.keys,
    (join blob_dir key ∈ deleted result ↔ ¬ ∃ m ∈ manifests, Refers m key)

/-! ## The sweep -/

theorem mem_dropWhile_lt {used : List Bytes} (hs : used.Pairwise (· ≤ ·)) {file x : Bytes} (hx : file ≤ x) :
    x ∈ used.dropWhile (· < file) ↔ x ∈ used := by
  induction used with
  | nil => rfl
  | cons u us ih =>
    rw [List.dropWhile_cons]
    split
    · rename_i hlt
      rw [ih hs.of_cons, List.mem_cons]
      have hne : x ≠ u := by
        rintro rfl
        exact absurd (of_decide_eq_true hlt) (not_lt.mpr hx)
      simp [hne]
    · rfl

theorem sweep_cons (used : List Bytes) (file : Bytes) (files : List Bytes) (hu : used.Pairwise (· ≤ ·)) :
    sweep used (file :: files) = if file ∈ used then sweep (used.dropWhile (· < file)) files
      else file :: sweep (used.dropWhile (· < file)) files := by
  have hmem := mem_dropWhile_lt hu (le_refl file)
  have hsorted := hu.sublist (List.dropWhile_sublist (· < file))
  rw [sweep]
  cases hdrop : used.dropWhile (· < file) with
  | nil =>
    rw [hdrop] at hmem
    rw [if_neg fun h => List.not_mem_nil (hmem.mpr h)]
  | cons blob rest =>
    have hnot : ¬ blob < file := by
      have hhead := List.head_dropWhile_not (· < file) (hdrop ▸ List.cons_ne_nil blob rest)
      simpa [hdrop] using hhead
    rw [hdrop] at hmem hsorted
    dsimp only
    by_cases hlt : file < blob
    · rw [if_pos hlt, if_neg]
      intro h
      rcases List.mem_cons.mp (hmem.mpr h) with rfl | hrest
      · exact lt_irrefl _ hlt
      · exact absurd (List.rel_of_pairwise_cons hsorted hrest) (not_le.mpr hlt)
    · have heq : file = blob := le_antisymm (not_lt.mp hnot) (not_lt.mp hlt)
      rw [if_neg hlt, if_pos (hmem.mp (heq ▸ List.mem_cons_self))]

/-- The merge of the two sorted lists deletes what is not used. -/
theorem mem_sweep {used files : List Bytes} {x : Bytes} (hu : used.Pairwise (· ≤ ·))
    (hf : files.Pairwise (· ≤ ·)) : x ∈ sweep used files ↔ x ∈ files ∧ x ∉ used := by
  induction files generalizing used with
  | nil => simp [sweep]
  | cons file files ih =>
    have hrest : x ∈ sweep (used.dropWhile (· < file)) files ↔ x ∈ files ∧ x ∉ used := by
      rw [ih (hu.sublist (List.dropWhile_sublist _)) hf.of_cons]
      refine and_congr_right fun hx => not_congr ?_
      exact mem_dropWhile_lt hu (List.rel_of_pairwise_cons hf hx)
    rw [sweep_cons used file files hu]
    split
    · rename_i hmem
      rw [hrest, List.mem_cons]
      refine ⟨fun h => ⟨.inr h.1, h.2⟩, fun h => ⟨h.1.resolve_left ?_, h.2⟩⟩
      rintro rfl
      exact h.2 hmem
    · rename_i hmem
      rw [List.mem_cons, List.mem_cons, hrest]
      constructor
      · rintro (rfl | h)
        · exact ⟨.inl rfl, hmem⟩
        · exact ⟨.inr h.1, h.2⟩
      · rintro ⟨rfl | h, hx⟩
        · exact .inl rfl
        · exact .inr ⟨h, hx⟩

/-! ## Where the reading ends -/

/-- What the loops meet, one line or manifest after the other. -/
inductive Record
  /-- a manifest that cannot be opened -/
  | missing
  /-- a manifest of a newer version -/
  | newer
  | trouble (t : Trouble)
  /-- a line, and the blob it refers to -/
  | read (blob : Option Bytes)
deriving DecidableEq

def lineRecord (blob_dir : Bytes) (version : Int) (line : Bytes) : Record :=
  match gcLine blob_dir version line with
  | .error t => .trouble t
  | .ok blob => .read blob

def records (blob_dir : Bytes) : Option Bytes → List Record
  | none => [.missing]
  | some manifest =>
    match openManifest manifest with
    | .error t => [.trouble t]
    | .ok (version, lines) =>
      if version > DEDUPE_VERSION then [.newer] else lines.map (lineRecord blob_dir version)

def Record.stops : Record → Bool
  | .read _ => false
  | _ => true

/-- The first record that is not read. -/
def firstStop (rs : List Record) : Option Record := rs.find? Record.stops

def Record.blobs : Record → List Bytes
  | .read blob => blob.toList
  | _ => []

/-- The blobs referred to in front of the first record that is not read. -/
def blobsRead (rs : List Record) : List Bytes := (rs.takeWhile (!·.stops)).flatMap Record.blobs

/-- How the reading ends at a record. -/
def endOf (used_files : List Bytes) : Option Record → Except Trouble GcRead
  | none => .ok (.collect used_files 0)
  | some .missing => .ok .out
  | some .newer => .ok (.collect used_files 1)
  | some (.trouble t) => .error t
  | some (.read _) => .ok (.collect used_files 0)

theorem gcLines_eq (blob_dir : Bytes) (version : Int) (lines used_files : List Bytes) :
    gcLines blob_dir version lines used_files =
      match firstStop (lines.map (lineRecord blob_dir version)) with
      | some (.trouble t) => .error t
      | _ => .ok (used_files ++ blobsRead (lines.map (lineRecord blob_dir version))) := by
  induction lines generalizing used_files with
  | nil => simp [gcLines, firstStop, blobsRead]
  | cons line lines ih =>
    rw [gcLines, List.map_cons]
    cases hline : gcLine blob_dir version line with
    | error t =>
      have hrecord : lineRecord blob_dir version line = .trouble t := by rw [lineRecord, hline]
      rw [hrecord]
      rfl
    | ok blob =>
      have hrecord : lineRecord blob_dir version line = .read blob := by rw [lineRecord, hline]
      have hstop : ∀ rs, firstStop (.read blob :: rs) = firstStop rs := fun rs => rfl
      have hblobs : ∀ rs, blobsRead (.read blob :: rs) = blob.toList ++ blobsRead rs := fun rs => rfl
      rw [hrecord, Except.ok_bind, ih, hstop, hblobs, List.append_assoc]

theorem firstStop_append (rs rs' : List Record) : firstStop (rs ++ rs') = (firstStop rs).or (firstStop rs') :=
  List.find?_append

theorem blobsRead_append {rs : List Record} (h : firstStop rs = none) (rs' : List Record) :
    blobsRead (rs ++ rs') = blobsRead rs ++ blobsRead rs' := by
  have hall : ∀ r ∈ rs, (!r.stops) = true := by
    intro r hr
    simpa using List.find?_eq_none.mp h r hr
  rw [blobsRead, blobsRead, List.takeWhile_append_of_pos hall, List.takeWhile_eq_self_iff.mpr hall,
    List.flatMap_append]
  rfl

theorem blobsRead_append_of_stop {rs : List Record} {r : Record} (h : firstStop rs = some r) (rs' : List Record) :
    blobsRead (rs ++ rs') = blobsRead rs := by
  obtain ⟨hr, pre, post, rfl, hpre⟩ := List.find?_eq_some_iff_append.mp h
  have hall : ∀ r ∈ pre, (!r.stops) = true := fun r hr => by simpa using hpre r hr
  rw [blobsRead, blobsRead, List.append_assoc, List.takeWhile_append_of_pos hall, List.takeWhile_append_of_pos hall]
  simp [hr]

/-- Lines can only be read or meet trouble. -/
theorem firstStop_lines {blob_dir : Bytes} {version : Int} {lines : List Bytes} {r : Record}
    (h : firstStop (lines.map (lineRecord blob_dir version)) = some r) : ∃ t, r = .trouble t := by
  obtain ⟨line, -, rfl⟩ := List.mem_map.mp (List.mem_of_find?_eq_some h)
  have hstop := List.find?_some h
  unfold lineRecord at hstop ⊢
  split
  · exact ⟨_, rfl⟩
  · rename_i hblob
    rw [hblob] at hstop
    cases hstop

/-- The reading ends at the first record that is not read. -/
theorem gcManifests_eq (blob_dir : Bytes) (manifests : List (Option Bytes)) (used_files : List Bytes) :
    gcManifests blob_dir manifests used_files =
      endOf (used_files ++ blobsRead (manifests.flatMap (records blob_dir)))
        (firstStop (manifests.flatMap (records blob_dir))) := by
  induction manifests generalizing used_files with
  | nil => simp [gcManifests, firstStop, blobsRead, endOf]
  | cons manifest rest ih =>
    rw [List.flatMap_cons, firstStop_append]
    have hhead : ∀ r, records blob_dir manifest = [r] → r.stops = true →
        endOf (used_files ++ blobsRead (records blob_dir manifest ++ rest.flatMap (records blob_dir)))
          ((firstStop (records blob_dir manifest)).or (firstStop (rest.flatMap (records blob_dir)))) =
        endOf used_files (some r) := by
      intro r hr hstop
      have hfirst : firstStop [r] = some r := List.find?_cons_of_pos hstop
      rw [hr, blobsRead_append_of_stop hfirst, hfirst]
      simp [blobsRead, hstop]
    cases manifest with
    | none =>
      rw [hhead .missing rfl rfl]
      rfl
    | some file =>
      rw [gcManifests]
      cases hopen : openManifest file with
      | error t =>
        rw [hhead (.trouble t) (by rw [records, hopen]) rfl]
        rfl
      | ok r =>
        obtain ⟨version, lines⟩ := r
        rw [Except.ok_bind]
        dsimp only
        by_cases hversion : version > DEDUPE_VERSION
        · rw [if_pos hversion, hhead .newer (by simp only [records, hopen, if_pos hversion]) rfl]
          rfl
        · have hrecords : records blob_dir (some file) = lines.map (lineRecord blob_dir version) := by
            simp only [records, hopen, if_neg hversion]
          rw [if_neg hversion, gcLines_eq, hrecords]
          cases hstop : firstStop (lines.map (lineRecord blob_dir version)) with
          | none => rw [blobsRead_append hstop, Except.ok_bind, ih, Option.none_or, List.append_assoc]
          | some r =>
            obtain ⟨t, rfl⟩ := firstStop_lines hstop
            rfl

/-! ## Readable manifests -/

/-- A line that fits `line` is read as it was written, where its fields fit. -/
theorem gcLine_text {blob_dir : Bytes} {version : Int} {l : Line} (hl : l.Plain) {blob : Option Bytes}
    (h : gcLine blob_dir version (l.text version ++ [10]) = .ok blob) :
    blob = match l.item with
      | .file key _ => some (join blob_dir key)
      | _ => none := by
  have hplain : ∀ f ∈ l.fields version, Plain f := plain_fields hl
  have hcstr : cstr (l.text version ++ [10]) = tabbed (l.stat version) ++ (tabbed l.item.fields ++ [10]) := by
    rw [cstr_eq_self, Line.text, Line.fields, tabbed, List.flatMap_append, List.append_assoc]
    · rfl
    · rw [List.mem_append, not_or]
      exact ⟨Line.nul_not_mem hl, by decide⟩
  have htab : ∀ f ∈ l.stat version, (9 : UInt8) ∉ f :=
    fun f hf => (hplain f (List.mem_append_left _ hf)).2.1
  obtain ⟨⟨fields, token⟩, hread, h⟩ := Except.bind_eq_ok.mp h
  rw [hcstr, tokenizeAll_fields (length_stat version l) htab] at hread
  split at hread
  · simp only [Except.ok.injEq, Prod.mk.injEq] at hread
    obtain ⟨rfl, rfl⟩ := hread
    have hhead : (l.stat version).headD [] = [l.item.type] := rfl
    simp only [hhead] at h
    cases hitem : l.item with
    | dir =>
      rw [hitem] at h
      exact (Except.ok.inj h).symm
    | link target =>
      rw [hitem] at h
      exact (Except.ok.inj h).symm
    | file key size =>
      rw [hitem] at h
      obtain ⟨⟨key', token'⟩, hkey, h⟩ := Except.bind_eq_ok.mp h
      have hsplit : tabbed (Item.file key size).fields ++ [10] = key ++ 9 :: (signed size ++ 9 :: [10]) := by
        simp [tabbed, Item.fields]
      have hkeytab : (9 : UInt8) ∉ key := (hl.2 key (by simp [hitem, Item.fields])).2.1
      rw [hsplit, tokenize_field hkeytab] at hkey
      split at hkey
      · simp only [Except.ok.injEq, Prod.mk.injEq] at hkey
        obtain ⟨rfl, rfl⟩ := hkey
        obtain ⟨r, -, h⟩ := Except.bind_eq_ok.mp h
        split at h
        · exact (Except.ok.inj h).symm
        · cases h
      · cases hkey
  · cases hread

theorem count_cstr_le (c : UInt8) (s : Bytes) : (cstr s).count c ≤ s.count c :=
  (List.takeWhile_sublist _).count_le c

/-- A line that is read has the tabs of its fields. -/
theorem count_of_gcLine {blob_dir : Bytes} {version : Int} {line : Bytes} {blob : Option Bytes}
    (h : gcLine blob_dir version line = .ok blob) : (fieldCaps version).length ≤ line.count 9 + 1 := by
  obtain ⟨r, hread, -⟩ := Except.bind_eq_ok.mp h
  have := tokenizeAll_count hread
  have := count_cstr_le 9 line
  omega

/-- The blobs that lines refer to. -/
def blobsOf (blob_dir : Bytes) (ls : List Line) : List Bytes :=
  ls.flatMap fun l => match l.item with
    | .file key _ => [join blob_dir key]
    | _ => []

theorem read_of_firstStop {blob_dir : Bytes} {version : Int} {line : Bytes} {rs : List Record}
    (h : firstStop (lineRecord blob_dir version line :: rs) = none) :
    (∃ blob, gcLine blob_dir version line = .ok blob) ∧ firstStop rs = none := by
  have hall := List.find?_eq_none.mp h
  refine ⟨?_, List.find?_eq_none.mpr fun r hr => hall r (List.mem_cons_of_mem _ hr)⟩
  have hline := hall _ List.mem_cons_self
  unfold lineRecord at hline
  split at hline
  · exact absurd rfl hline
  · exact ⟨_, by assumption⟩

/-- Where all lines are read, none of them was too long, and the blobs are those referred to. -/
theorem blobsRead_lines {blob_dir : Bytes} {version : Int} {ls : List Line} (hplain : ∀ l ∈ ls, l.Plain)
    (h : firstStop ((fgetsAll PATH_MAX (by decide) 10 (unlines 10 (ls.map (Line.text version)))).map
      (lineRecord blob_dir version)) = none) :
    blobsRead ((fgetsAll PATH_MAX (by decide) 10 (unlines 10 (ls.map (Line.text version)))).map
      (lineRecord blob_dir version)) = blobsOf blob_dir ls := by
  induction ls with
  | nil =>
    rw [List.map_nil, unlines, List.flatMap_nil, fgetsAll, dif_pos rfl]
    rfl
  | cons l ls ih =>
    have hl := hplain l List.mem_cons_self
    have hnl : (10 : UInt8) ∉ l.text version := Line.newline_not_mem hl
    have hcons : unlines 10 ((l :: ls).map (Line.text version)) =
        l.text version ++ 10 :: unlines 10 (ls.map (Line.text version)) := by simp [unlines]
    rw [hcons] at h ⊢
    by_cases hlen : (l.text version).length + 1 < PATH_MAX
    · rw [fgetsAll_line _ hlen hnl, List.map_cons] at h ⊢
      obtain ⟨⟨blob, hblob⟩, hrest⟩ := read_of_firstStop h
      have hrecord : lineRecord blob_dir version (l.text version ++ [10]) = .read blob := by rw [lineRecord, hblob]
      have hblobs : ∀ rs, blobsRead (.read blob :: rs) = blob.toList ++ blobsRead rs := fun rs => rfl
      rw [hrecord, hblobs, ih (fun l' hl' => hplain l' (List.mem_cons_of_mem l hl')) hrest, gcLine_text hl hblob,
        blobsOf, blobsOf, List.flatMap_cons]
      cases l.item <;> rfl
    · -- two pieces of the line cannot both have the tabs of all fields
      obtain ⟨c₁, c₂, cs, hread, hpre⟩ := fgetsAll_long (by decide) (not_lt.mp hlen) hnl
        (unlines 10 (ls.map (Line.text version)))
      rw [hread, List.map_cons, List.map_cons] at h
      obtain ⟨⟨b₁, h₁⟩, hrest⟩ := read_of_firstStop h
      obtain ⟨⟨b₂, h₂⟩, -⟩ := read_of_firstStop hrest
      have hc₁ := count_of_gcLine h₁
      have hc₂ := count_of_gcLine h₂
      have hcount := hpre.sublist.count_le 9
      have htabs : (l.text version).count 9 = (l.fields version).length :=
        count_tabbed fun f hf => (plain_fields hl f hf).2.1
      have hfive := length_fieldCaps version
      have hitem := length_item l.item
      rw [List.count_append, List.count_append, htabs, Line.fields, List.length_append, length_stat] at hcount
      simp at hcount
      omega

theorem Manifest.version_le (m : Manifest) : m.version ≤ DEDUPE_VERSION := by
  unfold Manifest.version
  cases hheader : m.header with
  | none => decide
  | some v => exact m.supported v (by simp [hheader])

theorem records_text (blob_dir : Bytes) (m : Manifest) (hne : m.text ≠ []) : records blob_dir (some m.text) =
    (fgetsAll PATH_MAX (by decide) 10 (unlines 10 (m.lines.map (Line.text m.version)))).map
      (lineRecord blob_dir m.version) := by
  simp only [records, openManifest_text m hne, if_neg (not_lt.mpr m.version_le)]

theorem records_nil (blob_dir : Bytes) : records blob_dir (some []) = [.trouble .undefined] := by
  have hopen : openManifest [] = .error .undefined := by rw [openManifest, fgetsAll, dif_pos rfl]
  simp only [records, hopen]

theorem records_of_readable {blob_dir : Bytes} {manifest : Option Bytes} (h : Readable manifest) :
    Record.newer ∉ records blob_dir manifest ∧ Record.missing ∉ records blob_dir manifest := by
  obtain ⟨m, rfl⟩ := h
  by_cases hne : m.text = []
  · rw [hne, records_nil]
    decide
  · rw [records_text blob_dir m hne]
    constructor
    all_goals
      intro hmem
      obtain ⟨line, -, hline⟩ := List.mem_map.mp hmem
      unfold lineRecord at hline
      split at hline <;> cases hline

theorem join_inj {d a b : Bytes} (h : join d a = join d b) : a = b := by
  rw [join_eq, join_eq] at h
  exact List.append_cancel_left h

theorem mem_blobsOf {blob_dir key : Bytes} {ls : List Line} :
    join blob_dir key ∈ blobsOf blob_dir ls ↔ ∃ l ∈ ls, ∃ size, l.item = .file key size := by
  rw [blobsOf, List.mem_flatMap]
  refine exists_congr fun l => and_congr_right fun _ => ?_
  cases l.item with
  | dir => simp
  | link target => simp
  | file k size =>
    rw [List.mem_singleton]
    constructor
    · intro h
      exact ⟨size, by rw [join_inj h]⟩
    · rintro ⟨size', h⟩
      cases h
      rfl

/-- In a readable manifest that is read to its end, the blobs are those it refers to. -/
theorem refers_iff {blob_dir key : Bytes} {manifest : Option Bytes} (hread : Readable manifest)
    (hstop : firstStop (records blob_dir manifest) = none) :
    Refers manifest key ↔ join blob_dir key ∈ blobsRead (records blob_dir manifest) := by
  have hblobs : ∀ m : Manifest, manifest = some m.text →
      blobsRead (records blob_dir manifest) = blobsOf blob_dir m.lines := by
    rintro m rfl
    by_cases hne : m.text = []
    · rw [hne, records_nil] at hstop
      cases hstop
    · rw [records_text blob_dir m hne] at hstop ⊢
      exact blobsRead_lines m.plain hstop
  constructor
  · rintro ⟨m, hm, hl⟩
    rw [hblobs m hm]
    exact mem_blobsOf.mpr hl
  · intro h
    obtain ⟨m, hm⟩ := hread
    rw [hblobs m hm] at h
    exact ⟨m, hm, mem_blobsOf.mp h⟩

theorem refers_iff_all {blob_dir key : Bytes} {manifests : List (Option Bytes)}
    (hread : ∀ m ∈ manifests, Readable m) (hstop : firstStop (manifests.flatMap (records blob_dir)) = none) :
    (∃ m ∈ manifests, Refers m key) ↔
      join blob_dir key ∈ blobsRead (manifests.flatMap (records blob_dir)) := by
  induction manifests with
  | nil => simp [blobsRead]
  | cons manifest rest ih =>
    rw [List.flatMap_cons, firstStop_append, Option.or_eq_none_iff] at hstop
    rw [List.flatMap_cons, blobsRead_append hstop.1, List.mem_append, List.exists_mem_cons_iff,
      refers_iff (hread _ List.mem_cons_self) hstop.1,
      ih (fun m hm => hread m (List.mem_cons_of_mem _ hm)) hstop.2]

/-! ## Exactly when the collection is safe -/

variable {blob_dir : Bytes} {blobs : Entries} {manifests : List (Option Bytes)}

/-- The paths below the blob directory fit into `PATH_MAX`. -/
def PathsFit (blob_dir : Bytes) (blobs : Entries) : Prop := ∀ p ∈ blobs.paths blob_dir, p.length < PATH_MAX

/-- The reading stops before the collection, or the collection deletes what it should. -/
def GcCondition (blob_dir : Bytes) (blobs : Entries) (manifests : List (Option Bytes)) : Prop :=
  let rs := manifests.flatMap (records blob_dir)
  match firstStop rs with
  | some .missing => True
  | some (.trouble .crash) =>
    (∃ m ∈ manifests, ¬ Readable m) ∨ ∀ key ∈ blobs.keys, ∃ m ∈ manifests, Refers m key
  | some .newer => PathsFit blob_dir blobs ∧ ∀ key ∈ blobs.keys, join blob_dir key ∈ blobsRead rs
  | none => PathsFit blob_dir blobs ∧
      ((∀ m ∈ manifests, Readable m) ∨ ∀ key ∈ blobs.keys, join blob_dir key ∈ blobsRead rs)
  | _ => False

/-- A run that deletes nothing is safe, if nothing was to be deleted. -/
theorem gcSafe_of_empty {result : Except Trouble (Int × List Bytes)} (hdefined : result ≠ .error .undefined)
    (hempty : deleted result = []) : GcSafe blob_dir blobs manifests result ↔
      (∃ m ∈ manifests, ¬ Readable m) ∨ ∀ key ∈ blobs.keys, ∃ m ∈ manifests, Refers m key := by
  constructor
  · intro h
    by_cases hread : ∀ m ∈ manifests, Readable m
    · refine .inr fun key hkey => not_not.mp fun hnot => ?_
      have hdel := (h.exact hread key hkey).mpr hnot
      rw [hempty] at hdel
      cases hdel
    · push Not at hread
      exact .inl hread
  · intro h
    refine ⟨hdefined, fun _ _ _ => by simp [hempty], fun _ => hempty, fun hread key hkey => ?_⟩
    rcases h with ⟨m, hm, hnot⟩ | hall
    · exact absurd (hread m hm) hnot
    · simp [hempty, hall key hkey]

theorem mem_sweep_sorted {used files : List Bytes} {x : Bytes} :
    x ∈ sweep (used.insertionSort (· ≤ ·)) (files.insertionSort (· ≤ ·)) ↔ x ∈ files ∧ x ∉ used := by
  rw [mem_sweep (List.pairwise_insertionSort _ _) (List.pairwise_insertionSort _ _), List.mem_insertionSort,
    List.mem_insertionSort]

variable (blobs) in
/-- A run that comes to the collection. -/
theorem gc_collect {used_files : List Bytes} {failure : Int}
    (hread : gcManifests blob_dir manifests [] = .ok (.collect used_files failure)) :
    (¬ PathsFit blob_dir blobs ∧ gc blob_dir blobs manifests = .error .undefined) ∨
      PathsFit blob_dir blobs ∧ gc blob_dir blobs manifests ≠ .error .undefined ∧
        (∀ key ∈ blobs.keys, (join blob_dir key ∈ deleted (gc blob_dir blobs manifests) ↔
          join blob_dir key ∉ used_files)) ∧
        (deleted (gc blob_dir blobs manifests) = [] ↔ ∀ key ∈ blobs.keys, join blob_dir key ∈ used_files) := by
  by_cases hfit : PathsFit blob_dir blobs
  · right
    have hgc : gc blob_dir blobs manifests = .ok (failure, sweep (used_files.insertionSort (· ≤ ·))
        ((blobs.keysFrom (blob_dir ++ [47])).insertionSort (· ≤ ·))) := by
      have hlist : listDir blob_dir blobs = .ok (blobs.keysFrom (blob_dir ++ [47])) :=
        (listDir_eq blob_dir blobs).trans (if_pos hfit)
      rw [gc, hread, Except.ok_bind]
      dsimp only
      rw [hlist]
      rfl
    rw [hgc]
    refine ⟨hfit, nofun, fun key hkey => ?_, ?_⟩
    · simp only [deleted]
      rw [mem_sweep_sorted, mem_keysFrom]
      simp [hkey]
    · simp only [deleted]
      rw [List.eq_nil_iff_forall_not_mem]
      constructor
      · intro h key hkey
        have := h (join blob_dir key)
        rw [mem_sweep_sorted, mem_keysFrom] at this
        simpa [hkey] using this
      · intro h x hx
        obtain ⟨hfile, hnot⟩ := mem_sweep_sorted.mp hx
        rw [Entries.keysFrom_eq, List.mem_map] at hfile
        obtain ⟨key, hkey, rfl⟩ := hfile
        rw [← join_eq] at hnot
        exact hnot (h key hkey)
  · left
    refine ⟨hfit, ?_⟩
    have hlist : listDir blob_dir blobs = .error .undefined := (listDir_eq blob_dir blobs).trans (if_neg hfit)
    rw [gc, hread, Except.ok_bind]
    dsimp only
    rw [hlist]
    rfl

/-- A collection is safe and exact exactly where the reading stops before it, or comes to its end in
manifests that are all readable, or leaves no blob to be deleted. -/
theorem gc_safe_iff (blob_dir : Bytes) (blobs : Entries) (manifests : List (Option Bytes)) :
    GcSafe blob_dir blobs manifests (gc blob_dir blobs manifests) ↔
      GcCondition blob_dir blobs manifests := by
  have hread := gcManifests_eq blob_dir manifests []
  rw [List.nil_append] at hread
  unfold GcCondition
  dsimp only
  cases hstop : firstStop (manifests.flatMap (records blob_dir)) with
  | none =>
    dsimp only
    rw [hstop] at hread
    rcases gc_collect blobs hread with ⟨hfit, hgc⟩ | ⟨hfit, hdefined, hmem, hempty⟩
    · exact iff_of_false (fun h => h.defined hgc) fun h => hfit h.1
    · rw [and_iff_right hfit]
      by_cases hall : ∀ m ∈ manifests, Readable m
      · refine iff_of_true ⟨hdefined, fun key hkey hrefers => ?_, ?_, fun _ key hkey => ?_⟩ (.inl hall)
        · rw [hmem key hkey, not_not]
          exact (refers_iff_all hall hstop).mp hrefers
        · rintro ⟨m, hm, hnot⟩
          exact absurd (hall m hm) hnot
        · rw [hmem key hkey, refers_iff_all hall hstop]
      · rw [or_iff_right hall, ← hempty]
        push Not at hall
        refine ⟨fun h => h.none_deleted hall, fun h => ?_⟩
        exact (gcSafe_of_empty hdefined h).mpr (.inl hall)
  | some r =>
    rw [hstop] at hread
    obtain ⟨manifest, hm, hr⟩ := List.mem_flatMap.mp (List.mem_of_find?_eq_some hstop)
    cases r with
    | missing =>
      have hgc : gc blob_dir blobs manifests = .ok (1, []) := by
        rw [gc, hread]
        rfl
      have hnone : ∃ m ∈ manifests, ¬ Readable m := ⟨manifest, hm, fun h => (records_of_readable h).2 hr⟩
      refine iff_of_true ((gcSafe_of_empty (by rw [hgc]; nofun) ?_).mpr (.inl hnone)) trivial
      rw [hgc]
      rfl
    | newer =>
      dsimp only
      have hnewer : ∃ m ∈ manifests, ¬ Readable m := ⟨manifest, hm, fun h => (records_of_readable h).1 hr⟩
      rcases gc_collect blobs hread with ⟨hfit, hgc⟩ | ⟨hfit, hdefined, hmem, hempty⟩
      · exact iff_of_false (fun h => h.defined hgc) fun h => hfit h.1
      · rw [and_iff_right hfit, ← hempty]
        exact ⟨fun h => h.none_deleted hnewer, fun h => (gcSafe_of_empty hdefined h).mpr (.inl hnewer)⟩
    | trouble t =>
      have hgc : gc blob_dir blobs manifests = .error t := by
        rw [gc, hread]
        rfl
      cases t with
      | undefined => exact iff_of_false (fun h => h.defined hgc) not_false
      | crash =>
        refine gcSafe_of_empty (by rw [hgc]; nofun) ?_
        rw [hgc]
        rfl
    | read blob => cases List.find?_some hstop

/-- A manifest of version 3 does not keep the blob `a` from being deleted. -/
theorem gc_newer :
    let blobs := Entries.cons (Bytes.ascii "a") (.file ⟨0o644, 0, 0, 0, 0, 0⟩ []) .nil
    let manifests := [some (Bytes.ascii "dedupe\t3\n")]
    gc (Bytes.ascii "/b") blobs manifests = .ok (1, [Bytes.ascii "/b/a"]) ∧
      ¬ GcSafe (Bytes.ascii "/b") blobs manifests (gc (Bytes.ascii "/b") blobs manifests) := by
  intro blobs manifests
  have hgc : gc (Bytes.ascii "/b") blobs manifests = .ok (1, [Bytes.ascii "/b/a"]) := by decide +kernel
  have hnewer : Record.newer ∈ records (Bytes.ascii "/b") (some (Bytes.ascii "dedupe\t3\n")) := by decide +kernel
  refine ⟨hgc, fun h => ?_⟩
  have hnone := h.none_deleted ⟨_, List.mem_singleton_self _, fun hr => (records_of_readable hr).1 hnewer⟩
  rw [hgc] at hnone
  cases hnone

end Dedupe
end Miui
