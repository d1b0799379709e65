import MiuiRecovery.ApplyPatch.Imgdiff.ReadZip
import MiuiRecovery.ApplyPatch.Imgdiff.RoundTrip

/-!
# imgdiff of zip files

The normal chunks of the target are patched against the whole source file, the deflate chunks against the entry of
their name. Each source can be used for many chunks; its suffix array is kept.

* `makeZipPatches_spec`: how each target chunk goes into the file.
* `zip_imgdiff_applyImagePatch`: the patch of two zip files gives the target back.
-/

namespace Miui.Imgdiff

open Bsdiff ImgPatch CString

variable {s : Setup} {bz : Bzlib} {mem : Nat → (Nat → Int) × (Nat → Int)} {bonus : Option Bytes}

/-! ## How the chunks go into the file -/

/-- A source as it was, but for its suffix array. -/
def Indexed (s : Setup) (bz : Bzlib) (src src' : ImageChunk) : Prop :=
  (∃ I, src' = { src with I := I }) ∧ Reusable bz s.src src'

/-- Behind `n` rounds of the loop over two zip files. -/
structure ZipPatchedUpTo (s : Setup) (bz : Bzlib) (l : Lists) (n : Nat) (st : Lists × List Bytes) : Prop where
  count : st.2.length = n
  length : st.1.tgt_chunks.length = l.tgt_chunks.length
  sources : List.Forall₂ (Indexed s bz) l.src_chunks st.1.src_chunks
  later : ∀ j : Nat, n ≤ j → st.1.tgt_chunks[j]? = l.tgt_chunks[j]?
  done : ∀ j : Nat, j < n → ∃ src tgt chunk, l.tgt_chunks[j]? = some tgt ∧
    l.src_chunks[patchSource true l.src_chunks j tgt]? = some src ∧ st.1.tgt_chunks[j]? = some chunk.1 ∧
    st.2[j]? = some chunk.2 ∧ ChunkDone s bz none j src tgt chunk

theorem patchSource_indexed {l k : List ImageChunk} (h : List.Forall₂ (Indexed s bz) l k) (i : Nat)
    (tgt : ImageChunk) : patchSource true k i tgt = patchSource true l i tgt := by
  have hmap : k.map (fun ch => (ch.type, ch.filename)) = l.map fun ch => (ch.type, ch.filename) := by
    induction h with
    | nil => rfl
    | cons hch _ ih =>
      obtain ⟨⟨I, rfl⟩, -⟩ := hch
      rw [List.map_cons, List.map_cons, ih]
  have hfind : (fun name => findChunkByName name k) = fun name => findChunkByName name l := by
    funext name
    exact findChunkByName_congr hmap
  unfold patchSource
  rw [hfind]

theorem Forall₂.getElem?_right {R : ImageChunk → ImageChunk → Prop} {l k : List ImageChunk} (h : List.Forall₂ R l k)
    {j : Nat} {b : ImageChunk} (hj : k[j]? = some b) : ∃ a, l[j]? = some a ∧ R a b := by
  obtain ⟨hlt, rfl⟩ := List.getElem?_eq_some_iff.mp hj
  have hlt' : j < l.length := h.length_eq ▸ hlt
  exact ⟨l[j], List.getElem?_eq_getElem hlt', List.Forall₂.get h hlt' hlt⟩

theorem Forall₂.set {R : ImageChunk → ImageChunk → Prop} {l k : List ImageChunk} (h : List.Forall₂ R l k) {j : Nat}
    {a b : ImageChunk} (hj : l[j]? = some a) (hab : R a b) : List.Forall₂ R l (k.set j b) := by
  induction h generalizing j with
  | nil => cases hj
  | @cons a' b' l k hab' hrest ih =>
    cases j with
    | zero =>
      cases hj
      exact .cons hab hrest
    | succ j => exact .cons hab' (ih hj)

theorem zipPatchStep_spec (hbz : bz.Lossless) (hzip : s.zip_mode = true) {l : Lists} {i : Nat}
    {st st' : Lists × List Bytes} (hst : ZipPatchedUpTo s bz l i st)
    (h : patchStep s bz mem bonus i st = .ok st') : ZipPatchedUpTo s bz l (i + 1) st' := by
  obtain ⟨hcount, hlength, hsources, hlater, hdone⟩ := hst
  have htgt := hlater i (Nat.le_refl i)
  unfold patchStep at h
  rw [htgt] at h
  cases hi : l.tgt_chunks[i]? with
  | none =>
    rw [hi] at h
    cases h
  | some tgt =>
    rw [hi] at h
    dsimp only at h
    rw [hzip, patchSource_indexed hsources] at h
    cases hsource : st.1.src_chunks[patchSource true l.src_chunks i tgt]? with
    | none =>
      rw [hsource] at h
      cases h
    | some src' =>
      rw [hsource] at h
      dsimp only at h
      rw [if_pos rfl, Except.ok_bind] at h
      obtain ⟨⟨src₂, tgt', patch⟩, hmake, h⟩ := Except.bind_eq_ok.mp h
      cases h
      obtain ⟨src, hsrc, ⟨I, rfl⟩, hreusable⟩ := Forall₂.getElem?_right hsources hsource
      obtain ⟨⟨I', rfl⟩, hreusable', hcase⟩ := makePatch_cases hbz hreusable hmake
      obtain ⟨hlt, -⟩ := List.getElem?_eq_some_iff.mp hi
      refine ⟨?_, ?_, ?_, ?_, ?_⟩
      · rw [List.length_append, hcount, List.length_singleton]
      · rw [List.length_set, hlength]
      · exact Forall₂.set hsources hsrc ⟨⟨I', rfl⟩, hreusable'⟩
      · intro j hj
        rw [List.getElem?_set_ne (by omega)]
        exact hlater j (by omega)
      · intro j hj
        by_cases hij : i = j
        · subst hij
          refine ⟨src, tgt, (tgt', patch), hi, hsrc, List.getElem?_set_self (by omega), ?_, ?_⟩
          · rw [List.getElem?_append_right (by omega), hcount, Nat.sub_self]
            rfl
          · obtain ⟨htype, rfl, rfl⟩ | ⟨htgt', hshort, hpatches⟩ := hcase
            · exact .inl ⟨htype, rfl⟩
            · exact .inr ⟨src, rfl, htgt', hshort, hpatches⟩
        · obtain ⟨src', tgt'', chunk, ht, hs, ht', hp, hd⟩ := hdone j (by omega)
          refine ⟨src', tgt'', chunk, ht, hs, ?_, ?_, hd⟩
          · rw [List.getElem?_set_ne hij]
            exact ht'
          · rw [List.getElem?_append_left (by omega)]
            exact hp

/-- How each target chunk goes into the file. -/
theorem makeZipPatches_spec (hbz : bz.Lossless) (hzip : s.zip_mode = true) {l l' : Lists} {patches : List Bytes}
    (hI : ∀ src ∈ l.src_chunks, src.I = none) (h : makePatches s bz mem bonus l = .ok (l', patches)) :
    ZipPatchedUpTo s bz l l.tgt_chunks.length (l', patches) := by
  refine forUpTo_inv (ZipPatchedUpTo s bz l) ⟨rfl, rfl, ?_, fun _ _ => rfl, ?_⟩ ?_ h
  · refine List.forall₂_same.mpr fun src hsrc => ⟨⟨src.I, rfl⟩, ?_⟩
    intro old _
    rw [hI src hsrc]
    exact .null
  · intro j hj
    omega
  · intro i st st' _ hst hstep
    exact zipPatchStep_spec hbz hzip hst hstep

/-! ## What is read -/

variable {zlib : Zlib} {stands : Bytes → Bytes → Prop} {fresh : Nat → UInt8} {img : Image} {es : List ZipFileEntry}

/-- Each entry inflates to as many bytes as the directory says. -/
def FullEntries (zlib : Zlib) (img : Image) (es : List ZipFileEntry) : Prop := ∀ e ∈ es, ∀ data,
  zlib.inflate (img.bytes e.data_offset.toNat e.deflate_len.toNat) e.uncomp_len.toNat = some data →
    data.length = e.uncomp_len.toNat

theorem OfEntry.isFresh (hinf : ∀ stream room data, zlib.inflate stream room = some data → stands stream data)
    (hfull : FullEntries zlib img es) {ch : ImageChunk} (h : OfEntry zlib fresh img es ch) : Fresh stands img ch := by
  cases h with
  | normal start len data => exact ⟨by rintro ⟨⟩, by rintro ⟨⟩, rfl⟩
  | entry pos e data he hpos hinflate =>
    have hoff : e.data_offset.toNat = pos := by omega
    have hlen := hfull e he data (by rwa [hoff])
    refine ⟨fun _ => ⟨data, ?_, hlen.symm, rfl, hinf _ _ _ hinflate⟩, by rintro ⟨⟩, rfl⟩
    show Data.own (data ++ (List.range (e.uncomp_len.toNat - data.length)).map _) = .own data
    rw [hlen, Nat.sub_self, List.range_zero, List.map_nil, List.append_nil]

theorem OfEntry.not_raw {ch : ImageChunk} (h : OfEntry zlib fresh img es ch) : ch.type ≠ .raw := by
  cases h with
  | normal => rintro ⟨⟩
  | entry => rintro ⟨⟩

theorem readZip_spec {pseudo : Bool} {fuel : Nat} {chunks : List ImageChunk} (hes : zipEntries img.file.data = .ok es)
    (hapart : Apart img.size 0 es) (h : readZip zlib fresh img pseudo fuel = .ok chunks) :
    ∃ parts, chunks = (if pseudo then [pseudoChunk img] else []) ++ parts ∧ Tiles 0 parts img.size ∧
      (∀ ch ∈ parts, OfEntry zlib fresh img es ch) ∧
      (parts.filterMap (·.filename)).Sublist (es.map (·.filename)) := by
  unfold readZip at h
  rw [hes, Except.ok_bind] at h
  obtain ⟨parts, hparts, h⟩ := Except.bind_eq_ok.mp h
  cases h
  obtain ⟨htiles, hall, hnames⟩ := zipChunks_tiles hapart hparts
  exact ⟨parts, rfl, htiles, hall, hnames⟩

/-- A chunk of the source lies in the file. -/
theorem source_span {src_chunks parts : List ImageChunk} (htiles : Tiles 0 parts img.size)
    (hkept : KeptAll (pseudoChunk img :: parts) src_chunks) {j : Nat} {src : ImageChunk}
    (hsrc : src_chunks[j]? = some src) : ∃ n, src.span = some (src.start, n) ∧ src.start + n ≤ img.size := by
  obtain ⟨ch, hch, hk⟩ := hkept.2 j src hsrc
  obtain ⟨hstart, hspan⟩ := Prod.mk.inj hk.place
  rw [hstart, hspan]
  cases j with
  | zero =>
    cases hch
    exact ⟨img.size, rfl, Nat.le_of_eq (Nat.zero_add _)⟩
  | succ j => exact htiles.at hch

/-! ## The round trip -/

variable {c : Call}

/-- The patch that `imgdiff -z` makes for two zip files gives the target back, on a device that holds the source. The
entries of both files lie apart, those of the source are as long as its directory says, and no two of the target have
the same name. -/
theorem zip_imgdiff_applyImagePatch (hinf : ∀ stream room data, zlib.inflate stream room = some data → stands stream data)
    (hbz : bz.Lossless) {src tgt : Image} {fuel : Nat} (hdev : Device c zlib bz stands) (hlen : c.patch.length < 2 ^ 31)
    (hbonus : c.bonus_data = none) (hsource : Holds c src src.size) {src_entries tgt_entries : List ZipFileEntry}
    (hsrc_entries : zipEntries src.file.data = .ok src_entries) (hsrc_apart : Apart src.size 0 src_entries)
    (hfull : FullEntries zlib src src_entries) (htgt_entries : zipEntries tgt.file.data = .ok tgt_entries)
    (htgt_apart : Apart tgt.size 0 tgt_entries) (hnames : (tgt_entries.map (·.filename)).Nodup)
    (h : imgdiffZip ⟨zlib, true, src, tgt⟩ bz mem fresh fuel = .ok c.patch) :
    ∃ o, (∀ fuel, applyImagePatch c fuel = .ok o) ∧ o.accepted = tgt.file.data ∧ o.sha = tgt.file.data := by
  unfold imgdiffZip at h
  obtain ⟨src_chunks, hrsrc, h⟩ := Except.bind_eq_ok.mp h
  obtain ⟨tgt_chunks, hrtgt, h⟩ := Except.bind_eq_ok.mp h
  obtain ⟨l, hdemote, h⟩ := Except.bind_eq_ok.mp h
  obtain ⟨⟨l', patches⟩, hmake, h⟩ := Except.bind_eq_ok.mp h
  have hpatch : patchFile (l'.tgt_chunks.zip patches) = c.patch := Except.ok.inj h
  obtain ⟨parts, hparts, hstiles, hsall, -⟩ := readZip_spec hsrc_entries hsrc_apart hrsrc
  obtain ⟨parts', hparts', httiles, htall, htnames⟩ := readZip_spec htgt_entries htgt_apart hrtgt
  rw [if_pos rfl, List.singleton_append] at hparts
  rw [if_neg Bool.false_ne_true, List.nil_append] at hparts'
  subst hparts hparts'
  obtain ⟨hksrc, hktgt⟩ := demote_kept hdemote
  have hdistinct : DistinctNames tgt_chunks := htnames.nodup hnames
  have hmatched := matched_spec rfl hdistinct hdemote
  have hsfresh : ∀ ch ∈ l.src_chunks, Fresh stands src ch := by
    refine fresh_kept hksrc fun ch hch => ?_
    obtain rfl | hch := List.mem_cons.mp hch
    · exact ⟨by rintro ⟨⟩, by rintro ⟨⟩, rfl⟩
    · exact (hsall ch hch).isFresh hinf hfull
  have htiles := merge_tiles (hktgt.tiles httiles)
  have hI : ∀ ch ∈ (Lists.mk l.src_chunks (mergeAdjacentNormalChunks l.tgt_chunks)).src_chunks, ch.I = none :=
    fun ch hch => (hsfresh ch hch).I
  obtain ⟨hcount, hlength, -, -, hdone⟩ := makeZipPatches_spec hbz rfl hI hmake
  have hchunks : (l'.tgt_chunks.zip patches).length = (mergeAdjacentNormalChunks l.tgt_chunks).length := by
    rw [List.length_zip, hcount, hlength, Nat.min_self]
  have hsmall : src.size < 2 ^ 63 := by
    have hsize : src.size = src.file.data.length := rfl
    have := src.file.length_lt
    omega
  have hgood (i : Nat) (chunk : ImageChunk × Bytes) (out : Bytes) (hi : (l'.tgt_chunks.zip patches)[i]? = some chunk)
      (hi' : ((mergeAdjacentNormalChunks l.tgt_chunks).map (·.spanned tgt))[i]? = some out) :
      Writable chunk ∧ Good c i chunk out := by
    obtain ⟨hlt, -⟩ := List.getElem?_eq_some_iff.mp hi
    obtain ⟨source, target, chunk', ht, hs, ht', hp, hd⟩ := hdone i (hchunks ▸ hlt)
    dsimp only at ht hs
    have heq : chunk = chunk' := by
      obtain ⟨h₁, h₂⟩ := List.getElem?_zip_eq_some.mp hi
      exact Prod.ext (Option.some.inj (h₁.symm.trans ht')) (Option.some.inj (h₂.symm.trans hp))
    rw [List.getElem?_map, ht, Option.map_some] at hi'
    cases hi'
    subst heq
    obtain ⟨n, hspan, -⟩ := htiles.at ht
    have hmem := List.mem_of_getElem? ht
    have hraw : target.type ≠ .raw := by
      obtain hmem | ⟨htype, -⟩ := mem_merge hmem
      · obtain ⟨k, hk⟩ := List.mem_iff_getElem?.mp hmem
        obtain ⟨ch, hch, hkept⟩ := hktgt.2 k target hk
        exact hkept.not_raw (htall ch (List.mem_of_getElem? hch)).not_raw
      · rw [htype]
        decide
    -- a deflate chunk has the source of its name, another chunk the whole file
    have hmatch : source.type = target.type ∧ (target.type = .deflate → Reconstructed zlib tgt target) := by
      by_cases htype : target.type = .deflate
      · have hmem' : target ∈ l.tgt_chunks.filter fun ch => ch.type ≠ .normal := by
          rw [← merge_others, List.mem_filter]
          exact ⟨hmem, by simp [htype]⟩
        obtain ⟨k, hk⟩ := List.mem_iff_getElem?.mp (List.mem_filter.mp hmem').1
        obtain ⟨hklt, -⟩ := List.getElem?_eq_some_iff.mp hk
        obtain ⟨hrec, name, j, source', hname, hfind, hsource', -⟩ := hmatched k target hklt hk htype
        have hj : patchSource true l.src_chunks i target = j := by
          unfold patchSource
          rw [if_pos rfl, if_pos htype, hname, Option.bind_some, hfind, Option.getD_some]
        obtain ⟨ch, hch, hchtype, -⟩ := findChunkByName_some hfind
        rw [hj, hch] at hs
        cases hs
        exact ⟨hchtype.trans htype.symm, fun _ => hrec⟩
      · have hj : patchSource true l.src_chunks i target = 0 := by
          unfold patchSource
          rw [if_pos rfl, if_neg htype]
        rw [hj] at hs
        obtain ⟨ch, hch, hkept⟩ := hksrc.2 0 source hs
        cases hch
        have hnormal : source.type = .normal := by
          cases hkept with
          | params => rfl
          | demoted => rfl
        refine ⟨hnormal.trans ?_, fun h => absurd h htype⟩
        cases hcases : target.type with
        | normal => rfl
        | deflate => exact absurd hcases htype
        | raw => exact absurd hcases hraw
    exact hd.good hdev hlen hbonus hsmall hsource hmatch.1 (source_span hstiles hksrc hs)
      (hsfresh _ (List.mem_of_getElem? hs)) hraw hspan hmatch.2
  obtain ⟨o, hrun, hacc, hsha⟩ := applyImagePatch_file hdev.sink hlen (l'.tgt_chunks.zip patches)
    ((mergeAdjacentNormalChunks l.tgt_chunks).map (·.spanned tgt)) hpatch.symm (by rw [List.length_map, hchunks]) hgood
  have hout : ((mergeAdjacentNormalChunks l.tgt_chunks).map (·.spanned tgt)).flatten = tgt.file.data := by
    rw [← List.flatMap_def, htiles.contents, Nat.sub_zero, Image.bytes_file]
  exact ⟨o, hrun, hacc.trans hout, hsha.trans hout⟩

/-- A zip file with one entry, of `a`, and the time of its last change. -/
def oneEntry (time : UInt8) : Bytes :=
  [0x50, 0x4b, 3, 4, 20, 0, 0, 0, 8, 0, time, 0, 0, 0, 0x43, 0xbe, 0xb7, 0xe8, 3, 0, 0, 0, 1, 0, 0, 0, 1, 0, 0, 0,
    0x61, 0x4b, 0x04, 0x00,
    0x50, 0x4b, 1, 2, 20, 0, 20, 0, 0, 0, 8, 0, time, 0, 0, 0, 0x43, 0xbe, 0xb7, 0xe8, 3, 0, 0, 0, 1, 0, 0, 0, 1, 0,
    0, 0, 0, 0, 0, 0, 0, 0, 0, 0, 0, 0, 0, 0, 0, 0, 0x61,
    0x50, 0x4b, 5, 6, 0, 0, 0, 0, 1, 0, 1, 0, 47, 0, 0, 0, 34, 0, 0, 0, 0, 0]

theorem oneEntry_length (time : UInt8) : (oneEntry time).length < 2 ^ 31 := by
  show 103 < 2 ^ 31
  decide

def zipImage (time : UInt8) : Image := ⟨⟨oneEntry time, oneEntry_length time⟩, fun _ => 0⟩

def zipDiff : Except Stop Bytes :=
  imgdiffZip ⟨streamZlib, true, zipImage 0, zipImage 1⟩ marked (fun _ => (fun _ => 0, fun _ => 0)) (fun _ => 0) 10

def zipCall : Call where
  bz := marked
  zlib := streamZlib
  malloc := zeroMemory
  sink _ data := data.length
  old_data i := (zipImage 0).byte i.toNat
  patch := zipDiff.toOption.getD []
  bonus_data := none

def entryA : ZipFileEntry := ⟨31, 3, 1, [0x61]⟩

theorem zipEntries_oneEntry : zipEntries (oneEntry 0) = .ok [entryA] ∧ zipEntries (oneEntry 1) = .ok [entryA] := by
  constructor
  · rfl
  · rfl

theorem zipDiff_length : zipDiff.toOption.map List.length = some 123 := by decide +kernel

theorem zipCall_device : Device zipCall streamZlib marked InStreams where
  malloc _ := rfl
  sink _ _ := rfl
  bz := rfl
  inflate _ _ _ := streamZlib_inflate
  deflate _ _ outs _ h _ := ⟨outs, h, rfl⟩

theorem inStreams_of_inflate {stream data : Bytes} {room : Nat} (h : streamZlib.inflate stream room = some data) :
    InStreams stream data := by
  obtain ⟨e, he, h⟩ := Option.bind_eq_some_iff.mp h
  have hstream := List.find?_some he
  have hmem := List.mem_of_find?_eq_some he
  by_cases hroom : e.2.length ≤ room
  · rw [if_pos hroom] at h
    cases h
    cases beq_iff_eq.mp hstream
    exact hmem
  · rw [if_neg hroom] at h
    cases h

theorem zip_imgdiff_applyImagePatch_entry :
    ∃ o, (∀ fuel, applyImagePatch zipCall fuel = .ok o) ∧ o.accepted = oneEntry 1 ∧ o.sha = oneEntry 1 :=
  have h := ok_of_length zipDiff_length (by decide)
  have hapart (time : UInt8) : Apart (zipImage time).size 0 [entryA] := by
    refine ⟨by decide, by decide, ?_⟩
    show 34 ≤ 103
    decide
  have hfull : FullEntries streamZlib (zipImage 0) [entryA] := by
    intro e he data hdata
    cases List.mem_singleton.mp he
    cases (show some [0x61] = some data from hdata)
    rfl
  zip_imgdiff_applyImagePatch (fun _ _ _ => inStreams_of_inflate) marked_lossless zipCall_device h.2 rfl
    (fun i _ => congrArg (Image.byte (zipImage 0)) (Int.toNat_natCast i)) zipEntries_oneEntry.1 (hapart 0) hfull
    zipEntries_oneEntry.2 (hapart 1) (List.nodup_singleton _) h.1

end Miui.Imgdiff
