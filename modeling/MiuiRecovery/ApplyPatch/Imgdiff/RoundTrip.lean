import MiuiRecovery.ApplyPatch.Imgdiff.Write

/-!
# What imgdiff writes, ApplyImagePatch applies

The device has the zlib that the patch was made with: it decodes what the host decodes, and what `deflate` makes of
some data does not depend on the room that its calls have.

* `applyChunks_records`: chunks whose records and bodies lie in the patch are produced, one behind the other.
* `makePatches_spec`: how each target chunk goes into the file.
* `imgdiff_applyImagePatch`: the patch of two images gives the target back.
-/

namespace Miui.Imgdiff

open Bsdiff ImgPatch

variable {c : Call}

/-! ## Chunks that are produced -/

theorem sinkPieces_full (hsink : ∀ calls data, c.sink calls data = (data.length : Int)) (pieces : List Bytes)
    (o : Output) : ∃ o', sinkPieces c pieces o = .ok o' ∧ Adds pieces.flatten o o' := by
  obtain herr | h := sinkPieces_cases (c := c) pieces o
  · exfalso
    induction pieces generalizing o with
    | nil => cases herr
    | cons piece pieces ih =>
      rw [sinkPieces, Output.sink] at herr
      dsimp only at herr
      rw [if_neg (not_not.mpr (hsink _ _))] at herr
      exact ih _ herr
  · exact h

/-- With a sink that takes everything, a chunk that can be produced is. -/
theorem applyChunk_produce (hsink : ∀ calls data, c.sink calls data = (data.length : Int)) {i : Nat} {chunk : Chunk}
    {out : Bytes} (h : produce c i chunk = some out) (o : Output) :
    ∃ o', (∀ fuel, applyChunk c fuel i chunk o = .ok o') ∧ Adds out o o' := by
  cases chunk with
  | normal src_start src_len patch_offset =>
    rw [produce] at h
    cases hnew : c.bspatch (c.source (offT src_start) (offT src_len)) patch_offset with
    | error stop =>
      rw [hnew] at h
      cases h
    | ok new_data =>
      rw [hnew] at h
      cases h
      refine ⟨_, fun fuel => ?_, adds_sink (Int.le_of_eq (hsink o.calls out).symm)⟩
      rw [applyChunk, applyBSDiffPatch, hnew, sinkPatched, Output.sink]
      dsimp only
      rw [if_neg (by rw [hsink]; omega)]
      rfl
  | raw data =>
    cases h
    refine ⟨_, fun fuel => ?_, adds_sink (Int.le_of_eq (hsink o.calls out).symm)⟩
    rw [applyChunk, Output.sink]
    dsimp only
    rw [if_neg (not_not.mpr (hsink _ _))]
    rfl
  | deflate src_start src_len patch_offset expanded_len params =>
    rw [produce] at h
    obtain ⟨expanded, hexpanded, h⟩ := Option.bind_eq_some_iff.mp h
    obtain ⟨target, htarget, h⟩ := Option.bind_eq_some_iff.mp h
    obtain ⟨pieces, hpieces, h⟩ := Option.bind_eq_some_iff.mp h
    cases h
    obtain ⟨o', hrun, hadds⟩ := sinkPieces_full hsink pieces o
    refine ⟨o', fun fuel => ?_, hadds⟩
    have hexpanded : expandSource c i src_start src_len expanded_len = .ok expanded := by
      cases he : expandSource c i src_start src_len expanded_len with
      | error stop =>
        rw [he] at hexpanded
        cases hexpanded
      | ok e =>
        rw [he] at hexpanded
        cases hexpanded
        rfl
    have htarget : c.bspatch expanded patch_offset = .ok target := by
      cases he : c.bspatch expanded patch_offset with
      | error stop =>
        rw [he] at htarget
        cases htarget
      | ok e =>
        rw [he] at htarget
        cases htarget
        rfl
    rw [applyChunk, hexpanded, Except.ok_bind, htarget, Except.ok_bind, hpieces, sinkDeflated, hrun]

/-- Wherever the body of the chunk lies in the patch, its record there gives `out`. -/
def Good (c : Call) (i : Nat) (chunk : ImageChunk × Bytes) (out : Bytes) : Prop :=
  ∀ pre post, c.patch = pre ++ (body chunk ++ post) → produce c i (chunkOf chunk pre.length) = some out

/-- The chunks are produced, one behind the other. -/
theorem applyChunks_records (hsink : ∀ calls data, c.sink calls data = (data.length : Int))
    (hlen : c.patch.length < 2 ^ 31) (chunks : List (ImageChunk × Bytes)) (outs : List Bytes) (i : Nat)
    (hsame : outs.length = chunks.length)
    (hgood : ∀ (k : Nat) chunk out, chunks[k]? = some chunk → outs[k]? = some out →
      Writable chunk ∧ Good c (i + k) chunk out)
    (pre post bpre bpost : Bytes) (hrecords : c.patch = pre ++ (records chunks bpre.length ++ post))
    (hbodies : c.patch = bpre ++ (chunks.flatMap body ++ bpost)) (o : Output) :
    ∃ o', (∀ fuel, applyChunks c fuel chunks.length i pre.length o = .ok o') ∧ Adds outs.flatten o o' := by
  induction chunks generalizing outs i pre bpre o with
  | nil =>
    rw [List.length_eq_zero_iff.mp hsame]
    exact ⟨o, fun fuel => rfl, .refl o⟩
  | cons chunk chunks ih =>
    obtain ⟨out, outs, rfl⟩ := List.exists_cons_of_length_eq_add_one hsame
    obtain ⟨hwritable, hchunk⟩ := hgood 0 chunk out rfl rfl
    rw [Nat.add_zero] at hchunk
    rw [records, List.append_assoc] at hrecords
    rw [List.flatMap_cons, List.append_assoc] at hbodies
    have hoffset : bpre.length < 2 ^ 64 := by
      have := congrArg List.length hbodies
      rw [List.length_append] at this
      omega
    have hread := readChunk_record hwritable hoffset hlen hrecords rfl
    obtain ⟨o₁, hrun, hadds⟩ := applyChunk_produce hsink (hchunk bpre _ hbodies) o
    have hpre : pre.length + (record chunk bpre.length).length = (pre ++ record chunk bpre.length).length := by
      rw [List.length_append]
    have hbpre : bpre.length + (body chunk).length = (bpre ++ body chunk).length := by
      rw [List.length_append]
    rw [hpre] at hread
    rw [hbpre, ← List.append_assoc] at hrecords
    rw [← List.append_assoc] at hbodies
    obtain ⟨o', hrest, hadds'⟩ := ih outs (i + 1) (Nat.succ.inj hsame)
      (fun k chunk' out' hk hk' => by
        have := hgood (k + 1) chunk' out' hk hk'
        rwa [Nat.add_comm k 1, ← Nat.add_assoc] at this)
      (pre ++ record chunk bpre.length) (bpre ++ body chunk) hrecords hbodies o₁
    refine ⟨o', fun fuel => ?_, hadds.trans hadds'⟩
    rw [List.length_cons, applyChunks, hread, Except.ok_bind]
    dsimp only
    rw [hrun fuel, Except.ok_bind, hrest fuel]

theorem records_length (chunks : List (ImageChunk × Bytes)) (offset : Nat) :
    (records chunks offset).length = (chunks.map headerSize).sum := by
  induction chunks generalizing offset with
  | nil => rfl
  | cons chunk chunks ih => rw [records, List.length_append, record_length, ih, List.map_cons, List.sum_cons]

/-- A file of chunks that are produced is applied. -/
theorem applyImagePatch_file (hsink : ∀ calls data, c.sink calls data = (data.length : Int))
    (hlen : c.patch.length < 2 ^ 31) (chunks : List (ImageChunk × Bytes)) (outs : List Bytes)
    (hpatch : c.patch = patchFile chunks) (hsame : outs.length = chunks.length)
    (hgood : ∀ (k : Nat) chunk out, chunks[k]? = some chunk → outs[k]? = some out →
      Writable chunk ∧ Good c k chunk out) :
    ∃ o, (∀ fuel, applyImagePatch c fuel = .ok o) ∧ o.accepted = outs.flatten ∧ o.sha = outs.flatten := by
  unfold patchFile at hpatch
  have hmagic : (Bytes.ascii "IMGDIFF2").length = 8 := rfl
  generalize hM : Bytes.ascii "IMGDIFF2" = M at hmagic hpatch
  have hpre : (M ++ write4 chunks.length).length = 12 := by
    rw [List.length_append, hmagic, write4_length]
  have hbpre : (M ++ write4 chunks.length ++ records chunks (12 + (chunks.map headerSize).sum)).length =
      12 + (chunks.map headerSize).sum := by
    rw [List.length_append, hpre, records_length]
  have htotal := congrArg List.length hpatch
  rw [List.length_append, hbpre] at htotal
  have hcount : chunks.length ≤ (chunks.map headerSize).sum := by
    clear * -
    induction chunks with
    | nil => exact Nat.le_refl _
    | cons chunk chunks ih =>
      rw [List.map_cons, List.sum_cons, List.length_cons, headerSize]
      omega
  have hhead : readHeader c.patch = .ok (chunks.length : Int) := by
    have htake : c.patch.take 8 = M := by
      rw [hpatch, List.append_assoc, List.append_assoc, List.take_left' hmagic]
    have hread := read4_at c.patch M 8
      (by rw [hpatch]; simp only [List.append_assoc]; rfl) hmagic.symm
      (show IsInt (chunks.length : Int) from ⟨by omega, by omega⟩)
    unfold readHeader
    rw [if_neg (by omega), htake, hM, if_neg (not_not.mpr rfl), hread]
  obtain ⟨o, hrun, hadds⟩ := applyChunks_records hsink hlen chunks outs 0 hsame
    (fun k chunk out hk hk' => by
      rw [Nat.zero_add]
      exact hgood k chunk out hk hk')
    (M ++ write4 chunks.length) (chunks.flatMap body)
    (M ++ write4 chunks.length ++ records chunks (12 + (chunks.map headerSize).sum)) []
    (by rw [hbpre, hpatch, List.append_assoc])
    (by rw [List.append_nil]; exact hpatch) ⟨[], []⟩
  refine ⟨o, fun fuel => ?_, hadds.accepted, hadds.sha⟩
  have hrun := hrun fuel
  rw [hpre] at hrun
  unfold applyImagePatch
  rw [hhead, Except.ok_bind, Int.toNat_natCast, hrun]

/-! ## The device -/

/-- What the device has: memory, a sink that takes everything, the libraries that the patch was made with. What `deflate`
makes of some data does not depend on the room that its calls have. -/
structure Device (c : Call) (zlib : Zlib) (bz : Bzlib) (stands : Bytes → Bytes → Prop) : Prop where
  malloc : ∀ n, (c.malloc n).isSome
  sink : ∀ calls data, c.sink calls data = (data.length : Int)
  bz : c.bz = bz
  inflate : ∀ stream data room, stands stream data → data.length ≤ room → c.zlib.inflate stream room = some data
  deflate : ∀ params data outs room, zlib.deflate params data BUFFER_SIZE = some outs → BUFFER_SIZE ≤ room →
    ∃ outs', c.zlib.deflate params data room = some outs' ∧ outs'.flatten = outs.flatten

variable {zlib : Zlib} {bz : Bzlib} {stands : Bytes → Bytes → Prop}

theorem freshMemory_getD {n : Nat} (v : List.Vector UInt8 n) :
    freshMemory (fun _ i => v.toList.getD i 0) n = v.toList := by
  refine List.ext_getElem (by rw [freshMemory_length, v.toList_length]) fun i hi hi' => ?_
  simp only [freshMemory, List.getElem_map, List.getElem_range, List.getD_eq_getElem?_getD,
    List.getElem?_eq_getElem hi', Option.getD_some]

/-- A patch in the file is applied. -/
theorem bspatch_patches (hmalloc : ∀ n, (c.malloc n).isSome) (hlen : c.patch.length < 2 ^ 31) {old new patch pre post : Bytes}
    (hpatch : c.patch = pre ++ (patch ++ post)) (h : Patches c.bz old new patch) :
    c.bspatch old pre.length = .ok new := by
  have hoff : offT pre.length = (pre.length : Int) := by
    have := congrArg List.length hpatch
    rw [List.length_append] at this
    exact offT_eq (by omega) (by omega)
  have hfun : c.malloc = fun n => some ((c.malloc n).get (hmalloc n)) := by
    funext n
    rw [Option.some_get]
  have hrun := h (fun n i => ((c.malloc n).get (hmalloc n)).toList.getD i 0) pre post
  have hmem : freshMemory (fun n i => ((c.malloc n).get (hmalloc n)).toList.getD i 0) =
      fun n => ((c.malloc n).get (hmalloc n)).toList := by
    funext n
    exact freshMemory_getD _
  rw [hmem, List.append_assoc, ← hpatch] at hrun
  unfold Call.bspatch
  rw [hoff, hfun, applyAt_eq_apply c.bz (fun n => (c.malloc n).get (hmalloc n)) old (by omega) (by rw [hrun]; rintro ⟨⟩),
    hrun]

/-- A raw chunk is its body. -/
theorem good_raw {i : Nat} {ch : ImageChunk} {patch : Bytes} (htype : ch.type = .raw) : Good c i (ch, patch) patch := by
  intro pre post _
  unfold chunkOf
  dsimp only
  rw [htype]
  rfl

theorem good_normal (hdev : Device c zlib bz stands) (hlen : c.patch.length < 2 ^ 31) {i : Nat} {ch : ImageChunk}
    {old new patch : Bytes} (htype : ch.type = .normal)
    (hsource : c.source (offT ch.source_start) (offT ch.source_len) = old) (hpatch : Patches bz old new patch) :
    Good c i (ch, patch) new := by
  intro pre post hfile
  have hbody : body (ch, patch) = patch := if_pos (by rw [htype]; decide)
  rw [hbody] at hfile
  have hrun := bspatch_patches hdev.malloc hlen hfile (hdev.bz ▸ hpatch)
  unfold chunkOf
  dsimp only
  rw [htype]
  show (c.bspatch (c.source (offT ch.source_start) (offT ch.source_len)) pre.length).toOption = some new
  rw [hsource, hrun]
  rfl

theorem good_deflate (hdev : Device c zlib bz stands) (hlen : c.patch.length < 2 ^ 31) {i : Nat} {ch : ImageChunk}
    {old new patch : Bytes} {outs : List Bytes} (htype : ch.type = .deflate)
    (hsource : expandSource c i ch.source_start ch.source_len ch.source_uncompressed_len = .ok old)
    (hpatch : Patches bz old new patch) (hroom : ch.source_uncompressed_len < 2 ^ 63)
    (hdeflate : zlib.deflate ch.params new BUFFER_SIZE = some outs) :
    Good c i (ch, patch) outs.flatten := by
  intro pre post hfile
  have hbody : body (ch, patch) = patch := if_pos (by rw [htype]; decide)
  rw [hbody] at hfile
  have hrun := bspatch_patches hdev.malloc hlen hfile (hdev.bz ▸ hpatch)
  have htarget : ∃ pieces, deflateTarget c ch.source_uncompressed_len ch.params new = some pieces ∧
      pieces.flatten = outs.flatten := by
    have hoff : offT ch.source_uncompressed_len = (ch.source_uncompressed_len : Int) := offT_eq (by omega) (by omega)
    unfold deflateTarget
    dsimp only
    rw [hoff]
    by_cases hshort : (ch.source_uncompressed_len : Int) < 32768
    · rw [if_pos hshort]
      obtain ⟨m, hm⟩ := Option.isSome_iff_exists.mp (hdev.malloc 32768)
      rw [hm, Option.bind_some]
      exact hdev.deflate _ _ _ _ hdeflate (Nat.le_refl _)
    · rw [if_neg hshort, Int.toNat_natCast]
      have hbuffer : BUFFER_SIZE = 32768 := rfl
      exact hdev.deflate _ _ _ _ hdeflate (by omega)
  obtain ⟨pieces, hpieces, hflatten⟩ := htarget
  unfold chunkOf
  dsimp only
  rw [htype]
  show ((expandSource c i ch.source_start ch.source_len ch.source_uncompressed_len).toOption.bind fun expanded =>
    (c.bspatch expanded pre.length).toOption.bind fun target =>
      (deflateTarget c ch.source_uncompressed_len ch.params target).bind fun pieces => some pieces.flatten) =
    some outs.flatten
  rw [hsource, Except.toOption, Option.bind_some, hrun, Except.toOption, Option.bind_some, hpieces, Option.bind_some,
    hflatten]

/-! ## How the chunks go into the file -/

variable {s : Setup} {mem : Nat → (Nat → Int) × (Nat → Int)} {bonus : Option Bytes}

/-- A target chunk and its source, and what goes into the file for them. -/
def ChunkDone (s : Setup) (bz : Bzlib) (bonus : Option Bytes) (i : Nat) (src tgt : ImageChunk)
    (chunk : ImageChunk × Bytes) : Prop :=
  (tgt.type = .normal ∧ chunk = ({ tgt with type := .raw }, tgt.contents s.tgt)) ∨
  ∃ src', addBonus bonus i src = .ok src' ∧ chunk.1 = located src' tgt ∧ (src'.contents s.src).length < 2 ^ 31 ∧
    Patches bz (src'.contents s.src) (tgt.contents s.tgt) chunk.2

/-- Behind `n` rounds of the loop over two images. -/
structure PatchedUpTo (s : Setup) (bz : Bzlib) (bonus : Option Bytes) (l : Lists) (n : Nat) (st : Lists × List Bytes) :
    Prop where
  count : st.2.length = n
  length : st.1.tgt_chunks.length = l.tgt_chunks.length
  later : ∀ j : Nat, n ≤ j → st.1.src_chunks[j]? = l.src_chunks[j]? ∧ st.1.tgt_chunks[j]? = l.tgt_chunks[j]?
  done : ∀ j : Nat, j < n → ∃ src tgt chunk, l.src_chunks[j]? = some src ∧ l.tgt_chunks[j]? = some tgt ∧
    st.1.tgt_chunks[j]? = some chunk.1 ∧ st.2[j]? = some chunk.2 ∧ ChunkDone s bz bonus j src tgt chunk

theorem addBonus_I {i : Nat} {src src' : ImageChunk} (h : addBonus bonus i src = .ok src') : src'.I = src.I := by
  unfold addBonus at h
  cases bonus with
  | none =>
    cases h
    rfl
  | some bonus_data =>
    dsimp only at h
    by_cases hi : i = 1
    · rw [if_pos hi] at h
      cases hd : src.data with
      | own bytes =>
        rw [hd] at h
        cases h
        rfl
      | image off =>
        rw [hd] at h
        cases h
    · rw [if_neg hi] at h
      cases h
      rfl

theorem patchStep_spec (hbz : bz.Lossless) (hzip : s.zip_mode = false) {l : Lists}
    (hI : ∀ src ∈ l.src_chunks, src.I = none) {i : Nat} {st st' : Lists × List Bytes}
    (hst : PatchedUpTo s bz bonus l i st) (h : patchStep s bz mem bonus i st = .ok st') :
    PatchedUpTo s bz bonus l (i + 1) st' := by
  obtain ⟨hcount, hlength, hlater, hdone⟩ := hst
  obtain ⟨hsrc, htgt⟩ := hlater i (Nat.le_refl i)
  unfold patchStep at h
  cases hi : l.tgt_chunks[i]? with
  | none =>
    rw [htgt, hi] at h
    cases h
  | some tgt =>
    rw [htgt, hi] at h
    have hj : patchSource s.zip_mode st.1.src_chunks i tgt = i := by
      unfold patchSource
      rw [hzip]
      rfl
    dsimp only at h
    rw [hj, hsrc] at h
    cases hsource : l.src_chunks[i]? with
    | none =>
      rw [hsource] at h
      cases h
    | some src =>
      rw [hsource] at h
      dsimp only at h
      rw [hzip, if_neg Bool.false_ne_true] at h
      obtain ⟨src₁, hbonus, h⟩ := Except.bind_eq_ok.mp h
      obtain ⟨⟨src₂, tgt', patch⟩, hmake, h⟩ := Except.bind_eq_ok.mp h
      cases h
      have hreusable : Reusable bz s.src src₁ := by
        intro old _
        rw [addBonus_I hbonus, hI src (List.mem_of_getElem? hsource)]
        exact .null
      obtain ⟨-, -, hcase⟩ := makePatch_cases hbz hreusable hmake
      obtain ⟨hlt, -⟩ := List.getElem?_eq_some_iff.mp hi
      refine ⟨?_, ?_, ?_, ?_⟩
      · rw [List.length_append, hcount, List.length_singleton]
      · rw [List.length_set, hlength]
      · intro j hj
        rw [List.getElem?_set_ne (by omega), List.getElem?_set_ne (by omega)]
        exact hlater j (by omega)
      · intro j hj
        by_cases hij : i = j
        · subst hij
          refine ⟨src, tgt, (tgt', patch), hsource, hi, List.getElem?_set_self (by omega), ?_, ?_⟩
          · rw [List.getElem?_append_right (by omega), hcount, Nat.sub_self]
            rfl
          · obtain ⟨htype, rfl, rfl⟩ | ⟨htgt', hshort, hpatches⟩ := hcase
            · exact .inl ⟨htype, rfl⟩
            · exact .inr ⟨src₁, hbonus, htgt', hshort, hpatches⟩
        · obtain ⟨src', tgt'', chunk, hs, ht, ht', hp, hd⟩ := hdone j (by omega)
          refine ⟨src', tgt'', chunk, hs, ht, ?_, ?_, hd⟩
          · rw [List.getElem?_set_ne hij]
            exact ht'
          · rw [List.getElem?_append_left (by omega)]
            exact hp

/-- How each target chunk goes into the file. -/
theorem makePatches_spec (hbz : bz.Lossless) (hzip : s.zip_mode = false) {l l' : Lists} {patches : List Bytes}
    (hI : ∀ src ∈ l.src_chunks, src.I = none) (h : makePatches s bz mem bonus l = .ok (l', patches)) :
    PatchedUpTo s bz bonus l l.tgt_chunks.length (l', patches) := by
  refine forUpTo_inv (PatchedUpTo s bz bonus l) ⟨rfl, rfl, fun _ _ => ⟨rfl, rfl⟩, ?_⟩ ?_ h
  · intro j hj
    omega
  · intro i st st' _ hst hstep
    exact patchStep_spec hbz hzip hI hst hstep

/-! ## The chunks that are left -/

/-- What is known of a chunk since its image was read. -/
structure Fresh (stands : Bytes → Bytes → Prop) (img : Image) (ch : ImageChunk) : Prop where
  expanded : Expanded stands img ch
  not_raw : ch.type ≠ .raw
  I : ch.I = none

theorem fresh_merge {img : Image} {chunks : List ImageChunk} (h : ∀ ch ∈ chunks, Fresh stands img ch) :
    ∀ ch ∈ mergeAdjacentNormalChunks chunks, Fresh stands img ch := by
  intro ch hch
  obtain hmem | ⟨htype, slot, hslot, hI⟩ := mem_merge hch
  · exact h ch hmem
  · refine ⟨fun hd => ?_, ?_, hI.trans (h slot hslot).I⟩
    · rw [htype] at hd
      cases hd
    · rw [htype]
      decide

theorem fresh_kept {img : Image} {chunks chunks' : List ImageChunk} (hk : KeptAll chunks chunks')
    (h : ∀ ch ∈ chunks, Fresh stands img ch) : ∀ ch ∈ chunks', Fresh stands img ch := by
  intro ch' hch'
  obtain ⟨i, hi⟩ := List.mem_iff_getElem?.mp hch'
  obtain ⟨ch, hch, hkept⟩ := hk.2 i ch' hi
  obtain ⟨hexpanded, hraw, hI⟩ := h ch (List.mem_of_getElem? hch)
  cases hkept with
  | params params => exact ⟨hexpanded, hraw, hI⟩
  | demoted params htype => exact ⟨by rintro ⟨⟩, by rintro ⟨⟩, hI⟩

theorem fresh_read {z : Inflater} (hz : z.Lawful stands) {img : Image} {fuel : Nat} {chunks : List ImageChunk}
    (h : readImage z img fuel = .ok chunks) : ∃ stop, Parts stands img 0 chunks stop ∧ Tiles 0 chunks stop ∧
      img.size ≤ stop ∧ stop ≤ img.size + 4 ∧ ∀ ch ∈ chunks, Fresh stands img ch := by
  obtain ⟨stop, hparts⟩ := (readImage_iff hz img chunks).mp ⟨fuel, h⟩
  obtain ⟨htiles, hsize, hstop, hall⟩ := hparts.tiles (Nat.zero_le _)
  refine ⟨stop, hparts, htiles, hsize, hstop, ?_⟩
  intro ch hch
  obtain ⟨hexpanded, hraw, hI⟩ := hall ch hch
  exact ⟨hexpanded, hraw, hI⟩

/-- A chunk of a tiling lies in it. -/
theorem Tiles.at {chunks : List ImageChunk} {a b i : Nat} {ch : ImageChunk} (h : Tiles a chunks b)
    (hi : chunks[i]? = some ch) : ∃ n, ch.span = some (ch.start, n) ∧ ch.start + n ≤ b := by
  induction chunks generalizing a i with
  | nil => cases hi
  | cons c chunks ih =>
    obtain ⟨n, hstart, hspan, hrest⟩ := h
    cases i with
    | zero =>
      cases hi
      rw [hstart]
      exact ⟨n, hspan, hrest.le⟩
    | succ i => exact ih hrest hi

/-! ## The sources on the device -/

/-- The device holds the source up to `stop`. -/
def Holds (c : Call) (img : Image) (stop : Nat) : Prop := ∀ i : Nat, i < stop → c.old_data i = img.byte i

theorem Holds.source {img : Image} {stop start n : Nat} (h : Holds c img stop) (hfit : start + n ≤ stop)
    (hstop : stop < 2 ^ 63) : c.source (offT start) n = img.bytes start n := by
  have hmap : c.source (offT start) n = (List.range n).map fun i : Nat => c.old_data (start + (i : Int)) := by
    unfold Call.source
    rw [offT_eq (by omega) (by omega), Int.toNat_natCast, List.map_eq_flatMap (l := List.range n)]
    simp [List.map_flatMap]
  rw [hmap, Image.bytes]
  refine List.map_congr_left fun i hi => ?_
  rw [← h (start + i) (by have := List.mem_range.mp hi; omega), Int.natCast_add]

theorem spanned_normal {img : Image} {ch : ImageChunk} {s : Nat × Nat} (htype : ch.type = .normal)
    (h : ch.span = some s) : ch.contents img = ch.spanned img := by
  obtain ⟨hd, hlen⟩ := span_normal htype h
  rw [ImageChunk.spanned, h, ImageChunk.contents, hd, hlen]
  rfl

theorem encoderParams_isInt {level : Int} (h : level = 6 ∨ level = 9) :
    IsInt (encoderParams level).level ∧ IsInt (encoderParams level).method ∧ IsInt (encoderParams level).windowBits ∧
      IsInt (encoderParams level).memLevel ∧ IsInt (encoderParams level).strategy := by
  unfold IsInt
  obtain rfl | rfl := h
  · decide
  · decide

/-- What goes into the file for a chunk of two images gives the chunk back. -/
theorem ChunkDone.good (hdev : Device c s.zlib bz stands) (hlen : c.patch.length < 2 ^ 31)
    (hbonus : c.bonus_data = bonus) {stop : Nat} (hstop : stop < 2 ^ 63) (hsource : Holds c s.src stop)
    {i : Nat} {src tgt : ImageChunk} {chunk : ImageChunk × Bytes} (h : ChunkDone s bz bonus i src tgt chunk)
    (htypes : src.type = tgt.type) (hsrc : ∃ n, src.span = some (src.start, n) ∧ src.start + n ≤ stop)
    (hfresh : Fresh stands s.src src) (hnotraw : tgt.type ≠ .raw) {span : Nat × Nat} (htgt : tgt.span = some span)
    (hrec : tgt.type = .deflate → Reconstructed s.zlib s.tgt tgt) :
    Writable chunk ∧ Good c i chunk (tgt.spanned s.tgt) := by
  obtain ⟨n, hspan, hfit⟩ := hsrc
  obtain ⟨htype, rfl⟩ | ⟨src', hadd, hlocated, hshort, hpatches⟩ := h
  · rw [spanned_normal htype htgt]
    exact ⟨⟨fun h => absurd rfl h, by rintro ⟨⟩, by rintro ⟨⟩⟩, good_raw rfl⟩
  · obtain ⟨ch, patch⟩ := chunk
    dsimp only at hlocated hpatches
    subst hlocated
    cases htype : tgt.type with
    | raw => exact absurd htype hnotraw
    | normal =>
      have hstype : src.type = .normal := htypes.trans htype
      obtain ⟨hdata, hslen⟩ := span_normal hstype hspan
      -- bonus data would be added to memory that the chunk does not have
      have hsame : src' = src := by
        unfold addBonus at hadd
        cases bonus with
        | none =>
          cases hadd
          rfl
        | some bonus_data =>
          dsimp only at hadd
          by_cases hi : i = 1
          · rw [if_pos hi, hdata] at hadd
            cases hadd
          · rw [if_neg hi] at hadd
            cases hadd
            rfl
      subst hsame
      have hl : located src' tgt = { tgt with source_start := src'.start, source_len := src'.len } := by
        unfold located
        rw [htype]
      rw [hl]
      have hsl : src'.len = n := hslen
      refine ⟨⟨fun _ => ⟨?_, ?_⟩, ?_, ?_⟩, ?_⟩
      · show src'.start < 2 ^ 64
        omega
      · show src'.len < 2 ^ 64
        omega
      · intro hd
        exact absurd (htype.symm.trans hd) (by decide)
      · intro hd
        exact absurd (htype.symm.trans hd) (by decide)
      · rw [← spanned_normal htype htgt]
        refine good_normal hdev hlen htype ?_ hpatches
        show c.source (offT src'.start) (offT src'.len) = src'.contents s.src
        rw [hsl, show offT (n : Int) = n from offT_eq (by omega) (by omega), hsource.source hfit hstop,
          ImageChunk.contents, hdata, hsl]
        rfl
    | deflate =>
      have hstype : src.type = .deflate := htypes.trans htype
      obtain ⟨data, hdata, hdlen, hstart, hstands⟩ := hfresh.expanded hstype
      obtain ⟨⟨level, hlevel, hparams⟩, outs, houts, hflatten⟩ := hrec htype
      have hsspan : src.deflate_len = n := by
        unfold ImageChunk.span at hspan
        rw [hstype] at hspan
        exact (Prod.mk.inj (Option.some.inj hspan)).2
      have hadded : src'.start = src.start ∧ src'.deflate_len = src.deflate_len ∧
          src'.contents s.src = data ++ (if i = 1 then bonus.getD [] else []) ∧
          src'.len = data.length + (if i = 1 then bonus.getD [] else []).length := by
        have hplain : src.contents s.src = data := by
          rw [ImageChunk.contents, hdata, hdlen]
          exact List.take_length
        unfold addBonus at hadd
        cases bonus with
        | none =>
          cases hadd
          have hnil : (if i = 1 then (none : Option Bytes).getD [] else []) = [] := by
            by_cases hi : i = 1
            · rw [if_pos hi]
              rfl
            · rw [if_neg hi]
          rw [hnil, List.append_nil]
          exact ⟨rfl, rfl, hplain, hdlen⟩
        | some bonus_data =>
          dsimp only at hadd
          by_cases hi : i = 1
          · rw [if_pos hi, hdata] at hadd
            cases hadd
            rw [if_pos hi]
            refine ⟨rfl, rfl, ?_, ?_⟩
            · show (data.take src.len ++ bonus_data).take (src.len + bonus_data.length) = data ++ bonus_data
              rw [hdlen, List.take_length, ← List.length_append, List.take_length]
            · show src.len + bonus_data.length = data.length + bonus_data.length
              rw [hdlen]
          · rw [if_neg hi] at hadd
            cases hadd
            rw [if_neg hi, List.append_nil]
            exact ⟨rfl, rfl, hplain, hdlen⟩
      obtain ⟨hstart', hdeflate', hcontents', hlen'⟩ := hadded
      have hl : located src' tgt = { tgt with
          source_start := src'.start
          source_len := src'.deflate_len
          source_uncompressed_len := src'.len } := by
        unfold located
        rw [htype]
      rw [hl]
      have htspan : tgt.spanned s.tgt = outs.flatten := by
        rw [hflatten, ImageChunk.spanned, ImageChunk.span, htype]
        rfl
      have hroom : src'.len < 2 ^ 31 := by
        rw [hcontents', List.length_append] at hshort
        omega
      refine ⟨⟨fun _ => ⟨?_, ?_⟩, fun _ => ?_, fun _ => ?_⟩, ?_⟩
      · show src'.start < 2 ^ 64
        omega
      · show src'.deflate_len < 2 ^ 64
        omega
      · show src'.len < 2 ^ 64
        omega
      · show IsInt tgt.params.level ∧ IsInt tgt.params.method ∧ IsInt tgt.params.windowBits ∧
          IsInt tgt.params.memLevel ∧ IsInt tgt.params.strategy
        rw [hparams]
        exact encoderParams_isInt hlevel
      · rw [htspan]
        refine good_deflate hdev hlen htype ?_ hpatches ?_ houts
        · show expandSource c i src'.start src'.deflate_len src'.len = .ok (src'.contents s.src)
          obtain ⟨m, hm⟩ := Option.isSome_iff_exists.mp (hdev.malloc src'.len)
          have hinflate := hdev.inflate _ data src'.len hstands (by omega)
          rw [← hstart, hsspan, ← hsource.source hfit hstop, ← hstart', ← hsspan, ← hdeflate'] at hinflate
          unfold expandSource
          dsimp only
          rw [hbonus, hm, hinflate]
          dsimp only
          rw [if_neg (by rw [hlen']; exact fun h => h rfl), hcontents']
          rfl
        · show src'.len < 2 ^ 63
          omega

/-- The chunks of two images, as they are when their patches are made. -/
structure Ready (s : Setup) (stands : Bytes → Bytes → Prop) (l : Lists) (srcStop tgtStop : Nat) : Prop where
  types : l.src_chunks.map (·.type) = l.tgt_chunks.map (·.type)
  src : Tiles 0 l.src_chunks srcStop
  tgt : Tiles 0 l.tgt_chunks tgtStop
  src_fresh : ∀ ch ∈ l.src_chunks, Fresh stands s.src ch
  tgt_fresh : ∀ ch ∈ l.tgt_chunks, Fresh stands s.tgt ch
  reconstructed : ∀ tgt ∈ l.tgt_chunks, tgt.type = .deflate → Reconstructed s.zlib s.tgt tgt

theorem diffImages_ready (hzip : s.zip_mode = false) {l : Lists} {srcStop tgtStop : Nat} {patch : Bytes}
    (hsrc : Tiles 0 l.src_chunks srcStop) (htgt : Tiles 0 l.tgt_chunks tgtStop)
    (hsfresh : ∀ ch ∈ l.src_chunks, Fresh stands s.src ch) (htfresh : ∀ ch ∈ l.tgt_chunks, Fresh stands s.tgt ch)
    (h : diffImages s bz mem bonus l = .ok patch) : ∃ r l' patches, Ready s stands r srcStop tgtStop ∧
      makePatches s bz mem bonus r = .ok (l', patches) ∧ patch = patchFile (l'.tgt_chunks.zip patches) := by
  unfold diffImages at h
  dsimp only at h
  by_cases hsame : ¬ sameStructure
      ⟨mergeAdjacentNormalChunks l.src_chunks, mergeAdjacentNormalChunks l.tgt_chunks⟩ = true
  · rw [if_pos hsame] at h
    cases h
  rw [if_neg hsame] at h
  have htypes := beq_iff_eq.mp (not_not.mp hsame)
  obtain ⟨l₁, hdemote, h⟩ := Except.bind_eq_ok.mp h
  obtain ⟨htypes', hsrc', htgt', -, hrec⟩ := images_parallel hzip (merge_tiles hsrc) (merge_tiles htgt) htypes hdemote
  obtain ⟨hksrc, hktgt⟩ := demote_kept hdemote
  by_cases hawry : (mergeAdjacentNormalChunks l₁.src_chunks).length ≠ (mergeAdjacentNormalChunks l₁.tgt_chunks).length
  · rw [if_pos hawry] at h
    cases h
  rw [if_neg hawry] at h
  obtain ⟨⟨l', patches⟩, hmake, h⟩ := Except.bind_eq_ok.mp h
  cases h
  exact ⟨_, l', patches, ⟨htypes', hsrc', htgt', fresh_merge (fresh_kept hksrc (fresh_merge hsfresh)),
    fresh_merge (fresh_kept hktgt (fresh_merge htfresh)), hrec⟩, hmake, rfl⟩

theorem image_padded (file : Buffer) (behind : Nat → UInt8) {k : Nat} (hk : k ≤ 4) :
    (Image.padded file behind).bytes 0 (file.data.length + k) = file.data ++ List.replicate k 0 := by
  rw [← Image.bytes_append, Nat.zero_add]
  congr 1
  · exact Image.bytes_file
  · refine List.ext_getElem (by rw [Image.bytes_length, List.length_replicate]) fun i hi hi' => ?_
    rw [Image.bytes_length] at hi
    rw [List.getElem_replicate]
    simp only [Image.bytes, List.getElem_map, List.getElem_range]
    unfold Image.byte Image.padded
    dsimp only
    rw [dif_neg (by omega), if_pos (by omega)]

/-- The patch that `imgdiff` makes for two images gives the target back, on a device that holds the source. Where the
footer of the last gzip member of the target is cut off, zeros come in place of its last bytes. -/
theorem imgdiff_applyImagePatch {z : Inflater} (hz : z.Lawful stands) (hbz : bz.Lossless)
    {src tgt : Buffer} {behind behind' : Nat → UInt8} {fuel : Nat} (hdev : Device c zlib bz stands)
    (hlen : c.patch.length < 2 ^ 31)
    (hsource : ∀ chunks stop, Parts stands (.padded src behind) 0 chunks stop → Holds c (.padded src behind) stop)
    (h : imgdiff ⟨zlib, false, .padded src behind, .padded tgt behind'⟩ bz mem c.bonus_data z fuel = .ok c.patch) :
    ∃ k, k ≤ 4 ∧ (∃ chunks, Parts stands (.padded tgt behind') 0 chunks (tgt.data.length + k)) ∧
      ∃ o, (∀ fuel, applyImagePatch c fuel = .ok o) ∧ o.accepted = tgt.data ++ List.replicate k 0 ∧
        o.sha = tgt.data ++ List.replicate k 0 := by
  unfold imgdiff at h
  obtain ⟨src_chunks, hrsrc, h⟩ := Except.bind_eq_ok.mp h
  obtain ⟨tgt_chunks, hrtgt, h⟩ := Except.bind_eq_ok.mp h
  obtain ⟨srcStop, hsparts, hsrc, -, hsstop, hsfresh⟩ := fresh_read hz hrsrc
  obtain ⟨tgtStop, htparts, htgt, htsize, htstop, htfresh⟩ := fresh_read hz hrtgt
  obtain ⟨r, l', patches, hready, hmake, hpatch⟩ := diffImages_ready rfl hsrc htgt hsfresh htfresh h
  obtain ⟨hcount, hlength, -, hdone⟩ := makePatches_spec hbz rfl (fun ch hch => (hready.src_fresh ch hch).I) hmake
  have hchunks : (l'.tgt_chunks.zip patches).length = r.tgt_chunks.length := by
    rw [List.length_zip, hcount, hlength, Nat.min_self]
  obtain ⟨k, hk⟩ := Nat.exists_eq_add_of_le htsize
  have hktgt : tgtStop = tgt.data.length + k := hk
  have hk4 : k ≤ 4 := by
    have : tgtStop ≤ tgt.data.length + 4 := htstop
    omega
  have hsmall : srcStop < 2 ^ 63 := by
    have hle : srcStop ≤ src.data.length + 4 := hsstop
    have := src.length_lt
    omega
  have hgood (i : Nat) (chunk : ImageChunk × Bytes) (out : Bytes) (hi : (l'.tgt_chunks.zip patches)[i]? = some chunk)
      (hi' : (r.tgt_chunks.map (·.spanned (.padded tgt behind')))[i]? = some out) :
      Writable chunk ∧ Good c i chunk out := by
    obtain ⟨hlt, -⟩ := List.getElem?_eq_some_iff.mp hi
    obtain ⟨source, target, chunk', hs, ht, ht', hp, hd⟩ := hdone i (hchunks ▸ hlt)
    have heq : chunk = chunk' := by
      obtain ⟨h₁, h₂⟩ := List.getElem?_zip_eq_some.mp hi
      exact Prod.ext (Option.some.inj (h₁.symm.trans ht')) (Option.some.inj (h₂.symm.trans hp))
    rw [List.getElem?_map, ht, Option.map_some] at hi'
    cases hi'
    subst heq
    have htypes : source.type = target.type := by
      have := congrArg (·[i]?) hready.types
      simp only [List.getElem?_map, hs, ht, Option.map_some, Option.some.injEq] at this
      exact this
    obtain ⟨n, hspan, -⟩ := hready.tgt.at ht
    have hmem := List.mem_of_getElem? ht
    exact hd.good hdev hlen rfl hsmall (hsource _ _ hsparts) htypes (hready.src.at hs)
      (hready.src_fresh _ (List.mem_of_getElem? hs)) (hready.tgt_fresh _ hmem).not_raw hspan
      (hready.reconstructed _ hmem)
  obtain ⟨o, hrun, hacc, hsha⟩ := applyImagePatch_file hdev.sink hlen (l'.tgt_chunks.zip patches)
    (r.tgt_chunks.map (·.spanned (.padded tgt behind'))) hpatch (by rw [List.length_map, hchunks]) hgood
  have hout : (r.tgt_chunks.map (·.spanned (.padded tgt behind'))).flatten = tgt.data ++ List.replicate k 0 := by
    rw [← List.flatMap_def, hready.tgt.contents, Nat.sub_zero, hktgt, image_padded tgt behind' hk4]
  exact ⟨k, hk4, ⟨tgt_chunks, hktgt ▸ htparts⟩, o, hrun, hacc.trans hout, hsha.trans hout⟩

def memberDiff : Except Stop Bytes := imgdiff memberSetup marked (fun _ => (fun _ => 0, fun _ => 0)) none streamInflater 10

def memberCall : Call where
  bz := marked
  zlib := streamZlib
  malloc := zeroMemory
  sink _ data := data.length
  old_data i := (Image.padded oneMember fun _ => 0).byte i.toNat
  patch := memberDiff.toOption.getD []
  bonus_data := none

theorem streamZlib_inflate {stream data : Bytes} {room : Nat} (h : InStreams stream data) (hroom : data.length ≤ room) :
    streamZlib.inflate stream room = some data := by
  unfold InStreams streams at h
  simp only [List.mem_cons, Prod.mk.injEq, List.not_mem_nil, or_false] at h
  obtain ⟨rfl, rfl⟩ | ⟨rfl, rfl⟩ := h
  · exact if_pos hroom
  · exact if_pos hroom

theorem memberCall_device : Device memberCall streamZlib marked InStreams where
  malloc _ := rfl
  sink _ _ := rfl
  bz := rfl
  inflate _ _ _ := streamZlib_inflate
  deflate _ _ outs _ h _ := ⟨outs, h, rfl⟩

theorem memberDiff_length : memberDiff.toOption.map List.length = some 41 := by decide +kernel

theorem ok_of_length {x : Except Stop Bytes} {n : Nat} (h : x.toOption.map List.length = some n) (hn : n < 2 ^ 31) :
    x = .ok (x.toOption.getD []) ∧ (x.toOption.getD []).length < 2 ^ 31 := by
  cases x with
  | error stop => cases h
  | ok patch =>
    cases h
    exact ⟨rfl, hn⟩

theorem imgdiff_applyImagePatch_members :
    ∃ k, k ≤ 4 ∧
      (∃ chunks, Parts InStreams (.padded otherMember fun _ => 0) 0 chunks (otherMember.data.length + k)) ∧
      ∃ o, (∀ fuel, applyImagePatch memberCall fuel = .ok o) ∧ o.accepted = otherMember.data ++ List.replicate k 0 ∧
        o.sha = otherMember.data ++ List.replicate k 0 :=
  have h := ok_of_length memberDiff_length (by decide)
  imgdiff_applyImagePatch streamInflater_lawful marked_lossless memberCall_device h.2
    (fun _ _ _ i _ => congrArg (Image.byte (.padded oneMember fun _ => 0)) (Int.toNat_natCast i)) h.1

end Miui.Imgdiff
