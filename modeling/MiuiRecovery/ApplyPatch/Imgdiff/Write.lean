import MiuiRecovery.ApplyPatch.Bsdiff.RoundTrip
import MiuiRecovery.ApplyPatch.Imgdiff.Demote

/-!
# imgdiff

`MakePatch` and `main` (`imgdiff.c`), `Write4` and `Write8` (`utils.c`): the patches of the chunks, and the file that
has them behind the header. bzlib and zlib are parameters, and `mem` is what the memory of the arrays of `bsdiff` held
before, for each of its calls. A file is written where all of it fits; temporary files do not fail.

* `makePatch_cases`: a target chunk goes into the file as it is, or with a patch that `bspatch` turns into it.
* `readChunk_record`: what is written for a chunk, `ApplyImagePatch` reads.
-/

namespace Miui.Imgdiff

open Bsdiff ImgPatch

/-! ## MakePatch -/

/-- `bsdiff` takes lengths below `2 ^ 31`. -/
def buffer (bs : Bytes) : Except Stop Buffer := if h : bs.length < 2 ^ 31 then .ok ⟨bs, h⟩ else .error .outOfBounds

/-- The source of a chunk that is patched. -/
def located (src tgt : ImageChunk) : ImageChunk :=
  match tgt.type with
  | .normal => { tgt with source_start := src.start, source_len := src.len }
  | .deflate =>
    { tgt with
      source_start := src.start
      source_len := src.deflate_len
      source_uncompressed_len := src.len }
  | .raw => { tgt with source_start := src.start }

/-- The source and the target behind the call, and the patch. -/
def makePatch (bz : Bzlib) (mem : (Nat → Int) × (Nat → Int)) (srcImg tgtImg : Image) (src tgt : ImageChunk) :
    Except Stop (ImageChunk × ImageChunk × Bytes) :=
  if tgt.type = .normal ∧ tgt.len ≤ 160 then .ok (src, { tgt with type := .raw }, tgt.contents tgtImg)
  else do
    let old ← buffer (src.contents srcImg)
    let new ← buffer (tgt.contents tgtImg)
    match bsdiff bz mem.1 mem.2 old src.I new with
    | none => throw .outOfBounds
    -- the process ends
    | some .exit => throw .error
    | some (.wrote patch I) =>
      let src := { src with I := some I }
      if tgt.type = .normal ∧ tgt.len ≤ patch.length then return (src, { tgt with type := .raw }, tgt.contents tgtImg)
      else return (src, located src tgt, patch)

/-! ## The patches of all chunks -/

/-- `if (i == 1 && bonus_data)`. What is moved must be memory of its own. -/
def addBonus (bonus : Option Bytes) (i : Nat) (src : ImageChunk) : Except Stop ImageChunk :=
  match bonus with
  | none => .ok src
  | some bonus_data =>
    if i = 1 then match src.data with
      | .own bytes =>
        .ok { src with data := .own (bytes.take src.len ++ bonus_data), len := src.len + bonus_data.length }
      | .image _ => .error .outOfBounds
    else .ok src

/-- The chunk that a target chunk is patched against. -/
def patchSource (zip_mode : Bool) (src_chunks : List ImageChunk) (i : Nat) (tgt : ImageChunk) : Nat :=
  if zip_mode then
    if tgt.type = .deflate then (tgt.filename.bind fun name => findChunkByName name src_chunks).getD 0 else 0
  else i

variable (s : Setup) (bz : Bzlib) (mem : Nat → (Nat → Int) × (Nat → Int)) (bonus : Option Bytes)

/-- A round of the loop over the target chunks. -/
def patchStep (i : Nat) (st : Lists × List Bytes) : Except Stop (Lists × List Bytes) :=
  match st.1.tgt_chunks[i]? with
  | none => .error .outOfBounds
  | some tgt =>
    let j := patchSource s.zip_mode st.1.src_chunks i tgt
    match st.1.src_chunks[j]? with
    | none => .error .outOfBounds
    | some src => do
      let src ← if s.zip_mode then .ok src else addBonus bonus i src
      let (src, tgt, patch) ← makePatch bz (mem i) s.src s.tgt src tgt
      return (⟨st.1.src_chunks.set j src, st.1.tgt_chunks.set i tgt⟩, st.2 ++ [patch])

def makePatches (l : Lists) : Except Stop (Lists × List Bytes) :=
  forUpTo (patchStep s bz mem bonus) l.tgt_chunks.length (l, [])

/-! ## The file -/

/-- `Write4` -/
def write4 (value : Int) : Bytes := leBytes 4 (value % 2 ^ 32).toNat

/-- `Write8` -/
def write8 (value : Nat) : Bytes := leBytes 8 value

def headerSize (chunk : ImageChunk × Bytes) : Nat :=
  4 + match chunk.1.type with
    | .normal => 8 * 3
    | .deflate => 8 * 5 + 4 * 5
    | .raw => 4 + chunk.2.length

/-- What the file has behind the header for a chunk. -/
def body (chunk : ImageChunk × Bytes) : Bytes := if chunk.1.type ≠ .raw then chunk.2 else []

def record (chunk : ImageChunk × Bytes) (offset : Nat) : Bytes :=
  write4 chunk.1.type.code ++ match chunk.1.type with
    | .normal => write8 chunk.1.source_start ++ write8 chunk.1.source_len ++ write8 offset
    | .deflate =>
      write8 chunk.1.source_start ++ write8 chunk.1.source_len ++ write8 offset ++
        write8 chunk.1.source_uncompressed_len ++ write8 chunk.1.len ++ write4 chunk.1.params.level ++
        write4 chunk.1.params.method ++ write4 chunk.1.params.windowBits ++ write4 chunk.1.params.memLevel ++
        write4 chunk.1.params.strategy
    | .raw => write4 chunk.2.length ++ chunk.2

/-- `for (i = 0; i < num_tgt_chunks; ++i)`, from an offset on -/
def records : List (ImageChunk × Bytes) → Nat → Bytes
  | [], _ => []
  | chunk :: chunks, offset => record chunk offset ++ records chunks (offset + (body chunk).length)

def patchFile (chunks : List (ImageChunk × Bytes)) : Bytes :=
  Bytes.ascii "IMGDIFF2" ++ write4 chunks.length ++ records chunks (12 + (chunks.map headerSize).sum) ++
    chunks.flatMap body

/-! ## main -/

/-- "source and target don't have same number of chunks!", "source and target don't have same chunk structure!" -/
def sameStructure (l : Lists) : Bool := l.src_chunks.map (·.type) == l.tgt_chunks.map (·.type)

/-- Behind the reading of two images. -/
def diffImages (l : Lists) : Except Stop Bytes := do
  let l : Lists := ⟨mergeAdjacentNormalChunks l.src_chunks, mergeAdjacentNormalChunks l.tgt_chunks⟩
  if ¬ sameStructure l then throw .error
  let l ← demote s l
  let l : Lists := ⟨mergeAdjacentNormalChunks l.src_chunks, mergeAdjacentNormalChunks l.tgt_chunks⟩
  -- "merging normal chunks went awry"
  if l.src_chunks.length ≠ l.tgt_chunks.length then throw .error
  let (l, patches) ← makePatches s bz mem bonus l
  return patchFile (l.tgt_chunks.zip patches)

/-- `imgdiff` of two images: the patch file. -/
def imgdiff (z : Inflater) (fuel : Nat) : Except Stop Bytes := do
  let src_chunks ← readImage z s.src fuel
  let tgt_chunks ← readImage z s.tgt fuel
  diffImages s bz mem bonus ⟨src_chunks, tgt_chunks⟩

/-! ## A patch -/

variable {s bz mem bonus}

/-- Wherever it lies in a file, the patch turns `old` into `new`. -/
def Patches (bz : Bzlib) (old new patch : Bytes) : Prop := ∀ mem pre rest,
  applyBSDiffPatchMem bz (freshMemory mem) old (pre ++ patch ++ rest) pre.length = .ok new

theorem bsdiff_patches (hbz : bz.Lossless) {old new : Buffer} {IP : Option Arr} (hIP : Handed bz old IP)
    {memI memV : Nat → Int} {patch : Bytes} {I : Arr} (h : bsdiff bz memI memV old IP new = some (.wrote patch I)) :
    Patches bz old.data new.data patch := by
  intro m pre rest
  obtain ⟨J, hJ, hplaces⟩ := hIP.places memI memV
  obtain ⟨e, o, k, hencode, hd⟩ := encode_spec hplaces ⟨new.length_lt, old.length_lt⟩
  rw [bsdiff_eq, hJ, Option.bind_some, hencode, Option.bind_some] at h
  cases hfile : Bsdiff.patchFile bz new.data.length e with
  | none =>
    rw [hfile] at h
    cases h
  | some file =>
    rw [hfile] at h
    cases h
    exact apply_patchFile hbz hd new.length_lt hfile m pre rest

theorem buffer_eq {bs : Bytes} {b : Buffer} (h : buffer bs = .ok b) : b.data = bs := by
  unfold buffer at h
  by_cases hlen : bs.length < 2 ^ 31
  · rw [dif_pos hlen] at h
    cases h
    rfl
  · rw [dif_neg hlen] at h
    cases h

/-- What `*IP` of a chunk can be. -/
def Reusable (bz : Bzlib) (img : Image) (src : ImageChunk) : Prop :=
  ∀ old : Buffer, old.data = src.contents img → Handed bz old src.I

/-- A target chunk goes into the file as it is, or with a patch from its source. The array of the source can be used
again. -/
theorem makePatch_cases (hbz : bz.Lossless) {m : (Nat → Int) × (Nat → Int)} {srcImg tgtImg : Image}
    {src tgt src' tgt' : ImageChunk} {patch : Bytes} (hsrc : Reusable bz srcImg src)
    (h : makePatch bz m srcImg tgtImg src tgt = .ok (src', tgt', patch)) :
    (∃ I, src' = { src with I := I }) ∧ Reusable bz srcImg src' ∧
    ((tgt.type = .normal ∧ tgt' = { tgt with type := .raw } ∧ patch = tgt.contents tgtImg) ∨
      (tgt' = located src tgt ∧ (src.contents srcImg).length < 2 ^ 31 ∧
        Patches bz (src.contents srcImg) (tgt.contents tgtImg) patch)) := by
  unfold makePatch at h
  by_cases hshort : tgt.type = .normal ∧ tgt.len ≤ 160
  · rw [if_pos hshort] at h
    cases h
    exact ⟨⟨src.I, rfl⟩, hsrc, .inl ⟨hshort.1, rfl, rfl⟩⟩
  rw [if_neg hshort] at h
  obtain ⟨old, hold, h⟩ := Except.bind_eq_ok.mp h
  obtain ⟨new, hnew, h⟩ := Except.bind_eq_ok.mp h
  have hhanded := hsrc old (buffer_eq hold)
  cases hcall : bsdiff bz m.1 m.2 old src.I new with
  | none =>
    rw [hcall] at h
    cases h
  | some out =>
    rw [hcall] at h
    cases out with
    | exit => cases h
    | wrote file I =>
      have hagain : Reusable bz srcImg { src with I := some I } := by
        intro b hb
        have hsame : b = old := by
          obtain ⟨bdata, hblen⟩ := b
          obtain ⟨odata, holen⟩ := old
          cases hb.trans (buffer_eq hold).symm
          rfl
        rw [hsame]
        exact .earlier hhanded hcall
      have hpatches := bsdiff_patches hbz hhanded hcall
      have hshort : (src.contents srcImg).length < 2 ^ 31 := buffer_eq hold ▸ old.length_lt
      rw [buffer_eq hold, buffer_eq hnew] at hpatches
      dsimp only at h
      by_cases hlong : tgt.type = .normal ∧ tgt.len ≤ file.length
      · rw [if_pos hlong] at h
        cases h
        exact ⟨⟨some I, rfl⟩, hagain, .inl ⟨hlong.1, rfl, rfl⟩⟩
      · rw [if_neg hlong] at h
        cases h
        exact ⟨⟨some I, rfl⟩, hagain, .inr ⟨rfl, hshort, hpatches⟩⟩

/-! ## A record -/

/-- The record of a chunk, as `ApplyImagePatch` takes it. -/
def chunkOf (chunk : ImageChunk × Bytes) (offset : Nat) : Chunk :=
  match chunk.1.type with
  | .normal => .normal chunk.1.source_start chunk.1.source_len offset
  | .deflate =>
    .deflate chunk.1.source_start chunk.1.source_len offset chunk.1.source_uncompressed_len chunk.1.params
  | .raw => .raw chunk.2

/-- An `int` -/
def IsInt (x : Int) : Prop := -2 ^ 31 ≤ x ∧ x < 2 ^ 31

/-- The fields of a chunk fit into its record. -/
structure Writable (chunk : ImageChunk × Bytes) : Prop where
  source : chunk.1.type ≠ .raw → chunk.1.source_start < 2 ^ 64 ∧ chunk.1.source_len < 2 ^ 64
  uncompressed : chunk.1.type = .deflate → chunk.1.source_uncompressed_len < 2 ^ 64
  params : chunk.1.type = .deflate → IsInt chunk.1.params.level ∧ IsInt chunk.1.params.method ∧
    IsInt chunk.1.params.windowBits ∧ IsInt chunk.1.params.memLevel ∧ IsInt chunk.1.params.strategy

theorem write4_length (v : Int) : (write4 v).length = 4 := leBytes_length ..

theorem write8_length (v : Nat) : (write8 v).length = 8 := leBytes_length ..

theorem ofLE_leBytes_nil (n y : Nat) : Bytes.ofLE (leBytes n y) = y % 256 ^ n := by
  have := ofLE_leBytes n y []
  rwa [List.append_nil, Bytes.ofLE, Nat.mul_zero, Nat.add_zero] at this

variable {whole pre post : Bytes} {pos : Nat}

theorem read4_at (whole pre : Bytes) {post : Bytes} (pos : Nat) {v : Int}
    (hwhole : whole = pre ++ (write4 v ++ post)) (hpos : pos = pre.length) (hv : IsInt v) :
    read4 whole pos = .ok v := by
  obtain ⟨hlow, hhigh⟩ := hv
  unfold read4 Bytes.readLE
  rw [slice_part whole pre (write4 v) post hwhole hpos (write4_length v).symm, Option.map_some, write4,
    ofLE_leBytes_nil, access, Except.ok_bind]
  refine congrArg Except.ok ?_
  have hval : ((v % 2 ^ 32).toNat % 256 ^ 4 : Nat) = (v % 2 ^ 32).toNat := by omega
  rw [hval]
  by_cases hneg : v < 0
  · rw [if_neg (by omega)]
    omega
  · rw [if_pos (by omega)]
    omega

theorem read8_at (whole pre : Bytes) {post : Bytes} (pos : Nat) {v : Nat}
    (hwhole : whole = pre ++ (write8 v ++ post)) (hpos : pos = pre.length) (hv : v < 2 ^ 64) :
    read8 whole pos = .ok v := by
  unfold read8 Bytes.readLE
  rw [slice_part whole pre (write8 v) post hwhole hpos (write8_length v).symm, Option.map_some, write8,
    ofLE_leBytes_nil, access, show v % 256 ^ 8 = v by omega]

theorem readChunk_normal {a b c : Nat} (ha : a < 2 ^ 64) (hb : b < 2 ^ 64) (hc : c < 2 ^ 64)
    (hwhole : whole = pre ++ (write4 CHUNK_NORMAL ++ (write8 a ++ (write8 b ++ (write8 c ++ post)))))
    (hpos : pos = pre.length) : readChunk whole pos = .ok (.normal a b c, pos + 28) := by
  have hlen := congrArg List.length hwhole
  simp only [List.length_append, write4_length, write8_length] at hlen
  have htype := read4_at whole pre pos hwhole hpos ⟨by decide, by decide⟩
  have h0 := read8_at whole (pre ++ write4 CHUNK_NORMAL) (pos + 4)
    (by rw [hwhole, List.append_assoc]) (by rw [List.length_append, write4_length, hpos]) ha
  have h8 := read8_at whole (pre ++ write4 CHUNK_NORMAL ++ write8 a) (pos + 4 + 8)
    (by rw [hwhole]; simp only [List.append_assoc]; rfl)
    (by simp only [List.length_append, write4_length, write8_length, hpos]) hb
  have h16 := read8_at whole (pre ++ write4 CHUNK_NORMAL ++ write8 a ++ write8 b) (pos + 4 + 16) (by rw [hwhole]; simp only [List.append_assoc]; rfl)
    (by simp only [List.length_append, write4_length, write8_length, hpos]) hc
  unfold readChunk
  rw [if_neg (by omega), htype, Except.ok_bind, if_pos rfl, if_neg (by omega), h0, h8, h16]
  rfl

theorem readChunk_raw {data : Bytes} (hdata : data.length < 2 ^ 31)
    (hwhole : whole = pre ++ (write4 CHUNK_RAW ++ (write4 data.length ++ (data ++ post)))) (hpos : pos = pre.length) :
    readChunk whole pos = .ok (.raw data, pos + 8 + data.length) := by
  have hlen := congrArg List.length hwhole
  simp only [List.length_append, write4_length] at hlen
  have htype := read4_at whole pre pos hwhole hpos ⟨by decide, by decide⟩
  have h0 := read4_at whole (pre ++ write4 CHUNK_RAW) (pos + 4)
    (by rw [hwhole, List.append_assoc]) (by rw [List.length_append, write4_length, hpos])
    (show IsInt (data.length : Int) from ⟨by omega, by omega⟩)
  have h4 : whole.slice (pos + 4 + 4) data.length = some data :=
    slice_part whole (pre ++ write4 CHUNK_RAW ++ write4 data.length) data post
    (by rw [hwhole]; simp only [List.append_assoc])
    (by simp only [List.length_append, write4_length, hpos]) rfl
  unfold readChunk
  rw [if_neg (by omega), htype, Except.ok_bind, if_neg (by decide), if_pos rfl, if_neg (by omega), h0, Except.ok_bind,
    if_neg (by omega), if_pos (by omega), Int.toNat_natCast, h4]
  rfl

theorem readChunk_deflate {a b c d : Nat} {params : DeflateParams} {target : Bytes} (htarget : target.length = 8)
    (ha : a < 2 ^ 64) (hb : b < 2 ^ 64) (hc : c < 2 ^ 64) (hd : d < 2 ^ 64) (hlevel : IsInt params.level)
    (hmethod : IsInt params.method) (hwindow : IsInt params.windowBits) (hmem : IsInt params.memLevel)
    (hstrategy : IsInt params.strategy)
    (hwhole : whole = pre ++ (write4 CHUNK_DEFLATE ++ (write8 a ++ (write8 b ++ (write8 c ++ (write8 d ++ (target ++
      (write4 params.level ++ (write4 params.method ++ (write4 params.windowBits ++ (write4 params.memLevel ++
        (write4 params.strategy ++ post)))))))))))) (hpos : pos = pre.length) :
    readChunk whole pos = .ok (.deflate a b c d params, pos + 64) := by
  have hlen := congrArg List.length hwhole
  simp only [List.length_append, write4_length, write8_length, htarget] at hlen
  have htype := read4_at whole pre pos hwhole hpos ⟨by decide, by decide⟩
  generalize hcode : write4 CHUNK_DEFLATE = code at hwhole
  have hcodelen : code.length = 4 := hcode ▸ write4_length _
  have h0 := read8_at whole (pre ++ code) (pos + 4)
    (by rw [hwhole, List.append_assoc]) (by rw [List.length_append, hcodelen, hpos]) ha
  have h8 := read8_at whole (pre ++ code ++ write8 a) (pos + 4 + 8)
    (by rw [hwhole]; simp only [List.append_assoc]; rfl)
    (by simp only [List.length_append, hcodelen, write8_length, hpos]) hb
  have h16 := read8_at whole (pre ++ code ++ write8 a ++ write8 b) (pos + 4 + 16)
    (by rw [hwhole]; simp only [List.append_assoc]; rfl)
    (by simp only [List.length_append, hcodelen, write8_length, hpos]) hc
  have h24 := read8_at whole (pre ++ code ++ write8 a ++ write8 b ++ write8 c) (pos + 4 + 24)
    (by rw [hwhole]; simp only [List.append_assoc]; rfl)
    (by simp only [List.length_append, hcodelen, write8_length, hpos]) hd
  -- the five parameters behind the lengths
  generalize hpre : pre ++ code ++ write8 a ++ write8 b ++ write8 c ++ write8 d ++ target = pre' at *
  have hprelen : pre'.length = pos + 44 := by
    rw [← hpre]
    simp only [List.length_append, hcodelen, write8_length, htarget, hpos]
  have hwhole : whole = pre' ++ (write4 params.level ++ (write4 params.method ++ (write4 params.windowBits ++
      (write4 params.memLevel ++ (write4 params.strategy ++ post))))) := by
    rw [hwhole, ← hpre]
    simp only [List.append_assoc]
  have h40 := read4_at whole pre' (pos + 4 + 40) hwhole (by omega) hlevel
  have h44 := read4_at whole (pre' ++ write4 params.level) (pos + 4 + 44)
    (by rw [hwhole, List.append_assoc]) (by rw [List.length_append, write4_length, hprelen]) hmethod
  have h48 := read4_at whole (pre' ++ write4 params.level ++ write4 params.method) (pos + 4 + 48)
    (by rw [hwhole]; simp only [List.append_assoc]; rfl)
    (by simp only [List.length_append, write4_length, hprelen]) hwindow
  have h52 := read4_at whole (pre' ++ write4 params.level ++ write4 params.method ++ write4 params.windowBits)
    (pos + 4 + 52)
    (by rw [hwhole]; simp only [List.append_assoc]; rfl)
    (by simp only [List.length_append, write4_length, hprelen]) hmem
  have h56 := read4_at whole
    (pre' ++ write4 params.level ++ write4 params.method ++ write4 params.windowBits ++ write4 params.memLevel)
    (pos + 4 + 56)
    (by rw [hwhole]; simp only [List.append_assoc]; rfl)
    (by simp only [List.length_append, write4_length, hprelen]) hstrategy
  unfold readChunk
  rw [if_neg (by omega), htype, Except.ok_bind, if_neg (by decide), if_neg (by decide), if_pos rfl, if_neg (by omega),
    h40, h44, h48, h52, h56, h0, h8, h16, h24]
  rfl

/-- What is written for a chunk is read. -/
theorem readChunk_record {chunk : ImageChunk × Bytes} {offset : Nat} (hchunk : Writable chunk)
    (hoffset : offset < 2 ^ 64) (hlen : whole.length < 2 ^ 31) (hwhole : whole = pre ++ (record chunk offset ++ post))
    (hpos : pos = pre.length) :
    readChunk whole pos = .ok (chunkOf chunk offset, pos + (record chunk offset).length) := by
  obtain ⟨ch, patch⟩ := chunk
  obtain ⟨hsource, hunc, hparams⟩ := hchunk
  have hfit := congrArg List.length hwhole
  unfold record at hwhole hfit ⊢
  unfold chunkOf
  dsimp only at *
  cases htype : ch.type with
  | normal =>
    rw [htype] at hwhole hsource
    obtain ⟨hstart, hlen⟩ := hsource (by decide)
    simp only [List.append_assoc] at hwhole
    rw [readChunk_normal hstart hlen hoffset hwhole hpos]
    simp only [List.length_append, write4_length, write8_length]
  | deflate =>
    rw [htype] at hwhole hsource
    obtain ⟨hstart, hlen⟩ := hsource (by decide)
    obtain ⟨hlevel, hmethod, hwindow, hmem, hstrategy⟩ := hparams htype
    simp only [List.append_assoc] at hwhole
    rw [readChunk_deflate (write8_length ch.len) hstart hlen hoffset (hunc htype) hlevel hmethod hwindow hmem hstrategy
      hwhole hpos]
    simp only [List.length_append, write4_length, write8_length]
  | raw =>
    rw [htype] at hwhole hfit
    simp only [List.length_append, write4_length] at hfit
    simp only [List.append_assoc] at hwhole
    rw [readChunk_raw (by omega) hwhole hpos]
    simp only [List.length_append, write4_length]
    congr 2
    omega

theorem record_length (chunk : ImageChunk × Bytes) (offset : Nat) :
    (record chunk offset).length = headerSize chunk := by
  unfold record headerSize
  cases chunk.1.type with
  | normal => simp only [List.length_append, write4_length, write8_length]
  | deflate => simp only [List.length_append, write4_length, write8_length]
  | raw => simp only [List.length_append, write4_length]

end Miui.Imgdiff
