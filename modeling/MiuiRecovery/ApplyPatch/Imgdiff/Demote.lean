import MiuiRecovery.ApplyPatch.Imgdiff.ReadImage

/-!
# Which chunks stay compressed

`TryReconstruction`, `ReconstructDeflateChunk`, `ChangeDeflateChunkToNormal`, `AreChunksEqual`, `FindChunkByName`,
and the loop of `main` (`imgdiff.c`) that decides for every deflate chunk of the target whether its contents are
patched or its compressed form. zlib is a parameter.

* `reconstruct_spec`: a chunk is reconstructed exactly if level 6 or level 9 gives its compressed form.
* `demote_kept`: the loop leaves every chunk where it lies, in either mode.
* `images_parallel`: for images it keeps the types side by side; what stays a deflate chunk can be reconstructed.
-/

namespace Miui.Imgdiff

open Bsdiff ImgPatch

def BUFFER_SIZE : Nat := 32768

/-- The rounds of the loop around `deflate`, behind `p` bytes. Where the output is longer than the chunk, `memcmp` goes on
into what lies behind the chunk in memory. -/
def compareOutput (img : Image) (chunk : ImageChunk) : List Bytes → Nat → Bool
  | [], p => p == chunk.deflate_len
  | out :: outs, p =>
    if out = img.bytes (chunk.deflate_data + p) out.length then compareOutput img chunk outs (p + out.length)
    else false

/-- Where `deflateInit2` fails, each round compares no bytes, and there is always another one. -/
def tryReconstruction (zlib : Zlib) (img : Image) (chunk : ImageChunk) : Except Stop Bool :=
  match zlib.deflate chunk.params (chunk.contents img) BUFFER_SIZE with
  | none => .error .endless
  | some outs => .ok (compareOutput img chunk outs 0)

/-- `Z_DEFLATED`, a raw stream with a window of 32 kB, the default `memLevel` and `Z_DEFAULT_STRATEGY` -/
def encoderParams (level : Int) : DeflateParams := ⟨level, 8, -15, 8, 0⟩

/-- `for (chunk->level = 6; chunk->level <= 9; chunk->level += 3)` -/
def tryLevels (zlib : Zlib) (img : Image) (chunk : ImageChunk) : List Int → Except Stop (ImageChunk × Bool)
  | [] => .ok ({ chunk with params := { chunk.params with level := chunk.params.level + 3 } }, false)
  | level :: levels => do
    let chunk := { chunk with params := encoderParams level }
    if ← tryReconstruction zlib img chunk then return (chunk, true)
    tryLevels zlib img chunk levels

/-- The chunk, with the parameters that were tried last, and whether these reconstruct it. -/
def reconstructDeflateChunk (zlib : Zlib) (img : Image) (chunk : ImageChunk) : Except Stop (ImageChunk × Bool) :=
  if chunk.type ≠ .deflate then .ok (chunk, false) else tryLevels zlib img chunk [6, 9]

def changeDeflateChunkToNormal (ch : ImageChunk) : ImageChunk :=
  if ch.type ≠ .deflate then ch
  else { ch with type := .normal, data := .image ch.deflate_data, len := ch.deflate_len }

def areChunksEqual (imgA imgB : Image) (a b : ImageChunk) : Bool :=
  if a.type ≠ b.type then false
  else match a.type with
    | .normal => a.len == b.len && a.contents imgA == b.data.bytes imgB a.len
    | .deflate => a.deflate_len == b.deflate_len &&
        imgA.bytes a.deflate_data a.deflate_len == imgB.bytes b.deflate_data a.deflate_len
    -- "unknown chunk type"
    | .raw => false

/-- The number of the chunk. -/
def findChunkByName (name : Bytes) (chunks : List ImageChunk) : Option Nat :=
  chunks.findIdx? fun ch => ch.type = .deflate && ch.filename == some name

/-! ## The loop over the target -/

/-- The source chunk of a deflate chunk of the target. In a zip file each of these has a name. -/
def sourceOf (zip_mode : Bool) (src_chunks : List ImageChunk) (i : Nat) (tgt : ImageChunk) : Option Nat :=
  if zip_mode then tgt.filename.bind fun name => findChunkByName name src_chunks else some i

/-- `if (src) ChangeDeflateChunkToNormal(src)` -/
def demoteAt (chunks : List ImageChunk) : Option Nat → List ImageChunk
  | none => chunks
  | some j => chunks.modify j changeDeflateChunkToNormal

/-- The source chunks and the target chunks -/
structure Lists where
  src_chunks : List ImageChunk
  tgt_chunks : List ImageChunk

/-- The files, and zlib. -/
structure Setup where
  zlib : Zlib
  zip_mode : Bool
  src : Image
  tgt : Image

variable (s : Setup)

/-- The body of the loop behind `ReconstructDeflateChunk`. -/
def settle (i : Nat) (l : Lists) (tgt : ImageChunk) (reconstructed : Bool) : Lists :=
  let src := sourceOf s.zip_mode l.src_chunks i tgt
  let tgt_chunks := l.tgt_chunks.set i (changeDeflateChunkToNormal tgt)
  -- "failed to reconstruct target deflate chunk"
  if ¬ reconstructed then ⟨demoteAt l.src_chunks src, tgt_chunks⟩
  else match src.bind fun j => l.src_chunks[j]? with
    | none => ⟨l.src_chunks, tgt_chunks⟩
    | some source =>
      if areChunksEqual s.tgt s.src tgt source then ⟨demoteAt l.src_chunks src, tgt_chunks⟩
      else ⟨l.src_chunks, l.tgt_chunks.set i tgt⟩

/-- The body of the loop. -/
def demoteStep (i : Nat) (l : Lists) : Except Stop Lists :=
  match l.tgt_chunks[i]? with
  | none => .ok l
  | some tgt =>
    if tgt.type ≠ .deflate then .ok l
    else do
      let (tgt, reconstructed) ← reconstructDeflateChunk s.zlib s.tgt tgt
      return settle s i l tgt reconstructed

/-- `for (i = 0; i < num_tgt_chunks; ++i)` -/
def demote (l : Lists) : Except Stop Lists := forUpTo (demoteStep s) l.tgt_chunks.length l

/-! ## Reconstruction -/

/-- With the parameters of the chunk, `deflate` makes the compressed form out of the contents. -/
def Reconstructs (zlib : Zlib) (img : Image) (chunk : ImageChunk) : Prop :=
  ∃ outs, zlib.deflate chunk.params (chunk.contents img) BUFFER_SIZE = some outs ∧
    outs.flatten = img.bytes chunk.deflate_data chunk.deflate_len

/-- A chunk that is reconstructed has the parameters of one of the two levels. -/
structure Reconstructed (zlib : Zlib) (img : Image) (chunk : ImageChunk) : Prop where
  level : ∃ level, (level = 6 ∨ level = 9) ∧ chunk.params = encoderParams level
  deflate : Reconstructs zlib img chunk

variable {zlib : Zlib} {img : Image} {chunk : ImageChunk}

theorem compareOutput_iff (outs : List Bytes) (p : Nat) : compareOutput img chunk outs p = true ↔
    p ≤ chunk.deflate_len ∧ outs.flatten = img.bytes (chunk.deflate_data + p) (chunk.deflate_len - p) := by
  induction outs generalizing p with
  | nil =>
    rw [compareOutput, beq_iff_eq, List.flatten_nil]
    constructor
    · rintro rfl
      rw [Nat.sub_self]
      exact ⟨Nat.le_refl _, rfl⟩
    · rintro ⟨hle, h⟩
      have := congrArg List.length h
      rw [Image.bytes_length, List.length_nil] at this
      omega
  | cons out outs ih =>
    rw [compareOutput, List.flatten_cons]
    by_cases hout : out = img.bytes (chunk.deflate_data + p) out.length
    · rw [if_pos hout, ih]
      constructor
      · rintro ⟨hle, h⟩
        refine ⟨by omega, ?_⟩
        rw [h, show chunk.deflate_len - p = out.length + (chunk.deflate_len - (p + out.length)) by omega,
          ← Image.bytes_append, ← hout, Nat.add_assoc]
      · rintro ⟨hle, h⟩
        have hlen := congrArg List.length h
        rw [List.length_append, Image.bytes_length] at hlen
        refine ⟨by omega, ?_⟩
        rw [show chunk.deflate_len - p = out.length + (chunk.deflate_len - (p + out.length)) by omega,
          ← Image.bytes_append] at h
        rw [(List.append_inj h (Image.bytes_length _ _).symm).2, Nat.add_assoc]
    · rw [if_neg hout]
      refine iff_of_false Bool.false_ne_true ?_
      rintro ⟨hle, h⟩
      have hlen := congrArg List.length h
      rw [List.length_append, Image.bytes_length] at hlen
      rw [show chunk.deflate_len - p = out.length + (chunk.deflate_len - p - out.length) by omega,
        ← Image.bytes_append] at h
      exact hout (List.append_inj h (Image.bytes_length _ _).symm).1

theorem tryReconstruction_eq {b : Bool} (h : tryReconstruction zlib img chunk = .ok b) :
    b = true ↔ Reconstructs zlib img chunk := by
  unfold tryReconstruction at h
  unfold Reconstructs
  cases hout : zlib.deflate chunk.params (chunk.contents img) BUFFER_SIZE with
  | none =>
    rw [hout] at h
    cases h
  | some outs =>
    rw [hout] at h
    cases h
    rw [compareOutput_iff, Nat.add_zero, Nat.sub_zero]
    simp

theorem tryLevels_spec {levels : List Int} {chunk' : ImageChunk} {b : Bool}
    (h : tryLevels zlib img chunk levels = .ok (chunk', b)) :
    ∃ params, chunk' = { chunk with params := params } ∧
      ((b = true ∧ ∃ level ∈ levels, params = encoderParams level ∧ Reconstructs zlib img chunk') ∨
        (b = false ∧ ∀ level ∈ levels, ¬ Reconstructs zlib img { chunk with params := encoderParams level })) := by
  induction levels generalizing chunk with
  | nil =>
    cases h
    exact ⟨_, rfl, .inr ⟨rfl, by simp⟩⟩
  | cons level levels ih =>
    rw [tryLevels] at h
    obtain ⟨b', htry, h⟩ := Except.bind_eq_ok.mp h
    have hiff := tryReconstruction_eq htry
    cases b' with
    | true =>
      cases h
      exact ⟨_, rfl, .inl ⟨rfl, level, List.mem_cons_self, rfl, hiff.mp rfl⟩⟩
    | false =>
      obtain ⟨params, heq, hcase⟩ := ih h
      refine ⟨params, heq, ?_⟩
      obtain ⟨hb, l, hl, hp, hr⟩ | ⟨hb, hnone⟩ := hcase
      · exact .inl ⟨hb, l, List.mem_cons_of_mem _ hl, hp, hr⟩
      · refine .inr ⟨hb, ?_⟩
        intro l hl
        obtain rfl | hl := List.mem_cons.mp hl
        · exact fun hr => Bool.false_ne_true (hiff.mpr hr)
        · exact hnone l hl

/-- A deflate chunk is reconstructed exactly if one of the two levels gives its compressed form. -/
theorem reconstruct_spec {chunk' : ImageChunk} {b : Bool} (hd : chunk.type = .deflate)
    (h : reconstructDeflateChunk zlib img chunk = .ok (chunk', b)) :
    ∃ params, chunk' = { chunk with params := params } ∧ (b = true → Reconstructed zlib img chunk') ∧
      (b = true ↔ ∃ level, (level = 6 ∨ level = 9) ∧
        Reconstructs zlib img { chunk with params := encoderParams level }) := by
  unfold reconstructDeflateChunk at h
  rw [if_neg (not_not.mpr hd)] at h
  obtain ⟨params, rfl, ⟨rfl, level, hl, rfl, hr⟩ | ⟨rfl, hnone⟩⟩ := tryLevels_spec h
  · have hl : level = 6 ∨ level = 9 := by simpa using hl
    exact ⟨_, rfl, fun _ => ⟨⟨level, hl, rfl⟩, hr⟩, iff_of_true rfl ⟨level, hl, hr⟩⟩
  · refine ⟨params, rfl, fun h => absurd h Bool.false_ne_true, iff_of_false Bool.false_ne_true ?_⟩
    rintro ⟨level, hl, hr⟩
    exact hnone level (by simpa using hl) hr

/-! ## What the loop changes -/

/-- What the loop makes of a chunk: other parameters, or a normal chunk of its compressed form. -/
inductive Kept (ch : ImageChunk) : ImageChunk → Prop
  | params (params : DeflateParams) : Kept ch { ch with params := params }
  | demoted (params : DeflateParams) (htype : ch.type = .deflate) :
    Kept ch { ch with params := params, type := .normal, data := .image ch.deflate_data, len := ch.deflate_len }

namespace Kept

variable {ch ch' ch'' : ImageChunk}

theorem refl (ch : ImageChunk) : Kept ch ch := .params ch.params

theorem trans (h : Kept ch ch') (h' : Kept ch' ch'') : Kept ch ch'' := by
  cases h with
  | params params =>
    cases h' with
    | params params' => exact .params params'
    | demoted params' htype => exact .demoted params' htype
  | demoted params htype =>
    cases h' with
    | params params' => exact .demoted params' htype
    | demoted params' htype' => cases htype'

/-- It lies where it did. -/
theorem place (h : Kept ch ch') : (ch'.start, ch'.span) = (ch.start, ch.span) := by
  cases h with
  | params => rfl
  | demoted params htype =>
    have hspan : ch.span = some (ch.deflate_data, ch.deflate_len) := by
      unfold ImageChunk.span
      rw [htype]
    rw [hspan]
    rfl

theorem filename (h : Kept ch ch') : ch'.filename = ch.filename := by cases h <;> rfl

theorem change (ch : ImageChunk) : Kept ch (changeDeflateChunkToNormal ch) := by
  unfold changeDeflateChunkToNormal
  by_cases htype : ch.type = .deflate
  · rw [if_neg (not_not.mpr htype)]
    exact .demoted ch.params htype
  · rw [if_pos htype]
    exact .refl ch

theorem deflate (h : Kept ch ch') (htype : ch'.type = .deflate) : ∃ params, ch' = { ch with params := params } := by
  cases h with
  | params params => exact ⟨params, rfl⟩
  | demoted => cases htype

theorem not_raw (h : Kept ch ch') (hraw : ch.type ≠ .raw) : ch'.type ≠ .raw := by
  cases h with
  | params => exact hraw
  | demoted => simp

end Kept

theorem change_type {ch : ImageChunk} (h : ch.type = .deflate) : (changeDeflateChunkToNormal ch).type = .normal := by
  unfold changeDeflateChunkToNormal
  rw [if_neg (not_not.mpr h)]

/-- Each chunk is kept, in its place. -/
def KeptAll (chunks chunks' : List ImageChunk) : Prop :=
  chunks'.length = chunks.length ∧ ∀ (i : Nat) ch', chunks'[i]? = some ch' → ∃ ch, chunks[i]? = some ch ∧ Kept ch ch'

namespace KeptAll

variable {chunks chunks' chunks'' : List ImageChunk}

theorem refl (chunks : List ImageChunk) : KeptAll chunks chunks := ⟨rfl, fun _ ch h => ⟨ch, h, .refl ch⟩⟩

theorem trans (h : KeptAll chunks chunks') (h' : KeptAll chunks' chunks'') : KeptAll chunks chunks'' := by
  refine ⟨h'.1.trans h.1, ?_⟩
  intro i ch'' hi
  obtain ⟨ch', hi', hk'⟩ := h'.2 i ch'' hi
  obtain ⟨ch, hi'', hk⟩ := h.2 i ch' hi'
  exact ⟨ch, hi'', hk.trans hk'⟩

theorem set {i : Nat} {ch ch' : ImageChunk} (hi : chunks[i]? = some ch) (h : Kept ch ch') :
    KeptAll chunks (chunks.set i ch') := by
  refine ⟨List.length_set, ?_⟩
  intro j c hj
  obtain ⟨hlt, -⟩ := List.getElem?_eq_some_iff.mp hi
  by_cases hij : i = j
  · subst hij
    rw [List.getElem?_set_self hlt] at hj
    cases hj
    exact ⟨ch, hi, h⟩
  · rw [List.getElem?_set_ne hij] at hj
    exact ⟨c, hj, .refl c⟩

theorem demoteAt (chunks : List ImageChunk) (src : Option Nat) : KeptAll chunks (demoteAt chunks src) := by
  cases src with
  | none => exact refl chunks
  | some j =>
    refine ⟨List.length_modify .., ?_⟩
    intro i ch' hi
    unfold Imgdiff.demoteAt at hi
    by_cases hij : j = i
    · subst hij
      rw [List.getElem?_modify_eq] at hi
      obtain ⟨ch, hch, rfl⟩ := Option.map_eq_some_iff.mp hi
      exact ⟨ch, hch, .change ch⟩
    · rw [List.getElem?_modify_ne _ _ hij] at hi
      exact ⟨ch', hi, .refl ch'⟩

/-- The chunks lie where they did. -/
theorem place (h : KeptAll chunks chunks') :
    chunks'.map (fun ch => (ch.start, ch.span)) = chunks.map fun ch => (ch.start, ch.span) := by
  refine List.ext_getElem (by rw [List.length_map, List.length_map, h.1]) fun i hi hi' => ?_
  rw [List.length_map] at hi hi'
  obtain ⟨ch, hch, hk⟩ := h.2 i chunks'[i] (List.getElem?_eq_getElem hi)
  rw [List.getElem?_eq_getElem hi'] at hch
  cases hch
  rw [List.getElem_map, List.getElem_map, hk.place]

theorem filenames (h : KeptAll chunks chunks') : chunks'.map (·.filename) = chunks.map (·.filename) := by
  refine List.ext_getElem (by rw [List.length_map, List.length_map, h.1]) fun i hi hi' => ?_
  rw [List.length_map] at hi hi'
  obtain ⟨ch, hch, hk⟩ := h.2 i chunks'[i] (List.getElem?_eq_getElem hi)
  rw [List.getElem?_eq_getElem hi'] at hch
  cases hch
  rw [List.getElem_map, List.getElem_map, hk.filename]

theorem tiles {a b : Nat} (h : KeptAll chunks chunks') (ht : Tiles a chunks b) : Tiles a chunks' b := ht.congr h.place

end KeptAll

/-- What the body of the loop does: nothing where the target is no deflate chunk; else the chunk and its source become
normal chunks, or the chunk stays, for it can be reconstructed and its source is another one. -/
inductive Step (s : Setup) (i : Nat) (l : Lists) : Lists → Prop
  | skip (h : ∀ tgt, l.tgt_chunks[i]? = some tgt → tgt.type ≠ .deflate) : Step s i l l
  | demoted (tgt : ImageChunk) (params : DeflateParams) (hi : l.tgt_chunks[i]? = some tgt)
    (htype : tgt.type = .deflate) :
    Step s i l ⟨demoteAt l.src_chunks (sourceOf s.zip_mode l.src_chunks i tgt),
      l.tgt_chunks.set i (changeDeflateChunkToNormal { tgt with params := params })⟩
  | stays (tgt : ImageChunk) (params : DeflateParams) (hi : l.tgt_chunks[i]? = some tgt)
    (htype : tgt.type = .deflate) (j : Nat) (source : ImageChunk)
    (hj : sourceOf s.zip_mode l.src_chunks i tgt = some j) (hsource : l.src_chunks[j]? = some source)
    (hr : Reconstructed s.zlib s.tgt { tgt with params := params })
    (hne : areChunksEqual s.tgt s.src { tgt with params := params } source = false) :
    Step s i l ⟨l.src_chunks, l.tgt_chunks.set i { tgt with params := params }⟩

variable {s} {i : Nat} {l l' : Lists}

/-- Without a source there is nothing to change. -/
theorem demoteAt_none {chunks : List ImageChunk} {src : Option Nat} (h : (src.bind fun j => chunks[j]?) = none) :
    demoteAt chunks src = chunks := by
  cases src with
  | none => rfl
  | some j =>
    rw [Option.bind_some, List.getElem?_eq_none_iff] at h
    exact List.modify_eq_self h

theorem settle_cases {tgt : ImageChunk} {b : Bool} (params : DeflateParams) (hi : l.tgt_chunks[i]? = some tgt)
    (htype : tgt.type = .deflate) (hr : b = true → Reconstructed s.zlib s.tgt { tgt with params := params }) :
    Step s i l (settle s i l { tgt with params := params } b) := by
  have hdemoted := Step.demoted (s := s) tgt params hi htype
  have hsrc : sourceOf s.zip_mode l.src_chunks i { tgt with params := params } =
      sourceOf s.zip_mode l.src_chunks i tgt := rfl
  unfold settle
  dsimp only
  rw [hsrc]
  cases b with
  | false => exact hdemoted
  | true =>
    rw [if_neg (not_not.mpr rfl)]
    cases hsource : (sourceOf s.zip_mode l.src_chunks i tgt).bind fun j => l.src_chunks[j]? with
    | none => rwa [demoteAt_none hsource] at hdemoted
    | some source =>
      obtain ⟨j, hj, hsource⟩ := Option.bind_eq_some_iff.mp hsource
      dsimp only
      by_cases heq : areChunksEqual s.tgt s.src { tgt with params := params } source = true
      · rw [if_pos heq]
        exact hdemoted
      · rw [if_neg heq]
        exact .stays tgt params hi htype j source hj hsource (hr rfl) (Bool.eq_false_iff.mpr heq)

theorem demoteStep_cases (h : demoteStep s i l = .ok l') : Step s i l l' := by
  unfold demoteStep at h
  cases hi : l.tgt_chunks[i]? with
  | none =>
    rw [hi] at h
    cases h
    exact .skip (by simp [hi])
  | some tgt =>
    rw [hi] at h
    dsimp only at h
    by_cases htype : tgt.type ≠ .deflate
    · rw [if_pos htype] at h
      cases h
      refine .skip ?_
      intro tgt' htgt'
      cases hi.symm.trans htgt'
      exact htype
    · rw [if_neg htype] at h
      have htype : tgt.type = .deflate := not_not.mp htype
      obtain ⟨⟨tgt', b⟩, hrec, h⟩ := Except.bind_eq_ok.mp h
      obtain ⟨params, rfl, hr, -⟩ := reconstruct_spec htype hrec
      cases h
      exact settle_cases params hi htype hr

theorem Step.kept (h : Step s i l l') : KeptAll l.src_chunks l'.src_chunks ∧ KeptAll l.tgt_chunks l'.tgt_chunks := by
  cases h with
  | skip => exact ⟨.refl _, .refl _⟩
  | demoted tgt params hi htype =>
    exact ⟨.demoteAt _ _, .set hi ((Kept.params params).trans (.change _))⟩
  | stays tgt params hi => exact ⟨.refl _, .set hi (.params params)⟩

/-- What the loop has kept of the lists, in either mode. -/
theorem demote_kept (h : demote s l = .ok l') :
    KeptAll l.src_chunks l'.src_chunks ∧ KeptAll l.tgt_chunks l'.tgt_chunks := by
  refine forUpTo_inv (fun _ k => KeptAll l.src_chunks k.src_chunks ∧ KeptAll l.tgt_chunks k.tgt_chunks)
    ⟨.refl _, .refl _⟩ ?_ h
  rintro i k k' - ⟨hsrc, htgt⟩ hstep
  obtain ⟨hsrc', htgt'⟩ := (demoteStep_cases hstep).kept
  exact ⟨hsrc.trans hsrc', htgt.trans htgt'⟩

/-! ## Lists side by side -/

/-- Behind `n` rounds over two images: the types are still the same, and what stayed a deflate chunk can be
reconstructed and differs from its source. -/
structure SideBySide (s : Setup) (n : Nat) (l : Lists) : Prop where
  types : ∀ i : Nat, (l.src_chunks[i]?).map (·.type) = (l.tgt_chunks[i]?).map (·.type)
  stays : ∀ i tgt, i < n → l.tgt_chunks[i]? = some tgt → tgt.type = .deflate → Reconstructed s.zlib s.tgt tgt ∧
    ∃ source, l.src_chunks[i]? = some source ∧ areChunksEqual s.tgt s.src tgt source = false

theorem Step.sideBySide (h : Step s i l l') (hzip : s.zip_mode = false) (hl : SideBySide s i l) :
    SideBySide s (i + 1) l' := by
  obtain ⟨htypes, hstays⟩ := hl
  cases h with
  | skip hskip =>
    refine ⟨htypes, ?_⟩
    intro j tgt hj htgt htype
    by_cases hji : j = i
    · subst hji
      exact absurd htype (hskip tgt htgt)
    · exact hstays j tgt (by omega) htgt htype
  | demoted tgt params hi htype =>
    obtain ⟨hlt, -⟩ := List.getElem?_eq_some_iff.mp hi
    have hsource : sourceOf s.zip_mode l.src_chunks i tgt = some i := by
      unfold sourceOf
      rw [hzip]
      rfl
    have htgt : (changeDeflateChunkToNormal { tgt with params := params }).type = .normal := change_type htype
    rw [hsource]
    constructor
    · intro j
      by_cases hij : i = j
      · subst hij
        have hsrc := htypes i
        rw [hi, Option.map_some, htype] at hsrc
        obtain ⟨source, hsource, hstype⟩ := Option.map_eq_some_iff.mp hsrc
        rw [demoteAt, List.getElem?_modify_eq, hsource, List.getElem?_set_self hlt, Option.map_some]
        exact congrArg some ((change_type hstype).trans htgt.symm)
      · rw [demoteAt, List.getElem?_modify_ne _ _ hij, List.getElem?_set_ne hij]
        exact htypes j
    · intro j tgt' hj htgt' htype'
      by_cases hij : i = j
      · subst hij
        rw [List.getElem?_set_self hlt] at htgt'
        cases htgt'
        rw [htgt] at htype'
        cases htype'
      · rw [List.getElem?_set_ne hij] at htgt'
        rw [demoteAt, List.getElem?_modify_ne _ _ hij]
        exact hstays j tgt' (by omega) htgt' htype'
  | stays tgt params hi htype j source hj hsource hr hne =>
    obtain ⟨hlt, -⟩ := List.getElem?_eq_some_iff.mp hi
    constructor
    · intro k
      by_cases hik : i = k
      · subst hik
        rw [List.getElem?_set_self hlt, htypes i, hi]
        rfl
      · rw [List.getElem?_set_ne hik]
        exact htypes k
    · intro k tgt' hk htgt' htype'
      by_cases hik : i = k
      · subst hik
        rw [List.getElem?_set_self hlt] at htgt'
        cases htgt'
        unfold sourceOf at hj
        rw [hzip] at hj
        cases hj
        exact ⟨hr, source, hsource, hne⟩
      · rw [List.getElem?_set_ne hik] at htgt'
        exact hstays k tgt' (by omega) htgt' htype'

theorem demote_sideBySide (hzip : s.zip_mode = false)
    (htypes : l.src_chunks.map (·.type) = l.tgt_chunks.map (·.type)) (h : demote s l = .ok l') :
    SideBySide s l.tgt_chunks.length l' := by
  refine forUpTo_inv (SideBySide s) ⟨?_, ?_⟩ ?_ h
  · intro i
    rw [← List.getElem?_map, htypes, List.getElem?_map]
  · intro i tgt hi
    omega
  · intro i k k' _ hk hstep
    exact (demoteStep_cases hstep).sideBySide hzip hk

/-- Two images of the same chunk types come out as two images of the same chunk types: what lay side by side is merged
on both sides, so merging never goes awry. Both lists still hold their images, no two normal chunks are left side
by side, and each deflate chunk that is left in the target can be reconstructed. -/
theorem images_parallel (hzip : s.zip_mode = false) {a b c d : Nat} (hsrc : Tiles a l.src_chunks b)
    (htgt : Tiles c l.tgt_chunks d) (htypes : l.src_chunks.map (·.type) = l.tgt_chunks.map (·.type))
    (h : demote s l = .ok l') :
    (mergeAdjacentNormalChunks l'.src_chunks).map (·.type) = (mergeAdjacentNormalChunks l'.tgt_chunks).map (·.type) ∧
    Tiles a (mergeAdjacentNormalChunks l'.src_chunks) b ∧ Tiles c (mergeAdjacentNormalChunks l'.tgt_chunks) d ∧
    (mergeAdjacentNormalChunks l'.tgt_chunks).IsChain (fun x y => bothNormal x.type y.type = false) ∧
    ∀ tgt ∈ mergeAdjacentNormalChunks l'.tgt_chunks, tgt.type = .deflate → Reconstructed s.zlib s.tgt tgt := by
  have hside := demote_sideBySide hzip htypes h
  obtain ⟨hksrc, hktgt⟩ := demote_kept h
  have hsrc' := hksrc.tiles hsrc
  have htgt' := hktgt.tiles htgt
  have htypes' : l'.src_chunks.map (·.type) = l'.tgt_chunks.map (·.type) := by
    refine List.ext_getElem? fun i => ?_
    rw [List.getElem?_map, List.getElem?_map]
    exact hside.types i
  refine ⟨merge_parallel hsrc' htgt' htypes', merge_tiles hsrc', merge_tiles htgt', merge_separate htgt', ?_⟩
  intro tgt hmem htype
  have hmem' : tgt ∈ l'.tgt_chunks.filter fun ch => ch.type ≠ .normal := by
    rw [← merge_others, List.mem_filter]
    exact ⟨hmem, by simp [htype]⟩
  obtain ⟨i, hi, rfl⟩ := List.getElem_of_mem (List.mem_filter.mp hmem').1
  exact (hside.stays i _ (hktgt.1 ▸ hi) (List.getElem?_eq_getElem hi) htype).1

/-- zlib for the two streams. -/
def streamZlib : Zlib where
  inflate stream room := (streams.find? fun e => e.1 == stream).bind fun e =>
    if e.2.length ≤ room then some e.2 else none
  deflate _ data _ := (streams.find? fun e => e.2 == data).map fun e => [e.1]

/-- The same data at another time. -/
def otherMember : Buffer := ⟨gzipMember 1 [0x4b, 0x04, 0x00] [0x43, 0xbe, 0xb7, 0xe8], by decide⟩

def memberSetup : Setup := ⟨streamZlib, false, .padded oneMember fun _ => 0, .padded otherMember fun _ => 0⟩

theorem images_parallel_members : ∃ l',
    demote memberSetup ⟨memberChunks 0 3 [0x61], memberChunks 0 3 [0x61]⟩ = .ok l' ∧
    (mergeAdjacentNormalChunks l'.src_chunks).map (·.type) = (mergeAdjacentNormalChunks l'.tgt_chunks).map (·.type) ∧
    Tiles 0 (mergeAdjacentNormalChunks l'.src_chunks) 21 ∧ Tiles 0 (mergeAdjacentNormalChunks l'.tgt_chunks) 21 ∧
    (mergeAdjacentNormalChunks l'.tgt_chunks).IsChain (fun x y => bothNormal x.type y.type = false) ∧
    ∀ tgt ∈ mergeAdjacentNormalChunks l'.tgt_chunks, tgt.type = .deflate →
      Reconstructed memberSetup.zlib memberSetup.tgt tgt := by
  obtain ⟨l', h⟩ : ∃ l', demote memberSetup ⟨memberChunks 0 3 [0x61], memberChunks 0 3 [0x61]⟩ = .ok l' := ⟨_, rfl⟩
  have htiles : Tiles 0 (memberChunks 0 3 [0x61]) 21 := ⟨10, rfl, rfl, 3, rfl, rfl, 8, rfl, rfl, rfl⟩
  exact ⟨l', h, images_parallel rfl htiles htiles rfl h⟩

end Miui.Imgdiff
