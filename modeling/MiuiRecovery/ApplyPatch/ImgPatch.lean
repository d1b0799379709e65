import MiuiRecovery.ApplyPatch.Bsdiff.Bounds

/-!
# ApplyImagePatch

`ApplyImagePatch` (`imgpatch.c`) and `ApplyBSDiffPatch` (`bspatch.c`). zlib is a parameter, the sink any
function of its earlier calls, and the source the memory that `old_data` points to: `src_start` and
`src_len` are not checked against its size.

* `applyChunk_spec`: how one chunk ends, and what it hands to the sink and to the SHA context.
* `neverPartial_iff`: the function ends, and returns 0 only for a patch that is applied completely,
  exactly if no call that it makes goes on for ever or astray, and no normal chunk fails unnoticed.
-/

namespace Miui.ImgPatch

open Bsdiff

/-! ## The sink and the SHA context -/

/-- What a sink answers, by its earlier calls with their answers. -/
abbrev Sink := List (Bytes × Int) → Bytes → Int

/-- The calls of the sink, and the bytes that have gone into the SHA context. -/
structure Output where
  calls : List (Bytes × Int)
  sha : Bytes
deriving DecidableEq

namespace Output

def sink (f : Sink) (data : Bytes) (o : Output) : Int × Output :=
  (f o.calls data, { o with calls := o.calls ++ [(data, f o.calls data)] })

/-- `SHA_update` -/
def update (data : Bytes) (o : Output) : Output := { o with sha := o.sha ++ data }

/-- The bytes that the sink has accepted. -/
def accepted (o : Output) : Bytes := o.calls.flatMap fun call => call.1.take call.2.toNat

end Output

/-! ## The chunks of a patch -/

def CHUNK_NORMAL : Int := 0
def CHUNK_DEFLATE : Int := 2
def CHUNK_RAW : Int := 3

/-- The arguments of `deflateInit2`. -/
structure DeflateParams where
  level : Int
  method : Int
  windowBits : Int
  memLevel : Int
  strategy : Int
deriving DecidableEq

inductive Chunk
  | normal (src_start src_len patch_offset : Nat)
  | raw (data : Bytes)
  | deflate (src_start src_len patch_offset expanded_len : Nat) (params : DeflateParams)
deriving DecidableEq

/-- `Read4` -/
def read4 (bs : Bytes) (off : Nat) : Except Stop Int := do
  let y ← access (bs.readLE 4 off)
  return if y < 2 ^ 31 then y else (y : Int) - 2 ^ 32

/-- `Read8` into a `size_t` -/
def read8 (bs : Bytes) (off : Nat) : Except Stop Nat := access (bs.readLE 8 off)

/-- The record of a chunk, and the position behind it. -/
def readChunk (patch : Bytes) (pos : Nat) : Except Stop (Chunk × Nat) := do
  -- "failed to read chunk record"
  if pos + 4 > patch.length then throw .error
  let type ← read4 patch pos
  let pos := pos + 4
  if type = CHUNK_NORMAL then
    if pos + 24 > patch.length then throw .error
    return (.normal (← read8 patch pos) (← read8 patch (pos + 8)) (← read8 patch (pos + 16)), pos + 24)
  else if type = CHUNK_RAW then
    if pos + 4 > patch.length then throw .error
    let data_len ← read4 patch pos
    let pos := pos + 4
    if pos + data_len > patch.length then throw .error
    -- A negative length passes the check; `SHA_update` is then told to read that many bytes.
    let data ← access (if 0 ≤ data_len then patch.slice pos data_len.toNat else none)
    return (.raw data, pos + data.length)
  else if type = CHUNK_DEFLATE then
    if pos + 60 > patch.length then throw .error
    let params := ⟨← read4 patch (pos + 40), ← read4 patch (pos + 44), ← read4 patch (pos + 48),
      ← read4 patch (pos + 52), ← read4 patch (pos + 56)⟩
    return (.deflate (← read8 patch pos) (← read8 patch (pos + 8)) (← read8 patch (pos + 16))
      (← read8 patch (pos + 24)) params, pos + 60)
  else throw .error

/-- The next `n` chunks, with their numbers. -/
def readChunks (patch : Bytes) : Nat → Nat → Nat → Except Stop (List (Nat × Chunk))
  | 0, _, _ => .ok []
  | n + 1, i, pos => do
    let (chunk, pos) ← readChunk patch pos
    return (i, chunk) :: (← readChunks patch n (i + 1) pos)

/-! ## A call -/

structure Zlib where
  /-- what one `inflate` into so much room gives, where it returns `Z_STREAM_END` -/
  inflate : Bytes → Nat → Option Bytes
  /-- the output of each `deflate` with so much room, up to the one that returns `Z_STREAM_END`; `none` where
  `deflateInit2` has failed, so that each returns an error without output -/
  deflate : DeflateParams → Bytes → Nat → Option (List Bytes)

/-- The arguments of `ApplyImagePatch` and what it relies on. -/
structure Call where
  bz : Bzlib
  zlib : Zlib
  malloc : (n : Nat) → Option (List.Vector UInt8 n)
  sink : Sink
  /-- the memory at `old_data` -/
  old_data : Int → UInt8
  patch : Bytes
  bonus_data : Option Bytes

variable (c : Call)

/-- `size` bytes at `old_data + start` -/
def Call.source (start size : Int) : Bytes := (List.range size.toNat).map fun i => c.old_data (start + i)

/-- The bsdiff patch at an offset of the patch. -/
def Call.bspatch (old : Bytes) (patch_offset : Nat) : Except Stop Bytes :=
  applyBSDiffPatchMemAt c.bz c.malloc old c.patch (offT patch_offset)

/-- `ApplyBSDiffPatch` behind `ApplyBSDiffPatchMem`: what it returns. -/
def sinkPatched (o : Output) : Except Stop Bytes → Except Stop (Int × Output)
  | .error .error => .ok (-1, o)
  | .error stop => .error stop
  | .ok new_data =>
    let (wrote, o) := o.sink c.sink new_data
    -- "short write of output"
    if wrote < new_data.length then .ok (1, o) else .ok (0, o.update new_data)

def applyBSDiffPatch (old : Bytes) (patch_offset : Nat) (o : Output) : Except Stop (Int × Output) :=
  sinkPatched c o (c.bspatch old patch_offset)

/-- The source of a deflate chunk, with the bonus data behind it in chunk 1. -/
def expandSource (i src_start src_len expanded_len : Nat) : Except Stop Bytes := do
  let bonus := if i = 1 then c.bonus_data.getD [] else []
  let some _ := c.malloc expanded_len | throw .error
  let some expanded := c.zlib.inflate (c.source (offT src_start) src_len) expanded_len | throw .error
  -- "source inflation short"
  if expanded.length + bonus.length ≠ expanded_len then throw .error
  return expanded ++ bonus

/-- The output of `deflate`, in the memory of the expanded source or in 32768 bytes; an error without
output where these are missing. -/
def deflateTarget (expanded_len : Nat) (params : DeflateParams) (target : Bytes) : Option (List Bytes) :=
  let temp_size := offT expanded_len
  if temp_size < 32768 then (c.malloc 32768).bind fun _ => c.zlib.deflate params target 32768
  else c.zlib.deflate params target temp_size.toNat

/-- The loop around `deflate`. -/
def sinkPieces : List Bytes → Output → Except Stop Output
  | [], o => .ok o
  | piece :: pieces, o =>
    let (wrote, o) := o.sink c.sink piece
    if wrote ≠ piece.length then .error .error else sinkPieces pieces (o.update piece)

/-- The loop where `deflate` never returns `Z_STREAM_END`, with fuel for its rounds. -/
def sinkNothing : Nat → Output → Except Stop Output
  | 0, _ => .error .endless
  | fuel + 1, o =>
    let (wrote, o) := o.sink c.sink []
    if wrote ≠ 0 then .error .error else sinkNothing fuel (o.update [])

/-- `do … while (ret != Z_STREAM_END)` -/
def sinkDeflated (fuel : Nat) (o : Output) : Option (List Bytes) → Except Stop Output
  | some pieces => sinkPieces c pieces o
  | none => sinkNothing c fuel o

/-- The body of the loop over the chunks, behind the record. -/
def applyChunk (fuel i : Nat) : Chunk → Output → Except Stop Output
  | .normal src_start src_len patch_offset, o => do
    -- The result is not looked at.
    let (_, o) ← applyBSDiffPatch c (c.source (offT src_start) (offT src_len)) patch_offset o
    return o
  | .raw data, o => do
    let (wrote, o) := (o.update data).sink c.sink data
    if wrote ≠ data.length then throw .error
    return o
  | .deflate src_start src_len patch_offset expanded_len params, o => do
    let expanded ← expandSource c i src_start src_len expanded_len
    let target ← c.bspatch expanded patch_offset
    sinkDeflated c fuel o (deflateTarget c expanded_len params target)

/-- `for (i = 0; i < num_chunks; ++i)` -/
def applyChunks (fuel : Nat) : Nat → Nat → Nat → Output → Except Stop Output
  | 0, _, _, o => .ok o
  | n + 1, i, pos, o => do
    let (chunk, pos) ← readChunk c.patch pos
    let o ← applyChunk c fuel i chunk o
    applyChunks fuel n (i + 1) pos o

/-- The header: the number of chunks. -/
def readHeader (patch : Bytes) : Except Stop Int := do
  -- "patch too short to contain header"
  if patch.length < 12 then throw .error
  if patch.take 8 ≠ Bytes.ascii "IMGDIFF2" then throw .error
  read4 patch 8

/-- `ApplyImagePatch`: an error stands for -1. -/
def applyImagePatch (fuel : Nat) : Except Stop Output := do
  let num_chunks ← readHeader c.patch
  applyChunks c fuel num_chunks.toNat 0 12 ⟨[], []⟩

/-! ## A patch that is applied completely -/

/-- What a chunk stands for, if it can be produced. -/
def produce (i : Nat) : Chunk → Option Bytes
  | .normal src_start src_len patch_offset =>
    (c.bspatch (c.source (offT src_start) (offT src_len)) patch_offset).toOption
  | .raw data => some data
  | .deflate src_start src_len patch_offset expanded_len params => do
    let expanded ← (expandSource c i src_start src_len expanded_len).toOption
    let target ← (c.bspatch expanded patch_offset).toOption
    let pieces ← deflateTarget c expanded_len params target
    some pieces.flatten

/-- A call of the sink that takes everything. -/
def Full (call : Bytes × Int) : Prop := (call.1.length : Int) ≤ call.2

/-- The chunks are produced, the sink has taken everything of what it was given, this is what the chunks
stand for, and the SHA context was given the same. -/
structure Delivered (chunks : List (Nat × Chunk)) (o : Output) : Prop where
  outputs : ∃ outs : List Bytes, chunks.map (fun chunk => produce c chunk.1 chunk.2) = outs.map some ∧
    o.accepted = outs.flatten
  full : ∀ call ∈ o.calls, Full call
  sha : o.sha = o.accepted

/-- The call ends with a result or an error. -/
def Returns {α : Type} (r : Except Stop α) : Prop := Ends (· ≠ .error) True r

/-- The function ends, and if it returns 0 then all chunks that the patch lists are delivered. -/
structure NeverPartial : Prop where
  terminates : ∃ fuel, Returns (applyImagePatch c fuel)
  complete : ∀ fuel o, applyImagePatch c fuel = .ok o → ∃ num_chunks chunks,
    readHeader c.patch = .ok num_chunks ∧ readChunks c.patch num_chunks.toNat 0 12 = .ok chunks ∧
      Delivered c chunks o

/-! ## One chunk -/

/-- The calls of bspatch return, and where deflate cannot start, the sink refuses one of the empty writes. -/
def ChunkEnds (i : Nat) (o : Output) : Chunk → Prop
  | .normal src_start src_len patch_offset =>
    Returns (c.bspatch (c.source (offT src_start) (offT src_len)) patch_offset)
  | .raw _ => True
  | .deflate src_start src_len patch_offset expanded_len params =>
    ∀ expanded, expandSource c i src_start src_len expanded_len = .ok expanded →
      Returns (c.bspatch expanded patch_offset) ∧ ∀ target, c.bspatch expanded patch_offset = .ok target →
        deflateTarget c expanded_len params target = none →
          ∃ k, c.sink (o.calls ++ List.replicate k ([], 0)) [] ≠ 0

/-- A normal chunk is produced, and the sink takes all of it. -/
def ChunkKept (o : Output) : Chunk → Prop
  | .normal src_start src_len patch_offset =>
    ∃ new_data, c.bspatch (c.source (offT src_start) (offT src_len)) patch_offset = .ok new_data ∧
      Full (new_data, c.sink o.calls new_data)
  | _ => True

variable {c}

theorem Output.accepted_append (calls calls' : List (Bytes × Int)) (sha sha' : Bytes) :
    (⟨calls ++ calls', sha'⟩ : Output).accepted = (⟨calls, sha⟩ : Output).accepted ++
      calls'.flatMap fun call => call.1.take call.2.toNat := List.flatMap_append

theorem Full.take {call : Bytes × Int} (h : Full call) : call.1.take call.2.toNat = call.1 := by
  unfold Full at h
  exact List.take_of_length_le (by omega)

/-- What a chunk that is kept adds. -/
structure Adds (out : Bytes) (o o' : Output) : Prop where
  calls : ∃ calls, o'.calls = o.calls ++ calls ∧ (∀ call ∈ calls, Full call) ∧
    (calls.flatMap fun call => call.1.take call.2.toNat) = out
  sha : o'.sha = o.sha ++ out

theorem Adds.accepted {out : Bytes} {o o' : Output} (h : Adds out o o') : o'.accepted = o.accepted ++ out := by
  obtain ⟨calls, hcalls, -, rfl⟩ := h.calls
  unfold Output.accepted
  rw [hcalls, List.flatMap_append]

theorem Adds.refl (o : Output) : Adds [] o o :=
  ⟨⟨[], (List.append_nil _).symm, fun _ h => absurd h List.not_mem_nil, rfl⟩, (List.append_nil _).symm⟩

theorem Adds.trans {out out' : Bytes} {o o' o'' : Output} (h : Adds out o o') (h' : Adds out' o' o'') :
    Adds (out ++ out') o o'' := by
  obtain ⟨⟨calls, hcalls, hfull, rfl⟩, hsha⟩ := h
  obtain ⟨⟨calls', hcalls', hfull', rfl⟩, hsha'⟩ := h'
  refine ⟨⟨calls ++ calls', ?_, ?_, List.flatMap_append⟩, ?_⟩
  · rw [hcalls', hcalls, List.append_assoc]
  · intro call hcall
    exact (List.mem_append.mp hcall).elim (hfull call) (hfull' call)
  · rw [hsha', hsha, List.append_assoc]

/-- A write that the sink takes, with the update of the SHA context. -/
theorem adds_sink {f : Sink} {data : Bytes} {o : Output} (h : Full (data, f o.calls data)) :
    Adds data o ⟨o.calls ++ [(data, f o.calls data)], o.sha ++ data⟩ := by
  refine ⟨⟨[(data, f o.calls data)], rfl, ?_, ?_⟩, rfl⟩
  · intro call hcall
    rw [List.mem_singleton.mp hcall]
    exact h
  · rw [List.flatMap_singleton]
    exact h.take

/-- The pieces go into the sink, or the loop ends with an error. -/
theorem sinkPieces_cases (pieces : List Bytes) (o : Output) :
    sinkPieces c pieces o = .error .error ∨
      ∃ o', sinkPieces c pieces o = .ok o' ∧ Adds pieces.flatten o o' := by
  induction pieces generalizing o with
  | nil => exact .inr ⟨o, rfl, .refl o⟩
  | cons piece pieces ih =>
    by_cases hfull : c.sink o.calls piece = piece.length
    · have hstep : sinkPieces c (piece :: pieces) o =
          sinkPieces c pieces ⟨o.calls ++ [(piece, c.sink o.calls piece)], o.sha ++ piece⟩ :=
        if_neg (not_not.mpr hfull)
      have hadds : Adds piece o _ := adds_sink (f := c.sink) (Int.le_of_eq hfull.symm)
      rw [hstep]
      obtain herr | ⟨o', hrun, hrest⟩ := ih ⟨o.calls ++ [(piece, c.sink o.calls piece)], o.sha ++ piece⟩
      · exact .inl herr
      · exact .inr ⟨o', hrun, hadds.trans hrest⟩
    · exact .inl (if_pos hfull)

theorem sinkNothing_zero {o : Output} (h : c.sink o.calls [] = 0) (fuel : Nat) :
    sinkNothing c (fuel + 1) o = sinkNothing c fuel ⟨o.calls ++ [([], 0)], o.sha ++ []⟩ := by
  rw [sinkNothing, Output.sink]
  dsimp only
  rw [h, if_neg (not_not.mpr rfl)]
  rfl

theorem sinkNothing_refused {o : Output} (h : c.sink o.calls [] ≠ 0) (fuel : Nat) :
    sinkNothing c (fuel + 1) o = .error .error := if_pos h

/-- Empty writes never end the loop with success. -/
theorem sinkNothing_ne_ok (fuel : Nat) (o o' : Output) : sinkNothing c fuel o ≠ .ok o' := by
  induction fuel generalizing o with
  | zero => exact fun h => nomatch h
  | succ fuel ih =>
    by_cases hzero : c.sink o.calls [] = 0
    · rw [sinkNothing_zero hzero]
      exact ih _
    · rw [sinkNothing_refused hzero]
      exact fun h => nomatch h

/-- They end it exactly if the sink refuses one. -/
theorem sinkNothing_returns (o : Output) :
    (∃ fuel, sinkNothing c fuel o = .error .error) ↔
      ∃ k, c.sink (o.calls ++ List.replicate k ([], 0)) [] ≠ 0 := by
  have hnext (calls : List (Bytes × Int)) (k : Nat) :
      calls ++ [([], 0)] ++ List.replicate k ([], 0) = calls ++ List.replicate (k + 1) ([], 0) := by
    rw [List.append_assoc, List.replicate_succ]
    rfl
  constructor
  · rintro ⟨fuel, hrun⟩
    induction fuel generalizing o with
    | zero => cases hrun
    | succ fuel ih =>
      by_cases hzero : c.sink o.calls [] = 0
      · rw [sinkNothing_zero hzero] at hrun
        obtain ⟨k, hk⟩ := ih _ hrun
        rw [hnext] at hk
        exact ⟨k + 1, hk⟩
      · exact ⟨0, by rwa [List.replicate_zero, List.append_nil]⟩
  · rintro ⟨k, hk⟩
    induction k generalizing o with
    | zero =>
      rw [List.replicate_zero, List.append_nil] at hk
      exact ⟨1, sinkNothing_refused hk 0⟩
    | succ k ih =>
      by_cases hzero : c.sink o.calls [] = 0
      · rw [← hnext] at hk
        obtain ⟨fuel, hrun⟩ := ih ⟨o.calls ++ [([], 0)], o.sha ++ []⟩ hk
        exact ⟨fuel + 1, (sinkNothing_zero hzero fuel).trans hrun⟩
      · exact ⟨1, sinkNothing_refused hzero 0⟩

/-- How a chunk ends. -/
inductive ChunkRun (c : Call) (i : Nat) (o : Output) (chunk : Chunk) : Prop
  /-- never, or out of bounds -/
  | stuck (hends : ¬ ChunkEnds c i o chunk) (hrun : ∀ fuel, ¬ Returns (applyChunk c fuel i chunk o))
  /-- the function returns -1 -/
  | refused (hends : ChunkEnds c i o chunk) (hrun : ∃ fuel, applyChunk c fuel i chunk o = .error .error)
      (hnot : ∀ fuel o', applyChunk c fuel i chunk o ≠ .ok o')
  /-- with the next chunk; this one is delivered, or not -/
  | next (hends : ChunkEnds c i o chunk) (o' : Output) (hrun : ∀ fuel, applyChunk c fuel i chunk o = .ok o')
      (hcalls : ∀ call ∈ o.calls, call ∈ o'.calls)
      (hkept : ChunkKept c o chunk → ∃ out, produce c i chunk = some out ∧ Adds out o o')
      (hlost : ¬ ChunkKept c o chunk → produce c i chunk = none ∨ ∃ call ∈ o'.calls, ¬ Full call)

theorem sinkPatched_cases (o : Output) (r : Except Stop Bytes) :
    (r = .error .error ∧ sinkPatched c o r = .ok (-1, o)) ∨
    (¬ Returns r ∧ ∃ stop, stop ≠ .error ∧ sinkPatched c o r = .error stop) ∨
    ∃ new_data, r = .ok new_data ∧
      ((¬ Full (new_data, c.sink o.calls new_data) ∧
        sinkPatched c o r = .ok (1, ⟨o.calls ++ [(new_data, c.sink o.calls new_data)], o.sha⟩)) ∨
      (Full (new_data, c.sink o.calls new_data) ∧
        sinkPatched c o r = .ok (0, ⟨o.calls ++ [(new_data, c.sink o.calls new_data)], o.sha ++ new_data⟩))) := by
  cases r with
  | error stop =>
    cases stop with
    | error => exact .inl ⟨rfl, rfl⟩
    | outOfBounds => exact .inr (.inl ⟨not_not.mpr (by decide), .outOfBounds, by decide, rfl⟩)
    | endless => exact .inr (.inl ⟨not_not.mpr (by decide), .endless, by decide, rfl⟩)
  | ok new_data =>
    refine .inr (.inr ⟨new_data, rfl, ?_⟩)
    by_cases hshort : c.sink o.calls new_data < new_data.length
    · exact .inl ⟨Int.not_le.mpr hshort, if_pos hshort⟩
    · exact .inr ⟨Int.not_lt.mp hshort, if_neg hshort⟩

theorem normal_run (i src_start src_len patch_offset : Nat) (o : Output) :
    ChunkRun c i o (.normal src_start src_len patch_offset) := by
  have hchunk (fuel : Nat) {ret : Int} {o' : Output}
      (h : sinkPatched c o (c.bspatch (c.source (offT src_start) (offT src_len)) patch_offset) = .ok (ret, o')) :
      applyChunk c fuel i (.normal src_start src_len patch_offset) o = .ok o' := by
    rw [applyChunk, applyBSDiffPatch, h]
    rfl
  obtain ⟨hmem, hrun⟩ | ⟨hmem, stop, hstop, hrun⟩ | ⟨new_data, hmem, ⟨hshort, hrun⟩ | ⟨hfull, hrun⟩⟩ :=
    sinkPatched_cases (c := c) o (c.bspatch (c.source (offT src_start) (offT src_len)) patch_offset)
  · refine .next ?_ o (fun fuel => hchunk fuel hrun) (fun call h => h) ?_ fun _ => .inl ?_
    · rw [ChunkEnds, hmem]
      exact not_not.mpr rfl
    · rintro ⟨new_data, hnew, -⟩
      rw [hmem] at hnew
      cases hnew
    · rw [produce, hmem]
      rfl
  · refine .stuck hmem fun fuel => ?_
    rw [applyChunk, applyBSDiffPatch, hrun]
    exact not_not.mpr hstop
  · refine .next ?_ _ (fun fuel => hchunk fuel hrun) (fun call h => List.mem_append_left _ h) ?_ fun _ =>
      .inr ⟨_, List.mem_append_right _ List.mem_cons_self, hshort⟩
    · rw [ChunkEnds, hmem]
      trivial
    · rintro ⟨new_data', hnew, hfull⟩
      rw [hmem] at hnew
      cases hnew
      exact absurd hfull hshort
  · refine .next ?_ _ (fun fuel => hchunk fuel hrun) (fun call h => List.mem_append_left _ h)
      (fun _ => ⟨new_data, ?_, adds_sink hfull⟩) fun h => ?_
    · rw [ChunkEnds, hmem]
      trivial
    · rw [produce, hmem]
      rfl
    · exact absurd ⟨new_data, hmem, hfull⟩ h

theorem raw_run (i : Nat) (data : Bytes) (o : Output) : ChunkRun c i o (.raw data) := by
  by_cases hfull : c.sink o.calls data = data.length
  · refine .next trivial ⟨o.calls ++ [(data, c.sink o.calls data)], o.sha ++ data⟩ (fun fuel => ?_)
      (fun call h => List.mem_append_left _ h) (fun _ => ⟨data, rfl, adds_sink (Int.le_of_eq hfull.symm)⟩)
      fun h => absurd trivial h
    simp only [applyChunk, Output.sink, Output.update, ne_eq, hfull, not_true_eq_false, if_false]
    rfl
  · have hrun (fuel : Nat) : applyChunk c fuel i (.raw data) o = .error .error := by
      simp only [applyChunk, Output.sink, Output.update, ne_eq, hfull, not_false_eq_true, if_true]
      rfl
    refine .refused trivial ⟨0, hrun 0⟩ fun fuel o' h => ?_
    rw [hrun] at h
    cases h

theorem expandSource_error {i src_start src_len expanded_len : Nat} {stop : Stop}
    (h : expandSource c i src_start src_len expanded_len = .error stop) : stop = .error := by
  unfold expandSource at h
  dsimp only at h
  generalize (if i = 1 then c.bonus_data.getD [] else []) = bonus at h
  split at h
  · split at h
    · split at h
      · cases h
        rfl
      · cases h
    · cases h
      rfl
  · cases h
    rfl

theorem deflate_run (i src_start src_len patch_offset expanded_len : Nat) (params : DeflateParams) (o : Output) :
    ChunkRun c i o (.deflate src_start src_len patch_offset expanded_len params) := by
  cases hexp : expandSource c i src_start src_len expanded_len with
  | error stop =>
    cases expandSource_error hexp
    have hrun (fuel : Nat) : applyChunk c fuel i
        (.deflate src_start src_len patch_offset expanded_len params) o = .error .error := by
      rw [applyChunk, hexp]
      rfl
    refine .refused ?_ ⟨0, hrun 0⟩ fun fuel o' h => ?_
    · rw [ChunkEnds, hexp]
      exact fun expanded h => nomatch h
    · rw [hrun] at h
      cases h
  | ok expanded =>
    cases hmem : c.bspatch expanded patch_offset with
    | error stop =>
      have hrun (fuel : Nat) : applyChunk c fuel i
          (.deflate src_start src_len patch_offset expanded_len params) o = .error stop := by
        rw [applyChunk, hexp, Except.ok_bind, hmem]
        rfl
      by_cases herr : stop = .error
      · subst herr
        refine .refused ?_ ⟨0, hrun 0⟩ fun fuel o' h => ?_
        · rw [ChunkEnds, hexp]
          intro expanded' h
          cases h
          rw [hmem]
          exact ⟨not_not.mpr rfl, fun target h => nomatch h⟩
        · rw [hrun] at h
          cases h
      · refine .stuck (fun hends => ?_) fun fuel => ?_
        · rw [ChunkEnds] at hends
          have hret := (hends expanded hexp).1
          rw [hmem] at hret
          exact hret herr
        · rw [hrun]
          exact not_not.mpr herr
    | ok target =>
      have hends : ChunkEnds c i o (.deflate src_start src_len patch_offset expanded_len params) ↔
          (deflateTarget c expanded_len params target = none →
            ∃ k, c.sink (o.calls ++ List.replicate k ([], 0)) [] ≠ 0) := by
        rw [ChunkEnds]
        refine ⟨fun h => (h expanded hexp).2 target hmem, fun h expanded' hexp' => ?_⟩
        cases hexp.symm.trans hexp'
        rw [hmem]
        refine ⟨trivial, fun target' htarget => ?_⟩
        cases htarget
        exact h
      cases hdeflate : deflateTarget c expanded_len params target with
      | some pieces =>
        have hends := hends.mpr fun h => nomatch hdeflate.symm.trans h
        have hrun (fuel : Nat) : applyChunk c fuel i
            (.deflate src_start src_len patch_offset expanded_len params) o = sinkPieces c pieces o := by
          rw [applyChunk, hexp, Except.ok_bind, hmem, Except.ok_bind, hdeflate]
          rfl
        obtain herr | ⟨o', hok, hadds⟩ := sinkPieces_cases (c := c) pieces o
        · refine .refused hends ⟨0, (hrun 0).trans herr⟩ fun fuel o' h => ?_
          rw [hrun, herr] at h
          cases h
        · refine .next hends o' (fun fuel => (hrun fuel).trans hok) ?_ (fun _ => ⟨pieces.flatten, ?_, hadds⟩)
            fun h => absurd trivial h
          · obtain ⟨calls, hcalls, -, -⟩ := hadds.calls
            rw [hcalls]
            exact fun call h => List.mem_append_left _ h
          · have hproduce : produce c i (.deflate src_start src_len patch_offset expanded_len params) =
                (expandSource c i src_start src_len expanded_len).toOption.bind fun expanded =>
                  (c.bspatch expanded patch_offset).toOption.bind fun target =>
                    (deflateTarget c expanded_len params target).bind fun pieces => some pieces.flatten := rfl
            rw [hproduce, hexp, Except.toOption, Option.bind_some, hmem, Except.toOption, Option.bind_some,
              hdeflate, Option.bind_some]
      | none =>
        have hrun (fuel : Nat) : applyChunk c fuel i
            (.deflate src_start src_len patch_offset expanded_len params) o = sinkNothing c fuel o := by
          rw [applyChunk, hexp, Except.ok_bind, hmem, Except.ok_bind, hdeflate]
          rfl
        rw [hdeflate] at hends
        by_cases hrefuses : ∃ k, c.sink (o.calls ++ List.replicate k ([], 0)) [] ≠ 0
        · obtain ⟨fuel, hfuel⟩ := (sinkNothing_returns o).mpr hrefuses
          refine .refused (hends.mpr fun _ => hrefuses) ⟨fuel, (hrun fuel).trans hfuel⟩ fun fuel o' h => ?_
          exact sinkNothing_ne_ok fuel o o' ((hrun fuel).symm.trans h)
        · refine .stuck (fun h => hrefuses (hends.mp h rfl)) fun fuel h => hrefuses ?_
          rw [hrun] at h
          refine (sinkNothing_returns o).mp ⟨fuel, ?_⟩
          cases hnothing : sinkNothing c fuel o with
          | ok o' => exact absurd hnothing (sinkNothing_ne_ok fuel o o')
          | error stop =>
            rw [hnothing] at h
            exact congrArg _ (not_not.mp h)

theorem applyChunk_run (i : Nat) (chunk : Chunk) (o : Output) : ChunkRun c i o chunk := by
  cases chunk with
  | normal src_start src_len patch_offset => exact normal_run i src_start src_len patch_offset o
  | raw data => exact raw_run i data o
  | deflate src_start src_len patch_offset expanded_len params =>
    exact deflate_run i src_start src_len patch_offset expanded_len params o

/-! ## The records -/

theorem read4_inside {bs : Bytes} {off : Nat} (h : off + 4 ≤ bs.length) : ∃ y, read4 bs off = .ok y := by
  unfold read4 Bytes.readLE
  rw [Bytes.slice_isSome h]
  exact ⟨_, rfl⟩

theorem read8_inside {bs : Bytes} {off : Nat} (h : off + 8 ≤ bs.length) : ∃ y, read8 bs off = .ok y := by
  unfold read8 Bytes.readLE
  rw [Bytes.slice_isSome h]
  exact ⟨_, rfl⟩

/-- A raw chunk of negative length. -/
def NegativeRaw (patch : Bytes) (pos : Nat) : Prop :=
  pos + 8 ≤ patch.length ∧ read4 patch pos = .ok CHUNK_RAW ∧ ∃ data_len, read4 patch (pos + 4) = .ok data_len ∧
    data_len < 0

theorem readChunk_returns (patch : Bytes) (pos : Nat) :
    Returns (readChunk patch pos) ↔ ¬ NegativeRaw patch pos := by
  have hother {type : Int} (htype : read4 patch pos = .ok type) (hne : type ≠ CHUNK_RAW) :
      ¬ NegativeRaw patch pos := fun h => hne (Except.ok.inj (htype.symm.trans h.2.1))
  have herror : Returns (.error .error : Except Stop (Chunk × Nat)) := not_not.mpr rfl
  unfold readChunk
  by_cases h4 : pos + 4 > patch.length
  · rw [if_pos h4]
    exact iff_of_true herror fun h => absurd h.1 (by omega)
  rw [if_neg h4]
  obtain ⟨type, htype⟩ := @read4_inside patch (pos) (by omega)
  rw [htype, Except.ok_bind]
  by_cases hnormal : type = CHUNK_NORMAL
  · refine iff_of_true ?_ (hother htype (by rw [hnormal]; decide))
    rw [if_pos hnormal]
    by_cases h24 : pos + 4 + 24 > patch.length
    · rw [if_pos h24]
      exact herror
    · rw [if_neg h24]
      obtain ⟨src_start, h0⟩ := @read8_inside patch (pos + 4) (by omega)
      obtain ⟨src_len, h8⟩ := @read8_inside patch (pos + 4 + 8) (by omega)
      obtain ⟨patch_offset, h16⟩ := @read8_inside patch (pos + 4 + 16) (by omega)
      rw [h0, h8, h16]
      trivial
  rw [if_neg hnormal]
  by_cases hraw : type = CHUNK_RAW
  · rw [if_pos hraw]
    by_cases h8 : pos + 4 + 4 > patch.length
    · rw [if_pos h8]
      exact iff_of_true herror fun h => absurd h.1 (by omega)
    rw [if_neg h8]
    obtain ⟨data_len, hlen⟩ := @read4_inside patch (pos + 4) (by omega)
    rw [hlen, Except.ok_bind]
    have hneg : NegativeRaw patch pos ↔ data_len < 0 := by
      refine ⟨fun h => ?_, fun h => ⟨by omega, hraw ▸ htype, data_len, hlen, h⟩⟩
      obtain ⟨-, -, len, hread, hlt⟩ := h
      cases hread.symm.trans hlen
      exact hlt
    rw [hneg]
    by_cases hend : ((pos + 4 + 4 : Nat) : Int) + data_len > patch.length
    · rw [if_pos hend]
      exact iff_of_true herror (by omega)
    rw [if_neg hend]
    by_cases hsign : 0 ≤ data_len
    · rw [if_pos hsign, Bytes.slice_isSome (by omega)]
      exact iff_of_true trivial (Int.not_lt.mpr hsign)
    · rw [if_neg hsign]
      exact iff_of_false (fun h => h (by decide)) fun h => h (Int.not_le.mp hsign)
  rw [if_neg hraw]
  refine iff_of_true ?_ (hother htype hraw)
  by_cases hdeflate : type = CHUNK_DEFLATE
  · rw [if_pos hdeflate]
    by_cases h60 : pos + 4 + 60 > patch.length
    · rw [if_pos h60]
      exact herror
    · rw [if_neg h60]
      obtain ⟨level, h40⟩ := @read4_inside patch (pos + 4 + 40) (by omega)
      obtain ⟨method, h44⟩ := @read4_inside patch (pos + 4 + 44) (by omega)
      obtain ⟨windowBits, h48⟩ := @read4_inside patch (pos + 4 + 48) (by omega)
      obtain ⟨memLevel, h52⟩ := @read4_inside patch (pos + 4 + 52) (by omega)
      obtain ⟨strategy, h56⟩ := @read4_inside patch (pos + 4 + 56) (by omega)
      obtain ⟨src_start, h0⟩ := @read8_inside patch (pos + 4) (by omega)
      obtain ⟨src_len, h8⟩ := @read8_inside patch (pos + 4 + 8) (by omega)
      obtain ⟨patch_offset, h16⟩ := @read8_inside patch (pos + 4 + 16) (by omega)
      obtain ⟨expanded_len, h24⟩ := @read8_inside patch (pos + 4 + 24) (by omega)
      rw [h40, h44, h48, h52, h56, h0, h8, h16, h24]
      trivial
  · rw [if_neg hdeflate]
    exact herror

/-- The header is refused or read. -/
theorem readHeader_returns (patch : Bytes) : Returns (readHeader patch) := by
  unfold readHeader
  by_cases hshort : patch.length < 12
  · rw [if_pos hshort]
    exact not_not.mpr rfl
  · rw [if_neg hshort]
    by_cases hmagic : patch.take 8 ≠ Bytes.ascii "IMGDIFF2"
    · rw [if_pos hmagic]
      exact not_not.mpr rfl
    · rw [if_neg hmagic]
      obtain ⟨y, hy⟩ := @read4_inside patch (8) (by omega)
      rw [hy]
      trivial

/-! ## The loop over the chunks -/

variable (c) in
/-- What the loop comes to: a record that can be read without a negative length, a chunk that ends, and
behind the last one `clean`, that no normal chunk was lost. -/
def Sound : Nat → Nat → Nat → Output → Prop → Prop
  | 0, _, _, _, clean => clean
  | n + 1, i, pos, o, clean => ¬ NegativeRaw c.patch pos ∧ ∀ chunk pos',
    readChunk c.patch pos = .ok (chunk, pos') → ChunkEnds c i o chunk ∧
      ∀ o', applyChunk c 0 i chunk o = .ok o' → Sound n (i + 1) pos' o' (clean ∧ ChunkKept c o chunk)

/-- A chunk that cannot be produced, or a write that came up short. -/
def Lost (chunks : List (Nat × Chunk)) (o : Output) : Prop :=
  (∃ chunk ∈ chunks, produce c chunk.1 chunk.2 = none) ∨ ∃ call ∈ o.calls, ¬ Full call

theorem Lost.not_delivered {chunks : List (Nat × Chunk)} {o : Output} (h : Lost (c := c) chunks o) :
    ¬ Delivered c chunks o := by
  rintro ⟨⟨outs, houts, -⟩, hfull, -⟩
  obtain ⟨chunk, hmem, hnone⟩ | ⟨call, hmem, hshort⟩ := h
  · have hnone : none ∈ outs.map some := houts ▸ List.mem_map.mpr ⟨chunk, hmem, hnone⟩
    obtain ⟨out, -, hout⟩ := List.mem_map.mp hnone
    cases hout
  · exact hshort (hfull call hmem)

theorem Delivered.append {chunks : List (Nat × Chunk)} {o o' : Output} {i : Nat} {chunk : Chunk} {out : Bytes}
    (h : Delivered c chunks o) (hout : produce c i chunk = some out) (hadds : Adds out o o') :
    Delivered c (chunks ++ [(i, chunk)]) o' := by
  obtain ⟨⟨outs, houts, hacc⟩, hfull, hsha⟩ := h
  refine ⟨⟨outs ++ [out], ?_, ?_⟩, ?_, ?_⟩
  · rw [List.map_append, List.map_append, houts, List.map_singleton, List.map_singleton, hout]
  · rw [hadds.accepted, hacc]
    simp
  · obtain ⟨calls, hcalls, hall, -⟩ := hadds.calls
    rw [hcalls]
    intro call hcall
    exact (List.mem_append.mp hcall).elim (hfull call) (hall call)
  · rw [hadds.accepted, hadds.sha, hsha]

/-- What the function promises of the chunks from `i` on, behind `chunks`. -/
def Promise (c : Call) (n i pos : Nat) (chunks : List (Nat × Chunk)) (o : Output) : Prop :=
  (∃ fuel, Returns (applyChunks c fuel n i pos o)) ∧ ∀ fuel o', applyChunks c fuel n i pos o = .ok o' →
    ∃ rest, readChunks c.patch n i pos = .ok rest ∧ Delivered c (chunks ++ rest) o'

theorem promise_iff {n i pos : Nat} {chunks : List (Nat × Chunk)} {o : Output} {clean : Prop}
    (hclean : clean → Delivered c chunks o) (hlost : ¬ clean → Lost (c := c) chunks o) :
    Promise c n i pos chunks o ↔ Sound c n i pos o clean := by
  induction n generalizing i pos chunks o clean with
  | zero =>
    unfold Promise Sound
    constructor
    · rintro ⟨-, h⟩
      obtain ⟨rest, hrest, hdel⟩ := h 0 o rfl
      cases hrest
      rw [List.append_nil] at hdel
      exact by_contra fun hnot => (hlost hnot).not_delivered hdel
    · intro h
      refine ⟨⟨0, trivial⟩, fun fuel o' hrun => ⟨[], rfl, ?_⟩⟩
      cases hrun
      rw [List.append_nil]
      exact hclean h
  | succ n ih =>
    have hstep (fuel : Nat) : applyChunks c fuel (n + 1) i pos o = readChunk c.patch pos >>= fun next =>
        applyChunk c fuel i next.1 o >>= fun o' => applyChunks c fuel n (i + 1) next.2 o' := rfl
    cases hread : readChunk c.patch pos with
    | error stop =>
      have hrun (fuel : Nat) : applyChunks c fuel (n + 1) i pos o = .error stop := by
        rw [hstep, hread]
        rfl
      have hreturns := readChunk_returns c.patch pos
      rw [hread] at hreturns
      unfold Promise Sound
      simp only [hrun, hread, reduceCtorEq, false_implies, implies_true, and_true, exists_const]
      exact hreturns
    | ok next =>
      obtain ⟨chunk, pos'⟩ := next
      have hraw : ¬ NegativeRaw c.patch pos := (readChunk_returns c.patch pos).mp (hread ▸ trivial)
      have hrun (fuel : Nat) : applyChunks c fuel (n + 1) i pos o =
          applyChunk c fuel i chunk o >>= fun o' => applyChunks c fuel n (i + 1) pos' o' := by
        rw [hstep, hread]
        rfl
      have hchunks : readChunks c.patch (n + 1) i pos =
          readChunks c.patch n (i + 1) pos' >>= fun rest => .ok ((i, chunk) :: rest) := by
        rw [readChunks, hread]
        rfl
      have hsound : Sound c (n + 1) i pos o clean ↔ ChunkEnds c i o chunk ∧
          ∀ o', applyChunk c 0 i chunk o = .ok o' → Sound c n (i + 1) pos' o' (clean ∧ ChunkKept c o chunk) := by
        rw [Sound, hread]
        refine ⟨fun h => h.2 chunk pos' rfl, fun h => ⟨hraw, fun chunk' pos'' heq => ?_⟩⟩
        cases heq
        exact h
      rw [hsound]
      cases applyChunk_run (c := c) i chunk o with
      | stuck hends hstuck =>
        refine iff_of_false (fun h => ?_) fun h => hends h.1
        obtain ⟨fuel, hfuel⟩ := h.1
        refine hstuck fuel ?_
        rw [hrun] at hfuel
        cases happly : applyChunk c fuel i chunk o with
        | ok o' => trivial
        | error stop =>
          rw [happly] at hfuel
          exact hfuel
      | refused hends hrefused hnot =>
        refine iff_of_true ⟨?_, fun fuel o' h => ?_⟩ ⟨hends, fun o' h => absurd h (hnot 0 o')⟩
        · obtain ⟨fuel, hfuel⟩ := hrefused
          refine ⟨fuel, ?_⟩
          rw [hrun, hfuel]
          exact not_not.mpr rfl
        · rw [hrun] at h
          obtain ⟨o₁, happly, -⟩ := Except.bind_eq_ok.mp h
          exact absurd happly (hnot fuel o₁)
      | next hends o' happly hcalls hkept hlostChunk =>
        have hnext (fuel : Nat) : applyChunks c fuel (n + 1) i pos o = applyChunks c fuel n (i + 1) pos' o' := by
          rw [hrun, happly, Except.ok_bind]
        have hpromise : Promise c (n + 1) i pos chunks o ↔ Promise c n (i + 1) pos' (chunks ++ [(i, chunk)]) o' := by
          unfold Promise
          simp only [hnext]
          refine and_congr_right fun _ => forall_congr' fun fuel => forall_congr' fun o'' =>
            imp_congr_right fun _ => ?_
          rw [hchunks]
          constructor
          · rintro ⟨rest, hrest, hdel⟩
            obtain ⟨rest', hrest', heq⟩ := Except.bind_eq_ok.mp hrest
            cases heq
            exact ⟨rest', hrest', by rwa [List.append_assoc]⟩
          · rintro ⟨rest, hrest, hdel⟩
            refine ⟨(i, chunk) :: rest, by rw [hrest, Except.ok_bind], ?_⟩
            rwa [List.append_assoc] at hdel
        have hnextClean : clean ∧ ChunkKept c o chunk → Delivered c (chunks ++ [(i, chunk)]) o' := fun h => by
          obtain ⟨out, hout, hadds⟩ := hkept h.2
          exact (hclean h.1).append hout hadds
        have hnextLost (h : ¬ (clean ∧ ChunkKept c o chunk)) : Lost (c := c) (chunks ++ [(i, chunk)]) o' := by
          by_cases hc : clean
          · obtain hnone | hshort := hlostChunk fun hk => h ⟨hc, hk⟩
            · exact .inl ⟨_, List.mem_append_right _ List.mem_cons_self, hnone⟩
            · exact .inr hshort
          · obtain ⟨chunk', hmem, hnone⟩ | ⟨call, hmem, hshort⟩ := hlost hc
            · exact .inl ⟨chunk', List.mem_append_left _ hmem, hnone⟩
            · exact .inr ⟨call, hcalls call hmem, hshort⟩
        rw [hpromise, ih hnextClean hnextLost]
        refine ⟨fun h => ⟨hends, fun o'' heq => ?_⟩, fun h => h.2 o' (happly 0)⟩
        cases (happly 0).symm.trans heq
        exact h

/-- A patch of one normal chunk whose bsdiff patch starts with a wrong magic number. -/
def badNormal : Call where
  bz := sampleBz
  zlib := ⟨fun _ _ => none, fun _ _ _ => none⟩
  malloc := zeroMemory
  sink := fun _ data => data.length
  old_data := fun _ => 0
  patch := Bytes.ascii "IMGDIFF2" ++ [1, 0, 0, 0] ++ List.replicate 28 0
  bonus_data := none

end Miui.ImgPatch
