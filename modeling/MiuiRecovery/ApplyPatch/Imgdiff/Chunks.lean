import MiuiRecovery.Lib.Compact
import MiuiRecovery.ApplyPatch.Bsdiff.Bsdiff
import MiuiRecovery.ApplyPatch.ImgPatch

/-!
# The chunks of an image

`ImageChunk` and `MergeAdjacentNormalChunks` (`imgdiff.c`). A pointer into the image is its offset; memory that
`malloc` gave is a byte string of its own. A field that the code has not set yet is 0 or `none`.

* `Tiles`: chunks that lie side by side in the image; together they hold it (`Tiles.contents`).
* `merge_tiles`: merging keeps the tiling, and leaves no two normal chunks side by side.
* `merge_others`: every chunk that is not normal is kept as it is, in its place among the others.
* `merge_parallel`: lists of the same chunk types stay such lists.
-/

namespace Miui.Imgdiff

open Bsdiff ImgPatch

/-! ## Images -/

/-- A file in memory, and what lies behind it. -/
structure Image where
  file : Buffer
  behind : Nat → UInt8

namespace Image

def size (img : Image) : Nat := img.file.data.length

/-- `img[i]` -/
def byte (img : Image) (i : Nat) : UInt8 :=
  if h : i < img.file.data.length then img.file.data[i] else img.behind (i - img.file.data.length)

/-- `n` bytes from `off` -/
def bytes (img : Image) (off n : Nat) : Bytes := (List.range n).map fun i => img.byte (off + i)

variable {img : Image}

@[simp] theorem bytes_length (off n : Nat) : (img.bytes off n).length = n := by simp [bytes]

@[simp] theorem bytes_zero (off : Nat) : img.bytes off 0 = [] := rfl

theorem bytes_append (off m n : Nat) : img.bytes off m ++ img.bytes (off + m) n = img.bytes off (m + n) := by
  unfold bytes
  rw [List.range_add, List.map_append, List.map_map]
  refine congrArg _ (List.map_congr_left fun i _ => ?_)
  rw [Function.comp_apply, Nat.add_assoc]

theorem bytes_file : img.bytes 0 img.size = img.file.data := by
  refine List.ext_getElem (bytes_length 0 _) fun i hi hi' => ?_
  simp only [bytes, List.getElem_map, List.getElem_range, Nat.zero_add, byte, dif_pos hi']

end Image

/-! ## Chunks -/

inductive ChunkType
  | normal
  | deflate
  | raw
deriving DecidableEq

/-- `CHUNK_NORMAL`, `CHUNK_DEFLATE` and `CHUNK_RAW` -/
def ChunkType.code : ChunkType → Int
  | .normal => CHUNK_NORMAL
  | .deflate => CHUNK_DEFLATE
  | .raw => CHUNK_RAW

/-- `data`: a pointer into the image, or memory of its own. -/
inductive Data
  | image (off : Nat)
  | own (bytes : Bytes)
deriving DecidableEq

/-- `n` bytes at `data` -/
def Data.bytes (img : Image) (n : Nat) : Data → Bytes
  | .image off => img.bytes off n
  | .own bytes => bytes.take n

structure ImageChunk where
  type : ChunkType
  start : Nat
  len : Nat
  data : Data
  source_start : Nat
  source_len : Nat
  I : Option Arr
  deflate_len : Nat
  deflate_data : Nat
  filename : Option Bytes
  params : DeflateParams
  source_uncompressed_len : Nat

/-- A chunk of a new list. -/
def ImageChunk.init (type : ChunkType) (start len : Nat) (data : Data) : ImageChunk where
  type := type
  start := start
  len := len
  data := data
  source_start := 0
  source_len := 0
  I := none
  deflate_len := 0
  deflate_data := 0
  filename := none
  params := ⟨0, 0, 0, 0, 0⟩
  source_uncompressed_len := 0

namespace ImageChunk

/-- The bytes of a chunk that are patched. -/
def contents (img : Image) (ch : ImageChunk) : Bytes := ch.data.bytes img ch.len

/-- Where the image has the chunk: the offset and the length. -/
def span (ch : ImageChunk) : Option (Nat × Nat) :=
  match ch.type, ch.data with
  | .deflate, _ => some (ch.deflate_data, ch.deflate_len)
  | _, .image off => some (off, ch.len)
  | _, .own _ => none

/-- The bytes that the image has for a chunk. -/
def spanned (img : Image) (ch : ImageChunk) : Bytes := (ch.span.map fun s => img.bytes s.1 s.2).getD []

end ImageChunk

/-- The chunks lie side by side in the image, from `pos` to `stop`. -/
def Tiles : Nat → List ImageChunk → Nat → Prop
  | pos, [], stop => pos = stop
  | pos, ch :: chunks, stop => ∃ n, ch.start = pos ∧ ch.span = some (pos, n) ∧ Tiles (pos + n) chunks stop

variable {img : Image} {chunks chunks' : List ImageChunk} {a b : Nat}

theorem tiles_append : Tiles a (chunks ++ chunks') b ↔ ∃ m, Tiles a chunks m ∧ Tiles m chunks' b := by
  induction chunks generalizing a with
  | nil => exact ⟨fun h => ⟨a, rfl, h⟩, fun ⟨m, hm, h⟩ => hm ▸ h⟩
  | cons ch chunks ih =>
    simp only [List.cons_append, Tiles, ih]
    constructor
    · rintro ⟨n, hstart, hspan, m, hleft, hright⟩
      exact ⟨m, ⟨n, hstart, hspan, hleft⟩, hright⟩
    · rintro ⟨m, ⟨n, hstart, hspan, hleft⟩, hright⟩
      exact ⟨n, hstart, hspan, m, hleft, hright⟩

theorem Tiles.le (h : Tiles a chunks b) : a ≤ b := by
  induction chunks generalizing a with
  | nil => exact Nat.le_of_eq h
  | cons ch chunks ih =>
    obtain ⟨n, -, -, hrest⟩ := h
    have := ih hrest
    omega

/-- Together the chunks hold what the image has there. -/
theorem Tiles.contents (img : Image) (h : Tiles a chunks b) :
    chunks.flatMap (·.spanned img) = img.bytes a (b - a) := by
  induction chunks generalizing a with
  | nil =>
    cases h
    rw [Nat.sub_self]
    rfl
  | cons ch chunks ih =>
    obtain ⟨n, -, hspan, hrest⟩ := h
    have hle := hrest.le
    rw [List.flatMap_cons, ih hrest, ImageChunk.spanned, hspan, Option.map_some, Option.getD_some, Image.bytes_append]
    congr 1
    omega

/-- What a list of chunks says of its tiling. -/
theorem Tiles.congr (h : Tiles a chunks b)
    (heq : chunks'.map (fun ch => (ch.start, ch.span)) = chunks.map fun ch => (ch.start, ch.span)) :
    Tiles a chunks' b := by
  induction chunks generalizing a chunks' with
  | nil => rwa [List.map_eq_nil_iff.mp heq]
  | cons ch chunks ih =>
    obtain ⟨n, hstart, hspan, hrest⟩ := h
    obtain ⟨ch', chunks', rfl, hhead, htail⟩ := List.map_eq_cons_iff.mp heq
    obtain ⟨hs, hsp⟩ := Prod.mk.inj hhead
    exact ⟨n, hs.trans hstart, hsp.trans hspan, ih hrest htail⟩

/-! ## Adjacent normal chunks -/

/-- `next.data == prev.data + prev.len`; a normal chunk has no memory of its own. -/
def follows (prev next : ImageChunk) : Bool :=
  match prev.data, next.data with
  | .image off, .image off' => off' == off + prev.len
  | _, _ => false

/-- Two chunks of one run: each begins where the previous one ended. -/
def solid (prev next : ImageChunk) : Bool :=
  decide (prev.type = .normal) && decide (next.type = .normal) && next.start == prev.start + prev.len &&
    follows prev next

/-- A run as one chunk: the rest of the record is what stood in its place. -/
def collapse (slot first last : ImageChunk) : ImageChunk :=
  { slot with
    type := .normal
    start := first.start
    data := first.data
    len := last.len + (last.start - first.start) }

def mergeAdjacentNormalChunks (chunks : List ImageChunk) : List ImageChunk := Compact.compact solid collapse chunks

def bothNormal (x y : ChunkType) : Bool := decide (x = .normal) && decide (y = .normal)

theorem span_normal {ch : ImageChunk} {s : Nat × Nat} (hn : ch.type = .normal) (h : ch.span = some s) :
    ch.data = .image s.1 ∧ ch.len = s.2 := by
  unfold ImageChunk.span at h
  rw [hn] at h
  cases hd : ch.data with
  | image off =>
    rw [hd] at h
    cases h
    exact ⟨rfl, rfl⟩
  | own bytes =>
    rw [hd] at h
    cases h

theorem solid_type {x y : ImageChunk} (h : solid x y = true) : x.type = .normal ∧ y.type = .normal := by
  unfold solid at h
  simp only [Bool.and_eq_true, decide_eq_true_eq] at h
  exact h.1.1

/-- Side by side in the image, normal chunks are a solid block. -/
theorem Tiles.solid (h : Tiles a chunks b) :
    chunks.IsChain fun x y => solid x y = bothNormal x.type y.type := by
  induction chunks generalizing a with
  | nil => exact .nil
  | cons x chunks ih =>
    obtain ⟨n, hx, hspan, hrest⟩ := h
    have hchain := ih hrest
    cases chunks with
    | nil => exact .singleton x
    | cons y chunks =>
      obtain ⟨m, hy, hspan', -⟩ := hrest
      refine .cons_cons ?_ hchain
      unfold Imgdiff.solid bothNormal
      by_cases hxn : x.type = .normal
      · by_cases hyn : y.type = .normal
        · obtain ⟨hd, hlen⟩ := span_normal hxn hspan
          obtain ⟨hd', -⟩ := span_normal hyn hspan'
          have hfollows : follows x y = true := by
            unfold follows
            rw [hd, hd', hlen]
            exact beq_self_eq_true _
          have hstart : (y.start == x.start + x.len) = true := by
            rw [hlen, hx, hy]
            exact beq_self_eq_true _
          rw [hfollows, hstart, Bool.and_true, Bool.and_true]
        · rw [decide_eq_false hyn, Bool.and_false, Bool.false_and, Bool.false_and]
      · rw [decide_eq_false hxn]
        simp only [Bool.false_and]

theorem Tiles.run {first last : ImageChunk} {between : List ImageChunk}
    (h : Tiles a (first :: (between ++ [last])) b) (hfirst : first.type = .normal) (hlast : last.type = .normal) :
    first.start = a ∧ first.data = .image a ∧ last.len + (last.start - first.start) = b - a := by
  obtain ⟨n, hstart, hspan, hrest⟩ := h
  obtain ⟨p, hbetween, n', hstart', hspan', hend⟩ := tiles_append.mp hrest
  obtain ⟨hdata, -⟩ := span_normal hfirst hspan
  obtain ⟨-, hlen⟩ := span_normal hlast hspan'
  have hle := hbetween.le
  have hend : p + n' = b := hend
  refine ⟨hstart, hdata, ?_⟩
  rw [hlen, hstart, hstart']
  omega

/-- In a run of more than one chunk all are normal. -/
theorem run_normal {first last : ImageChunk} {between : List ImageChunk}
    (h : (first :: (between ++ [last])).IsChain fun x y => solid x y = true) :
    ∀ ch ∈ first :: (between ++ [last]), ch.type = .normal := by
  induction between generalizing first with
  | nil =>
    have hpair : solid first last = true := h.rel
    intro ch hch
    rw [List.nil_append, List.mem_cons, List.mem_singleton] at hch
    obtain rfl | rfl := hch
    · exact (solid_type hpair).1
    · exact (solid_type hpair).2
  | cons x between ih =>
    have hpair : solid first x = true := h.rel
    intro ch hch
    obtain rfl | hch := List.mem_cons.mp hch
    · exact (solid_type hpair).1
    · exact ih h.tail ch hch

abbrev Collapsed (chunks : List ImageChunk) : ImageChunk → List ImageChunk → Prop := Compact.Fused collapse chunks

/-- What a run becomes lies where the run did. -/
theorem Collapsed.tiles {ch : ImageChunk} {g : List ImageChunk} (h : Collapsed chunks ch g)
    (hrun : g.IsChain fun x y => solid x y = true) (hg : Tiles a g b) : Tiles a [ch] b := by
  cases h with
  | single => exact hg
  | run slot first between last _ =>
    have hnormal := run_normal hrun
    obtain ⟨hstart, hdata, hlen⟩ := hg.run (hnormal _ List.mem_cons_self) (hnormal _ (by simp))
    have hle := hg.le
    refine ⟨b - a, hstart, ?_, Nat.add_sub_cancel' hle⟩
    show (match ChunkType.normal, first.data with
      | .deflate, _ => some (slot.deflate_data, slot.deflate_len)
      | _, .image off => some (off, last.len + (last.start - first.start))
      | _, .own _ => none) = some (a, b - a)
    rw [hdata, hlen]

theorem Collapsed.type {ch : ImageChunk} {g : List ImageChunk} (h : Collapsed chunks ch g)
    (hrun : g.IsChain fun x y => solid x y = true) : ch.type = (g.map (·.type)).headD .normal := by
  cases h with
  | single => rfl
  | run slot first between last _ => exact (run_normal hrun first List.mem_cons_self).symm

theorem tiles_collapsed {merged : List ImageChunk} {runs : List (List ImageChunk)}
    (h : List.Forall₂ (Collapsed chunks) merged runs) (hrun : ∀ g ∈ runs, g.IsChain fun x y => solid x y = true)
    (ht : Tiles a runs.flatten b) : Tiles a merged b := by
  induction h generalizing a with
  | nil => exact ht
  | @cons ch g merged runs hg _ ih =>
    obtain ⟨m, hleft, hright⟩ := tiles_append.mp ht
    have hch := hg.tiles (hrun g List.mem_cons_self) hleft
    have hrest := ih (fun g hg => hrun g (List.mem_cons_of_mem _ hg)) hright
    exact tiles_append.mpr ⟨m, hch, hrest⟩

theorem runs_solid (chunks : List ImageChunk) :
    ∀ g ∈ chunks.splitBy solid, g.IsChain fun x y => solid x y = true := fun _ hg => List.isChain_of_mem_splitBy hg

/-- Merging keeps the tiling. -/
theorem merge_tiles (h : Tiles a chunks b) : Tiles a (mergeAdjacentNormalChunks chunks) b :=
  tiles_collapsed (Compact.compact_spec solid collapse chunks) (runs_solid chunks)
    (by rwa [List.flatten_splitBy])

/-- A chunk that is not normal is kept as it is, in its place among the others. -/
theorem merge_others (chunks : List ImageChunk) :
    (mergeAdjacentNormalChunks chunks).filter (fun ch => ch.type ≠ .normal) =
      chunks.filter fun ch => ch.type ≠ .normal := by
  suffices h : ∀ {merged : List ImageChunk} {runs : List (List ImageChunk)},
      List.Forall₂ (Collapsed chunks) merged runs → (∀ g ∈ runs, g.IsChain fun x y => solid x y = true) →
      merged.filter (fun ch => ch.type ≠ .normal) = runs.flatten.filter fun ch => ch.type ≠ .normal by
    have := h (Compact.compact_spec solid collapse chunks) (runs_solid chunks)
    rwa [List.flatten_splitBy] at this
  intro merged runs h hrun
  induction h with
  | nil => rfl
  | @cons ch g merged runs hg _ ih =>
    have ih := ih fun g hg => hrun g (List.mem_cons_of_mem _ hg)
    rw [List.flatten_cons, List.filter_append, ← ih, List.filter_cons]
    cases hg with
    | single =>
      by_cases hx : ch.type = .normal
      · simp [hx]
      · simp [hx]
    | run slot first between last _ =>
      have hnormal := run_normal (hrun _ List.mem_cons_self)
      have hnone : (first :: (between ++ [last])).filter (fun ch => ch.type ≠ .normal) = [] := by
        rw [List.filter_eq_nil_iff]
        intro ch hch
        simp [hnormal ch hch]
      rw [hnone, List.nil_append, if_neg (by simp [collapse])]

/-- A merged chunk was there before, or is normal. -/
theorem mem_merge {ch : ImageChunk} (h : ch ∈ mergeAdjacentNormalChunks chunks) :
    ch ∈ chunks ∨ ch.type = .normal ∧ ∃ slot ∈ chunks, ch.I = slot.I := by
  obtain ⟨i, hi, rfl⟩ := List.getElem_of_mem h
  have hall := Compact.compact_spec solid collapse chunks
  have hi' : i < (chunks.splitBy solid).length := hall.length_eq ▸ hi
  have hrun := List.getElem_mem hi'
  have hfused : Collapsed chunks (mergeAdjacentNormalChunks chunks)[i] (chunks.splitBy solid)[i] :=
    List.Forall₂.get hall hi hi'
  generalize (chunks.splitBy solid)[i] = g at hfused hrun
  generalize (mergeAdjacentNormalChunks chunks)[i] = ch at hfused
  cases hfused with
  | single =>
    rw [← List.flatten_splitBy solid chunks]
    exact .inl (List.mem_flatten.mpr ⟨[ch], hrun, List.mem_singleton_self ch⟩)
  | run slot first between last hslot => exact .inr ⟨rfl, slot, hslot, rfl⟩

/-- The types of the merged chunks: each run of normal chunks counts as one. -/
theorem merge_types (h : Tiles a chunks b) : (mergeAdjacentNormalChunks chunks).map (·.type) =
    ((chunks.map (·.type)).splitBy bothNormal).map fun g => g.headD .normal := by
  rw [Compact.splitBy_congr h.solid, List.map_map]
  suffices h : ∀ {merged : List ImageChunk} {runs : List (List ImageChunk)},
      List.Forall₂ (Collapsed chunks) merged runs → (∀ g ∈ runs, g.IsChain fun x y => solid x y = true) →
      merged.map (·.type) = runs.map ((fun g => g.headD .normal) ∘ List.map (·.type)) from
    h (Compact.compact_spec solid collapse chunks) (runs_solid chunks)
  intro merged runs h hrun
  induction h with
  | nil => rfl
  | @cons ch g merged runs hg _ ih =>
    rw [List.map_cons, List.map_cons, ih fun g hg => hrun g (List.mem_cons_of_mem _ hg),
      hg.type (hrun g List.mem_cons_self)]
    rfl

/-- Lists of the same types are merged to lists of the same types. -/
theorem merge_parallel {c d : Nat} (h : Tiles a chunks b) (h' : Tiles c chunks' d)
    (htypes : chunks.map (·.type) = chunks'.map (·.type)) :
    (mergeAdjacentNormalChunks chunks).map (·.type) = (mergeAdjacentNormalChunks chunks').map (·.type) := by
  rw [merge_types h, merge_types h', htypes]

theorem bothNormal_chain {g : List ChunkType} (hg : g ≠ []) (h : g.IsChain fun x y => bothNormal x y = true) :
    g.getLast hg = g.headD .normal := by
  induction g with
  | nil => exact absurd rfl hg
  | cons x g ih =>
    cases g with
    | nil => rfl
    | cons y g =>
      have hxy : bothNormal x y = true := h.rel
      unfold bothNormal at hxy
      simp only [Bool.and_eq_true, decide_eq_true_eq] at hxy
      rw [List.getLast_cons (List.cons_ne_nil y g), ih (List.cons_ne_nil y g) h.tail]
      exact hxy.2.trans hxy.1.symm

/-- No two normal chunks are left side by side. -/
theorem merge_separate (h : Tiles a chunks b) :
    (mergeAdjacentNormalChunks chunks).IsChain fun x y => bothNormal x.type y.type = false := by
  rw [← List.isChain_map (R := fun x y => bothNormal x y = false) (f := fun ch : ImageChunk => ch.type), merge_types h,
    List.isChain_map, List.isChain_iff_getElem]
  intro i hi
  obtain ⟨hlast, hhead, hglue⟩ := List.isChain_iff_getElem.mp
    (List.isChain_getLast_head_splitBy bothNormal (chunks.map (·.type))) i hi
  have hchain := List.isChain_of_mem_splitBy (List.getElem_mem (Nat.lt_of_succ_lt hi))
  rw [bothNormal_chain hlast hchain] at hglue
  rw [← hglue]
  congr 1
  rw [List.headD_eq_head?_getD, List.head?_eq_some_head hhead]
  rfl

/-- Merging again changes nothing. -/
theorem merge_merge (h : Tiles a chunks b) :
    mergeAdjacentNormalChunks (mergeAdjacentNormalChunks chunks) = mergeAdjacentNormalChunks chunks := by
  have hseparate := merge_separate h
  have hsolid := (merge_tiles h).solid
  generalize mergeAdjacentNormalChunks chunks = merged at hseparate hsolid
  have hruns : merged.splitBy solid = merged.map fun ch => [ch] := by
    rw [List.splitBy_eq_iff]
    refine ⟨?_, ?_, ?_, ?_⟩
    · rw [← List.flatMap_def, List.flatMap_singleton']
    · simp
    · intro g hg
      obtain ⟨ch, -, rfl⟩ := List.mem_map.mp hg
      exact .singleton ch
    · rw [List.isChain_map, List.isChain_iff_getElem]
      intro i hi
      refine ⟨List.cons_ne_nil _ _, List.cons_ne_nil _ _, ?_⟩
      exact (List.isChain_iff_getElem.mp hsolid i hi).trans (List.isChain_iff_getElem.mp hseparate i hi)
  have hall := Compact.compact_spec solid collapse merged
  rw [hruns] at hall
  refine List.forall₂_eq_eq_eq ▸ (List.forall₂_map_right_iff.mp hall).imp ?_
  intro x y hxy
  generalize hg : [y] = g at hxy
  cases hxy with
  | single => exact (List.cons.inj hg).1.symm
  | run => simp at hg

end Miui.Imgdiff
