import Mathlib.Data.List.Sort
import MiuiRecovery.Lib.CString
import MiuiRecovery.ApplyPatch.Imgdiff.Write

/-!
# ReadZip

`ReadZip` (`imgdiff.c`): a zip file is taken apart at the deflated entries that its central directory lists. Nothing of
what the directory says is checked against the size of the file: a read outside of it is `outOfBounds`.

* `zipChunks_tiles`: entries that lie apart in the file give chunks that hold it.
* `matched_spec`: behind the loop over the target of a zip, every deflate chunk that is left has a deflate chunk of the
  same name in the source, if no two entries of the target have the same name.
-/

namespace Miui.Imgdiff

open Bsdiff ImgPatch CString

/-! ## The central directory -/

structure ZipFileEntry where
  data_offset : Int
  deflate_len : Int
  uncomp_len : Int
  filename : Bytes

variable (img : Bytes)

/-- `n` bytes at `img + off` -/
def bytesAt (off : Int) (n : Nat) : Except Stop Bytes := access (sliceAt img off n)

/-- `Read2` -/
def read2 (off : Int) : Except Stop Nat := do return Bytes.ofLE (← bytesAt img off 2)

/-- `Read4` -/
def readInt (off : Int) : Except Stop Int := do return asInt (Bytes.ofLE (← bytesAt img off 4))

/-- `img[off] == … && img[off + 1] == … && …` -/
def signature (off : Int) : Bytes → Except Stop Bool
  | [] => .ok true
  | b :: bs => do
    if (← bytesAt img off 1) ≠ [b] then return false
    signature (off + 1) bs

/-- `for (i = st.st_size-20; i >= 0 && i > st.st_size - 65600; --i)`: where its loop stops. -/
def findEnd : Nat → Int → Except Stop Int
  | 0, i => .ok i
  | left + 1, i =>
    if 0 ≤ i ∧ (img.length : Int) - 65600 < i then do
      if ← signature img i [0x50, 0x4b, 0x05, 0x06] then return i
      findEnd left (i - 1)
    else .ok i

/-- The deflated ones of the next entries, from `cd` on. -/
def readEntries : Nat → Int → Except Stop (List ZipFileEntry)
  | 0, _ => .ok []
  | left + 1, cd => do
    -- "bad central directory entry"
    if ¬ (← signature img cd [0x50, 0x4b, 0x01, 0x02]) then throw .error
    let clen ← readInt img (cd + 20)
    let ulen ← readInt img (cd + 24)
    let nlen ← read2 img (cd + 28)
    let xlen ← read2 img (cd + 30)
    let mlen ← read2 img (cd + 32)
    let hoffset ← readInt img (cd + 42)
    let filename ← bytesAt img (cd + 46) nlen
    let method ← read2 img (cd + 10)
    let rest ← if method ≠ 8 then .ok [] else do
      -- "bad local file header entry"
      if ¬ (← signature img hoffset [0x50, 0x4b, 0x03, 0x04]) then throw .error
      -- "central dir filename doesn't match local header"
      if (← read2 img (hoffset + 26)) ≠ nlen then throw .error
      if (← bytesAt img (hoffset + 30) nlen) ≠ filename then throw .error
      let xlen ← read2 img (hoffset + 28)
      return [⟨hoffset + 30 + nlen + xlen, clen, ulen, cstr filename⟩]
    return rest ++ (← readEntries left (cd + (46 + nlen + xlen + mlen)))

/-- The deflated entries, by their offsets. -/
def zipEntries : Except Stop (List ZipFileEntry) := do
  let i ← findEnd img (img.length + 1) (img.length - 20)
  -- "can't process multi-disk archive"
  if ¬ (← signature img (i + 4) [0, 0, 0, 0]) then throw .error
  let cdcount ← read2 img (i + 8)
  let cdoffset ← readInt img (i + 16)
  let temp_entries ← readEntries img cdcount cdoffset
  return temp_entries.insertionSort fun a b => a.data_offset ≤ b.data_offset

/-! ## The chunks of a zip file -/

/-- The record of a deflated entry; where `inflate` gives less than `uncomp_len` bytes, the rest is what the memory
held before. -/
def entryChunk (fresh : Nat → UInt8) (pos : Nat) (e : ZipFileEntry) (data : Bytes) : ImageChunk :=
  { ImageChunk.init .deflate pos e.uncomp_len.toNat
      (.own (data ++ (List.range (e.uncomp_len.toNat - data.length)).map fun i => fresh (data.length + i))) with
    deflate_len := e.deflate_len.toNat
    deflate_data := pos
    filename := some e.filename }

/-- `while (pos < st.st_size)`, with fuel for its rounds. The length of a chunk is a `size_t`: behind an entry that
starts before `pos` it wraps around, and `pos` goes back. -/
def zipChunks (zlib : Zlib) (fresh : Nat → UInt8) (img : Image) : Nat → Nat → List ZipFileEntry →
    Except Stop (List ImageChunk)
  | 0, _, _ => .error .endless
  | fuel + 1, pos, entries =>
    if pos < img.size then
      match entries with
      | [] => do
        let len := img.size - pos
        return .init .normal pos len (.image pos) :: (← zipChunks zlib fresh img fuel (pos + len) [])
      | e :: rest =>
        if (pos : Int) = e.data_offset then
          if e.deflate_len < 0 ∨ e.uncomp_len < 0 then .error .outOfBounds
          else
            -- "failed to inflate"
            match zlib.inflate (img.bytes pos e.deflate_len.toNat) e.uncomp_len.toNat with
            | none => .error .error
            | some data => do
              return entryChunk fresh pos e data :: (← zipChunks zlib fresh img fuel (pos + e.deflate_len.toNat) rest)
        else do
          let len := ((e.data_offset - pos) % 2 ^ 64).toNat
          return .init .normal pos len (.image pos) :: (← zipChunks zlib fresh img fuel e.data_offset.toNat (e :: rest))
    else .ok []

def pseudoChunk (img : Image) : ImageChunk := .init .normal 0 img.size (.image 0)

/-- `ReadZip` of a file that can be read. -/
def readZip (zlib : Zlib) (fresh : Nat → UInt8) (img : Image) (include_pseudo_chunk : Bool) (fuel : Nat) :
    Except Stop (List ImageChunk) := do
  let entries ← zipEntries img.file.data
  let chunks ← zipChunks zlib fresh img fuel 0 entries
  return (if include_pseudo_chunk then [pseudoChunk img] else []) ++ chunks

/-- `imgdiff -z`: the patch file. -/
def imgdiffZip (s : Setup) (bz : Bzlib) (mem : Nat → (Nat → Int) × (Nat → Int)) (fresh : Nat → UInt8) (fuel : Nat) :
    Except Stop Bytes := do
  let src_chunks ← readZip s.zlib fresh s.src true fuel
  let tgt_chunks ← readZip s.zlib fresh s.tgt false fuel
  let l ← demote s ⟨src_chunks, tgt_chunks⟩
  let (l, patches) ← makePatches s bz mem none ⟨l.src_chunks, mergeAdjacentNormalChunks l.tgt_chunks⟩
  return patchFile (l.tgt_chunks.zip patches)

/-! ## Entries that lie apart -/

variable {img}

/-- The entries lie in the file, behind `pos`, and none starts before the end of the one before it. -/
def Apart (size : Nat) : Nat → List ZipFileEntry → Prop
  | pos, [] => pos ≤ size
  | pos, e :: es =>
    (pos : Int) ≤ e.data_offset ∧ 0 ≤ e.deflate_len ∧ Apart size (e.data_offset + e.deflate_len).toNat es

theorem Apart.le {size pos : Nat} {es : List ZipFileEntry} (h : Apart size pos es) : pos ≤ size := by
  induction es generalizing pos with
  | nil => exact h
  | cons e es ih =>
    obtain ⟨hle, hlen, hrest⟩ := h
    have := ih hrest
    omega

variable {zlib : Zlib} {fresh : Nat → UInt8} {image : Image}

/-- A chunk of a zip file: normal, or an entry as `inflate` gave it. -/
inductive OfEntry (zlib : Zlib) (fresh : Nat → UInt8) (image : Image) (entries : List ZipFileEntry) :
    ImageChunk → Prop
  | normal (start len : Nat) (data : Data) : OfEntry zlib fresh image entries (.init .normal start len data)
  | entry (pos : Nat) (e : ZipFileEntry) (data : Bytes) (he : e ∈ entries) (hpos : (pos : Int) = e.data_offset)
    (hinflate : zlib.inflate (image.bytes pos e.deflate_len.toNat) e.uncomp_len.toNat = some data) :
    OfEntry zlib fresh image entries (entryChunk fresh pos e data)

theorem OfEntry.mono {es es' : List ZipFileEntry} {ch : ImageChunk} (h : OfEntry zlib fresh image es ch)
    (hsub : ∀ e ∈ es, e ∈ es') : OfEntry zlib fresh image es' ch := by
  cases h with
  | normal start len data => exact .normal start len data
  | entry pos e data he hpos hinflate => exact .entry pos e data (hsub e he) hpos hinflate

/-- Entries that lie apart in the file give chunks that hold it; the chunks that have names have those of entries, in
their order. -/
theorem zipChunks_tiles {fuel pos : Nat} {entries : List ZipFileEntry} {chunks : List ImageChunk}
    (happart : Apart image.size pos entries) (h : zipChunks zlib fresh image fuel pos entries = .ok chunks) :
    Tiles pos chunks image.size ∧ (∀ ch ∈ chunks, OfEntry zlib fresh image entries ch) ∧
      (chunks.filterMap (·.filename)).Sublist (entries.map (·.filename)) := by
  induction fuel generalizing pos entries chunks with
  | zero => cases h
  | succ fuel ih =>
    unfold zipChunks at h
    by_cases hpos : pos < image.size
    · rw [if_pos hpos] at h
      cases entries with
      | nil =>
        dsimp only at h
        obtain ⟨rest, hrest, h⟩ := Except.bind_eq_ok.mp h
        cases h
        obtain ⟨htiles, hall, hnames⟩ := @ih (pos + (image.size - pos)) [] rest
          (show pos + (image.size - pos) ≤ image.size by omega) hrest
        refine ⟨⟨image.size - pos, rfl, rfl, htiles⟩, ?_, hnames⟩
        intro ch hch
        obtain rfl | hch := List.mem_cons.mp hch
        · exact .normal ..
        · exact hall ch hch
      | cons e es =>
        obtain ⟨hle, hlen, hafter⟩ := happart
        dsimp only at h
        by_cases hat : (pos : Int) = e.data_offset
        · rw [if_pos hat] at h
          by_cases hneg : e.deflate_len < 0 ∨ e.uncomp_len < 0
          · rw [if_pos hneg] at h
            cases h
          rw [if_neg hneg] at h
          cases hinflate : zlib.inflate (image.bytes pos e.deflate_len.toNat) e.uncomp_len.toNat with
          | none =>
            rw [hinflate] at h
            cases h
          | some data =>
            rw [hinflate] at h
            dsimp only at h
            obtain ⟨rest, hrest, h⟩ := Except.bind_eq_ok.mp h
            cases h
            rw [show (e.data_offset + e.deflate_len).toNat = pos + e.deflate_len.toNat by omega] at hafter
            obtain ⟨htiles, hall, hnames⟩ := ih hafter hrest
            refine ⟨⟨e.deflate_len.toNat, rfl, rfl, htiles⟩, ?_, ?_⟩
            · intro ch hch
              obtain rfl | hch := List.mem_cons.mp hch
              · exact .entry pos e data List.mem_cons_self hat hinflate
              · exact (hall ch hch).mono fun e he => List.mem_cons_of_mem _ he
            · exact hnames.cons_cons e.filename
        · rw [if_neg hat] at h
          obtain ⟨rest, hrest, h⟩ := Except.bind_eq_ok.mp h
          cases h
          have hoff : ((e.data_offset.toNat : Nat) : Int) = e.data_offset := by omega
          have hfit := hafter.le
          obtain ⟨htiles, hall, hnames⟩ := @ih e.data_offset.toNat (e :: es) rest
            ⟨by omega, hlen, hafter⟩ hrest
          refine ⟨⟨((e.data_offset - pos) % 2 ^ 64).toNat, rfl, rfl, ?_⟩, ?_, hnames⟩
          · have := image.file.length_lt
            have hsize : image.size = image.file.data.length := rfl
            have hnext : pos + ((e.data_offset - (pos : Int)) % 2 ^ 64).toNat = e.data_offset.toNat := by omega
            rwa [hnext]
          · intro ch hch
            obtain rfl | hch := List.mem_cons.mp hch
            · exact .normal ..
            · exact hall ch hch
    · rw [if_neg hpos] at h
      cases h
      have := happart.le
      exact ⟨show pos = image.size by omega, by simp, List.nil_sublist _⟩

/-! ## Sources by name -/

variable {s : Setup}

theorem findChunkByName_congr {name : Bytes} {chunks chunks' : List ImageChunk}
    (h : chunks'.map (fun ch => (ch.type, ch.filename)) = chunks.map fun ch => (ch.type, ch.filename)) :
    findChunkByName name chunks' = findChunkByName name chunks := by
  have hmap (l : List ImageChunk) : findChunkByName name l =
      (l.map fun ch => (ch.type, ch.filename)).findIdx? fun x => decide (x.1 = .deflate) && x.2 == some name := by
    rw [List.findIdx?_map]
    rfl
  rw [hmap, hmap, h]

theorem findChunkByName_some {name : Bytes} {chunks : List ImageChunk} {j : Nat}
    (h : findChunkByName name chunks = some j) :
    ∃ ch, chunks[j]? = some ch ∧ ch.type = .deflate ∧ ch.filename = some name := by
  obtain ⟨hlt, hj, -⟩ := List.findIdx?_eq_some_iff_getElem.mp h
  simp only [Bool.and_eq_true, decide_eq_true_eq, beq_iff_eq] at hj
  exact ⟨chunks[j], List.getElem?_eq_getElem hlt, hj.1, hj.2⟩

/-- A chunk that becomes normal was not the one of another name. -/
theorem findChunkByName_demoteAt {name other : Bytes} {chunks : List ImageChunk} (hne : name ≠ other) :
    findChunkByName name (demoteAt chunks (findChunkByName other chunks)) = findChunkByName name chunks := by
  cases hj : findChunkByName other chunks with
  | none => rfl
  | some j =>
    obtain ⟨ch, hch, htype, hname⟩ := findChunkByName_some hj
    have hmap (l : List ImageChunk) : findChunkByName name l =
        (l.map fun ch => decide (ch.type = .deflate) && ch.filename == some name).findIdx? id := by
      rw [List.findIdx?_map]
      rfl
    rw [hmap, hmap]
    congr 1
    refine List.ext_getElem? fun i => ?_
    rw [List.getElem?_map, List.getElem?_map, demoteAt]
    by_cases hij : j = i
    · subst hij
      have hother : (ch.filename == some name) = false := by
        rw [hname]
        exact beq_eq_false_iff_ne.mpr fun h => hne (Option.some.inj h).symm
      rw [List.getElem?_modify_eq, hch]
      show some (decide ((changeDeflateChunkToNormal ch).type = .deflate) &&
          (changeDeflateChunkToNormal ch).filename == some name) =
        some (decide (ch.type = .deflate) && ch.filename == some name)
      rw [change_type htype, hother, Bool.and_false]
      rfl
    · rw [List.getElem?_modify_ne _ _ hij]

/-- No two chunks have the same name. -/
def DistinctNames (chunks : List ImageChunk) : Prop := (chunks.filterMap (·.filename)).Nodup

theorem DistinctNames.eq {chunks : List ImageChunk} (h : DistinctNames chunks) {i j : Nat} {a b : ImageChunk}
    {name : Bytes} (hi : chunks[i]? = some a) (hj : chunks[j]? = some b) (ha : a.filename = some name)
    (hb : b.filename = some name) : i = j := by
  unfold DistinctNames List.Nodup at h
  rw [List.pairwise_filterMap, List.pairwise_iff_getElem] at h
  obtain ⟨hlt, rfl⟩ := List.getElem?_eq_some_iff.mp hi
  obtain ⟨hlt', rfl⟩ := List.getElem?_eq_some_iff.mp hj
  rcases Nat.lt_trichotomy i j with hij | hij | hij
  · exact absurd rfl (h i j hlt hlt' hij name ha name hb)
  · exact hij
  · exact absurd rfl (h j i hlt' hlt hij name hb name ha)

/-- Behind `n` rounds over a zip file: what stayed a deflate chunk can be reconstructed, and its source is the deflate
chunk of its name, another one. -/
def Matched (s : Setup) (n : Nat) (l : Lists) : Prop :=
  ∀ i tgt, i < n → l.tgt_chunks[i]? = some tgt → tgt.type = .deflate → Reconstructed s.zlib s.tgt tgt ∧
    ∃ name j source, tgt.filename = some name ∧ findChunkByName name l.src_chunks = some j ∧
      l.src_chunks[j]? = some source ∧ areChunksEqual s.tgt s.src tgt source = false

theorem Step.matched {i : Nat} {l l' : Lists} (h : Step s i l l') (hzip : s.zip_mode = true)
    (hnames : DistinctNames l.tgt_chunks) (hl : Matched s i l) : Matched s (i + 1) l' := by
  cases h with
  | skip hskip =>
    intro k tgt hk htgt htype
    by_cases hki : k = i
    · subst hki
      exact absurd htype (hskip tgt htgt)
    · exact hl k tgt (by omega) htgt htype
  | demoted t params hi htype =>
    obtain ⟨hlt, -⟩ := List.getElem?_eq_some_iff.mp hi
    intro k tgt hk htgt hdeflate
    by_cases hik : i = k
    · subst hik
      have hnormal : (changeDeflateChunkToNormal { t with params := params }).type = .normal := change_type htype
      rw [List.getElem?_set_self hlt] at htgt
      cases htgt
      rw [hnormal] at hdeflate
      cases hdeflate
    · rw [List.getElem?_set_ne hik] at htgt
      obtain ⟨hr, name, j, source, hname, hfind, hsource, hne⟩ := hl k tgt (by omega) htgt hdeflate
      refine ⟨hr, name, ?_⟩
      unfold sourceOf
      rw [hzip, if_pos rfl]
      cases hother : t.filename with
      | none => exact ⟨j, source, hname, hfind, hsource, hne⟩
      | some other =>
        have hdiffer : name ≠ other := by
          rintro rfl
          exact hik (hnames.eq hi htgt hother hname)
        rw [Option.bind_some]
        refine ⟨j, source, hname, (findChunkByName_demoteAt hdiffer).trans hfind, ?_, hne⟩
        cases hj : findChunkByName other l.src_chunks with
        | none => exact hsource
        | some j' =>
          obtain ⟨ch, hch, -, hchname⟩ := findChunkByName_some hj
          obtain ⟨ch', hch', -, hchname'⟩ := findChunkByName_some hfind
          have hjj : j' ≠ j := by
            rintro rfl
            cases hch.symm.trans hch'
            exact hdiffer (Option.some.inj (hchname'.symm.trans hchname))
          rw [demoteAt, List.getElem?_modify_ne _ _ hjj]
          exact hsource
  | stays t params hi htype j source hj hsource hr hne =>
    obtain ⟨hlt, -⟩ := List.getElem?_eq_some_iff.mp hi
    intro k tgt hk htgt hdeflate
    by_cases hik : i = k
    · subst hik
      rw [List.getElem?_set_self hlt] at htgt
      cases htgt
      unfold sourceOf at hj
      rw [hzip, if_pos rfl] at hj
      obtain ⟨name, hname, hfind⟩ := Option.bind_eq_some_iff.mp hj
      exact ⟨hr, name, j, source, hname, hfind, hsource, hne⟩
    · rw [List.getElem?_set_ne hik] at htgt
      exact hl k tgt (by omega) htgt hdeflate

/-- If no two entries of the target have the same name, every deflate chunk that the loop leaves has a deflate chunk of
its name in the source, and can be reconstructed. -/
theorem matched_spec (hzip : s.zip_mode = true) {l l' : Lists} (hnames : DistinctNames l.tgt_chunks)
    (h : demote s l = .ok l') : Matched s l'.tgt_chunks.length l' := by
  have hall : KeptAll l.tgt_chunks l'.tgt_chunks ∧ Matched s l.tgt_chunks.length l' := by
    refine forUpTo_inv (fun i k => KeptAll l.tgt_chunks k.tgt_chunks ∧ Matched s i k) ⟨.refl _, ?_⟩ ?_ h
    · intro i tgt hi
      omega
    · rintro i k k' - ⟨hkept, hk⟩ hstep
      have hstep := demoteStep_cases hstep
      have hdistinct : DistinctNames k.tgt_chunks := by
        have hid (chunks : List ImageChunk) : chunks.filterMap (·.filename) = (chunks.map (·.filename)).filterMap id := by
          rw [List.filterMap_map]
          rfl
        unfold DistinctNames
        rw [hid, hkept.filenames, ← hid]
        exact hnames
      exact ⟨hkept.trans hstep.kept.2, hstep.matched hzip hdistinct hk⟩
  rw [hall.1.1]
  exact hall.2

end Miui.Imgdiff
