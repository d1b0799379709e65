import MiuiRecovery.ApplyPatch.Imgdiff.Chunks

/-!
# ReadImage

`ReadImage` (`imgdiff.c`): an image is taken apart at the gzip headers in it. zlib is a parameter. The loop around
`inflate` has no way out for a stream that is corrupt or cut off, and the outer loop none for a file that ends with
the first three bytes of a gzip header: the four zero bytes behind the file complete it, and no byte is taken.

* `inflateLoop_spec`, `inflateLoop_ends`: the loop around `inflate` gives what the stream stands for.
* `readImage_iff`: the function returns chunks exactly for an image that consists of plain parts and of whole gzip
  members, and these are the parts. Of the last footer up to four bytes can be missing, if zeros do in their place.
* `Parts.tiles`: the chunks hold the image.
-/

namespace Miui.Imgdiff

open Bsdiff ImgPatch

/-! ## inflate -/

/-- `inflate`, by the state of a stream. -/
structure Inflater where
  State : Type
  /-- `inflateInit2` with the input -/
  init : Bytes → State
  /-- one call with so much room: whether it returns `Z_STREAM_END`, what it writes, and the stream behind it -/
  inflate : State → Nat → Bool × Bytes × State
  avail_in : State → Nat

/-- Calls up to the first that returns `Z_STREAM_END`, and what they write together. -/
inductive Inflater.Ends (z : Inflater) : z.State → Bytes → z.State → Prop
  | last (s : z.State) (room : Nat) (h : (z.inflate s room).1 = true) :
    Ends z s (z.inflate s room).2.1 (z.inflate s room).2.2
  | more (s : z.State) (room : Nat) (data : Bytes) (s' : z.State) (h : (z.inflate s room).1 = false)
    (rest : Ends z (z.inflate s room).2.2 data s') : Ends z s ((z.inflate s room).2.1 ++ data) s'

/-- What zlib documents: `stands` says which data a deflate stream stands for. The calls end behind a whole
stream, and then they have written its data; on a whole stream each call fills its room, up to the last. -/
structure Inflater.Lawful (z : Inflater) (stands : Bytes → Bytes → Prop) where
  sound : ∀ input data s, z.Ends (z.init input) data s →
    z.avail_in s ≤ input.length ∧ stands (input.take (input.length - z.avail_in s)) data
  /-- the data that are still to come, and the input that is then left -/
  Pending : z.State → Bytes → Nat → Prop
  start : ∀ stream data rest, stands stream data → Pending (z.init (stream ++ rest)) data rest.length
  call : ∀ s data left room, Pending s data left → 0 < room →
    ((z.inflate s room).1 = true ∧ (z.inflate s room).2.1 = data ∧ z.avail_in (z.inflate s room).2.2 = left) ∨
    ((z.inflate s room).1 = false ∧ room ≤ data.length ∧ (z.inflate s room).2.1 = data.take room ∧
      Pending (z.inflate s room).2.2 (data.drop room) left)

/-- `do … while (ret != Z_STREAM_END)`, with fuel for its rounds; `data` has been written. -/
def inflateLoop (z : Inflater) : Nat → z.State → Nat → Bytes → Except Stop (Bytes × z.State)
  | 0, _, _, _ => .error .endless
  | fuel + 1, s, allocated, data =>
    let ret := z.inflate s (allocated - data.length)
    let data := data ++ ret.2.1
    let allocated := if data.length = allocated then allocated * 2 else allocated
    if ret.1 then .ok (data, ret.2.2) else inflateLoop z fuel ret.2.2 allocated data

/-! ## The chunks of an image -/

def GZIP_HEADER_LEN : Nat := 10
def GZIP_FOOTER_LEN : Nat := 8

/-- The file in memory, with four zero bytes behind it. -/
def Image.padded (file : Buffer) (behind : Nat → UInt8) : Image := ⟨file, fun i => if i < 4 then 0 else behind i⟩

variable (z : Inflater) (img : Image)

/-- `1f8b0800` -/
def gzipAt (i : Nat) : Bool := img.bytes i 4 == [0x1f, 0x8b, 0x08, 0x00]

/-- The scan for a gzip header, over at most so many bytes. -/
def scan : Nat → Nat → Nat
  | 0, _ => 0
  | left + 1, i => if gzipAt img i then 0 else scan left (i + 1) + 1

/-- The header, the stream and the footer of a gzip member whose stream has `n` bytes. -/
def memberChunks (pos n : Nat) (data : Bytes) : List ImageChunk :=
  [.init .normal pos GZIP_HEADER_LEN (.image pos),
    { ImageChunk.init .deflate (pos + GZIP_HEADER_LEN) data.length (.own data) with
      deflate_len := n
      deflate_data := pos + GZIP_HEADER_LEN },
    .init .normal (pos + GZIP_HEADER_LEN + n) GZIP_FOOTER_LEN (.image (pos + GZIP_HEADER_LEN + n))]

/-- The three chunks of a gzip member, and the position behind it. -/
def readMember (fuel pos : Nat) : Except Stop (List ImageChunk × Nat) := do
  let p := pos + GZIP_HEADER_LEN
  -- Behind the end of the file `avail_in` wraps around, and `inflate` reads what lies there.
  if p > img.size then throw .outOfBounds
  let (data, strm) ← inflateLoop z fuel (z.init (img.bytes p (img.size - p))) 32768 []
  let deflate_len := img.size - z.avail_in strm - p
  let stop := p + deflate_len + GZIP_FOOTER_LEN
  if stop > img.size + 4 then throw .outOfBounds
  -- "footer size %d != decompressed size %d"; a negative size, as a `size_t`, is more than memory holds
  if asInt (Bytes.ofLE (img.bytes (stop - 4) 4)) ≠ data.length then throw .error
  return (memberChunks pos deflate_len data, stop)

/-- `while (pos < st.st_size)`, with fuel for the rounds of both loops. -/
def readFrom : Nat → Nat → Except Stop (List ImageChunk)
  | 0, _ => .error .endless
  | fuel + 1, pos =>
    if pos < img.size then
      if 4 ≤ img.size - pos ∧ gzipAt img pos then do
        let (chunks, pos) ← readMember z img fuel pos
        return chunks ++ (← readFrom fuel pos)
      else do
        let len := scan img (img.size - pos) pos
        return .init .normal pos len (.image pos) :: (← readFrom fuel (pos + len))
    else .ok []

/-- `ReadImage` of a file that can be read. -/
def readImage (fuel : Nat) : Except Stop (List ImageChunk) := readFrom z img fuel 0

/-! ## The loop around inflate -/

variable {z img} {stands : Bytes → Bytes → Prop}

theorem inflateLoop_ends {fuel allocated : Nat} {s s' : z.State} {data data' : Bytes}
    (h : inflateLoop z fuel s allocated data = .ok (data', s')) : ∃ w, data' = data ++ w ∧ z.Ends s w s' := by
  induction fuel generalizing s allocated data with
  | zero => cases h
  | succ fuel ih =>
    rw [inflateLoop] at h
    cases hret : (z.inflate s (allocated - data.length)).1 with
    | true =>
      rw [hret, if_pos rfl] at h
      cases h
      exact ⟨_, rfl, .last s _ hret⟩
    | false =>
      rw [hret, if_neg Bool.false_ne_true] at h
      obtain ⟨w, rfl, hends⟩ := ih h
      exact ⟨_, List.append_assoc .., .more s _ w s' hret hends⟩

/-- On a whole stream the loop ends, with its data. -/
theorem inflateLoop_spec (hz : z.Lawful stands) {fuel left : Nat} {s : z.State} {rest : Bytes} (allocated : Nat)
    (data : Bytes) (hs : hz.Pending s rest left) (hroom : data.length < allocated) (hfuel : rest.length < fuel) :
    ∃ s', inflateLoop z fuel s allocated data = .ok (data ++ rest, s') ∧ z.avail_in s' = left := by
  induction fuel generalizing s allocated data rest with
  | zero => omega
  | succ fuel ih =>
    rw [inflateLoop]
    obtain ⟨hret, hw, hleft⟩ | ⟨hret, hle, hw, hnext⟩ :=
      hz.call s rest left (allocated - data.length) hs (Nat.sub_pos_of_lt hroom)
    · rw [hret, if_pos rfl, hw]
      exact ⟨_, rfl, hleft⟩
    · rw [hret, if_neg Bool.false_ne_true, hw]
      have hlen : (data ++ rest.take (allocated - data.length)).length = allocated := by
        rw [List.length_append, List.length_take]
        omega
      rw [hlen, if_pos rfl]
      obtain ⟨s', hrun, hleft⟩ := ih (allocated * 2) (data ++ rest.take (allocated - data.length)) hnext
        (by omega) (by rw [List.length_drop]; omega)
      exact ⟨s', by rw [hrun, List.append_assoc, List.take_append_drop], hleft⟩

/-! ## The scan -/

theorem scan_spec (img : Image) (left i : Nat) : scan img left i ≤ left ∧ (∀ k < scan img left i, gzipAt img (i + k) = false) ∧
    (scan img left i = left ∨ gzipAt img (i + scan img left i) = true) := by
  induction left generalizing i with
  | zero => exact ⟨Nat.le_refl _, fun k hk => absurd hk (Nat.not_lt_zero k), .inl rfl⟩
  | succ left ih =>
    rw [scan]
    cases hi : gzipAt img i with
    | true => exact ⟨Nat.zero_le _, fun k hk => absurd hk (Nat.not_lt_zero k), .inr hi⟩
    | false =>
      obtain ⟨hle, hnone, hend⟩ := ih (i + 1)
      rw [if_neg Bool.false_ne_true]
      refine ⟨Nat.succ_le_succ hle, ?_, ?_⟩
      · intro k hk
        cases k with
        | zero => exact hi
        | succ k =>
          rw [Nat.add_comm k 1, ← Nat.add_assoc]
          exact hnone k (by omega)
      · rw [Nat.add_comm _ 1, ← Nat.add_assoc]
        exact hend.imp (by omega) id

theorem scan_eq {left i len : Nat} (hle : len ≤ left) (hnone : ∀ k < len, gzipAt img (i + k) = false)
    (hend : len = left ∨ gzipAt img (i + len) = true) : scan img left i = len := by
  obtain ⟨hle', hnone', hend'⟩ := scan_spec img left i
  rcases Nat.lt_trichotomy (scan img left i) len with hlt | heq | hlt
  · obtain h | h := hend'
    · omega
    · rw [hnone _ hlt] at h
      cases h
  · exact heq
  · obtain h | h := hend
    · omega
    · rw [hnone' _ hlt] at h
      cases h

/-! ## The parts of an image -/

/-- The image from `pos` on, taken apart, up to `stop`: parts without a gzip header, and gzip members. -/
inductive Parts (stands : Bytes → Bytes → Prop) (img : Image) : Nat → List ImageChunk → Nat → Prop
  | done {pos : Nat} (hend : img.size ≤ pos) : Parts stands img pos [] pos
  | plain {pos len stop : Nat} {chunks : List ImageChunk} (hlen : 0 < len) (hfit : pos + len ≤ img.size)
    (hnone : ∀ k < len, gzipAt img (pos + k) = false) (hend : pos + len = img.size ∨ gzipAt img (pos + len) = true)
    (rest : Parts stands img (pos + len) chunks stop) :
    Parts stands img pos (.init .normal pos len (.image pos) :: chunks) stop
  | member {pos n stop : Nat} {data : Bytes} {chunks : List ImageChunk} (hmagic : gzipAt img pos = true)
    (hstream : stands (img.bytes (pos + GZIP_HEADER_LEN) n) data) (hfit : pos + GZIP_HEADER_LEN + n ≤ img.size)
    (hfooter : pos + GZIP_HEADER_LEN + n + GZIP_FOOTER_LEN ≤ img.size + 4)
    (hsize : asInt (Bytes.ofLE (img.bytes (pos + GZIP_HEADER_LEN + n + GZIP_FOOTER_LEN - 4) 4)) = data.length)
    (rest : Parts stands img (pos + GZIP_HEADER_LEN + n + GZIP_FOOTER_LEN) chunks stop) :
    Parts stands img pos (memberChunks pos n data ++ chunks) stop

theorem readMember_parts (hz : z.Lawful stands) {fuel pos stop : Nat} {chunks : List ImageChunk}
    (h : readMember z img fuel pos = .ok (chunks, stop)) : ∃ n data, chunks = memberChunks pos n data ∧
      stop = pos + GZIP_HEADER_LEN + n + GZIP_FOOTER_LEN ∧ stands (img.bytes (pos + GZIP_HEADER_LEN) n) data ∧
      pos + GZIP_HEADER_LEN + n ≤ img.size ∧ stop ≤ img.size + 4 ∧
      asInt (Bytes.ofLE (img.bytes (stop - 4) 4)) = data.length := by
  unfold readMember at h
  dsimp only at h
  by_cases hp : pos + GZIP_HEADER_LEN > img.size
  · rw [if_pos hp] at h
    cases h
  rw [if_neg hp] at h
  obtain ⟨⟨data, strm⟩, hloop, h⟩ := Except.bind_eq_ok.mp h
  obtain ⟨w, hw, hends⟩ := inflateLoop_ends hloop
  rw [List.nil_append] at hw
  subst hw
  obtain ⟨havail, hstands⟩ := hz.sound _ _ _ hends
  dsimp only at h
  rw [Image.bytes_length] at havail hstands
  have hn : img.size - z.avail_in strm - (pos + GZIP_HEADER_LEN) =
      img.size - (pos + GZIP_HEADER_LEN) - z.avail_in strm := Nat.sub_right_comm ..
  rw [hn] at h
  generalize hlen : img.size - (pos + GZIP_HEADER_LEN) - z.avail_in strm = n at h hstands
  by_cases hstop : pos + GZIP_HEADER_LEN + n + GZIP_FOOTER_LEN > img.size + 4
  · rw [if_pos hstop] at h
    cases h
  rw [if_neg hstop] at h
  by_cases hsize : asInt (Bytes.ofLE (img.bytes (pos + GZIP_HEADER_LEN + n + GZIP_FOOTER_LEN - 4) 4)) ≠ data.length
  · rw [if_pos hsize] at h
    cases h
  rw [if_neg hsize] at h
  cases h
  have htake : (img.bytes (pos + GZIP_HEADER_LEN) (img.size - (pos + GZIP_HEADER_LEN))).take n =
      img.bytes (pos + GZIP_HEADER_LEN) n := by
    rw [show img.size - (pos + GZIP_HEADER_LEN) = n + (img.size - (pos + GZIP_HEADER_LEN) - n) by omega,
      ← Image.bytes_append]
    exact List.take_left' (Image.bytes_length _ _)
  rw [htake] at hstands
  exact ⟨n, data, rfl, rfl, hstands, by omega, by omega, not_not.mp hsize⟩

/-- At the last three bytes of the file, with the zero behind it, the loop takes no byte. -/
theorem readFrom_stuck {fuel pos : Nat} {chunks : List ImageChunk} (hpos : pos < img.size)
    (hmagic : gzipAt img pos = true) (hshort : ¬ 4 ≤ img.size - pos) : readFrom z img fuel pos ≠ .ok chunks := by
  induction fuel generalizing chunks with
  | zero => rintro ⟨⟩
  | succ fuel ih =>
    intro h
    have hscan : scan img (img.size - pos) pos = 0 := by
      refine scan_eq (Nat.zero_le _) (fun k hk => absurd hk (Nat.not_lt_zero k)) (.inr hmagic)
    rw [readFrom, if_pos hpos, if_neg fun hmember => hshort hmember.1, hscan] at h
    obtain ⟨rest, hrest, -⟩ := Except.bind_eq_ok.mp h
    exact ih hrest

theorem readFrom_parts (hz : z.Lawful stands) {fuel pos : Nat} {chunks : List ImageChunk}
    (h : readFrom z img fuel pos = .ok chunks) : ∃ stop, Parts stands img pos chunks stop := by
  induction fuel generalizing pos chunks with
  | zero => cases h
  | succ fuel ih =>
    rw [readFrom] at h
    by_cases hpos : pos < img.size
    · rw [if_pos hpos] at h
      by_cases hmember : 4 ≤ img.size - pos ∧ gzipAt img pos = true
      · rw [if_pos hmember] at h
        obtain ⟨⟨member, stop⟩, hread, h⟩ := Except.bind_eq_ok.mp h
        obtain ⟨rest, hrest, h⟩ := Except.bind_eq_ok.mp h
        cases h
        obtain ⟨n, data, rfl, rfl, hstands, hfit, hfooter, hsize⟩ := readMember_parts hz hread
        obtain ⟨stop, hparts⟩ := ih hrest
        exact ⟨stop, .member hmember.2 hstands hfit hfooter hsize hparts⟩
      · rw [if_neg hmember] at h
        obtain ⟨hle, hnone, hend⟩ := scan_spec img (img.size - pos) pos
        obtain ⟨rest, hrest, h⟩ := Except.bind_eq_ok.mp h
        cases h
        by_cases hlen : scan img (img.size - pos) pos = 0
        · rw [hlen, Nat.add_zero] at hend hrest
          have hmagic := hend.resolve_left (by omega)
          exact absurd hrest (readFrom_stuck hpos hmagic fun h4 => hmember ⟨h4, hmagic⟩)
        · obtain ⟨stop, hparts⟩ := ih hrest
          exact ⟨stop, .plain (Nat.pos_of_ne_zero hlen) (by omega) hnone (hend.imp (by omega) id) hparts⟩
    · rw [if_neg hpos] at h
      cases h
      exact ⟨pos, .done (by omega)⟩

/-- A whole gzip member is read. -/
theorem readMember_spec (hz : z.Lawful stands) {fuel pos n : Nat} {data : Bytes}
    (hstream : stands (img.bytes (pos + GZIP_HEADER_LEN) n) data) (hfit : pos + GZIP_HEADER_LEN + n ≤ img.size)
    (hfooter : pos + GZIP_HEADER_LEN + n + GZIP_FOOTER_LEN ≤ img.size + 4)
    (hsize : asInt (Bytes.ofLE (img.bytes (pos + GZIP_HEADER_LEN + n + GZIP_FOOTER_LEN - 4) 4)) = data.length)
    (hfuel : data.length < fuel) :
    readMember z img fuel pos = .ok (memberChunks pos n data, pos + GZIP_HEADER_LEN + n + GZIP_FOOTER_LEN) := by
  have hinput : img.bytes (pos + GZIP_HEADER_LEN) (img.size - (pos + GZIP_HEADER_LEN)) =
      img.bytes (pos + GZIP_HEADER_LEN) n ++
        img.bytes (pos + GZIP_HEADER_LEN + n) (img.size - (pos + GZIP_HEADER_LEN) - n) := by
    rw [Image.bytes_append, Nat.add_sub_cancel' (by omega)]
  have hpending := hz.start _ data
    (img.bytes (pos + GZIP_HEADER_LEN + n) (img.size - (pos + GZIP_HEADER_LEN) - n)) hstream
  rw [← hinput, Image.bytes_length] at hpending
  obtain ⟨s, hrun, havail⟩ := inflateLoop_spec hz 32768 [] hpending
    (by rw [List.length_nil]; omega) hfuel
  have hn : img.size - z.avail_in s - (pos + GZIP_HEADER_LEN) = n := by omega
  unfold readMember
  dsimp only
  rw [if_neg (by omega), hrun, Except.ok_bind]
  dsimp only
  rw [hn, if_neg (by omega), List.nil_append, if_neg (not_not.mpr hsize)]
  rfl

/-- With enough fuel the parts are read. -/
theorem Parts.read (hz : z.Lawful stands) {pos stop : Nat} {chunks : List ImageChunk}
    (h : Parts stands img pos chunks stop) : ∃ N, ∀ fuel, N ≤ fuel → readFrom z img fuel pos = .ok chunks := by
  induction h with
  | @done pos hend =>
    refine ⟨1, ?_⟩
    rintro (_ | fuel) hfuel
    · omega
    · rw [readFrom, if_neg (by omega)]
  | @plain pos len stop chunks hlen hfit hnone hend _ ih =>
    obtain ⟨N, hN⟩ := ih
    refine ⟨N + 1, ?_⟩
    rintro (_ | fuel) hfuel
    · omega
    · have hscan : scan img (img.size - pos) pos = len := scan_eq (by omega) hnone (hend.imp (by omega) id)
      have hmagic := hnone 0 hlen
      rw [Nat.add_zero] at hmagic
      rw [readFrom, if_pos (by omega), if_neg (by rw [hmagic]; simp), hscan]
      dsimp only
      rw [hN fuel (by omega)]
      rfl
  | @member pos n stop data chunks hmagic hstream hfit hfooter hsize _ ih =>
    obtain ⟨N, hN⟩ := ih
    refine ⟨N + data.length + 2, ?_⟩
    rintro (_ | fuel) hfuel
    · omega
    · have hheader : GZIP_HEADER_LEN = 10 := rfl
      rw [readFrom, if_pos (by omega), if_pos ⟨by omega, hmagic⟩,
        readMember_spec hz hstream hfit hfooter hsize (by omega), Except.ok_bind]
      dsimp only
      rw [hN fuel (by omega)]
      rfl

/-- The function returns chunks exactly for an image that consists of plain parts and whole gzip members. -/
theorem readImage_iff (hz : z.Lawful stands) (img : Image) (chunks : List ImageChunk) :
    (∃ fuel, readImage z img fuel = .ok chunks) ↔ ∃ stop, Parts stands img 0 chunks stop := by
  constructor
  · rintro ⟨fuel, h⟩
    exact readFrom_parts hz h
  · rintro ⟨stop, h⟩
    obtain ⟨N, hN⟩ := h.read hz
    exact ⟨N, hN N (Nat.le_refl _)⟩

/-! ## Two streams -/

/-- Two streams as zlib makes them, with their data. -/
def streams : List (Bytes × Bytes) := [([0x4b, 0x04, 0x00], [0x61]), ([0x4b, 0x02, 0x00], [0x62])]

def InStreams (stream data : Bytes) : Prop := (stream, data) ∈ streams

/-- `inflate` for these: the data that are still to come, and the input behind the stream. -/
def streamInflater : Inflater where
  State := Option (Bytes × Nat)
  init input := (streams.find? fun e => e.1.isPrefixOf input).map fun e => (e.2, input.length - e.1.length)
  inflate s room := match s with
    | none => (false, [], none)
    | some (data, left) =>
      if data.length ≤ room then (true, data, some ([], left))
      else (false, data.take room, some (data.drop room, left))
  avail_in s := match s with
    | none => 0
    | some s => s.2

theorem streamInflater_ends {s s' : streamInflater.State} {data : Bytes} (h : streamInflater.Ends s data s') :
    ∃ left, s = some (data, left) ∧ streamInflater.avail_in s' = left := by
  induction h with
  | last s room h =>
    cases s with
    | none => cases h
    | some s =>
      obtain ⟨d, left⟩ := s
      by_cases hd : d.length ≤ room
      · refine ⟨left, ?_, ?_⟩
        · simp [streamInflater, hd]
        · simp [streamInflater, hd]
      · simp [streamInflater, hd] at h
  | more s room data s' h _ ih =>
    obtain ⟨left, hs, hleft⟩ := ih
    cases s with
    | none => cases hs
    | some s =>
      obtain ⟨d, l⟩ := s
      by_cases hd : d.length ≤ room
      · simp [streamInflater, hd] at h
      · simp only [streamInflater, hd, if_false, Option.some.injEq, Prod.mk.injEq] at hs
        obtain ⟨rfl, rfl⟩ := hs
        refine ⟨l, ?_, hleft⟩
        simp [streamInflater, hd]

def streamInflater_lawful : streamInflater.Lawful InStreams where
  sound input data s h := by
    obtain ⟨left, hinit, hleft⟩ := streamInflater_ends h
    obtain ⟨e, he, heq⟩ := Option.map_eq_some_iff.mp hinit
    obtain ⟨hd, hl⟩ := Prod.mk.inj heq
    have hfound : e.1.isPrefixOf input = true := List.find?_some (p := fun e : Bytes × Bytes => e.1.isPrefixOf input) he
    have hprefix := List.isPrefixOf_iff_prefix.mp hfound
    have hle := hprefix.length_le
    refine ⟨by omega, ?_⟩
    rw [hleft, ← hl, ← hd, show input.length - (input.length - e.1.length) = e.1.length by omega,
      ← List.prefix_iff_eq_take.mp hprefix]
    exact List.mem_of_find?_eq_some he
  Pending s data left := s = some (data, left)
  start stream data rest h := by
    unfold InStreams streams at h
    simp only [List.mem_cons, Prod.mk.injEq, List.not_mem_nil, or_false] at h
    obtain ⟨rfl, rfl⟩ | ⟨rfl, rfl⟩ := h
    · simp [streamInflater, streams]
    · simp [streamInflater, streams]
  call s data left room hs _ := by
    subst hs
    by_cases hd : data.length ≤ room
    · exact .inl (by simp [streamInflater, hd])
    · exact .inr (by simp [streamInflater, hd]; omega)

/-- A gzip member of one byte of data, with its modification time -/
def gzipMember (mtime : UInt8) (stream crc : Bytes) : Bytes :=
  [0x1f, 0x8b, 0x08, 0x00, mtime, 0, 0, 0, 0, 3] ++ stream ++ crc ++ [1, 0, 0, 0]

def oneMember : Buffer := ⟨gzipMember 0 [0x4b, 0x04, 0x00] [0x43, 0xbe, 0xb7, 0xe8], by decide⟩

theorem readImage_iff_oneMember :
    (∃ fuel, readImage streamInflater (.padded oneMember fun _ => 0) fuel = .ok (memberChunks 0 3 [0x61])) ↔
      ∃ stop, Parts InStreams (.padded oneMember fun _ => 0) 0 (memberChunks 0 3 [0x61]) stop :=
  readImage_iff streamInflater_lawful (.padded oneMember fun _ => 0) (memberChunks 0 3 [0x61])

/-! ## What the chunks hold -/

/-- A deflate chunk with its data beside the stream that these come from. -/
def Expanded (stands : Bytes → Bytes → Prop) (img : Image) (ch : ImageChunk) : Prop :=
  ch.type = .deflate → ∃ data, ch.data = .own data ∧ ch.len = data.length ∧ ch.start = ch.deflate_data ∧
    stands (img.bytes ch.deflate_data ch.deflate_len) data

/-- The chunks hold the image, up to `stop`: this is its end, or up to four bytes behind it. -/
theorem Parts.tiles {pos stop : Nat} {chunks : List ImageChunk} (h : Parts stands img pos chunks stop)
    (hpos : pos ≤ img.size + 4) : Tiles pos chunks stop ∧ img.size ≤ stop ∧ stop ≤ img.size + 4 ∧
      ∀ ch ∈ chunks, Expanded stands img ch ∧ ch.type ≠ .raw ∧ ch.I = none := by
  induction h with
  | done hend => exact ⟨rfl, hend, hpos, by simp⟩
  | @plain pos len stop chunks hlen hfit hnone hend _ ih =>
    obtain ⟨htiles, hsize, hstop, hall⟩ := ih (by omega)
    refine ⟨⟨len, rfl, rfl, htiles⟩, hsize, hstop, ?_⟩
    intro ch hch
    obtain rfl | hch := List.mem_cons.mp hch
    · exact ⟨by rintro ⟨⟩, by rintro ⟨⟩, rfl⟩
    · exact hall ch hch
  | @member pos n stop data chunks hmagic hstream hfit hfooter _ _ ih =>
    obtain ⟨htiles, hsize, hstop, hall⟩ := ih hfooter
    refine ⟨⟨GZIP_HEADER_LEN, rfl, rfl, n, rfl, rfl, GZIP_FOOTER_LEN, rfl, rfl, htiles⟩, hsize, hstop, ?_⟩
    intro ch hch
    obtain hch | hch := List.mem_append.mp hch
    · unfold memberChunks at hch
      simp only [List.mem_cons, List.not_mem_nil, or_false] at hch
      obtain rfl | rfl | rfl := hch
      · exact ⟨by rintro ⟨⟩, by rintro ⟨⟩, rfl⟩
      · exact ⟨fun _ => ⟨data, rfl, rfl, rfl, hstream⟩, by rintro ⟨⟩, rfl⟩
      · exact ⟨by rintro ⟨⟩, by rintro ⟨⟩, rfl⟩
    · exact hall ch hch

end Miui.Imgdiff
