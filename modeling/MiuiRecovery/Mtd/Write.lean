import MiuiRecovery.Mtd.Device

/-!
# Writing to an MTD partition

`write_block`, `mtd_write_data`, `mtd_erase_blocks` and `mtd_write_close` of `mtdutils.c`. A write
context collects a partial block in its buffer; `write_block` puts a whole block into the first
block from the file offset on that is not marked bad and takes the data in two tries, and records
every block it passes over in `bad_block_offsets`.
-/

namespace Miui

variable {p : MtdPartition}

/-- `MtdWriteContext`: `buffer` holds the `stored` bytes, `fpos` is the offset of the descriptor. -/
structure MtdWriteContext (p : MtdPartition) where
  buffer : Bytes
  stored_le : buffer.length ≤ p.erase_size
  fpos : Nat
  bad_block_offsets : List Nat

/-- A write context and the flash behind it. -/
structure WriteState (p : MtdPartition) where
  ctx : MtdWriteContext p
  flash : Flash p

/-- `mtd_write_partition`. -/
def mtdWritePartition (p : MtdPartition) : MtdWriteContext p :=
  { buffer := [], stored_le := p.nil_le, fpos := 0, bad_block_offsets := [] }

namespace WriteState

def setBuffer (s : WriteState p) (b : Bytes) (h : b.length ≤ p.erase_size) : WriteState p :=
  { s with ctx := { s.ctx with buffer := b, stored_le := h } }

def setFpos (s : WriteState p) (pos : Nat) : WriteState p :=
  { s with ctx := { s.ctx with fpos := pos } }

def addBadBlockOffset (s : WriteState p) (pos : Nat) : WriteState p :=
  { s with ctx := { s.ctx with bad_block_offsets := s.ctx.bad_block_offsets ++ [pos] } }

def setBlock (s : WriteState p) (pos : Nat) (b : Block p) : WriteState p :=
  { s with flash := s.flash.set pos b }

end WriteState

/-- The block after a round of the retry loop. -/
def Attempt.result (a : Attempt p) (data : Block p) : Block p :=
  if a.erase_ok then a.store data else a.erased

/-- The round erased, wrote and verified the block. A write error alone is only reported. -/
def Attempt.verified (a : Attempt p) (data : Block p) : Bool :=
  a.erase_ok && a.reread == p.erase_size && a.store data == data

/-- `for (retry = 0; retry < 2; ++retry)` over the retries still to make. -/
def writeRetries (c : Chip p) (pos : Nat) (data : Block p) : List Nat → WriteState p → Bool × WriteState p
  | [], s => (false, s)
  | retry :: rest, s =>
    let a := c.attempt pos retry
    let s := (s.setBlock pos (a.result data)).setFpos (if a.erase_ok then pos + a.reread else s.ctx.fpos)
    if a.verified data then (true, s) else writeRetries c pos data rest s

/-- The loop of `write_block` from offset `pos` on. -/
def writeBlockFrom (c : Chip p) (data : Block p) (pos : Nat) (s : WriteState p) : Bool × WriteState p :=
  if p.fits pos then
    let mark := c.getBadBlock pos
    if mark ≠ .good ∧ mark ≠ .unsupported then
      writeBlockFrom c data (pos + p.erase_size) (s.addBadBlockOffset pos)
    else
      match writeRetries c pos data [0, 1] s with
      | (true, s) => (true, s)
      | (false, s) =>
        writeBlockFrom c data (pos + p.erase_size)
          ((s.addBadBlockOffset pos).setBlock pos (c.giveUp pos))
  else (false, s)
termination_by p.left pos
decreasing_by
  all_goals exact MtdPartition.left_lt (by assumption)

def writeBlock (c : Chip p) (data : Block p) (s : WriteState p) : Bool × WriteState p :=
  writeBlockFrom c data s.ctx.fpos s

/-- "Write complete blocks directly from the user's buffer": `rest` is the data not yet written. -/
def writeDirect (c : Chip p) (rest : Bytes) (s : WriteState p) : Option Bytes × WriteState p :=
  if h : s.ctx.buffer = [] ∧ p.erase_size ≤ rest.length then
    match writeBlock c ⟨rest.take p.erase_size, by simp; omega⟩ s with
    | (false, s) => (none, s)
    | (true, s) => writeDirect c (rest.drop p.erase_size) s
  else (some rest, s)
termination_by rest.length
decreasing_by have := p.erase_size_pos; simp only [List.length_drop]; omega

/-- "Coalesce partial writes into complete blocks": the data left and the state after the copy. -/
def coalesce (rest : Bytes) (s : WriteState p) : Bytes × WriteState p :=
  if 0 < s.ctx.buffer.length ∨ rest.length < p.erase_size then
    let avail := p.erase_size - s.ctx.buffer.length
    (rest.drop avail, s.setBuffer (s.ctx.buffer ++ rest.take avail)
      (by have := s.ctx.stored_le; simp; omega))
  else (rest, s)

/-- "If a complete block was accumulated, write it". -/
def writeFull (c : Chip p) (s : WriteState p) : Bool × WriteState p :=
  if h : s.ctx.buffer.length = p.erase_size then
    match writeBlock c ⟨s.ctx.buffer, h⟩ s with
    | (false, s) => (false, s)
    | (true, s) => (true, s.setBuffer [] p.nil_le)
  else (true, s)

/-- One round of the loop `while (wrote < len)`: the data left, `none` when `write_block` failed. -/
def writeRound (c : Chip p) (data : Bytes) (s : WriteState p) : Option Bytes × WriteState p :=
  let (rest, s) := coalesce data s
  match writeFull c s with
  | (false, s) => (none, s)
  | (true, s) => writeDirect c rest s

/-! ## The buffer across a round -/

@[simp] theorem writeRetries_buffer (c : Chip p) (pos : Nat) (data : Block p) (rs : List Nat)
    (s : WriteState p) : (writeRetries c pos data rs s).2.ctx.buffer = s.ctx.buffer := by
  induction rs generalizing s with
  | nil => rfl
  | cons r rs ih =>
    unfold writeRetries
    simp only
    split
    · rfl
    · rw [ih]; rfl

theorem writeBlockFrom_buffer (c : Chip p) (data : Block p) (pos : Nat) (s : WriteState p) :
    (writeBlockFrom c data pos s).2.ctx.buffer = s.ctx.buffer := by
  fun_induction writeBlockFrom c data pos s with
  | case1 pos s _ _ _ ih => rw [ih]; rfl
  | case2 pos s _ _ _ s' h => rw [← writeRetries_buffer c pos data [0, 1] s, h]
  | case3 pos s _ _ _ s' h ih =>
    rw [ih, ← writeRetries_buffer c pos data [0, 1] s, h]; rfl
  | case4 => rfl

@[simp] theorem writeBlock_buffer (c : Chip p) (data : Block p) (s : WriteState p) :
    (writeBlock c data s).2.ctx.buffer = s.ctx.buffer := writeBlockFrom_buffer c data _ s

theorem writeDirect_some {c : Chip p} {rest rest' : Bytes} {s s' : WriteState p}
    (h : writeDirect c rest s = (some rest', s')) :
    rest'.length ≤ rest.length ∧ s'.ctx.buffer = s.ctx.buffer ∧
      (s.ctx.buffer = [] → rest'.length < p.erase_size) := by
  fun_induction writeDirect c rest s with
  | case1 rest s hc s₁ hw => cases h
  | case2 rest s hc s₁ hw ih =>
    obtain ⟨h1, h2, h3⟩ := ih h
    have hb : s₁.ctx.buffer = s.ctx.buffer := by
      rw [← writeBlock_buffer c ⟨rest.take p.erase_size, by simp; omega⟩ s, hw]
    exact ⟨by simp at h1; omega, by rw [h2, hb], fun hs => h3 (by rw [hb, hs])⟩
  | case3 rest s hc =>
    simp only [Prod.mk.injEq, Option.some.injEq] at h
    obtain ⟨rfl, rfl⟩ := h
    exact ⟨Nat.le_refl _, rfl, fun hs => by by_contra hl; exact hc ⟨hs, by omega⟩⟩

/-- After a full buffer is written it is empty, so it is never full. -/
theorem writeFull_true {c : Chip p} {s s' : WriteState p} (h : writeFull c s = (true, s')) :
    (s.ctx.buffer.length = p.erase_size ∧ s'.ctx.buffer = []) ∨
      (s.ctx.buffer.length < p.erase_size ∧ s' = s) := by
  unfold writeFull at h
  split at h
  · rename_i hfull
    split at h
    · cases h
    · simp only [Prod.mk.injEq, true_and] at h
      subst h
      exact .inl ⟨hfull, rfl⟩
  · rename_i hfull
    simp only [Prod.mk.injEq, true_and] at h
    exact .inr ⟨Nat.lt_of_le_of_ne s.ctx.stored_le hfull, h.symm⟩

/-- The measure of the loop: a round consumes data or empties a full buffer. -/
def roundMeasure (p : MtdPartition) (data : Bytes) (s : WriteState p) : Nat :=
  2 * data.length + if s.ctx.buffer.length = p.erase_size then 1 else 0

theorem writeRound_lt {c : Chip p} {data rest : Bytes} {s s' : WriteState p} (hd : data ≠ [])
    (h : writeRound c data s = (some rest, s')) : roundMeasure p rest s' < roundMeasure p data s := by
  have he := p.erase_size_pos
  have hlen := List.length_pos_iff.mpr hd
  have hst := s.ctx.stored_le
  unfold writeRound at h
  simp only at h
  split at h
  · cases h
  · rename_i s₁ hf
    obtain ⟨h1, h2, h3⟩ := writeDirect_some h
    unfold roundMeasure
    rw [h2]
    unfold coalesce at hf h1
    split at hf
    · rename_i hc
      rw [if_pos hc] at h1
      simp only [List.length_drop] at h1
      rcases writeFull_true hf with ⟨-, h0⟩ | ⟨hlt, rfl⟩
      · rw [h0]
        simp only [List.length_nil]
        split <;> split <;> omega
      · simp only [WriteState.setBuffer, List.length_append, List.length_take] at hlt ⊢
        split <;> split <;> omega
    · rename_i hc
      rw [if_neg hc] at h1
      simp only [not_or, Nat.not_lt, Nat.le_zero, List.length_eq_zero_iff] at hc
      rcases writeFull_true hf with ⟨hfull, -⟩ | ⟨hlt, rfl⟩
      · rw [hc.1] at hfull; simp at hfull; omega
      · have := h3 hc.1
        rw [hc.1]
        simp only [List.length_nil]
        split <;> omega

/-- `mtd_write_data`: `true` when it returns `len`, `false` when it returns `-1`. -/
def mtdWriteData (c : Chip p) (data : Bytes) (s : WriteState p) : Bool × WriteState p :=
  if hd : data = [] then (true, s)
  else match h : writeRound c data s with
    | (none, s) => (false, s)
    | (some rest, s') => mtdWriteData c rest s'
termination_by roundMeasure p data s
decreasing_by exact writeRound_lt hd h

/-- "Erase the specified number of blocks" from offset `pos` on. -/
def eraseBlocksFrom (c : Chip p) : Nat → Nat → WriteState p → Nat × WriteState p
  | 0, pos, s => (pos, s)
  | blocks + 1, pos, s =>
    if c.getBadBlock pos = .bad then eraseBlocksFrom c blocks (pos + p.erase_size) s
    else eraseBlocksFrom c blocks (pos + p.erase_size) (s.setBlock pos (c.erase pos))

/-- The zero padding of the pending data to a whole block. -/
def padded (s : WriteState p) : Block p :=
  ⟨s.ctx.buffer ++ List.replicate (p.erase_size - s.ctx.buffer.length) 0, by
    have := s.ctx.stored_le; simp; omega⟩

/-- "Zero-pad and write any pending data to get us to a block boundary". -/
def flushPending (c : Chip p) (s : WriteState p) : Bool × WriteState p :=
  if s.ctx.buffer = [] then (true, s)
  else match writeBlock c (padded s) s with
    | (false, s) => (false, s)
    | (true, s) => (true, s.setBuffer [] p.nil_le)

/-- `mtd_erase_blocks`: the offset behind the erased blocks, `none` for `-1`. -/
def mtdEraseBlocks (c : Chip p) (blocks : Int) (s : WriteState p) : Option Nat × WriteState p :=
  match flushPending c s with
  | (false, s) => (none, s)
  | (true, s) =>
    let pos := s.ctx.fpos
    let total := asInt ((p.size - pos) / p.erase_size)
    let blocks := if blocks < 0 then total else blocks
    if total < blocks then (none, s)
    else
      let (pos, s) := eraseBlocksFrom c blocks.toNat pos s
      (some pos, s)

/-- `mtd_write_close`: `true` when it returns `0`. -/
def mtdWriteClose (c : Chip p) (s : WriteState p) : Bool × WriteState p :=
  let (pos, s) := mtdEraseBlocks c 0 s
  (pos.isSome && c.close_ok, s)

/-- A sequence of `mtd_write_data` calls, as long as they succeed. -/
def mtdWriteAll (c : Chip p) : List Bytes → WriteState p → Bool × WriteState p
  | [], s => (true, s)
  | data :: rest, s =>
    match mtdWriteData c data s with
    | (false, s) => (false, s)
    | (true, s) => mtdWriteAll c rest s

end Miui
