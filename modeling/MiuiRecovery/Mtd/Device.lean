import MiuiRecovery.Lib.Bytes

/-!
# An MTD partition and its driver

What `mtdutils.c` sees of the flash: a partition of erase blocks, each named by its byte offset, and
a driver (`Chip`) whose answers the code does not control. One `Chip` answers the calls of one open
context; within it the offset only grows, so an answer depends on the offset and the try.

* `Chip.getBadBlock`: the answer of `MEMGETBADBLOCK`.
* `Chip.attempt`: one erase, write and re-read of a block by `write_block`. A write that goes wrong
  leaves any bytes in the block, whether the driver reports it or not.
* `Chip.read`: what happens to a whole-block read of `read_block`.
-/

namespace Miui

/-- A partition of `/proc/mtd`. `mtd_erase_blocks` divides by `erase_size`. -/
structure MtdPartition where
  size : Nat
  erase_size : Nat
  erase_size_pos : 0 < erase_size

theorem MtdPartition.nil_le (p : MtdPartition) : ([] : Bytes).length ≤ p.erase_size := Nat.zero_le _

/-- The contents of one erase block. -/
abbrev Block (p : MtdPartition) : Type := { bs : Bytes // bs.length = p.erase_size }

/-- A block of one byte value: `0xff` after an erase. -/
def Block.fill (p : MtdPartition) (b : UInt8) : Block p := ⟨List.replicate p.erase_size b, by simp⟩

instance (p : MtdPartition) : Inhabited (Block p) := ⟨Block.fill p 0xff⟩

/-- The contents of the flash, by the offset of each block. -/
abbrev Flash (p : MtdPartition) : Type := Nat → Block p

def Flash.set {p : MtdPartition} (fl : Flash p) (pos : Nat) (b : Block p) : Flash p :=
  fun x => if x = pos then b else fl x

/-- `MEMGETBADBLOCK`: `0`, a positive number, `-1` with `EOPNOTSUPP`, or `-1` with another error. -/
inductive BadBlock
  | good
  | bad
  | unsupported
  | failed
  deriving DecidableEq, Repr

/-- One round of the retry loop of `write_block`. -/
structure Attempt (p : MtdPartition) where
  /-- `MEMERASE` did not return an error. -/
  erase_ok : Bool
  /-- The block after a failed erase. -/
  erased : Block p
  /-- The block after `write` of the argument. -/
  store : Block p → Block p
  /-- How many bytes the re-read returned. -/
  reread : Nat

/-- A whole-block read of `read_block`: the data, an error, uncorrectable ECC errors, or an error of
the `ECCGETSTATS` after it. -/
inductive ReadOutcome
  | ok
  | error
  | ecc
  | noStats
  deriving DecidableEq, Repr

/-- The driver's answers to one context, by block offset. -/
structure Chip (p : MtdPartition) where
  getBadBlock : Nat → BadBlock
  attempt : Nat → Nat → Attempt p
  /-- The block after the last `MEMERASE` of a block that is given up. -/
  giveUp : Nat → Block p
  /-- The block after a `MEMERASE` by `mtd_erase_blocks`. -/
  erase : Nat → Block p
  /-- `close` of the write context did not fail. -/
  close_ok : Bool
  /-- The first `ECCGETSTATS` of a `read_block` did not fail. -/
  stats_ok : Nat → Bool
  read : Nat → ReadOutcome

/-- No read through the context meets a fault. -/
structure Chip.NoReadFaults {p : MtdPartition} (c : Chip p) : Prop where
  stats : ∀ pos, c.stats_ok pos = true
  reads : ∀ pos, c.read pos = .ok

/-- `while (pos + size <= (int) partition->size)`: a whole block fits at `pos`. -/
def MtdPartition.fits (p : MtdPartition) (pos : Nat) : Prop := ((pos + p.erase_size : Nat) : Int) ≤ asInt p.size

instance (p : MtdPartition) (pos : Nat) : Decidable (p.fits pos) := inferInstanceAs (Decidable (_ ≤ _))

/-- The blocks still ahead of offset `pos`, as a measure for the loops over the partition. -/
def MtdPartition.left (p : MtdPartition) (pos : Nat) : Nat := (asInt p.size - pos).toNat

theorem MtdPartition.left_lt {p : MtdPartition} {pos : Nat} (h : p.fits pos) :
    p.left (pos + p.erase_size) < p.left pos := by
  have := p.erase_size_pos
  unfold fits at h
  unfold left
  omega

theorem Flash.set_self {p : MtdPartition} (fl : Flash p) (pos : Nat) (b : Block p) :
    fl.set pos b pos = b := by simp [Flash.set]

theorem Flash.set_ne {p : MtdPartition} (fl : Flash p) {pos x : Nat} (b : Block p) (h : x ≠ pos) :
    fl.set pos b x = fl x := by simp [Flash.set, h]

end Miui
