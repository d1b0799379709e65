import Mathlib.Algebra.Order.Ring.Nat
import Mathlib.Data.List.Basic
import Mathlib.Tactic.Common

/-!
# Byte strings and little-endian words

Bytes in memory are a `List UInt8`. A read of `len` bytes at `off` (`slice`) is `none` when one of
them lies outside the buffer, so a definition that never returns `none` for this reason reads in
bounds.
-/

/-- The bytes of a file, a buffer or a mapping. -/
abbrev Bytes := List UInt8

/-- Bytes compare as unsigned numbers. -/
instance Bytes.linearOrder : LinearOrder UInt8 where
  le_refl := UInt8.le_refl
  le_trans _ _ _ := UInt8.le_trans
  lt_iff_le_not_ge _ _ := by
    rw [UInt8.not_le]
    exact ⟨fun h => ⟨UInt8.le_of_lt h, h⟩, And.right⟩
  le_antisymm _ _ := UInt8.le_antisymm
  le_total := UInt8.le_total
  toDecidableLE := inferInstance
  toDecidableLT := inferInstance
  toDecidableEq := inferInstance

namespace Bytes

instance lawful_byte : LawfulBEq UInt8 := inferInstance

instance lawful_bytes : LawfulBEq (List UInt8) := inferInstance

/-- The bytes of an ASCII string. -/
def ascii (s : String) : Bytes := s.toList.map fun c => c.toNat.toUInt8

/-- `len` bytes from `off`, if all of them exist. -/
def slice (bs : Bytes) (off len : Nat) : Option Bytes :=
  if off + len ≤ bs.length then some ((bs.drop off).take len) else none

/-- The little-endian value of a byte string. -/
def ofLE : Bytes → Nat
  | [] => 0
  | b :: bs => b.toNat + 256 * ofLE bs

/-- The little-endian word of `n` bytes at `off`. -/
def readLE (n : Nat) (bs : Bytes) (off : Nat) : Option Nat := (slice bs off n).map ofLE

theorem slice_eq_some {bs : Bytes} {off len : Nat} {w : Bytes} :
    slice bs off len = some w ↔ off + len ≤ bs.length ∧ (bs.drop off).take len = w := by
  unfold slice
  split
  · rename_i h; simp [h]
  · rename_i h; simp [h]

theorem slice_length {bs w : Bytes} {off len : Nat} (h : slice bs off len = some w) :
    w.length = len := by
  obtain ⟨hle, rfl⟩ := slice_eq_some.mp h
  simp; omega

theorem slice_isSome {bs : Bytes} {off len : Nat} (h : off + len ≤ bs.length) :
    slice bs off len = some ((bs.drop off).take len) := if_pos h

/-- A slice of a suffix is a slice of the whole. -/
theorem slice_drop {bs : Bytes} {k off len : Nat} (hk : k ≤ bs.length) :
    slice (bs.drop k) off len = slice bs (k + off) len := by
  unfold slice
  simp only [List.length_drop, List.drop_drop]
  congr 1
  simp only [eq_iff_iff]
  omega

theorem ofLE_lt : ∀ bs : Bytes, ofLE bs < 256 ^ bs.length
  | [] => by decide
  | b :: bs => by
    have hb := b.toNat_lt
    have hrest := ofLE_lt bs
    rw [ofLE, List.length_cons, Nat.pow_succ]
    omega

/-- Byte strings of one length with one value are equal. -/
theorem ofLE_inj : ∀ {xs ys : Bytes}, xs.length = ys.length → ofLE xs = ofLE ys → xs = ys
  | [], [], _, _ => rfl
  | x :: xs, y :: ys, hl, h => by
    have hx := x.toNat_lt
    have hy := y.toNat_lt
    simp only [ofLE] at h
    have hxy : x = y := UInt8.toNat_inj.mp (by omega)
    have hr : xs = ys := ofLE_inj (by simpa using hl) (by omega)
    rw [hxy, hr]

end Bytes

namespace Miui

/-- A C `unsigned int` or `size_t` read as an `int`. -/
def asInt (n : Nat) : Int := if n % 2 ^ 32 < 2 ^ 31 then (n % 2 ^ 32 : Nat) else (n % 2 ^ 32 : Nat) - 2 ^ 32

theorem asInt_lt (n : Nat) : asInt n < 2 ^ 31 := by unfold asInt; split <;> omega

theorem asInt_of_lt {n : Nat} (h : n < 2 ^ 31) : asInt n = n := by
  unfold asInt
  rw [Nat.mod_eq_of_lt (by omega), if_pos h]

end Miui
