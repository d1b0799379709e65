import MiuiRecovery.Lib.Bytes

/-!
# The end-of-central-directory search of the zip opener

The first half of `parseZipArchive` (`minzip/Zip.c`): it checks the first four bytes of the mapped
archive, then walks down from the last place an end-of-central-directory record (EOCD) fits and
takes the first one it meets. `parseZipArchive_eocd_eq_some` says which one that is: the highest.
-/

namespace Miui

open Bytes

/-- `PK\5\6` as a little-endian word. -/
def ENDSIG : Nat := 0x06054b50

/-- `PK\3\4` as a little-endian word. -/
def LOCSIG : Nat := 0x04034b50

/-- The size of an EOCD record without its comment. -/
def ENDHDR : Nat := 22

def get4LE (bs : Bytes) (off : Nat) : Option Nat := readLE 4 bs off

/-- The loop `while (ptr >= addr) { if (...) break; ptr--; }`, `ptr` as an offset. -/
def findEocd (map : Bytes) : Nat → Option Nat
  | 0 => if get4LE map 0 = some ENDSIG then some 0 else none
  | ptr + 1 => if get4LE map (ptr + 1) = some ENDSIG then some (ptr + 1) else findEocd map ptr

/-- The offset of the EOCD record that `parseZipArchive` uses, `none` where it bails out before
it has one. `mzOpenZipArchive` rejects a map shorter than `ENDHDR` before the call. -/
def parseZipArchiveEocd (map : Bytes) : Option Nat :=
  if map.length < ENDHDR then none
  else if get4LE map 0 = some ENDSIG then none
  else if get4LE map 0 ≠ some LOCSIG then none
  else findEocd map (map.length - ENDHDR)

/-! ## The signature -/

theorem get4LE_lt {bs : Bytes} {off v : Nat} (h : get4LE bs off = some v) : off + 4 ≤ bs.length := by
  obtain ⟨w, hw, -⟩ := Option.map_eq_some_iff.mp h
  exact (slice_eq_some.mp hw).1

/-- `get4LE` finds the signature exactly where its four bytes stand. -/
theorem get4LE_eq_ENDSIG {bs : Bytes} {off : Nat} :
    get4LE bs off = some ENDSIG ↔ slice bs off 4 = some [0x50, 0x4b, 0x05, 0x06] := by
  unfold get4LE readLE
  rw [Option.map_eq_some_iff]
  constructor
  · rintro ⟨w, hw, hv⟩
    have hwl := slice_length hw
    have hsig : w = [0x50, 0x4b, 0x05, 0x06] := ofLE_inj hwl (by rw [hv]; rfl)
    rw [hw, hsig]
  · exact fun h => ⟨_, h, rfl⟩

/-! ## The backward scan -/

theorem findEocd_eq_some {map : Bytes} {from_ ptr : Nat} :
    findEocd map from_ = some ptr ↔
      ptr ≤ from_ ∧ get4LE map ptr = some ENDSIG ∧
        ∀ o, ptr < o → o ≤ from_ → get4LE map o ≠ some ENDSIG := by
  induction from_ with
  | zero =>
    unfold findEocd
    split
    · rename_i h
      constructor
      · rintro ⟨⟩; exact ⟨Nat.le_refl _, h, fun o h1 h2 => by omega⟩
      · rintro ⟨h1, -, -⟩; rw [Nat.le_zero.mp h1]
    · rename_i h
      constructor
      · rintro ⟨⟩
      · rintro ⟨h1, h2, -⟩; rw [Nat.le_zero.mp h1] at h2; exact absurd h2 h
  | succ n ih =>
    unfold findEocd
    split
    · rename_i h
      constructor
      · rintro ⟨⟩; exact ⟨Nat.le_refl _, h, fun o h1 h2 => by omega⟩
      · rintro ⟨h1, -, h3⟩
        by_cases hp : ptr = n + 1
        · rw [hp]
        · exact absurd h (h3 _ (by omega) (Nat.le_refl _))
    · rename_i h
      rw [ih]
      constructor
      · rintro ⟨h1, h2, h3⟩
        refine ⟨by omega, h2, fun o ho1 ho2 => ?_⟩
        by_cases ho : o = n + 1
        · rw [ho]; exact h
        · exact h3 o ho1 (by omega)
      · rintro ⟨h1, h2, h3⟩
        refine ⟨?_, h2, fun o ho1 ho2 => h3 o ho1 (by omega)⟩
        by_contra hc
        have hp : ptr = n + 1 := by omega
        rw [hp] at h2
        exact h h2

/-- The opener's record is the highest one at which an EOCD fits. -/
theorem parseZipArchiveEocd_spec {map : Bytes} {ptr : Nat} (h : parseZipArchiveEocd map = some ptr) :
    ptr + ENDHDR ≤ map.length ∧ get4LE map ptr = some ENDSIG ∧
      ∀ o, ptr < o → o + ENDHDR ≤ map.length → get4LE map o ≠ some ENDSIG := by
  unfold parseZipArchiveEocd at h
  split at h
  · cases h
  · rename_i hlen
    split at h
    · cases h
    · split at h
      · cases h
      · obtain ⟨h1, h2, h3⟩ := findEocd_eq_some.mp h
        exact ⟨by omega, h2, fun o ho1 ho2 => h3 o ho1 (by omega)⟩

end Miui
