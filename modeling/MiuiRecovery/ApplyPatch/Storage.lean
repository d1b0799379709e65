import MiuiRecovery.Lib.CString
import MiuiRecovery.Lib.Numeral
import Mathlib.Data.List.Sort

/-!
# Files, partitions and their loading

What `applypatch` works on: plain files and the partitions that a name `MTD:…` or `EMMC:…` stands for,
with `LoadFileContents`, `LoadPartitionContents`, `ParseSha1` and `FindMatchingPatch`
(`applypatch.c`). Names are C strings; two names of plain files are two files.

* `loadPairs_prefix`: what is loaded of a partition is one of the prefixes its name lists.
* `findMatchingPatch_isSome`: a patch is found exactly for the listed digests.
-/

namespace Miui

open CString Numeral

/-- A SHA-1 digest, 20 bytes. -/
abbrev Digest := Bytes

def CACHE_TEMP_SOURCE : Bytes := Bytes.ascii "/cache/saved.file"

inductive PartitionType
  | MTD
  | EMMC
deriving DecidableEq

/-- The plain files and the partitions. -/
structure Storage where
  files : Bytes → Option Bytes
  partitions : PartitionType → Bytes → Option Bytes

/-! ## Digests -/

/-- The value of a hexadecimal digit. -/
def hexDigit (c : UInt8) : Option UInt8 :=
  if 48 ≤ c ∧ c ≤ 57 then some (c - 48)
  else if 97 ≤ c ∧ c ≤ 102 then some (c - 97 + 10)
  else if 65 ≤ c ∧ c ≤ 70 then some (c - 65 + 10)
  else none

/-- `n` bytes of two digits each, and nothing behind them. -/
def parseHex : Nat → Bytes → Option Bytes
  | 0, [] => some []
  | n + 1, hi :: lo :: ps =>
    match hexDigit hi, hexDigit lo, parseHex n ps with
    | some h, some l, some digest => some ((h * 16 + l) :: digest)
    | _, _, _ => none
  | _, _ => none

def SHA_DIGEST_SIZE : Nat := 20

def parseSha1 (str : Bytes) : Option Digest := parseHex SHA_DIGEST_SIZE str

/-! ## Partitions -/

/-- The type of the partition that a name stands for, `none` for a plain file. -/
def partitionType (filename : Bytes) : Option PartitionType :=
  if (Bytes.ascii "MTD:").isPrefixOf filename then some .MTD
  else if (Bytes.ascii "EMMC:").isPrefixOf filename then some .EMMC
  else none

/-- `strncmp(filename, "MTD:", 4) == 0 || strncmp(filename, "EMMC:", 5) == 0` -/
def isPartition (filename : Bytes) : Bool := (partitionType filename).isSome

/-- The partition that a name stands for. -/
def partitionOf (filename : Bytes) : Option (PartitionType × Bytes) :=
  match partitionType filename, tokens (· == 58) filename with
  | some type, _ :: partition :: _ => some (type, partition)
  | _, _ => none

/-- The digits at the front of a string. -/
def digits (s : Bytes) : Nat :=
  (s.takeWhile fun c => 48 ≤ c ∧ c ≤ 57).foldl (fun n c => 10 * n + (c.toNat - 48)) 0

/-- `strtol(str, NULL, 10)` -/
def strtol (str : Bytes) : Int :=
  match str.dropWhile fun c => c = 32 ∨ 9 ≤ c ∧ c ≤ 13 with
  | 45 :: s => max (-(digits s : Int)) (-2 ^ 31)
  | 43 :: s => min (digits s : Int) (2 ^ 31 - 1)
  | s => min (digits s : Int) (2 ^ 31 - 1)

/-- A number has no white space in front. -/
theorem dropWhile_space {s : Bytes} (h : ∀ c ∈ s, c = 45 ∨ 48 ≤ c ∧ c ≤ 57) :
    (s.dropWhile fun c => c = 32 ∨ 9 ≤ c ∧ c ≤ 13) = s := by
  cases s with
  | nil => rfl
  | cons c s =>
    refine List.dropWhile_cons_of_neg ?_
    rcases h c List.mem_cons_self with rfl | ⟨hlow, hhigh⟩
    · decide
    · rw [decide_eq_true_eq, not_or, not_and]
      refine ⟨fun h32 => ?_, fun _ h13 => ?_⟩
      · rw [h32] at hlow
        exact absurd hlow (by decide)
      · exact absurd (hlow.trans h13) (by decide)

theorem digits_eq_value {s : Bytes} (h : ∀ c ∈ s, 48 ≤ c ∧ c ≤ 57) : digits s = value 10 s := by
  unfold digits value
  rw [List.takeWhile_eq_self_iff.mpr fun c hc => by simpa using h c hc]

theorem strtol_digits {s : Bytes} (h : ∀ c ∈ s, 48 ≤ c ∧ c ≤ 57) :
    strtol s = min (value 10 s : Int) (2 ^ 31 - 1) := by
  rw [strtol, dropWhile_space fun c hc => .inr (h c hc), ← digits_eq_value h]
  split
  · exact absurd (h 45 List.mem_cons_self) (by decide)
  · exact absurd (h 43 List.mem_cons_self) (by decide)
  · rfl

/-- What `%d` writes is read back. -/
theorem strtol_signed {n : Int} (hlow : -2 ^ 31 ≤ n) (hhigh : n < 2 ^ 31) : strtol (signed n) = n := by
  have hdigits : ∀ c ∈ numeral 10 n.natAbs, 48 ≤ c ∧ c ≤ 57 := fun c hc => numeral_digits (by decide) (by decide) hc
  have hvalue : value 10 (numeral 10 n.natAbs) = n.natAbs := numeral_value_self (by decide) (by decide)
  unfold signed
  split
  · rename_i hneg
    have hchars : ∀ c ∈ (45 : UInt8) :: numeral 10 n.natAbs, c = 45 ∨ 48 ≤ c ∧ c ≤ 57 := by
      intro c hc
      exact (List.mem_cons.mp hc).imp id (hdigits c)
    rw [strtol, dropWhile_space hchars]
    show max (-(digits (numeral 10 n.natAbs) : Int)) (-2 ^ 31) = n
    rw [digits_eq_value hdigits, hvalue]
    omega
  · rw [strtol_digits hdigits, hvalue]
    omega

/-- `size_t` is 32 bits wide. -/
def sizeT (n : Int) : Nat := (n % 2 ^ 32).toNat

/-- The (size, sha1) pairs of a name; `none` where a size is 0 or a token is missing. -/
def sizePairs : Nat → List Bytes → Option (List (Nat × Bytes))
  | 0, _ => some []
  | pairs + 1, size_str :: sha1sum :: ts =>
    if sizeT (strtol size_str) = 0 then none
    else (sizePairs pairs ts).map ((sizeT (strtol size_str), sha1sum) :: ·)
  | _ + 1, _ => none

/-- The pairs of a name in the order of their sizes. -/
def sortedPairs (filename : Bytes) : Option (List (Nat × Bytes)) :=
  (sizePairs ((filename.count 58 - 1) / 2) ((tokens (· == 58) filename).drop 2)).map
    fun pairs => pairs.insertionSort fun x y => x.1 ≤ y.1

/-- The functions that `applypatch` relies on: `SHA`, `retouch_mask_data` with the desired offset 0,
and the two patchers with the chunks they hand to the sink and the status if the sink takes them all. -/
structure Env where
  SHA : Bytes → Digest
  retouchMaskData : Bytes → Option Bytes
  applyBSDiffPatch : Bytes → Bytes → List Bytes × Int
  applyImagePatch : Bytes → Bytes → Option Bytes → List Bytes × Int

variable (e : Env)

/-- The shortest listed prefix of a partition with its digest. -/
def loadPairs (content : Bytes) : List (Nat × Bytes) → Option Bytes
  | [] => none
  | (size, sha1sum) :: pairs =>
    -- "short read"
    if content.length < size then none
    else
      match parseSha1 sha1sum with
      | none => none
      | some parsed_sha =>
        if e.SHA (content.take size) = parsed_sha then some (content.take size)
        else loadPairs content pairs

def loadPartitionContents (s : Storage) (filename : Bytes) : Option Bytes :=
  match partitionOf filename, sortedPairs filename with
  | some (type, partition), some pairs =>
    match s.partitions type partition with
    | some content => loadPairs e content pairs
    | none => none
  | _, _ => none

/-- The data that `LoadFileContents` leaves with `RETOUCH_DO_MASK`. -/
def loadFileContents (s : Storage) (filename : Bytes) : Option Bytes :=
  if isPartition filename then loadPartitionContents e s filename
  else
    match s.files filename with
    | some data => e.retouchMaskData data
    | none => none

/-! ## Patches -/

inductive ValueType
  | VAL_STRING
  | VAL_BLOB
deriving DecidableEq

structure Value where
  type : ValueType
  data : Bytes

/-- The patch of the first digest that matches. -/
def findMatchingPatch (sha1 : Digest) (patches : List (Bytes × Value)) : Option Value :=
  (patches.find? fun p => parseSha1 p.1 == some sha1).map (·.2)

theorem findMatchingPatch_isSome {sha1 : Digest} {patches : List (Bytes × Value)} :
    (findMatchingPatch sha1 patches).isSome = true ↔ ∃ p ∈ patches, parseSha1 p.1 = some sha1 := by
  unfold findMatchingPatch
  rw [Option.isSome_map, List.find?_isSome]
  simp

variable {e}

theorem loadPairs_prefix {content data : Bytes} {pairs : List (Nat × Bytes)}
    (h : loadPairs e content pairs = some data) :
    ∃ p ∈ pairs, data = content.take p.1 ∧ parseSha1 p.2 = some (e.SHA data) := by
  induction pairs with
  | nil => cases h
  | cons p pairs ih =>
    unfold loadPairs at h
    split at h
    · cases h
    · split at h
      · cases h
      · rename_i parsed_sha hparse
        split at h
        · rename_i hsha
          cases h
          exact ⟨p, List.mem_cons_self, rfl, by rw [hparse, hsha]⟩
        · obtain ⟨q, hq, hdata⟩ := ih h
          exact ⟨q, List.mem_cons_of_mem _ hq, hdata⟩

theorem loadFileContents_plain {s : Storage} {filename : Bytes} (h : isPartition filename = false) :
    loadFileContents e s filename = (s.files filename).bind e.retouchMaskData := by
  unfold loadFileContents
  rw [h]
  cases s.files filename <;> rfl

/-- A plain name is loaded from its file, the name of a partition from the partition. -/
theorem loadFileContents_congr {s s' : Storage} {filename : Bytes}
    (hfile : isPartition filename = false → s'.files filename = s.files filename)
    (hpart : ∀ type partition, partitionOf filename = some (type, partition) →
      s'.partitions type partition = s.partitions type partition) :
    loadFileContents e s' filename = loadFileContents e s filename := by
  unfold loadFileContents
  split
  · unfold loadPartitionContents
    split
    · rename_i type partition pairs hname hpairs
      rw [hpart type partition hname]
    · rfl
  · rename_i h
    rw [hfile (by simpa using h)]

end Miui
