import Mathlib.Data.List.Basic
import MiuiRecovery.Lib.Bytes
import MiuiRecovery.Lib.Patch

/-!
# Retouched binaries

`retouch_mask_data` (`Retouch.c`): the words that a retouch list names are set to their original contents
plus an offset, or the offset is inferred from them.

* `retouchMaskData_inBounds`: no access lies outside the binary.
* `query_iff`: the offset that a query reports.
* `masks_iff`: masking is a round trip that leaves the rest alone exactly for the binaries with a `Sound`
  list: it is not empty, no two of its words overlap in part, and none reaches into the list. The code
  compares only the first byte of a word with the start of the list.
-/

namespace Miui

namespace Retouch

open Bytes (slice readLE)
open Patch (store)

/-! ## Retouch.c -/

/-- `RETOUCH_DATA_ERROR` and the other results. -/
inductive RetouchData
  | error
  | matched
  | mismatched
  | notApplicable
  deriving DecidableEq

/-- The binary after the call, the result and `*retouch_offset`. -/
structure Retouched where
  binary : Bytes
  result : RetouchData
  retouch_offset : UInt32
  deriving DecidableEq

/-- `int32_t` -/
def int32 (n : Int) : Int := Int.bmod n (2 ^ 32)

/-- `decode_bytes`: the offset and the contents of an entry. -/
def decodeBytes (encoded_bytes : Bytes) (encoded_size : Nat) (offs_prev : Int) (cont_prev : UInt32) :
    Int × UInt32 :=
  let b (i : Nat) : UInt32 := (encoded_bytes.getD i 0).toUInt32
  if encoded_size = 2 then
    let tmp := ((b 0 &&& 0x1f) <<< 8) ||| b 1
    let tmp := if tmp &&& 0x1000 ≠ 0 then 0xffffe000 ||| tmp else tmp
    (offs_prev + (((b 0 &&& 0x60) >>> 5) + 1).toNat * 4, cont_prev + tmp)
  else if encoded_size = 3 then
    let tmp := ((b 0 &&& 0x0f) <<< 16) ||| (b 1 <<< 8) ||| b 2
    let tmp := if tmp &&& 0x80000 ≠ 0 then 0xfff00000 ||| tmp else tmp
    (offs_prev + (((b 0 &&& 0x30) >>> 4) + 1).toNat * 4, cont_prev + tmp)
  else
    let offset := int32 ((b 0 <<< 24) ||| (b 1 <<< 16) ||| (b 2 <<< 8) ||| b 3).toNat
    (if offset = 0x3fffffff then -1 else offset,
      (b 4 <<< 24) ||| (b 5 <<< 16) ||| (b 6 <<< 8) ||| b 7)

/-- `decode_in_memory`: the next `encoded_bytes`, and the offset and the contents, which are also the next
`offs_prev` and `cont_prev`. -/
def decodeInMemory (binary : Bytes) (encoded_bytes : Nat) (offs_prev : Int) (cont_prev : UInt32) :
    Option (Nat × Int × UInt32) := do
  let first ← binary[encoded_bytes]?
  let input_size := if first &&& 0x80 ≠ 0 then 2 else if first &&& 0x40 ≠ 0 then 3 else 8
  let input ← slice binary encoded_bytes input_size
  some (encoded_bytes + input_size, decodeBytes input input_size offs_prev cont_prev)

/-- The bytes of a `uint32_t`. -/
def wordBytes (v : UInt32) : Bytes :=
  [.ofNat v.toNat, .ofNat (v.toNat / 256), .ofNat (v.toNat / 65536), .ofNat (v.toNat / 16777216)]

/-- `*p` -/
def readWord (binary : Bytes) (p : Nat) : Option UInt32 := (readLE 4 binary p).map .ofNat

/-- `*p = v` -/
def writeWord (binary : Bytes) (p : Nat) (v : UInt32) : Option Bytes :=
  if p + 4 ≤ binary.length then some (store binary p (wordBytes v)) else none

structure RetouchState where
  binary : Bytes
  b_ptr : Nat
  offs_prev : Int
  cont_prev : UInt32
  offset_candidate : UInt32
  offset_set : Bool
  offset_mismatch : Bool

/-- `retouch_entry`, with -1 for the value in `prelink_info_t`. -/
def retouchEntry (p_offs : Nat) (retouch_entry_offset : Int) : Nat :=
  if retouch_entry_offset = -1 then p_offs else retouch_entry_offset.toNat

/-- `if (desired_offset) *retouch_entry = retouch_original_value + target_offset` -/
def maskEntry (desired_offset : Option UInt32) (binary : Bytes) (p : Nat)
    (retouch_original_value : UInt32) : Option Bytes :=
  match desired_offset with
  | some target_offset => writeWord binary p (retouch_original_value + target_offset)
  | none => some binary

/-- "Infer the randomization shift, compare to previously inferred". -/
def RetouchState.next (s : RetouchState) (entry : Nat × Int × UInt32) (binary : Bytes)
    (offset_of_this_entry : UInt32) : RetouchState where
  binary
  b_ptr := entry.1
  offs_prev := entry.2.1
  cont_prev := entry.2.2
  offset_candidate := if s.offset_set then s.offset_candidate else offset_of_this_entry
  offset_set := true
  offset_mismatch := s.offset_mismatch || (s.offset_set && s.offset_candidate != offset_of_this_entry)

/-- The rest of a round, once the entry is decoded. -/
def retouchRound (desired_offset : Option UInt32) (p_offs : Nat) (s : RetouchState)
    (entry : Nat × Int × UInt32) : Option RetouchState := do
  let p := retouchEntry p_offs entry.2.1
  let binary ← maskEntry desired_offset s.binary p entry.2.2
  let word ← readWord binary p
  some (s.next entry binary (word - entry.2.2))

theorem decodeInMemory_lt {binary : Bytes} {p : Nat} {prev : Int} {cont : UInt32}
    {entry : Nat × Int × UInt32} (h : decodeInMemory binary p prev cont = some entry) :
    p + 2 ≤ entry.1 ∧ entry.1 ≤ p + 8 := by
  simp only [decodeInMemory, Option.bind_eq_bind, Option.bind_eq_some_iff] at h
  obtain ⟨first, -, input, -, h⟩ := h
  cases h
  split
  · omega
  · split <;> omega

theorem retouchRound_ptr {desired_offset : Option UInt32} {p_offs : Nat} {s s' : RetouchState}
    {entry : Nat × Int × UInt32} (h : retouchRound desired_offset p_offs s entry = some s') :
    s'.b_ptr = entry.1 := by
  simp only [retouchRound, Option.bind_eq_bind, Option.bind_eq_some_iff] at h
  obtain ⟨_, -, _, -, h⟩ := h
  cases h
  rfl

/-- The loop: `none` where an access lies outside the binary, `.error` with a bad offset. -/
def retouchLoop (desired_offset : Option UInt32) (p_offs r_offs b_offs : Nat) (s : RetouchState) :
    Option (Except Bytes RetouchState) :=
  if s.b_ptr < r_offs then
    match hentry : decodeInMemory s.binary s.b_ptr s.offs_prev s.cont_prev with
    | none => none
    | some entry =>
      if entry.2.1 < -1 ∨ entry.2.1 ≥ b_offs then some (.error s.binary)
      else
        match hround : retouchRound desired_offset p_offs s entry with
        | none => none
        | some s' => retouchLoop desired_offset p_offs r_offs b_offs s'
  else some (.ok s)
termination_by r_offs - s.b_ptr
decreasing_by
  have hlt := decodeInMemory_lt hentry
  have hptr := retouchRound_ptr hround
  omega

/-- `retouch_mask_data`: a query without a `desired_offset`. -/
def retouchMaskData (binary_object : Bytes) (desired_offset : Option UInt32) : Option Retouched :=
  let target_offset := desired_offset.getD 0
  let p_offs := int32 (binary_object.length - 8)
  let r_offs := int32 (p_offs - 12)
  let notRetouched : Retouched :=
    ⟨binary_object, if desired_offset = none then .notApplicable else .matched, target_offset⟩
  if r_offs < 0 then some notRetouched
  else do
    let p_tag ← slice binary_object (p_offs.toNat + 4) 4
    let r_tag ← slice binary_object r_offs.toNat 8
    if p_tag ≠ Bytes.ascii "PRE " ∨ r_tag ≠ Bytes.ascii "RETOUCH " then some notRetouched
    else
      let blob_size ← readLE 4 binary_object (r_offs.toNat + 8)
      let b_offs := int32 (r_offs - blob_size)
      if b_offs < 0 then some ⟨binary_object, .error, target_offset⟩
      else
        let s : RetouchState := {
          binary := binary_object
          b_ptr := b_offs.toNat
          offs_prev := 0
          cont_prev := 0
          offset_candidate := target_offset
          offset_set := false
          offset_mismatch := false }
        match ← retouchLoop desired_offset p_offs.toNat r_offs.toNat b_offs.toNat s with
        | .error binary => some ⟨binary, .error, target_offset⟩
        | .ok s =>
          if s.b_ptr > r_offs.toNat then some ⟨s.binary, .error, target_offset⟩
          else if s.offset_mismatch then some ⟨s.binary, .mismatched, target_offset⟩
          else some ⟨s.binary, .matched, s.offset_candidate⟩

/-! ## Words -/

theorem wordBytes_length (v : UInt32) : (wordBytes v).length = 4 := rfl

theorem ofLE_wordBytes (v : UInt32) : Bytes.ofLE (wordBytes v) = v.toNat := by
  have hv := v.toNat_lt
  simp only [wordBytes, Bytes.ofLE, UInt8.toNat_ofNat']
  omega

variable {bs bs' : Bytes} {p : Nat} {v : UInt32}

/-- A word is read where its bytes are. -/
theorem readWord_iff : readWord bs p = some v ↔ slice bs p 4 = some (wordBytes v) := by
  rw [readWord, readLE]
  constructor
  · intro h
    obtain ⟨n, hn, rfl⟩ := Option.map_eq_some_iff.mp h
    obtain ⟨w, hw, rfl⟩ := Option.map_eq_some_iff.mp hn
    have hlen := Bytes.slice_length hw
    have hlt := Bytes.ofLE_lt w
    rw [hlen] at hlt
    have hv : w.ofLE = (wordBytes (UInt32.ofNat w.ofLE)).ofLE := by
      rw [ofLE_wordBytes, UInt32.toNat_ofNat']
      omega
    rw [hw, ← Bytes.ofLE_inj (hlen.trans (wordBytes_length _).symm) hv]
  · intro h
    rw [h]
    simp [ofLE_wordBytes]

theorem slice_iff {w : Bytes} (h : p + w.length ≤ bs.length) :
    slice bs p w.length = some w ↔ ∀ j < w.length, bs[p + j]? = w[j]? := by
  rw [Bytes.slice_isSome h, Option.some.injEq]
  constructor
  · intro heq j hj
    rw [← heq, List.getElem?_take_of_lt hj, List.getElem?_drop]
  · intro hall
    refine List.ext_getElem? fun j => ?_
    by_cases hj : j < w.length
    · rw [List.getElem?_take_of_lt hj, List.getElem?_drop, hall j hj]
    · rw [List.getElem?_eq_none (by simp; omega), List.getElem?_eq_none (by omega)]

theorem readWord_bytes (h : p + 4 ≤ bs.length) :
    readWord bs p = some v ↔ ∀ j < 4, bs[p + j]? = (wordBytes v)[j]? :=
  readWord_iff.trans (slice_iff (w := wordBytes v) h)

theorem readWord_isSome (bs : Bytes) (h : p + 4 ≤ bs.length) : ∃ v, readWord bs p = some v :=
  ⟨_, by rw [readWord, readLE, Bytes.slice_isSome h]; rfl⟩

theorem readWord_store (h : p + 4 ≤ bs.length) : readWord (store bs p (wordBytes v)) p = some v := by
  have hlen : (store bs p (wordBytes v)).length = bs.length := Patch.length_store h
  refine (readWord_bytes (by rw [hlen]; exact h)).mpr fun j hj => ?_
  rw [Patch.store_inside h ⟨by simp, by simpa [wordBytes_length] using hj⟩]
  simp

/-! ## The list -/

/-- The entries from `b_ptr` on, offset and contents, and where the last one ends. -/
def scanList (binary : Bytes) (r_offs b_ptr : Nat) (offs_prev : Int) (cont_prev : UInt32) :
    List (Int × UInt32) × Nat :=
  if b_ptr < r_offs then
    match hentry : decodeInMemory binary b_ptr offs_prev cont_prev with
    | none => ([], b_ptr)
    | some entry =>
      let rest := scanList binary r_offs entry.1 entry.2.1 entry.2.2
      (entry.2 :: rest.1, rest.2)
  else ([], b_ptr)
termination_by r_offs - b_ptr
decreasing_by
  have := decodeInMemory_lt hentry
  omega

variable {r b n : Nat} {prev : Int} {cont : UInt32}

/-- The list ends before a header of 12 bytes, so an entry that begins before it lies in the binary. -/
theorem decodeInMemory_isSome (prev : Int) (cont : UInt32) (h : p + 8 ≤ bs.length) :
    ∃ entry, decodeInMemory bs p prev cont = some entry := by
  have hfirst : p < bs.length := by omega
  simp only [decodeInMemory, List.getElem?_eq_getElem hfirst, Option.bind_eq_bind, Option.bind_some]
  rw [Bytes.slice_isSome (by split <;> [skip; split] <;> omega)]
  exact ⟨_, rfl⟩

theorem slice_congr {k : Nat} (hlen : bs.length = bs'.length)
    (h : ∀ i, p ≤ i → i < p + k → bs[i]? = bs'[i]?) : slice bs p k = slice bs' p k := by
  unfold slice
  rw [hlen]
  congr 2
  refine List.ext_getElem? fun i => ?_
  by_cases hi : i < k
  · rw [List.getElem?_take_of_lt hi, List.getElem?_take_of_lt hi, List.getElem?_drop, List.getElem?_drop]
    exact h _ (by omega) (by omega)
  · rw [List.getElem?_eq_none (by simp; omega), List.getElem?_eq_none (by simp; omega)]

theorem decodeInMemory_congr (hlen : bs.length = bs'.length)
    (h : ∀ i, p ≤ i → i < p + 8 → bs[i]? = bs'[i]?) :
    decodeInMemory bs p prev cont = decodeInMemory bs' p prev cont := by
  unfold decodeInMemory
  rw [h p (by omega) (by omega)]
  congr 1
  funext first
  have hsize : (if first &&& 0x80 ≠ 0 then 2 else if first &&& 0x40 ≠ 0 then 3 else 8) ≤ 8 := by
    split <;> [skip; split] <;> omega
  dsimp only
  generalize (if first &&& 0x80 ≠ 0 then 2 else if first &&& 0x40 ≠ 0 then 3 else 8) = k at hsize ⊢
  rw [slice_congr hlen fun i hi hlt => h i hi (by omega)]

theorem scanList_step (hlt : p < r) {entry : Nat × Int × UInt32}
    (h : decodeInMemory bs p prev cont = some entry) :
    scanList bs r p prev cont =
      (entry.2 :: (scanList bs r entry.1 entry.2.1 entry.2.2).1,
        (scanList bs r entry.1 entry.2.1 entry.2.2).2) := by
  rw [scanList, if_pos hlt]
  split
  · rename_i hnone
    rw [hnone] at h
    cases h
  · rename_i entry' hentry
    rw [hentry] at h
    cases h
    rfl

theorem scanList_end (hge : ¬ p < r) : scanList bs r p prev cont = ([], p) := by
  rw [scanList, if_neg hge]

/-- The list of a binary whose bytes from the list to the header are the same. -/
theorem scanList_congr (hlen : bs.length = bs'.length) (hroom : r + 8 ≤ bs.length)
    (h : ∀ i, b ≤ i → i < r + 8 → bs[i]? = bs'[i]?) (hb : b ≤ p) :
    scanList bs r p prev cont = scanList bs' r p prev cont := by
  induction hn : r - p using Nat.strongRecOn generalizing p prev cont with
  | ind n ih =>
    by_cases hlt : p < r
    · obtain ⟨entry, hentry⟩ := decodeInMemory_isSome prev cont
        (show p + 8 ≤ bs.length by omega)
      have hentry' : decodeInMemory bs' p prev cont = some entry := by
        rw [← decodeInMemory_congr hlen fun i hi hi' => h i (by omega) (by omega)]
        exact hentry
      have hptr := decodeInMemory_lt hentry
      rw [scanList_step hlt hentry, scanList_step hlt hentry', ih (r - entry.1) (by omega) (by omega) rfl]
    · rw [scanList_end hlt, scanList_end hlt]

/-- A scan does not stop before the header. -/
theorem scanList_le (hroom : r + 8 ≤ bs.length) : r ≤ (scanList bs r p prev cont).2 := by
  induction hn : r - p using Nat.strongRecOn generalizing p prev cont with
  | ind n ih =>
    by_cases hlt : p < r
    · obtain ⟨entry, hentry⟩ := decodeInMemory_isSome prev cont
        (show p + 8 ≤ bs.length by omega)
      have hptr := decodeInMemory_lt hentry
      rw [scanList_step hlt hentry]
      exact ih (r - entry.1) (by omega) rfl
    · rw [scanList_end hlt]
      exact Nat.le_of_not_lt hlt

/-! ## One round -/

variable {desired : Option UInt32} {p_offs : Nat} {s s' : RetouchState} {entry : Nat × Int × UInt32}

theorem retouchLoop_end (h : ¬ s.b_ptr < r) : retouchLoop desired p_offs r b s = some (.ok s) := by
  rw [retouchLoop, if_neg h]

theorem retouchLoop_bad (h : s.b_ptr < r)
    (hentry : decodeInMemory s.binary s.b_ptr s.offs_prev s.cont_prev = some entry)
    (hbad : entry.2.1 < -1 ∨ entry.2.1 ≥ b) :
    retouchLoop desired p_offs r b s = some (.error s.binary) := by
  rw [retouchLoop, if_pos h]
  split
  · rename_i hnone
    rw [hnone] at hentry
    cases hentry
  · rename_i entry' hentry'
    rw [hentry'] at hentry
    cases hentry
    rw [if_pos hbad]

theorem retouchLoop_step (h : s.b_ptr < r)
    (hentry : decodeInMemory s.binary s.b_ptr s.offs_prev s.cont_prev = some entry)
    (hgood : ¬ (entry.2.1 < -1 ∨ entry.2.1 ≥ b)) (hround : retouchRound desired p_offs s entry = some s') :
    retouchLoop desired p_offs r b s = retouchLoop desired p_offs r b s' := by
  rw [retouchLoop, if_pos h]
  split
  · rename_i hnone
    rw [hnone] at hentry
    cases hentry
  · rename_i entry' hentry'
    rw [hentry'] at hentry
    cases hentry
    rw [if_neg hgood]
    split
    · rename_i hnone
      rw [hnone] at hround
      cases hround
    · rename_i s'' hround'
      rw [hround'] at hround
      cases hround
      rfl

theorem retouchRound_eq {binary : Bytes} {word : UInt32}
    (hmask : maskEntry desired s.binary (retouchEntry p_offs entry.2.1) entry.2.2 = some binary)
    (hword : readWord binary (retouchEntry p_offs entry.2.1) = some word) :
    retouchRound desired p_offs s entry = some (s.next entry binary (word - entry.2.2)) := by
  simp only [retouchRound, hmask, hword, Option.bind_eq_bind, Option.bind_some]

/-! ## The loop -/

/-- The offset that is inferred, whether there is one, and whether it is mismatched. -/
def RetouchState.inferred (s : RetouchState) : UInt32 × Bool × Bool :=
  (s.offset_candidate, s.offset_set, s.offset_mismatch)

/-- The offset of one more entry. -/
def inferEntry (t : UInt32 × Bool × Bool) (offset : UInt32) : UInt32 × Bool × Bool :=
  (if t.2.1 then t.1 else offset, true, t.2.2 || (t.2.1 && t.1 != offset))

theorem foldl_inferEntry (c : UInt32) (m : Bool) (offsets : List UInt32) :
    offsets.foldl inferEntry (c, true, m) = (c, true, m || offsets.any (c != ·)) := by
  induction offsets generalizing m with
  | nil => simp
  | cons o offsets ih => simp [inferEntry, ih, Bool.or_assoc]

/-- The offset of an entry in a binary. -/
def entryOffset (binary : Bytes) (r_offs : Nat) (e : Int × UInt32) : UInt32 :=
  (readWord binary (retouchEntry (r_offs + 12) e.1)).getD 0 - e.2

/-- The words that masking writes. -/
def maskWords (r_offs : Nat) (offset : UInt32) (es : List (Int × UInt32)) : List (Nat × Bytes) :=
  es.map fun e => (retouchEntry (r_offs + 12) e.1, wordBytes (e.2 + offset))

theorem retouchEntry_le (hb : b ≤ r) {o : Int} (h : -1 ≤ o ∧ o < b) :
    retouchEntry (r + 12) o + 4 ≤ r + 20 := by
  unfold retouchEntry
  split <;> omega

/-- A scan either stops or decodes an entry. -/
theorem scanList_cases (hroom : r + 8 ≤ bs.length) {es : List (Int × UInt32)} {last : Nat}
    (h : scanList bs r p prev cont = (es, last)) :
    (¬ p < r ∧ es = [] ∧ last = p) ∨
      (p < r ∧ ∃ entry rest, decodeInMemory bs p prev cont = some entry ∧ es = entry.2 :: rest ∧
        scanList bs r entry.1 entry.2.1 entry.2.2 = (rest, last)) := by
  by_cases hlt : p < r
  · obtain ⟨entry, hentry⟩ := decodeInMemory_isSome prev cont
      (show p + 8 ≤ bs.length by omega)
    rw [scanList_step hlt hentry, Prod.mk.injEq] at h
    exact .inr ⟨hlt, entry, _, hentry, h.1.symm, Prod.ext rfl h.2⟩
  · rw [scanList_end hlt, Prod.mk.injEq] at h
    exact .inl ⟨hlt, h.1.symm, h.2.symm⟩

/-- A query looks at every entry. -/
theorem queryLoop_spec (hlen : s.binary.length = r + 20) (hb : b ≤ r) {es : List (Int × UInt32)} {last : Nat}
    (hscan : scanList s.binary r s.b_ptr s.offs_prev s.cont_prev = (es, last))
    (hvalid : ∀ e ∈ es, -1 ≤ e.1 ∧ e.1 < b) :
    ∃ s', retouchLoop none (r + 12) r b s = some (.ok s') ∧ s'.binary = s.binary ∧ s'.b_ptr = last ∧
      s'.inferred = (es.map (entryOffset s.binary r)).foldl inferEntry s.inferred := by
  induction es generalizing s with
  | nil =>
    rcases scanList_cases (by omega) hscan with ⟨hlt, -, rfl⟩ | ⟨-, entry, rest, -, hes, -⟩
    · exact ⟨s, retouchLoop_end hlt, rfl, rfl, rfl⟩
    · cases hes
  | cons e es ih =>
    rcases scanList_cases (by omega) hscan with ⟨-, hes, -⟩ | ⟨hlt, entry, rest, hentry, hes, hrest⟩
    · cases hes
    · cases hes
      have hval := hvalid _ List.mem_cons_self
      have hgood : ¬ (entry.2.1 < -1 ∨ entry.2.1 ≥ b) := by omega
      obtain ⟨word, hword⟩ := readWord_isSome s.binary (p := retouchEntry (r + 12) entry.2.1)
        (by have := retouchEntry_le hb hval; omega)
      rw [retouchLoop_step hlt hentry hgood (retouchRound_eq rfl hword)]
      obtain ⟨s', hrun, hbin, hptr, hinf⟩ := ih (s := s.next entry s.binary (word - entry.2.2)) hlen hrest
        fun e he => hvalid e (List.mem_cons_of_mem _ he)
      refine ⟨s', hrun, hbin, hptr, hinf.trans ?_⟩
      rw [List.map_cons, List.foldl_cons, entryOffset, hword]
      rfl

/-- A bad offset ends a query. -/
theorem queryLoop_bad (hlen : s.binary.length = r + 20) (hb : b ≤ r) {es : List (Int × UInt32)} {last : Nat}
    (hscan : scanList s.binary r s.b_ptr s.offs_prev s.cont_prev = (es, last))
    (hbad : ¬ ∀ e ∈ es, -1 ≤ e.1 ∧ e.1 < b) :
    retouchLoop none (r + 12) r b s = some (.error s.binary) := by
  induction es generalizing s with
  | nil => exact absurd (fun _ h => nomatch h) hbad
  | cons e es ih =>
    rcases scanList_cases (by omega) hscan with ⟨-, hes, -⟩ | ⟨hlt, entry, rest, hentry, hes, hrest⟩
    · cases hes
    · cases hes
      by_cases hval : -1 ≤ entry.2.1 ∧ entry.2.1 < b
      · have hgood : ¬ (entry.2.1 < -1 ∨ entry.2.1 ≥ b) := by omega
        obtain ⟨word, hword⟩ := readWord_isSome s.binary (p := retouchEntry (r + 12) entry.2.1)
          (by have := retouchEntry_le hb hval; omega)
        rw [retouchLoop_step hlt hentry hgood (retouchRound_eq rfl hword)]
        exact ih (s := s.next entry s.binary (word - entry.2.2)) hlen hrest fun hall => hbad (List.forall_mem_cons.mpr ⟨hval, hall⟩)
      · exact retouchLoop_bad hlt hentry (by omega)

theorem maskWords_fits (hb : b ≤ r) {es : List (Int × UInt32)} (d : UInt32)
    (hvalid : ∀ e ∈ es, -1 ≤ e.1 ∧ e.1 < b) : Patch.Fits (r + 20) (maskWords r d es) := by
  intro w hw
  obtain ⟨e, he, rfl⟩ := List.mem_map.mp hw
  exact retouchEntry_le hb (hvalid e he)

/-- No word of the entries reaches into the list. -/
def Clear (b_offs : Nat) (es : List (Int × UInt32)) : Prop := ∀ e ∈ es, e.1 = -1 ∨ e.1 + 4 ≤ b_offs

/-- The bytes between the list and `prelink_info_t`. -/
def SameList (b_offs r_offs : Nat) (bs bs' : Bytes) : Prop :=
  bs.length = bs'.length ∧ ∀ i, b_offs ≤ i → i < r_offs + 12 → bs[i]? = bs'[i]?

theorem not_covers_list {e : Int × UInt32} (hvalid : -1 ≤ e.1) (hclear : e.1 = -1 ∨ e.1 + 4 ≤ b)
    {i : Nat} (hlow : b ≤ i) (hhigh : i < r + 12) :
    ¬ Patch.Covers (retouchEntry (r + 12) e.1, wordBytes v) i := by
  simp only [Patch.Covers, wordBytes_length, retouchEntry]
  split <;> omega

/-- Masking writes every word, whatever the binary is outside the list. -/
theorem maskLoop_spec {B : Bytes} (d : UInt32) (hlen : s.binary.length = r + 20) (hb : b ≤ r)
    (hptr : b ≤ s.b_ptr) (hsame : SameList b r s.binary B) {es : List (Int × UInt32)} {last : Nat}
    (hscan : scanList B r s.b_ptr s.offs_prev s.cont_prev = (es, last))
    (hvalid : ∀ e ∈ es, -1 ≤ e.1 ∧ e.1 < b) (hclear : Clear b es) :
    ∃ s', retouchLoop (some d) (r + 12) r b s = some (.ok s') ∧
      s'.binary = Patch.patch s.binary (maskWords r d es) ∧ s'.b_ptr = last ∧
      s'.inferred = (es.map fun _ => d).foldl inferEntry s.inferred := by
  have hlenB : B.length = r + 20 := hsame.1 ▸ hlen
  induction es generalizing s with
  | nil =>
    rcases scanList_cases (by omega) hscan with ⟨hlt, -, rfl⟩ | ⟨-, entry, rest, -, hes, -⟩
    · exact ⟨s, retouchLoop_end hlt, rfl, rfl, rfl⟩
    · cases hes
  | cons e es ih =>
    rcases scanList_cases (by omega) hscan with ⟨-, hes, -⟩ | ⟨hlt, entry, rest, hentryB, hes, hrest⟩
    · cases hes
    · cases hes
      have hval := hvalid _ List.mem_cons_self
      have hgood : ¬ (entry.2.1 < -1 ∨ entry.2.1 ≥ b) := by omega
      have hfit := retouchEntry_le hb hval
      have hentry : decodeInMemory s.binary s.b_ptr s.offs_prev s.cont_prev = some entry := by
        rw [decodeInMemory_congr hsame.1 fun i hi hi' => hsame.2 i (by omega) (by omega)]
        exact hentryB
      have hptr' := decodeInMemory_lt hentry
      have hword := wordBytes_length (entry.2.2 + d)
      have hroom : retouchEntry (r + 12) entry.2.1 + (wordBytes (entry.2.2 + d)).length ≤ s.binary.length := by
        omega
      have hstore := Patch.length_store hroom
      have hmask : maskEntry (some d) s.binary (retouchEntry (r + 12) entry.2.1) entry.2.2 = some _ :=
        if_pos (by omega)
      have hread := readWord_store (v := entry.2.2 + d) hroom
      rw [retouchLoop_step hlt hentry hgood (retouchRound_eq hmask hread)]
      have hsame' : SameList b r (store s.binary (retouchEntry (r + 12) entry.2.1) (wordBytes (entry.2.2 + d)))
          B := by
        refine ⟨hstore.trans hsame.1, fun i hi hi' => ?_⟩
        rw [← hsame.2 i hi hi']
        exact Patch.store_outside hroom (not_covers_list hval.1 (hclear _ List.mem_cons_self) hi hi')
      obtain ⟨s', hrun, hbin, hlast, hinf⟩ :=
        ih (s := s.next entry (store s.binary (retouchEntry (r + 12) entry.2.1) (wordBytes (entry.2.2 + d)))
            (entry.2.2 + d - entry.2.2)) (hstore.trans hlen) (by show b ≤ entry.1; omega) hsame' hrest
          (fun e he => hvalid e (List.mem_cons_of_mem _ he)) fun e he => hclear e (List.mem_cons_of_mem _ he)
      refine ⟨s', hrun, hbin, hlast, hinf.trans ?_⟩
      rw [List.map_cons, List.foldl_cons, show entry.2.2 + d - entry.2.2 = d by
        rw [UInt32.add_comm, UInt32.add_sub_cancel]]
      rfl

/-! ## A query -/

variable {B : Bytes}

/-- `r_offs` -/
def rOffs (B : Bytes) : Nat := B.length - 20

/-- `b_offs` -/
def bOffs (B : Bytes) : Int := int32 (rOffs B - ((readLE 4 B (rOffs B + 8)).getD 0 : Nat))

/-- The entries of the retouch list and its end. -/
def retouchList (B : Bytes) : List (Int × UInt32) × Nat := scanList B (rOffs B) (bOffs B).toNat 0 0

/-- The binary ends with both tags. -/
structure Tagged (B : Bytes) : Prop where
  room : 20 ≤ B.length
  prelink : slice B (rOffs B + 16) 4 = some (Bytes.ascii "PRE ")
  retouch : slice B (rOffs B) 8 = some (Bytes.ascii "RETOUCH ")

/-- The state before the loop. -/
def startState (B : Bytes) (target_offset : UInt32) : RetouchState where
  binary := B
  b_ptr := (bOffs B).toNat
  offs_prev := 0
  cont_prev := 0
  offset_candidate := target_offset
  offset_set := false
  offset_mismatch := false

/-- What follows the loop. -/
def finish (r_offs : Nat) (target_offset : UInt32) : Except Bytes RetouchState → Retouched
  | .error binary => ⟨binary, .error, target_offset⟩
  | .ok s =>
    if s.b_ptr > r_offs then ⟨s.binary, .error, target_offset⟩
    else if s.offset_mismatch then ⟨s.binary, .mismatched, target_offset⟩
    else ⟨s.binary, .matched, s.offset_candidate⟩

theorem offsets_eq (hsize : B.length < 2 ^ 31) (hroom : 20 ≤ B.length) :
    int32 (B.length - 8) = (rOffs B + 12 : Nat) ∧ int32 ((rOffs B + 12 : Nat) - 12) = (rOffs B : Nat) := by
  unfold int32 rOffs
  constructor
  · rw [Int.bmod_eq_of_le (by omega) (by omega)]
    omega
  · rw [Int.bmod_eq_of_le (by omega) (by omega)]
    omega

theorem Tagged.length (h : Tagged B) : B.length = rOffs B + 20 := by
  have := h.room
  unfold rOffs
  omega

theorem blobSize_isSome (h : Tagged B) :
    ∃ blob, readLE 4 B (rOffs B + 8) = some blob ∧ int32 ((rOffs B : Nat) - (blob : Nat)) = bOffs B := by
  have hlen := h.length
  obtain ⟨blob, hblob⟩ : ∃ blob, readLE 4 B (rOffs B + 8) = some blob := by
    rw [readLE, Bytes.slice_isSome (by omega)]
    exact ⟨_, rfl⟩
  exact ⟨blob, hblob, by rw [bOffs, hblob, Option.getD_some]⟩

/-- A binary with both tags and a list. -/
theorem retouchMaskData_tagged (hsize : B.length < 2 ^ 31) (h : Tagged B) (hb : 0 ≤ bOffs B)
    (d : Option UInt32) :
    retouchMaskData B d = (retouchLoop d (rOffs B + 12) (rOffs B) (bOffs B).toNat
      (startState B (d.getD 0))).map (finish (rOffs B) (d.getD 0)) := by
  obtain ⟨hp, hr⟩ := offsets_eq hsize h.room
  obtain ⟨blob, hblob, hboffs⟩ := blobSize_isSome h
  unfold retouchMaskData
  simp only [hp, hr, Int.toNat_natCast, h.prelink, h.retouch, hblob, hboffs, Option.bind_eq_bind,
    Option.bind_some, ne_eq, not_true, or_self, if_false]
  rw [if_neg (by omega), if_neg (by omega)]
  change Option.bind (retouchLoop d (rOffs B + 12) (rOffs B) (bOffs B).toNat (startState B (d.getD 0))) _ = _
  cases retouchLoop d (rOffs B + 12) (rOffs B) (bOffs B).toNat (startState B (d.getD 0)) with
  | none => rfl
  | some run =>
    cases run with
    | error binary => rfl
    | ok s =>
      simp only [Option.bind_some, Option.map_some, finish]
      split
      · rfl
      · split <;> rfl

/-- A query finds the offset `off`: the list ends right before the header, its offsets are good, and each
word is the original contents plus `off`. -/
structure Matches (B : Bytes) (off : UInt32) : Prop where
  tagged : Tagged B
  start : 0 ≤ bOffs B
  ends : (retouchList B).2 = rOffs B
  valid : ∀ e ∈ (retouchList B).1, -1 ≤ e.1 ∧ e.1 < (bOffs B).toNat
  reads : ∀ e ∈ (retouchList B).1, entryOffset B (rOffs B) e = off
  empty : (retouchList B).1 = [] → off = 0

theorem Matches.before (h : Matches B v) : (bOffs B).toNat ≤ rOffs B := by
  by_contra hlt
  have hend := h.ends
  rw [retouchList, scanList_end (by omega)] at hend
  simp only at hend
  omega

/-- The offsets agree with the one that is inferred from them. -/
theorem infer_eq (offsets : List UInt32) (off : UInt32) :
    (offsets.foldl inferEntry (0, false, false)).2.2 = false ∧
        (offsets.foldl inferEntry (0, false, false)).1 = off ↔
      (∀ o ∈ offsets, o = off) ∧ (offsets = [] → off = 0) := by
  cases offsets with
  | nil => simp [eq_comm]
  | cons o offsets =>
    rw [List.foldl_cons, show inferEntry (0, false, false) o = (o, true, false) from rfl, foldl_inferEntry]
    simp only [Bool.false_or, List.any_eq_false, bne_iff_ne, ne_eq, not_not, List.forall_mem_cons,
      reduceCtorEq, false_implies, and_true]
    constructor
    · rintro ⟨hall, rfl⟩
      exact ⟨rfl, fun o' ho' => (hall o' ho').symm⟩
    · rintro ⟨rfl, hall⟩
      exact ⟨fun o' ho' => (hall o' ho').symm, rfl⟩

/-- A binary without both tags is not touched. -/
theorem retouchMaskData_untagged (hsize : B.length < 2 ^ 31) (h : ¬ Tagged B) (d : Option UInt32) :
    retouchMaskData B d = some ⟨B, if d = none then .notApplicable else .matched, d.getD 0⟩ := by
  unfold retouchMaskData
  by_cases hroom : 20 ≤ B.length
  · obtain ⟨hp, hr⟩ := offsets_eq hsize hroom
    simp only [hp, hr, Int.toNat_natCast]
    rw [if_neg (by omega)]
    rw [Bytes.slice_isSome (show rOffs B + 12 + 4 + 4 ≤ B.length by unfold rOffs; omega),
      Bytes.slice_isSome (show rOffs B + 8 ≤ B.length by unfold rOffs; omega)]
    simp only [Option.bind_eq_bind, Option.bind_some]
    refine if_pos (not_and_or.mp fun htags => h ⟨hroom, ?_, ?_⟩)
    · rw [Bytes.slice_isSome (by unfold rOffs; omega)]
      exact congrArg some htags.1
    · rw [Bytes.slice_isSome (by unfold rOffs; omega)]
      exact congrArg some htags.2
  · have hr : int32 (int32 (B.length - 8) - 12) < 0 := by
      unfold int32
      rw [Int.bmod_eq_of_le (n := (B.length : Int) - 8) (by omega) (by omega),
        Int.bmod_eq_of_le (by omega) (by omega)]
      omega
    simp only [if_pos hr]

/-- The size of the list exceeds what is before the header. -/
theorem retouchMaskData_negative (hsize : B.length < 2 ^ 31) (h : Tagged B) (hb : bOffs B < 0)
    (d : Option UInt32) : retouchMaskData B d = some ⟨B, .error, d.getD 0⟩ := by
  obtain ⟨hp, hr⟩ := offsets_eq hsize h.room
  obtain ⟨blob, hblob, hboffs⟩ := blobSize_isSome h
  unfold retouchMaskData
  simp only [hp, hr, Int.toNat_natCast, h.prelink, h.retouch, hblob, hboffs, Option.bind_eq_bind,
    Option.bind_some, ne_eq, not_true, or_self, if_false]
  rw [if_neg (by omega), if_pos hb]

/-- `MATCHED` is reported for an offset exactly where the list matches it. -/
theorem query_iff (hsize : B.length < 2 ^ 31) {bs : Bytes} {off : UInt32} :
    retouchMaskData B none = some ⟨bs, .matched, off⟩ ↔ bs = B ∧ Matches B off := by
  by_cases htag : Tagged B
  · by_cases hb : 0 ≤ bOffs B
    · rw [retouchMaskData_tagged hsize htag hb, Option.getD_none]
      have hlen := htag.length
      by_cases hbefore : (bOffs B).toNat ≤ rOffs B
      · have hscan : scanList B (rOffs B) (bOffs B).toNat 0 0 = ((retouchList B).1, (retouchList B).2) := rfl
        by_cases hvalid : ∀ e ∈ (retouchList B).1, -1 ≤ e.1 ∧ e.1 < (bOffs B).toNat
        · obtain ⟨s', hrun, hbin, hptr, hinf⟩ :=
            queryLoop_spec (s := startState B 0) hlen hbefore hscan hvalid
          have hiff := infer_eq ((retouchList B).1.map (entryOffset B (rOffs B))) off
          have hmismatch : s'.offset_mismatch = _ := congrArg (·.2.2) hinf
          have hcandidate : s'.offset_candidate = _ := congrArg (·.1) hinf
          have hlast : rOffs B ≤ (retouchList B).2 := scanList_le (by omega)
          have hagree : s'.offset_mismatch = false ∧ s'.offset_candidate = off ↔
              (∀ e ∈ (retouchList B).1, entryOffset B (rOffs B) e = off) ∧
                ((retouchList B).1 = [] → off = 0) := by
            rw [hmismatch, hcandidate]
            refine hiff.trans ?_
            simp only [List.forall_mem_map, List.map_eq_nil_iff]
          rw [hrun, Option.map_some, Option.some.injEq, finish, hptr, hbin]
          constructor
          · intro h
            split at h
            · cases h
            · split at h
              · cases h
              · simp only [Retouched.mk.injEq, true_and] at h
                obtain ⟨rfl, hoff⟩ := h
                obtain ⟨hreads, hempty⟩ := hagree.mp ⟨by simpa using ‹¬ s'.offset_mismatch = true›, hoff⟩
                exact ⟨rfl, htag, hb, by omega, hvalid, hreads, hempty⟩
          · rintro ⟨rfl, hm⟩
            obtain ⟨hnone, hoff⟩ := hagree.mpr ⟨hm.reads, hm.empty⟩
            rw [if_neg (by rw [hm.ends]; omega), hnone, if_neg Bool.false_ne_true, hoff]
            rfl
        · rw [queryLoop_bad (s := startState B 0) hlen hbefore hscan hvalid]
          exact ⟨fun h => (by cases h), fun h => absurd h.2.valid hvalid⟩
      · rw [retouchLoop_end (by simp only [startState]; omega), Option.map_some, finish,
          if_pos (by simp only [startState]; omega)]
        exact ⟨fun h => (by cases h), fun h => absurd h.2.before hbefore⟩
    · rw [retouchMaskData_negative hsize htag (by omega)]
      exact ⟨fun h => (by cases h), fun h => absurd h.2.start hb⟩
  · rw [retouchMaskData_untagged hsize htag]
    exact ⟨fun h => (by cases h), fun h => absurd h.2.tagged htag⟩

/-! ## Masking -/

/-- A binary with a sound list: it is not empty, no word of it reaches into it, and no two of its words
overlap in part. -/
structure Sound (B : Bytes) : Prop where
  nonempty : (retouchList B).1 ≠ []
  clear : Clear (bOffs B).toNat (retouchList B).1
  apart : ∀ e ∈ (retouchList B).1, ∀ e' ∈ (retouchList B).1, 0 ≤ e.1 → e.1 < e'.1 → e.1 + 4 ≤ e'.1

/-- Masking to `d` is a round trip that leaves the rest alone. -/
structure Masked (B : Bytes) (d : UInt32) (m : Retouched) : Prop where
  run : retouchMaskData B (some d) = some m
  length : m.binary.length = B.length
  frame : ∀ i, (∀ e ∈ (retouchList B).1, ¬ (retouchEntry (rOffs B + 12) e.1 ≤ i ∧
      i < retouchEntry (rOffs B + 12) e.1 + 4)) → ¬ (rOffs B + 12 ≤ i ∧ i < rOffs B + 16) →
    m.binary[i]? = B[i]?
  list : ∀ i, (bOffs B).toNat ≤ i → i < rOffs B + 12 → m.binary[i]? = B[i]?
  query : retouchMaskData m.binary none = some ⟨m.binary, .matched, d⟩
  again : ∃ m', retouchMaskData m.binary (some d) = some m' ∧ m'.binary = m.binary
  compose : ∀ d', ∃ m₁ m₂, retouchMaskData m.binary (some d') = some m₁ ∧
    retouchMaskData B (some d') = some m₂ ∧ m₁.binary = m₂.binary

theorem SameList.rOffs_eq {bs : Bytes} (h : SameList b r bs B) : rOffs bs = rOffs B := by
  rw [rOffs, rOffs, h.1]

/-- The header and the list are found where they were. -/
theorem SameList.header {bs : Bytes} (hlen : B.length = rOffs B + 20)
    (hb : (bOffs B).toNat ≤ rOffs B) (h : SameList (bOffs B).toNat (rOffs B) bs B) :
    slice bs (rOffs B) 8 = slice B (rOffs B) 8 ∧ bOffs bs = bOffs B ∧ retouchList bs = retouchList B := by
  have htag : slice bs (rOffs B) 8 = slice B (rOffs B) 8 :=
    slice_congr h.1 fun i hi hi' => h.2 i (by omega) (by omega)
  have hsize : readLE 4 bs (rOffs B + 8) = readLE 4 B (rOffs B + 8) := by
    rw [readLE, readLE, slice_congr h.1 fun i hi hi' => h.2 i (by omega) (by omega)]
  have hboffs : bOffs bs = bOffs B := by rw [bOffs, bOffs, h.rOffs_eq, hsize]
  refine ⟨htag, hboffs, ?_⟩
  rw [retouchList, retouchList, h.rOffs_eq, hboffs]
  have hlen' := h.1
  exact scanList_congr h.1 (by omega) (fun i hi hi' => h.2 i hi (by omega)) (Nat.le_refl _)

/-- Masking writes all words of a matched list that does not reach into itself. -/
theorem mask_run (hsize : B.length < 2 ^ 31) {off : UInt32} (h : Matches B off)
    (hclear : Clear (bOffs B).toNat (retouchList B).1) (d : UInt32) :
    retouchMaskData B (some d) =
      some ⟨Patch.patch B (maskWords (rOffs B) d (retouchList B).1), .matched, d⟩ := by
  obtain ⟨s', hrun, hbin, hptr, hinf⟩ :=
    maskLoop_spec (s := startState B d) (B := B) d h.tagged.length h.before (Nat.le_refl _)
      ⟨rfl, fun _ _ _ => rfl⟩ (show _ = ((retouchList B).1, (retouchList B).2) from rfl) h.valid hclear
  have hinferred : s'.offset_mismatch = false ∧ s'.offset_candidate = d := by
    have hmismatch : s'.offset_mismatch = _ := congrArg (·.2.2) hinf
    have hcandidate : s'.offset_candidate = _ := congrArg (·.1) hinf
    rw [hmismatch, hcandidate]
    cases (retouchList B).1 with
    | nil => exact ⟨rfl, rfl⟩
    | cons e es =>
      rw [List.map_cons, List.foldl_cons,
        show inferEntry (startState B d).inferred d = (d, true, false) from rfl, foldl_inferEntry]
      simp
  rw [retouchMaskData_tagged hsize h.tagged h.start, Option.getD_some, hrun, Option.map_some, finish, hptr,
    hbin, h.ends, if_neg (Nat.lt_irrefl _), hinferred.1, if_neg Bool.false_ne_true, hinferred.2]
  rfl

/-- Entries of one word have the same contents. -/
theorem Matches.contents_eq {off : UInt32} (h : Matches B off) {e e' : Int × UInt32}
    (he : e ∈ (retouchList B).1) (he' : e' ∈ (retouchList B).1) (heq : e.1 = e'.1) : e = e' := by
  have hoff := UInt32.sub_eq_iff_eq_add.mp (h.reads e he)
  have hoff' := UInt32.sub_eq_iff_eq_add.mp (h.reads e' he')
  rw [heq, hoff'] at hoff
  exact Prod.ext heq ((UInt32.add_right_inj off).mp hoff).symm

/-- The words of a sound list are equal or apart. -/
theorem maskWords_apart {off : UInt32} (h : Matches B off) (hs : Sound B) (d : UInt32) :
    Patch.Apart (maskWords (rOffs B) d (retouchList B).1) := by
  intro w hw w' hw' i hc hc'
  obtain ⟨e, he, rfl⟩ := List.mem_map.mp hw
  obtain ⟨e', he', rfl⟩ := List.mem_map.mp hw'
  have hbefore := h.before
  have hval := h.valid e he
  have hval' := h.valid e' he'
  have hclear := hs.clear e he
  have hclear' := hs.clear e' he'
  have hapart := hs.apart e he e' he'
  have hapart' := hs.apart e' he' e he
  have heq : e.1 = e'.1 := by
    simp only [Patch.Covers, wordBytes_length, retouchEntry] at hc hc'
    split at hc <;> split at hc' <;> omega
  rw [h.contents_eq he he' heq]

/-- A byte of no word. -/
theorem patch_frame {off : UInt32} (h : Matches B off) (d : UInt32) {i : Nat}
    (hout : ∀ e ∈ (retouchList B).1, ¬ (retouchEntry (rOffs B + 12) e.1 ≤ i ∧
      i < retouchEntry (rOffs B + 12) e.1 + 4)) :
    (Patch.patch B (maskWords (rOffs B) d (retouchList B).1))[i]? = B[i]? := by
  refine Patch.patch_outside (h.tagged.length ▸ maskWords_fits h.before d h.valid) fun w hw => ?_
  obtain ⟨e, he, rfl⟩ := List.mem_map.mp hw
  exact hout e he

theorem patch_sameList {off : UInt32} (h : Matches B off) (hclear : Clear (bOffs B).toNat (retouchList B).1)
    (d : UInt32) : SameList (bOffs B).toNat (rOffs B)
      (Patch.patch B (maskWords (rOffs B) d (retouchList B).1)) B := by
  refine ⟨Patch.length_patch (h.tagged.length ▸ maskWords_fits h.before d h.valid), fun i hi hi' => ?_⟩
  exact patch_frame h d fun e he =>
    not_covers_list (v := 0) (h.valid e he).1 (hclear e he) hi hi'

/-- The masked binary matches the offset it was masked to. -/
theorem patch_matches {off : UInt32} (h : Matches B off) (hs : Sound B) (d : UInt32) :
    Matches (Patch.patch B (maskWords (rOffs B) d (retouchList B).1)) d := by
  have hlen := h.tagged.length
  have hfit := hlen ▸ maskWords_fits h.before d h.valid
  have hsame := patch_sameList h hs.clear d
  obtain ⟨hretouch, hboffs, hlist⟩ := hsame.header hlen h.before
  have hbefore := h.before
  have hprelink : slice (Patch.patch B (maskWords (rOffs B) d (retouchList B).1)) (rOffs B + 16) 4 =
      slice B (rOffs B + 16) 4 := by
    refine slice_congr hsame.1 fun i hi hi' => patch_frame h d fun e he => ?_
    have hval := h.valid e he
    unfold retouchEntry
    split <;> omega
  refine ⟨⟨by rw [hsame.1]; exact h.tagged.room, ?_, ?_⟩, hboffs ▸ h.start, ?_, ?_, ?_, ?_⟩
  · rw [hsame.rOffs_eq, hprelink, h.tagged.prelink]
  · rw [hsame.rOffs_eq, hretouch, h.tagged.retouch]
  · rw [hlist, hsame.rOffs_eq, h.ends]
  · rw [hlist, hboffs]
    exact h.valid
  · rw [hlist, hsame.rOffs_eq]
    intro e he
    have hroom := retouchEntry_le h.before (h.valid e he)
    have hword : readWord (Patch.patch B (maskWords (rOffs B) d (retouchList B).1))
        (retouchEntry (rOffs B + 12) e.1) = some (e.2 + d) := by
      refine (readWord_bytes (by rw [hsame.1]; omega)).mpr fun j hj => ?_
      have hread := Patch.patch_reads hfit (maskWords_apart h hs d) (List.mem_map_of_mem he)
        (i := retouchEntry (rOffs B + 12) e.1 + j) (by simp only [Patch.Covers, wordBytes_length]; omega)
      rw [hread, Nat.add_sub_cancel_left]
    rw [entryOffset, hword, Option.getD_some, UInt32.add_comm, UInt32.add_sub_cancel]
  · rw [hlist]
    exact fun hnil => absurd hnil hs.nonempty

/-- A sound list is masked. -/
theorem masked_of_sound (hsize : B.length < 2 ^ 31) {off : UInt32} (h : Matches B off) (hs : Sound B)
    (d : UInt32) : Masked B d ⟨Patch.patch B (maskWords (rOffs B) d (retouchList B).1), .matched, d⟩ := by
  have hlen := h.tagged.length
  have hfit := hlen ▸ maskWords_fits h.before d h.valid
  have hsame := patch_sameList h hs.clear d
  have hmatches := patch_matches h hs d
  obtain ⟨-, hboffs, hlist⟩ := hsame.header hlen h.before
  have hsize' : (Patch.patch B (maskWords (rOffs B) d (retouchList B).1)).length < 2 ^ 31 := hsame.1 ▸ hsize
  -- masking once more writes the same words of the same list
  have hmore (d' : UInt32) : retouchMaskData (Patch.patch B (maskWords (rOffs B) d (retouchList B).1)) (some d') =
      some ⟨Patch.patch B (maskWords (rOffs B) d' (retouchList B).1), .matched, d'⟩ := by
    rw [mask_run hsize' hmatches (by rw [hboffs, hlist]; exact hs.clear), hlist, hsame.rOffs_eq,
      Patch.patch_patch hfit]
    simp [Patch.places, maskWords, wordBytes_length]
  exact {
    run := mask_run hsize h hs.clear d
    length := hsame.1
    frame := fun i hout _ => patch_frame h d hout
    list := hsame.2
    query := (query_iff hsize').mpr ⟨rfl, hmatches⟩
    again := ⟨_, hmore d, rfl⟩
    compose := fun d' => ⟨_, _, hmore d', mask_run hsize h hs.clear d', rfl⟩ }

/-- After masking, each word of the list is its contents plus the offset. -/
theorem Masked.word {off : UInt32} (hsize : B.length < 2 ^ 31) (h : Matches B off) {d : UInt32} {m : Retouched}
    (hm : Masked B d m) {e : Int × UInt32} (he : e ∈ (retouchList B).1) {j : Nat} (hj : j < 4) :
    m.binary[retouchEntry (rOffs B + 12) e.1 + j]? = (wordBytes (e.2 + d))[j]? := by
  have hsame : SameList (bOffs B).toNat (rOffs B) m.binary B := ⟨hm.length, hm.list⟩
  obtain ⟨-, -, hlist⟩ := hsame.header h.tagged.length h.before
  have hmatches := ((query_iff (by rw [hm.length]; exact hsize)).mp hm.query).2
  have hlen := h.tagged.length
  have hroom := retouchEntry_le h.before (h.valid e he)
  have hoff := hmatches.reads e (hlist ▸ he)
  obtain ⟨word, hword⟩ := readWord_isSome m.binary (p := retouchEntry (rOffs B + 12) e.1)
    (by rw [hm.length]; omega)
  rw [hsame.rOffs_eq, entryOffset, hword, Option.getD_some, UInt32.sub_eq_iff_eq_add, UInt32.add_comm] at hoff
  exact (readWord_bytes (by rw [hm.length]; omega)).mp (hoff ▸ hword) j hj

/-- A list that is masked to every offset is sound: a word that reaches into the list would leave its first
byte 0 for one offset and 255 for another, and of two overlapping words one has a low byte that counts up
where the other stays 0. -/
theorem sound_of_masked (hsize : B.length < 2 ^ 31) {off : UInt32} (h : Matches B off)
    (hm : ∀ d, ∃ m, Masked B d m) : Sound B := by
  have hword {e : Int × UInt32} (he : e ∈ (retouchList B).1) (v : UInt32) :
      ∃ m, Masked B (v - e.2) m ∧
        ∀ j < 4, m.binary[retouchEntry (rOffs B + 12) e.1 + j]? = (wordBytes v)[j]? := by
    obtain ⟨m, hm⟩ := hm (v - e.2)
    refine ⟨m, hm, fun j hj => ?_⟩
    rw [hm.word hsize h he hj, UInt32.add_comm, UInt32.sub_add_cancel]
  refine ⟨fun hnil => ?_, fun e he => ?_, fun e he e' he' hpos hlt => ?_⟩
  · obtain ⟨m, hm⟩ := hm 1
    have hsame : SameList (bOffs B).toNat (rOffs B) m.binary B := ⟨hm.length, hm.list⟩
    obtain ⟨-, -, hlist⟩ := hsame.header h.tagged.length h.before
    have hmatches := ((query_iff (by rw [hm.length]; exact hsize)).mp hm.query).2
    exact absurd (hmatches.empty (hlist.symm ▸ hnil)) (by decide)
  · by_contra hreach
    have hval := h.valid e he
    have hbefore := h.before
    obtain ⟨k, hk, hk0, hk4⟩ : ∃ k, retouchEntry (rOffs B + 12) e.1 + k = (bOffs B).toNat ∧ 0 < k ∧ k < 4 := by
      refine ⟨(bOffs B).toNat - e.1.toNat, ?_, ?_, ?_⟩
      · rw [retouchEntry, if_neg (by omega)]
        omega
      · omega
      · omega
    have hlist (v : UInt32) : B[(bOffs B).toNat]? = (wordBytes v)[k]? := by
      obtain ⟨m, hm, hbytes⟩ := hword he v
      rw [← hm.list _ (Nat.le_refl _) (by omega), ← hbytes k hk4, hk]
    have hsame := (hlist 0).symm.trans (hlist (0 - 1))
    obtain rfl | rfl | rfl : k = 1 ∨ k = 2 ∨ k = 3 := by omega
    all_goals exact absurd hsame (by decide)
  · by_contra hover
    have hval := h.valid e he
    have hval' := h.valid e' he'
    obtain ⟨k, hk, hk0, hk4⟩ : ∃ k, retouchEntry (rOffs B + 12) e'.1 = retouchEntry (rOffs B + 12) e.1 + k ∧
        0 < k ∧ k < 4 := by
      refine ⟨(e'.1 - e.1).toNat, ?_, ?_, ?_⟩
      · rw [retouchEntry, retouchEntry, if_neg (by omega), if_neg (by omega)]
        omega
      · omega
      · omega
    have hlow (v : UInt32) : (wordBytes v)[k]? = (wordBytes (e'.2 + (v - e.2)))[0]? := by
      obtain ⟨m, hm, hbytes⟩ := hword he v
      rw [← hbytes k hk4, ← hm.word hsize h he' (by decide : 0 < 4), hk]
      rfl
    have hzero (v : UInt32) (hv : (wordBytes v)[k]? = some 0) : (e'.2 + (v - e.2)).toNat % 256 = 0 := by
      have hbyte := Option.some.inj ((hlow v).symm.trans hv)
      simpa using congrArg UInt8.toNat hbyte
    have h0 := hzero 0 (by obtain rfl | rfl | rfl : k = 1 ∨ k = 2 ∨ k = 3 := by omega
                           all_goals rfl)
    have h1 := hzero 1 (by obtain rfl | rfl | rfl : k = 1 ∨ k = 2 ∨ k = 3 := by omega
                           all_goals rfl)
    rw [UInt32.toNat_add, UInt32.toNat_sub] at h0 h1
    have h0' : (0 : UInt32).toNat = 0 := rfl
    have h1' : (1 : UInt32).toNat = 1 := rfl
    omega

/-- Masking is a round trip that leaves the rest alone exactly for the sound lists. -/
theorem masks_iff (hsize : B.length < 2 ^ 31)
    (hquery : ∃ off, retouchMaskData B none = some ⟨B, .matched, off⟩) :
    (∀ d, ∃ m, Masked B d m) ↔ Sound B := by
  obtain ⟨off, hquery⟩ := hquery
  have h := ((query_iff hsize).mp hquery).2
  exact ⟨sound_of_masked hsize h, fun hs d => ⟨_, masked_of_sound hsize h hs d⟩⟩

/-- Two words of a program with an entry of eight and an entry of two bytes. -/
def twoWords : Bytes :=
  [5, 0, 0, 0, 9, 0, 0, 0] ++ [0, 0, 0, 0, 0, 0, 0, 5, 0x80, 4] ++ Bytes.ascii "RETOUCH " ++ [10, 0, 0, 0] ++
    [0, 0, 0, 0] ++ Bytes.ascii "PRE "

theorem twoWords_masked : ∃ m, Masked twoWords 256 m := by
  have hlist : retouchList twoWords = ([(0, 5), (4, 9)], 18) := by decide +kernel
  have hb : bOffs twoWords = 8 := by decide +kernel
  refine (masks_iff (by decide) ⟨0, by decide +kernel⟩).mpr ⟨?_, ?_, ?_⟩ 256
  · rw [hlist]
    decide
  · rw [hlist, hb]
    simp [Clear]
  · rw [hlist]
    simp

/-- A program of one byte and an entry for the word at offset 0, which reaches into the list. -/
def straddling : Bytes :=
  [0] ++ [0, 0, 0, 0, 0, 0, 0, 0] ++ Bytes.ascii "RETOUCH " ++ [8, 0, 0, 0] ++ [0, 0, 0, 0] ++ Bytes.ascii "PRE "

/-- It is matched, and masking it to 256 changes the first byte of the list. -/
theorem straddling_not_masked : retouchMaskData straddling none = some ⟨straddling, .matched, 0⟩ ∧
    ¬ ∃ m, Masked straddling 256 m := by
  refine ⟨by decide +kernel, fun ⟨m, hm⟩ => ?_⟩
  have hrun : retouchMaskData straddling (some 256) =
      some ⟨[0, 1, 0, 0, 0, 0, 0, 0, 0] ++ straddling.drop 9, .matched, 256⟩ := by decide +kernel
  obtain rfl : m = _ := Option.some.inj (hm.run.symm.trans hrun)
  have hbyte := hm.list 1 (by decide +kernel) (by decide)
  exact absurd hbyte (by decide)

/-! ## Bounds -/

theorem retouchLoop_inBounds (d : Option UInt32) (hb : b ≤ r) (hlen : s.binary.length = r + 20) :
    ∃ run, retouchLoop d (r + 12) r b s = some run := by
  induction hn : r - s.b_ptr using Nat.strongRecOn generalizing s with
  | ind n ih =>
    by_cases hlt : s.b_ptr < r
    · obtain ⟨entry, hentry⟩ := decodeInMemory_isSome s.offs_prev s.cont_prev
        (show s.b_ptr + 8 ≤ s.binary.length by omega)
      by_cases hbad : entry.2.1 < -1 ∨ entry.2.1 ≥ b
      · exact ⟨_, retouchLoop_bad hlt hentry hbad⟩
      · have hroom := retouchEntry_le hb (show -1 ≤ entry.2.1 ∧ entry.2.1 < b by omega)
        have hptr := decodeInMemory_lt hentry
        obtain ⟨binary, hmask, hlen'⟩ : ∃ binary, maskEntry d s.binary (retouchEntry (r + 12) entry.2.1)
            entry.2.2 = some binary ∧ binary.length = r + 20 := by
          cases d with
          | none => exact ⟨_, rfl, hlen⟩
          | some target_offset =>
            exact ⟨_, if_pos (by omega), (Patch.length_store (by rw [wordBytes_length]; omega)).trans hlen⟩
        obtain ⟨word, hword⟩ := readWord_isSome binary (p := retouchEntry (r + 12) entry.2.1) (by omega)
        rw [retouchLoop_step hlt hentry hbad (retouchRound_eq hmask hword)]
        exact ih (r - entry.1) (by omega) hlen' rfl
    · exact ⟨_, retouchLoop_end hlt⟩

/-- No access of a query or of masking lies outside the binary, whatever its bytes are. -/
theorem retouchMaskData_inBounds (hsize : B.length < 2 ^ 31) (d : Option UInt32) :
    ∃ m, retouchMaskData B d = some m := by
  by_cases htag : Tagged B
  · by_cases hb : 0 ≤ bOffs B
    · rw [retouchMaskData_tagged hsize htag hb]
      by_cases hbefore : (bOffs B).toNat ≤ rOffs B
      · obtain ⟨run, hrun⟩ := retouchLoop_inBounds (s := startState B (d.getD 0)) d hbefore htag.length
        exact ⟨_, by rw [hrun, Option.map_some]⟩
      · exact ⟨_, by rw [retouchLoop_end (by simp only [startState]; omega), Option.map_some]⟩
    · exact ⟨_, retouchMaskData_negative hsize htag (by omega) d⟩
  · exact ⟨_, retouchMaskData_untagged hsize htag d⟩

end Retouch

end Miui
