import MiuiRecovery.Lib.Loop
import MiuiRecovery.Lib.Probe
import Mathlib.Algebra.Order.Ring.Nat

/-!
# The hash table of the zip reader

`minzip/Hash.c`: open addressing with tombstones. The table grows when live entries and tombstones
fill more than 5/8 of it. A fault stands for an assertion that fails, an `int` that overflows, a slot
outside the table, a probe that never ends, or `abort()`.

* `roundUpPower2_spec`: the size of a new table is a power of two, the next one.
* `HashTable.Inv`: every live entry is within reach of its home slot, the counters are exact and the
  table is not too full.
* `probe_live`, `probe_absent`: where a probe ends.
* `growIfFull_spec`: an addition leaves the table below its load.
-/

namespace Miui

/-! ## The table -/

inductive HashFault
  | assertion
  | overflow
  | bounds
  | endless
  | abort
deriving DecidableEq

/-- A `void *` of the table: `NULL`, `HASH_TOMBSTONE` or the pointer to an item. -/
inductive HashData (α : Type)
  | null
  | tombstone
  | item (a : α)
deriving DecidableEq

structure HashEntry (α : Type) where
  hashValue : UInt32
  data : HashData α
deriving DecidableEq

/-- `pEntries` has `tableSize` slots; `freeFunc` says whether there is a function to free items. -/
structure HashTable (α : Type) where
  pEntries : List (HashEntry α)
  numEntries : Int
  numDeadEntries : Int
  freeFunc : Bool
deriving DecidableEq

def LOAD_NUMER : Nat := 5
def LOAD_DENOM : Nat := 8

variable {α : Type}

def HashTable.tableSize (t : HashTable α) : Nat := t.pEntries.length

def HashEntry.isNull (e : HashEntry α) : Bool := e.data matches .null

def HashEntry.isTombstone (e : HashEntry α) : Bool := e.data matches .tombstone

/-- The item of a live entry. -/
def HashEntry.item? (e : HashEntry α) : Option α :=
  match e.data with
  | .item a => some a
  | _ => none

/-- The items of the live entries, in the order of the slots. -/
def HashTable.items (t : HashTable α) : List α := t.pEntries.filterMap HashEntry.item?

/-- A slot as `calloc` leaves it. -/
def HashEntry.zero : HashEntry α := ⟨0, .null⟩

/-- The result of a computation on `int`. -/
def cInt (x : Int) : Except HashFault Int :=
  if -2 ^ 31 ≤ x ∧ x < 2 ^ 31 then .ok x else .error .overflow

def hashAssert (p : Prop) [Decidable p] : Except HashFault Unit :=
  if p then .ok () else .error .assertion

def roundUpPower2 (val : UInt32) : UInt32 :=
  let val := val - 1
  let val := val ||| val >>> 1
  let val := val ||| val >>> 2
  let val := val ||| val >>> 4
  let val := val ||| val >>> 8
  let val := val ||| val >>> 16
  val + 1

/-- `calloc` says for which numbers of slots there is memory; without it the result is `NULL`. -/
def mzHashTableCreate (calloc : Nat → Bool) (initialSize : Nat) (freeFunc : Bool) :
    Except HashFault (Option (HashTable α)) := do
  hashAssert (initialSize > 0)
  let tableSize := (roundUpPower2 (UInt32.ofNat initialSize)).toNat
  if calloc tableSize then pure (some ⟨List.replicate tableSize .zero, 0, 0, freeFunc⟩)
  else pure none

/-- The items handed to the free function, and the cleared table. -/
def mzHashTableClear (t : HashTable α) : List α × HashTable α :=
  (if t.freeFunc then t.items else [],
    { t with
      pEntries := t.pEntries.map fun e => { e with data := .null }
      numEntries := 0
      numDeadEntries := 0 })

/-! ## Resizing -/

def countTombStones (t : HashTable α) : Nat := t.pEntries.countP HashEntry.isTombstone

/-- The slot at which a probe for a hash value starts. -/
def home (itemHash : UInt32) (tableSize : Nat) : Nat := itemHash.toNat &&& (tableSize - 1)

/-- The loop `while (pNewEntries[newIdx].data != NULL)`. -/
def probeNew (pNewEntries : List (HashEntry α)) : Nat → Nat → Except HashFault Nat
  | 0, _ => .error .endless
  | fuel + 1, newIdx =>
    match pNewEntries[newIdx]? with
    | none => .error .bounds
    | some e =>
      if e.isNull then .ok newIdx
      else probeNew pNewEntries fuel ((newIdx + 1) &&& (pNewEntries.length - 1))

/-- The loop of `resizeHash` over the old entries. -/
def rehash : List (HashEntry α) → List (HashEntry α) → Except HashFault (List (HashEntry α))
  | [], pNewEntries => .ok pNewEntries
  | e :: entries, pNewEntries =>
    if e.item?.isNone then rehash entries pNewEntries
    else do
      let newIdx ← probeNew pNewEntries pNewEntries.length (home e.hashValue pNewEntries.length)
      rehash entries (pNewEntries.set newIdx e)

/-- `none` stands for the result `false`. -/
def resizeHash (calloc : Nat → Bool) (t : HashTable α) (newSize : Nat) :
    Except HashFault (Option (HashTable α)) := do
  hashAssert (countTombStones t = t.numDeadEntries)
  if calloc newSize then
    let pNewEntries ← rehash t.pEntries (List.replicate newSize .zero)
    let t := { t with pEntries := pNewEntries, numDeadEntries := 0 }
    hashAssert (countTombStones t = 0)
    pure (some t)
  else pure none

/-- The test of the load behind an addition, and the resize. -/
def growIfFull (calloc : Nat → Bool) (t : HashTable α) : Except HashFault (HashTable α) := do
  let used ← cInt (t.numEntries + t.numDeadEntries)
  let used ← cInt (used * LOAD_DENOM)
  let room ← cInt (t.tableSize * LOAD_NUMER)
  if used > room then
    let newSize ← cInt (t.tableSize * 2)
    match ← resizeHash calloc t newSize.toNat with
    | none => .error .abort
    | some t => pure t
  else pure t

/-! ## Lookup and removal -/

/-- The loop `while (pEntry->data != NULL)`, which `found` breaks. In a table of one slot it breaks
with `pEntry` at the end of the table. A probe that has come around without a break never ends. -/
def probe (t : HashTable α) (found : HashEntry α → Bool) : Nat → Nat → Except HashFault Nat
  | 0, _ => .error .endless
  | fuel + 1, i =>
    match t.pEntries[i]? with
    | none => .error .bounds
    | some e =>
      if e.isNull || found e then .ok i
      else if i + 1 = t.tableSize then
        if t.tableSize = 1 then .ok (i + 1) else probe t found fuel 0
      else probe t found fuel (i + 1)

/-- The item is neither `NULL` nor `HASH_TOMBSTONE`, as two more assertions demand. -/
def mzHashTableLookup (calloc : Nat → Bool) (t : HashTable α) (itemHash : UInt32) (item : α)
    (cmpFunc : α → α → Int) (doAdd : Bool) : Except HashFault (HashData α × HashTable α) := do
  hashAssert (t.tableSize > 0)
  let i ← probe t (fun e => e.item?.any fun data => e.hashValue == itemHash && cmpFunc data item == 0)
    t.tableSize (home itemHash t.tableSize)
  match t.pEntries[i]? with
  | none => .error .bounds
  | some e =>
    if e.isNull then
      if doAdd then
        let numEntries ← cInt (t.numEntries + 1)
        let t ← growIfFull calloc
          { t with pEntries := t.pEntries.set i ⟨itemHash, .item item⟩, numEntries := numEntries }
        hashAssert (t.numEntries < t.tableSize)
        pure (.item item, t)
      else pure (.null, t)
    else pure (e.data, t)

def mzHashTableRemove [DecidableEq α] (t : HashTable α) (itemHash : UInt32) (item : α) :
    Except HashFault (Bool × HashTable α) := do
  hashAssert (t.tableSize > 0)
  let i ← probe t (fun e => e.item? == some item) t.tableSize (home itemHash t.tableSize)
  match t.pEntries[i]? with
  | none => pure (false, t)
  | some e =>
    if e.isNull then pure (false, t)
    else do
      let numEntries ← cInt (t.numEntries - 1)
      let numDeadEntries ← cInt (t.numDeadEntries + 1)
      pure (true, { t with
        pEntries := t.pEntries.set i { e with data := .tombstone }
        numEntries := numEntries
        numDeadEntries := numDeadEntries })

/-! ## The size of a new table -/

/-- `y` has the bits of `x`, each with copies at the `m - 1` places below it. -/
def Smeared (m x y : Nat) : Prop := ∀ i, y.testBit i = true ↔ ∃ d < m, x.testBit (i + d) = true

theorem Smeared.step {m x y : Nat} (h : Smeared m x y) : Smeared (m + m) x (y ||| y >>> m) := by
  intro i
  rw [Nat.testBit_or, Nat.testBit_shiftRight, Bool.or_eq_true, h, h]
  constructor
  · rintro (⟨d, hd, hx⟩ | ⟨d, hd, hx⟩)
    · exact ⟨d, by omega, hx⟩
    · exact ⟨m + d, by omega, by rwa [← Nat.add_assoc, Nat.add_comm i m]⟩
  · rintro ⟨d, hd, hx⟩
    by_cases hlow : d < m
    · exact .inl ⟨d, hlow, hx⟩
    · exact .inr ⟨d - m, by omega, by rwa [show m + i + (d - m) = i + d by omega]⟩

/-- A word smeared over all its places is one below a power of two. -/
theorem Smeared.eq {x y : Nat} (h : Smeared 32 x y) (hx : x < 2 ^ 32) (h0 : x ≠ 0) :
    y = 2 ^ (x.log2 + 1) - 1 := by
  refine Nat.eq_of_testBit_eq fun i => ?_
  rw [Nat.testBit_two_pow_sub_one, Bool.eq_iff_iff, h, decide_eq_true_iff]
  have hlog : x.log2 < 32 := (Nat.log2_lt h0).mpr hx
  constructor
  · rintro ⟨d, -, hd⟩
    have hle := Nat.ge_two_pow_of_testBit hd
    have hlt : x < 2 ^ (x.log2 + 1) := Nat.lt_log2_self
    have := (Nat.pow_lt_pow_iff_right (by decide : 1 < 2)).mp (Nat.lt_of_le_of_lt hle hlt)
    omega
  · intro hi
    refine ⟨x.log2 - i, by omega, ?_⟩
    rw [show i + (x.log2 - i) = x.log2 by omega]
    exact Nat.testBit_log2 h0

theorem roundUpPower2_spec (val : UInt32) (hpos : 0 < val.toNat) (hle : val.toNat ≤ 2 ^ 31) :
    ∃ k, (roundUpPower2 val).toNat = 2 ^ k ∧ val.toNat ≤ 2 ^ k ∧ 2 ^ k ≤ 2 * val.toNat := by
  have hpred : (val - 1).toNat = val.toNat - 1 :=
    UInt32.toNat_sub_of_le val 1 (UInt32.le_iff_toNat_le.mpr hpos)
  generalize hx : val - 1 = x at hpred
  have hsmear : ∀ (y s : UInt32) (m : Nat), s.toNat % 32 = m → Smeared m x.toNat y.toNat →
      Smeared (m + m) x.toNat (y ||| y >>> s).toNat := by
    intro y s m hs h
    rw [UInt32.toNat_or, UInt32.toNat_shiftRight, hs]
    exact h.step
  have h1 : Smeared 1 x.toNat x.toNat := by
    intro i
    constructor
    · exact fun h => ⟨0, by decide, h⟩
    · rintro ⟨d, hd, h⟩
      obtain rfl : d = 0 := by omega
      exact h
  have h32 := hsmear _ 16 16 rfl (hsmear _ 8 8 rfl (hsmear _ 4 4 rfl (hsmear _ 2 2 rfl
    (hsmear x 1 1 rfl h1))))
  unfold roundUpPower2
  simp only [hx]
  generalize x ||| x >>> 1 = y at h32 ⊢
  generalize y ||| y >>> 2 = y at h32 ⊢
  generalize y ||| y >>> 4 = y at h32 ⊢
  generalize y ||| y >>> 8 = y at h32 ⊢
  generalize y ||| y >>> 16 = y at h32 ⊢
  by_cases h0 : x.toNat = 0
  · have hy : y.toNat = 0 := by
      refine Nat.eq_of_testBit_eq fun i => ?_
      rw [Bool.eq_iff_iff, h32, h0]
      simp
    exact ⟨0, by rw [UInt32.toNat_add, hy]; rfl, by omega, by omega⟩
  · have hy := h32.eq x.toNat_lt h0
    have hlog : x.toNat.log2 < 31 := (Nat.log2_lt h0).mpr (by omega)
    have hbound : 2 ^ (x.toNat.log2 + 1) ≤ 2 ^ 31 := Nat.pow_le_pow_right (by decide) (by omega)
    have hpos2 : 0 < 2 ^ (x.toNat.log2 + 1) := Nat.two_pow_pos _
    have hlow : 2 ^ x.toNat.log2 ≤ x.toNat := Nat.log2_self_le h0
    have hhigh : x.toNat < 2 ^ (x.toNat.log2 + 1) := Nat.lt_log2_self
    refine ⟨x.toNat.log2 + 1, ?_, by omega, by rw [Nat.pow_succ]; omega⟩
    rw [UInt32.toNat_add, hy, show (1 : UInt32).toNat = 1 from rfl, Nat.sub_add_cancel hpos2]
    exact Nat.mod_eq_of_lt (by omega)

/-! ## The invariant -/

/-- The hash function and the comparison function that a table is used with. -/
structure HashKey (α : Type) where
  hash : α → UInt32
  cmpFunc : α → α → Int
  equiv : Equivalence fun a b => cmpFunc a b = 0
  compatible : ∀ a b, cmpFunc a b = 0 → hash a = hash b

/-- The live entries are where a probe finds them. -/
structure Placed (K : HashKey α) (l : List (HashEntry α)) : Prop where
  size : ∃ k, l.length = 2 ^ k
  hashed : ∀ e ∈ l, ∀ a, e.item? = some a → e.hashValue = K.hash a
  reach : ∀ i e a, l[i]? = some e → e.item? = some a →
    Probe.Reached l HashEntry.isNull (home (K.hash a) l.length) i
  distinct : (l.filterMap HashEntry.item?).Pairwise fun a b => K.cmpFunc a b ≠ 0

structure HashTable.Inv (K : HashKey α) (t : HashTable α) : Prop where
  placed : Placed K t.pEntries
  entries : t.numEntries = t.items.length
  dead : t.numDeadEntries = countTombStones t
  load : (t.items.length + countTombStones t) * LOAD_DENOM ≤ t.tableSize * LOAD_NUMER

variable {K : HashKey α} {l l' : List (HashEntry α)} {t : HashTable α} {e e' : HashEntry α} {a b : α} {i j : Nat}

theorem HashKey.refl (K : HashKey α) (a : α) : K.cmpFunc a a = 0 := K.equiv.refl a

theorem HashKey.symm (h : K.cmpFunc a b = 0) : K.cmpFunc b a = 0 := K.equiv.symm h

theorem item?_eq_some : e.item? = some a ↔ e.data = .item a := by
  unfold HashEntry.item?
  cases e.data <;> simp

theorem isNull_iff : e.isNull = true ↔ e.data = .null := by
  unfold HashEntry.isNull
  cases e.data <;> simp

theorem isNull_of_item? (h : e.item? = some a) : e.isNull = false := by
  rw [item?_eq_some] at h
  simp [HashEntry.isNull, h]

theorem item?_of_isNull (h : e.isNull = true) : e.item? = none := by
  rw [isNull_iff] at h
  simp [HashEntry.item?, h]

theorem isTombstone_of_item? (h : e.item? = some a) : e.isTombstone = false := by
  rw [item?_eq_some] at h
  simp [HashEntry.isTombstone, h]

theorem isTombstone_of_isNull (h : e.isNull = true) : e.isTombstone = false := by
  rw [isNull_iff] at h
  simp [HashEntry.isTombstone, h]

/-- Every slot is empty, a tombstone or live. -/
theorem slots_length (l : List (HashEntry α)) : l.length =
    l.countP HashEntry.isNull + l.countP HashEntry.isTombstone + (l.filterMap HashEntry.item?).length := by
  induction l with
  | nil => rfl
  | cons e l ih =>
    cases hdata : e.data <;>
      simp [HashEntry.isNull, HashEntry.isTombstone, HashEntry.item?, hdata, ih] <;>
      omega

/-- A table that is not full has an empty slot. -/
theorem exists_null (h : (l.filterMap HashEntry.item?).length + l.countP HashEntry.isTombstone < l.length) :
    ∃ e ∈ l, e.isNull = true := by
  have := slots_length l
  exact List.countP_pos_iff.mp (by omega)

theorem home_lt (hl : 0 < l.length) (hash : UInt32) : home hash l.length < l.length := by
  have := Nat.and_le_right (n := hash.toNat) (m := l.length - 1)
  unfold home
  omega

/-- Two live entries in different slots are not equivalent. -/
theorem Placed.slot_unique (h : Placed K l) (hi : l[i]? = some e) (hj : l[j]? = some e')
    (ha : e.item? = some a) (hb : e'.item? = some b) (hcmp : K.cmpFunc a b = 0) : i = j := by
  have hpair := List.pairwise_filterMap.mp h.distinct
  obtain ⟨hilt, rfl⟩ := List.getElem?_eq_some_iff.mp hi
  obtain ⟨hjlt, rfl⟩ := List.getElem?_eq_some_iff.mp hj
  rw [List.pairwise_iff_getElem] at hpair
  rcases Nat.lt_trichotomy i j with hlt | heq | hgt
  · exact absurd hcmp (hpair i j hilt hjlt hlt a ha b hb)
  · exact heq
  · exact absurd (HashKey.symm hcmp) (hpair j i hjlt hilt hgt b hb a ha)

variable (e') in
/-- A new entry in an empty slot within reach of its home. -/
theorem Placed.fill (h : Placed K l) (hi : l[i]? = some e) (hnull : e.isNull = true)
    (hreach : Probe.Reached l HashEntry.isNull (home (K.hash a) l.length) i)
    (hitem : e'.item? = some a) (hhash : e'.hashValue = K.hash a)
    (hnew : ∀ b ∈ l.filterMap HashEntry.item?, K.cmpFunc a b ≠ 0) :
    Placed K (l.set i e') ∧
      ((l.set i e').filterMap HashEntry.item?).Perm (a :: l.filterMap HashEntry.item?) := by
  have hperm := Probe.filterMap_fill hi (item?_of_isNull hnull) hitem
  refine ⟨⟨by rw [List.length_set]; exact h.size, fun e₁ he₁ b hb => ?_, fun j e₁ b hj hb => ?_, ?_⟩, hperm⟩
  · rcases List.mem_or_eq_of_mem_set he₁ with hmem | rfl
    · exact h.hashed e₁ hmem b hb
    · rw [hitem] at hb
      cases hb
      exact hhash
  · rw [List.length_set]
    rw [List.getElem?_set] at hj
    split at hj
    · rename_i hij
      subst hij
      split at hj
      · cases hj
        rw [hitem] at hb
        cases hb
        exact hreach.set (isNull_of_item? hitem)
      · cases hj
    · exact (h.reach j e₁ b hj hb).set (isNull_of_item? hitem)
  · exact (hperm.pairwise_iff fun hne => fun h0 => hne (HashKey.symm h0)).mpr
      (List.pairwise_cons.mpr ⟨hnew, h.distinct⟩)

/-- A tombstone in the place of a live entry. -/
theorem Placed.drop (h : Placed K l) (hi : l[i]? = some e) (hitem : e.item? = some a) :
    Placed K (l.set i { e with data := .tombstone }) ∧
      (l.filterMap HashEntry.item?).Perm
        (a :: (l.set i { e with data := .tombstone }).filterMap HashEntry.item?) := by
  have hperm := Probe.filterMap_drop hi hitem (x := { e with data := .tombstone }) rfl
  refine ⟨⟨by rw [List.length_set]; exact h.size, fun e₁ he₁ b hb => ?_, fun j e₁ b hj hb => ?_, ?_⟩, hperm⟩
  · rcases List.mem_or_eq_of_mem_set he₁ with hmem | rfl
    · exact h.hashed e₁ hmem b hb
    · cases hb
  · rw [List.length_set]
    rw [List.getElem?_set] at hj
    split at hj
    · split at hj
      · cases hj
        cases hb
      · cases hj
    · exact (h.reach j e₁ b hj hb).set rfl
  · exact (List.pairwise_cons.mp ((hperm.pairwise_iff fun hne => fun h0 => hne (HashKey.symm h0)).mp
      h.distinct)).2

/-! ## Empty tables -/

theorem vacant_items (h : ∀ e ∈ l, e.isNull = true) : l.filterMap HashEntry.item? = [] :=
  List.filterMap_eq_nil_iff.mpr fun e he => item?_of_isNull (h e he)

theorem vacant_dead (h : ∀ e ∈ l, e.isNull = true) : l.countP HashEntry.isTombstone = 0 := by
  rw [List.countP_eq_zero]
  intro e he
  simp [isTombstone_of_isNull (h e he)]

theorem Placed.vacant (K : HashKey α) (h : ∀ e ∈ l, e.isNull = true) (hsize : ∃ k, l.length = 2 ^ k) :
    Placed K l where
  size := hsize
  hashed e he a ha := by
    rw [item?_of_isNull (h e he)] at ha
    cases ha
  reach i e a hi ha := by
    rw [item?_of_isNull (h e (List.mem_of_getElem? hi))] at ha
    cases ha
  distinct := by
    rw [vacant_items h]
    exact List.Pairwise.nil

theorem HashTable.Inv.vacant (K : HashKey α) (h : ∀ e ∈ t.pEntries, e.isNull = true)
    (hsize : ∃ k, t.pEntries.length = 2 ^ k) (hentries : t.numEntries = 0) (hdead : t.numDeadEntries = 0) :
    t.Inv K where
  placed := Placed.vacant K h hsize
  entries := by rw [hentries, HashTable.items, vacant_items h]; rfl
  dead := by rw [hdead, countTombStones, vacant_dead h]; rfl
  load := by
    rw [HashTable.items, countTombStones, vacant_items h, vacant_dead h]
    exact Nat.le_trans (Nat.le_of_eq (Nat.zero_mul _)) (Nat.zero_le _)

theorem replicate_vacant (n : Nat) : ∀ e ∈ List.replicate n (HashEntry.zero : HashEntry α), e.isNull = true := by
  intro e he
  rw [List.eq_of_mem_replicate he]
  rfl

/-! ## Probing -/

theorem and_mask {n : Nat} (h : ∃ k, n = 2 ^ k) (x : Nat) : x &&& (n - 1) = x % n := by
  obtain ⟨k, rfl⟩ := h
  exact Nat.and_two_pow_sub_one_eq_mod x k

theorem probeNew_of_walk (hsize : ∃ k, l.length = 2 ^ k) {fuel : Nat}
    (h : Probe.walk l HashEntry.isNull fuel i = some j) : probeNew l fuel i = .ok j := by
  induction fuel generalizing i with
  | zero => cases h
  | succ fuel ih =>
    rw [Probe.walk] at h
    rw [probeNew]
    cases hi : l[i]? with
    | none => rw [hi] at h; cases h
    | some e =>
      simp only [hi] at h ⊢
      split
      · rename_i hnull
        rw [if_pos hnull] at h
        cases h
        rfl
      · rename_i hnull
        rw [if_neg hnull] at h
        rw [and_mask hsize]
        exact ih h

theorem probe_of_walk {found : HashEntry α → Bool}
    (hone : t.tableSize = 1 → ∀ e ∈ t.pEntries, e.isNull = true) {fuel : Nat}
    (h : Probe.walk t.pEntries (fun e => e.isNull || found e) fuel i = some j) :
    probe t found fuel i = .ok j := by
  induction fuel generalizing i with
  | zero => cases h
  | succ fuel ih =>
    rw [Probe.walk] at h
    rw [probe]
    cases hi : t.pEntries[i]? with
    | none => rw [hi] at h; cases h
    | some e =>
      simp only [hi] at h ⊢
      have hlt : i < t.tableSize := (List.getElem?_eq_some_iff.mp hi).1
      split
      · rename_i hstop
        rw [if_pos hstop] at h
        cases h
        rfl
      · rename_i hstop
        rw [if_neg hstop] at h
        split
        · rename_i hend
          split
          · rename_i h1
            rw [hone h1 e (List.mem_of_getElem? hi)] at hstop
            simp at hstop
          · have hwrap : (i + 1) % t.pEntries.length = 0 := by
              rw [show i + 1 = t.pEntries.length from hend, Nat.mod_self]
            rw [hwrap] at h
            exact ih h
        · rename_i hend
          have hnext : (i + 1) % t.pEntries.length = i + 1 :=
            Nat.mod_eq_of_lt (Nat.lt_of_le_of_ne hlt hend)
          rw [hnext] at h
          exact ih h

theorem HashTable.Inv.pos (h : t.Inv K) : 0 < t.tableSize := by
  obtain ⟨k, hk⟩ := h.placed.size
  unfold HashTable.tableSize
  rw [hk]
  exact Nat.two_pow_pos k

/-- There is an empty slot, so that every probe ends. -/
theorem HashTable.Inv.exists_null (h : t.Inv K) : ∃ e ∈ t.pEntries, e.isNull = true := by
  have hload := h.load
  have hpos := h.pos
  unfold LOAD_DENOM LOAD_NUMER at hload
  exact Miui.exists_null (show t.items.length + countTombStones t < t.tableSize by omega)

theorem HashTable.Inv.single (h : t.Inv K) (h1 : t.tableSize = 1) : ∀ e ∈ t.pEntries, e.isNull = true := by
  have hload := h.load
  have hslots := slots_length t.pEntries
  unfold LOAD_DENOM LOAD_NUMER at hload
  unfold HashTable.items countTombStones at hload
  unfold HashTable.tableSize at hload h1
  exact List.countP_eq_length.mp (by omega)

/-- The probe for a live entry ends there. -/
theorem probe_live (h : t.Inv K) {found : HashEntry α → Bool} (hi : t.pEntries[i]? = some e)
    (hitem : e.item? = some b) (hfound : found e = true)
    (honly : ∀ e' b', e'.item? = some b' → e' ∈ t.pEntries → found e' = true → K.cmpFunc b b' = 0)
    (hlive : ∀ e', found e' = true → e'.item?.isSome) :
    probe t found t.tableSize (home (K.hash b) t.tableSize) = .ok i := by
  refine probe_of_walk h.single (Probe.walk_of_reached (home_lt h.pos _) ?_ hi (by simp [hfound]))
  refine (h.placed.reach i e b hi hitem).of_unique fun j e' hne hj hstop => ?_
  rcases Bool.or_eq_true .. ▸ hstop with hnull | hfound'
  · exact hnull
  · obtain ⟨b', hb'⟩ := Option.isSome_iff_exists.mp (hlive e' hfound')
    exact absurd (h.placed.slot_unique hi hj hitem hb' (honly e' b' hb' (List.mem_of_getElem? hj) hfound'))
      (Ne.symm hne)

/-- The probe for what is not in the table ends at an empty slot. -/
theorem probe_absent (h : t.Inv K) (found : HashEntry α → Bool) (hash : UInt32)
    (hnone : ∀ e ∈ t.pEntries, found e = false) :
    ∃ i e, probe t found t.tableSize (home hash t.tableSize) = .ok i ∧ t.pEntries[i]? = some e ∧
      e.isNull = true ∧ Probe.Reached t.pEntries HashEntry.isNull (home hash t.tableSize) i := by
  obtain ⟨e₀, he₀, hnull₀⟩ := h.exists_null
  obtain ⟨i, e, hreach, hi, hstop⟩ := Probe.exists_reached (fun e => e.isNull || found e)
    (home_lt h.pos hash) ⟨e₀, he₀, by simp [hnull₀]⟩
  refine ⟨i, e, probe_of_walk h.single (Probe.walk_of_reached (home_lt h.pos hash) hreach hi hstop), hi, ?_,
    hreach.mono fun e he => by simp [he]⟩
  rw [hnone e (List.mem_of_getElem? hi), Bool.or_false] at hstop
  exact hstop

/-! ## Resizing -/

theorem rehash_spec (entries : List (HashEntry α)) (h : Placed K l)
    (hhashed : ∀ e ∈ entries, ∀ a, e.item? = some a → e.hashValue = K.hash a)
    (hdistinct : (entries.filterMap HashEntry.item? ++ l.filterMap HashEntry.item?).Pairwise
      fun a b => K.cmpFunc a b ≠ 0)
    (hdead : l.countP HashEntry.isTombstone = 0)
    (hroom : (entries.filterMap HashEntry.item? ++ l.filterMap HashEntry.item?).length < l.length) :
    ∃ l', rehash entries l = .ok l' ∧ Placed K l' ∧ l'.length = l.length ∧
      l'.countP HashEntry.isTombstone = 0 ∧
      (l'.filterMap HashEntry.item?).Perm
        (entries.filterMap HashEntry.item? ++ l.filterMap HashEntry.item?) := by
  induction entries generalizing l with
  | nil => exact ⟨l, rfl, h, rfl, hdead, List.Perm.refl _⟩
  | cons e entries ih =>
    have hhashed' := fun e' (he' : e' ∈ entries) => hhashed e' (List.mem_cons_of_mem _ he')
    cases hitem : e.item? with
    | none =>
      rw [List.filterMap_cons_none hitem] at hdistinct hroom ⊢
      rw [rehash, hitem]
      exact ih h hhashed' hdistinct hdead hroom
    | some a =>
      rw [List.filterMap_cons_some hitem] at hdistinct hroom ⊢
      have hhash := hhashed e List.mem_cons_self a hitem
      have hlen : 0 < l.length := by omega
      obtain ⟨i, e₀, hreach, hi, hnull⟩ := Probe.exists_reached HashEntry.isNull (home_lt hlen (K.hash a))
        (exists_null (l := l) (by rw [hdead]; simp at hroom; omega))
      have hprobe : probeNew l l.length (home e.hashValue l.length) = .ok i := by
        rw [hhash]
        exact probeNew_of_walk h.size (Probe.walk_of_reached (home_lt hlen _) hreach hi hnull)
      have hnew := List.pairwise_cons.mp hdistinct
      obtain ⟨hplaced, hperm⟩ := h.fill _ hi hnull hreach hitem hhash fun b hb =>
        hnew.1 b (List.mem_append_right _ hb)
      have hdead' : (l.set i e).countP HashEntry.isTombstone = 0 := by
        rw [List.countP_eq_zero] at hdead ⊢
        intro e' he'
        rcases List.mem_or_eq_of_mem_set he' with hmem | rfl
        · exact hdead e' hmem
        · simp [isTombstone_of_item? hitem]
      have hmove : (entries.filterMap HashEntry.item? ++ (l.set i e).filterMap HashEntry.item?).Perm
          (a :: (entries.filterMap HashEntry.item? ++ l.filterMap HashEntry.item?)) :=
        (hperm.append_left _).trans List.perm_middle
      obtain ⟨l', hrun, hplaced', hlen', hdead'', hperm'⟩ := ih hplaced hhashed'
        ((hmove.pairwise_iff fun hne => fun h0 => hne (HashKey.symm h0)).mpr hdistinct) hdead'
        (by rw [hmove.length_eq, List.length_set]; exact hroom)
      refine ⟨l', ?_, hplaced', by rw [hlen', List.length_set], hdead'', hperm'.trans hmove⟩
      simp only [rehash, hitem, Option.isNone_some, Bool.false_eq_true, if_false, hprobe]
      exact hrun

/-- What a resize keeps. -/
theorem resizeHash_spec (calloc : Nat → Bool) (newSize : Nat) (h : Placed K t.pEntries)
    (hdead : t.numDeadEntries = countTombStones t) (hpow : ∃ k, newSize = 2 ^ k)
    (hroom : t.items.length < newSize) (hcalloc : calloc newSize = true) :
    ∃ t', resizeHash calloc t newSize = .ok (some t') ∧ Placed K t'.pEntries ∧ t'.tableSize = newSize ∧
      countTombStones t' = 0 ∧ t'.numDeadEntries = 0 ∧ t'.numEntries = t.numEntries ∧
      t'.freeFunc = t.freeFunc ∧ t'.items.Perm t.items := by
  obtain ⟨k, rfl⟩ := hpow
  have hnone := @vacant_items α _ (replicate_vacant (2 ^ k))
  have hclean := @vacant_dead α _ (replicate_vacant (2 ^ k))
  obtain ⟨l', hrun, hplaced, hlen, hdead', hperm⟩ := rehash_spec t.pEntries
    (Placed.vacant K (replicate_vacant _) ⟨k, List.length_replicate⟩) h.hashed (by rw [hnone, List.append_nil]; exact h.distinct) hclean
    (by rw [hnone, List.append_nil, List.length_replicate]; exact hroom)
  rw [hnone, List.append_nil] at hperm
  rw [List.length_replicate] at hlen
  refine ⟨{ t with pEntries := l', numDeadEntries := 0 }, ?_, hplaced, hlen, hdead', rfl, rfl, rfl, hperm⟩
  have hassert : hashAssert ((countTombStones t : Int) = t.numDeadEntries) = .ok () := if_pos hdead.symm
  have hassert' : hashAssert (countTombStones { t with pEntries := l', numDeadEntries := 0 } = 0) = .ok () :=
    if_pos hdead'
  simp only [resizeHash, hassert, hcalloc, hrun, if_true, bind, Except.bind, hassert']
  rfl

theorem cInt_ok {x : Int} (hlow : -2 ^ 31 ≤ x) (hhigh : x < 2 ^ 31) : cInt x = .ok x := if_pos ⟨hlow, hhigh⟩

/-- A table below its load is left alone. -/
theorem growIfFull_room (calloc : Nat → Bool) (hsize : t.tableSize < 2 ^ 28) (hentries : 0 ≤ t.numEntries)
    (hdead : 0 ≤ t.numDeadEntries)
    (hroom : (t.numEntries + t.numDeadEntries) * (LOAD_DENOM : Nat) ≤ t.tableSize * (LOAD_NUMER : Nat)) :
    growIfFull calloc t = .ok t := by
  unfold LOAD_DENOM LOAD_NUMER at hroom
  have hused : cInt (t.numEntries + t.numDeadEntries) = .ok (t.numEntries + t.numDeadEntries) :=
    cInt_ok (by omega) (by omega)
  have hused8 : cInt ((t.numEntries + t.numDeadEntries) * (LOAD_DENOM : Nat)) =
      .ok ((t.numEntries + t.numDeadEntries) * (LOAD_DENOM : Nat)) := by
    unfold LOAD_DENOM
    exact cInt_ok (by omega) (by omega)
  have hroom5 : cInt ((t.tableSize : Int) * (LOAD_NUMER : Nat)) = .ok ((t.tableSize : Int) * (LOAD_NUMER : Nat)) := by
    unfold LOAD_NUMER
    exact cInt_ok (by omega) (by omega)
  simp only [growIfFull, hused, hused8, hroom5, Except.ok_bind]
  rw [if_neg (by unfold LOAD_DENOM LOAD_NUMER; omega)]
  rfl

/-- A table to which one entry was added is brought back below its load, unless memory is short. -/
theorem growIfFull_spec (calloc : Nat → Bool) (h : Placed K t.pEntries)
    (hentries : t.numEntries = t.items.length) (hdead : t.numDeadEntries = countTombStones t)
    (hload : (t.items.length + countTombStones t) * LOAD_DENOM ≤ t.tableSize * LOAD_NUMER + LOAD_DENOM)
    (hsize : t.tableSize < 2 ^ 28) :
    growIfFull calloc t = .error .abort ∧ calloc (t.tableSize * 2) = false ∨
      ∃ t', growIfFull calloc t = .ok t' ∧ t'.Inv K ∧ t'.freeFunc = t.freeFunc ∧ t'.items.Perm t.items := by
  have hpos : 0 < t.tableSize := by
    obtain ⟨k, hk⟩ := h.size
    unfold HashTable.tableSize
    rw [hk]
    exact Nat.two_pow_pos k
  unfold LOAD_DENOM LOAD_NUMER at hload
  have hused : cInt (t.numEntries + t.numDeadEntries) = .ok (t.numEntries + t.numDeadEntries) :=
    cInt_ok (by omega) (by omega)
  have hused8 : cInt ((t.numEntries + t.numDeadEntries) * (LOAD_DENOM : Nat)) =
      .ok ((t.numEntries + t.numDeadEntries) * (LOAD_DENOM : Nat)) := by
    unfold LOAD_DENOM
    exact cInt_ok (by omega) (by omega)
  have hroom5 : cInt ((t.tableSize : Int) * (LOAD_NUMER : Nat)) = .ok ((t.tableSize : Int) * (LOAD_NUMER : Nat)) := by
    unfold LOAD_NUMER
    exact cInt_ok (by omega) (by omega)
  have hdouble : cInt ((t.tableSize : Int) * 2) = .ok ((t.tableSize : Int) * 2) := cInt_ok (by omega) (by omega)
  simp only [growIfFull, hused, hused8, hroom5, hdouble, Except.ok_bind]
  have htoNat : ((t.tableSize : Int) * 2).toNat = t.tableSize * 2 := by omega
  unfold LOAD_DENOM LOAD_NUMER
  split
  · rw [htoNat]
    by_cases hcalloc : calloc (t.tableSize * 2) = true
    · obtain ⟨t', hrun, hplaced, hlen, hclean, hdead', hentries', hfree, hperm⟩ :=
        resizeHash_spec calloc (t.tableSize * 2) h hdead
          (by obtain ⟨k, hk⟩ := h.size; exact ⟨k + 1, by rw [Nat.pow_succ, ← hk]; rfl⟩) (by omega) hcalloc
      right
      rw [hrun]
      refine ⟨t', rfl, ⟨hplaced, ?_, ?_, ?_⟩, hfree, hperm⟩
      · rw [hentries', hentries, hperm.length_eq]
      · rw [hdead', hclean]
        rfl
      · rw [hperm.length_eq, hclean, hlen]
        unfold LOAD_DENOM LOAD_NUMER
        -- In a table of one slot the item added may be the only one.
        rcases Nat.lt_or_ge 1 t.tableSize with hmany | hone
        · omega
        · omega
    · left
      have hfail : resizeHash calloc t (t.tableSize * 2) = .ok none := by
        have hassert : hashAssert ((countTombStones t : Int) = t.numDeadEntries) = .ok () := if_pos hdead.symm
        simp only [resizeHash, hassert, bind, Except.bind, if_neg hcalloc]
        rfl
      rw [hfail]
      exact ⟨rfl, by simpa using hcalloc⟩
  · rename_i hnot
    exact .inr ⟨t, rfl, ⟨h, hentries, hdead, by unfold LOAD_DENOM LOAD_NUMER; omega⟩, rfl, List.Perm.refl _⟩

end Miui
