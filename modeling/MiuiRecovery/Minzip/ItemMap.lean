import MiuiRecovery.Minzip.Hash
import Mathlib.Data.List.Infix

/-!
# The hash table as a finite map

What the operations of `minzip/Hash.c` do to a table that keeps its invariant, and any sequence of them
as operations of a map from classes of equivalent items to items.

* `mzHashTableLookup_found`, `mzHashTableLookup_absent`, `mzHashTableRemove_present`,
  `mzHashTableRemove_absent`, `mzHashTableClear_spec`, `mzHashTableCreate_spec`: one operation.
* `HashTable.apply_spec`: one operation of the table is one of the map.
* `mzHashTable_finite_map`: so is any sequence.
-/

namespace Miui

variable {α : Type} {K : HashKey α} {t : HashTable α} {e : HashEntry α} {a b : α}

/-! ## One operation -/

theorem mem_items : a ∈ t.items ↔ ∃ (i : Nat) (e : HashEntry α), t.pEntries[i]? = some e ∧ e.item? = some a := by
  unfold HashTable.items
  rw [List.mem_filterMap]
  constructor
  · rintro ⟨e, he, hitem⟩
    obtain ⟨i, hi⟩ := List.mem_iff_getElem?.mp he
    exact ⟨i, e, hi, hitem⟩
  · rintro ⟨i, e, hi, hitem⟩
    exact ⟨e, List.mem_of_getElem? hi, hitem⟩

/-- The test of the probe of `mzHashTableLookup`. -/
theorem lookup_found (h : t.Inv K) (he : e ∈ t.pEntries) (hitem : e.item? = some b) :
    (e.item?.any fun data => e.hashValue == K.hash a && K.cmpFunc data a == 0) = true ↔
      K.cmpFunc b a = 0 := by
  rw [hitem, h.placed.hashed e he b hitem]
  constructor
  · intro hfound
    simp only [Option.any_some, Bool.and_eq_true, beq_iff_eq] at hfound
    exact hfound.2
  · intro hcmp
    simp [hcmp, K.compatible b a hcmp]

/-- An item equivalent to one in the table is found. -/
theorem mzHashTableLookup_found {calloc : Nat → Bool} (h : t.Inv K) (hb : b ∈ t.items)
    (hcmp : K.cmpFunc b a = 0) (doAdd : Bool) :
    mzHashTableLookup calloc t (K.hash a) a K.cmpFunc doAdd = .ok (.item b, t) := by
  obtain ⟨i, e, hi, hitem⟩ := mem_items.mp hb
  have hprobe : probe t (fun e => e.item?.any fun data => e.hashValue == K.hash a && K.cmpFunc data a == 0)
      t.tableSize (home (K.hash a) t.tableSize) = .ok i := by
    rw [← K.compatible b a hcmp]
    refine probe_live h hi hitem ?_ (fun e' b' hitem' he' hfound => ?_) fun e' hfound => ?_
    · rw [K.compatible b a hcmp]
      exact (lookup_found h (List.mem_of_getElem? hi) hitem).mpr hcmp
    · rw [K.compatible b a hcmp] at hfound
      exact K.equiv.trans hcmp (HashKey.symm ((lookup_found h he' hitem').mp hfound))
    · cases hitem' : e'.item? with
      | none => rw [hitem'] at hfound; cases hfound
      | some b' => rfl
  have hassert : hashAssert (t.tableSize > 0) = .ok () := if_pos h.pos
  have hdata : e.data = .item b := item?_eq_some.mp hitem
  simp only [mzHashTableLookup, hassert, hprobe, bind, Except.bind, hi, isNull_of_item? hitem,
    Bool.false_eq_true, if_false, hdata]
  rfl

/-- An item without an equivalent one is not found, and it is added on demand. -/
theorem mzHashTableLookup_absent (calloc : Nat → Bool) (h : t.Inv K)
    (hnone : ∀ b ∈ t.items, K.cmpFunc b a ≠ 0) (hsize : t.tableSize < 2 ^ 28) :
    mzHashTableLookup calloc t (K.hash a) a K.cmpFunc false = .ok (.null, t) ∧
    (mzHashTableLookup calloc t (K.hash a) a K.cmpFunc true = .error .abort ∧
        calloc (t.tableSize * 2) = false ∨
      ∃ t', mzHashTableLookup calloc t (K.hash a) a K.cmpFunc true = .ok (.item a, t') ∧ t'.Inv K ∧
        t'.freeFunc = t.freeFunc ∧ t'.items.Perm (a :: t.items)) := by
  obtain ⟨i, e, hprobe, hi, hnull, hreach⟩ := probe_absent h
    (fun e => e.item?.any fun data => e.hashValue == K.hash a && K.cmpFunc data a == 0) (K.hash a)
    fun e he => by
      cases hitem : e.item? with
      | none => rfl
      | some b =>
        have hmem : b ∈ t.items := List.mem_filterMap.mpr ⟨e, he, hitem⟩
        by_contra hfound
        rw [← hitem] at hfound
        exact hnone b hmem ((lookup_found h he hitem).mp (by simpa using hfound))
  have hassert : hashAssert (t.tableSize > 0) = .ok () := if_pos h.pos
  have hload := h.load
  have hentries := h.entries
  have hdead := h.dead
  unfold LOAD_DENOM LOAD_NUMER at hload
  have hplus : cInt (t.numEntries + 1) = .ok (t.numEntries + 1) := cInt_ok (by omega) (by omega)
  constructor
  · simp only [mzHashTableLookup, hassert, hprobe, bind, Except.bind, hi, hnull, if_true, Bool.false_eq_true,
      if_false]
    rfl
  · simp only [mzHashTableLookup, hassert, hprobe, bind, Except.bind, hi, hnull, if_true, hplus]
    obtain ⟨hplaced, hperm⟩ := h.placed.fill ⟨K.hash a, .item a⟩ hi hnull hreach rfl rfl
      fun b hb hcmp => hnone b hb (HashKey.symm hcmp)
    have htomb : (t.pEntries.set i ⟨K.hash a, .item a⟩).countP HashEntry.isTombstone =
        t.pEntries.countP HashEntry.isTombstone := by
      obtain ⟨rest, hl, hset⟩ := Probe.perm_set hi
      rw [(hset _).countP_eq, hl.countP_eq, List.countP_cons, List.countP_cons, isTombstone_of_isNull hnull]
      rfl
    have hgrow := growIfFull_spec (K := K) calloc
      (t := { t with pEntries := t.pEntries.set i ⟨K.hash a, .item a⟩, numEntries := t.numEntries + 1 })
      hplaced (by
        show t.numEntries + 1 = _
        rw [HashTable.items, hperm.length_eq, hentries]
        rfl) (by
        show t.numDeadEntries = _
        rw [countTombStones, htomb, hdead]
        rfl) (by
        rw [HashTable.items, hperm.length_eq, countTombStones, htomb, List.length_cons]
        unfold HashTable.tableSize LOAD_DENOM LOAD_NUMER
        rw [List.length_set]
        unfold HashTable.items countTombStones HashTable.tableSize at hload
        omega) (by
        unfold HashTable.tableSize
        rw [List.length_set]
        exact hsize)
    have hlen : HashTable.tableSize { t with
        pEntries := t.pEntries.set i ⟨K.hash a, .item a⟩, numEntries := t.numEntries + 1 } = t.tableSize :=
      List.length_set
    rw [hlen] at hgrow
    rcases hgrow with ⟨habort, hcalloc⟩ | ⟨t', hrun, hinv, hfree, hperm'⟩
    · rw [habort]
      exact .inl ⟨rfl, hcalloc⟩
    · right
      refine ⟨t', ?_, hinv, hfree, hperm'.trans hperm⟩
      have hload' := hinv.load
      have hpos' := hinv.pos
      unfold LOAD_DENOM LOAD_NUMER at hload'
      have hfull : hashAssert (t'.numEntries < t'.tableSize) = .ok () :=
        if_pos (by rw [hinv.entries]; omega)
      rw [hrun]
      simp only [hfull]
      rfl

/-- A table below its load takes one more item without a resize. -/
theorem mzHashTableLookup_room (calloc : Nat → Bool) (h : t.Inv K) (hnone : ∀ b ∈ t.items, K.cmpFunc b a ≠ 0)
    (hsize : t.tableSize < 2 ^ 28)
    (hroom : (t.items.length + 1 + countTombStones t) * LOAD_DENOM ≤ t.tableSize * LOAD_NUMER) :
    ∃ t', mzHashTableLookup calloc t (K.hash a) a K.cmpFunc true = .ok (.item a, t') ∧ t'.Inv K ∧
      t'.items.Perm (a :: t.items) ∧ t'.tableSize = t.tableSize ∧ t'.numDeadEntries = t.numDeadEntries := by
  have hentries := h.entries
  have hdead := h.dead
  have hgrow (calloc : Nat → Bool) (i : Nat) :
      growIfFull calloc { t with
        pEntries := t.pEntries.set i ⟨K.hash a, .item a⟩, numEntries := t.numEntries + 1 } =
      .ok { t with pEntries := t.pEntries.set i ⟨K.hash a, .item a⟩, numEntries := t.numEntries + 1 } := by
    unfold LOAD_DENOM LOAD_NUMER at hroom
    have hlen : HashTable.tableSize { t with
        pEntries := t.pEntries.set i ⟨K.hash a, .item a⟩, numEntries := t.numEntries + 1 } = t.tableSize :=
      List.length_set
    refine growIfFull_room calloc (by rw [hlen]; exact hsize) ?_ ?_ ?_
    · show 0 ≤ t.numEntries + 1
      omega
    · show 0 ≤ t.numDeadEntries
      omega
    · rw [hlen]
      show (t.numEntries + 1 + t.numDeadEntries) * (LOAD_DENOM : Nat) ≤ t.tableSize * (LOAD_NUMER : Nat)
      unfold LOAD_DENOM LOAD_NUMER
      omega
  -- The run without a lack of memory, which `mzHashTableLookup_absent` describes, is the same one.
  obtain ⟨t', hrun, hinv, -, hperm⟩ : ∃ t', mzHashTableLookup (fun _ => true) t (K.hash a) a K.cmpFunc true =
      .ok (.item a, t') ∧ t'.Inv K ∧ t'.freeFunc = t.freeFunc ∧ t'.items.Perm (a :: t.items) :=
    (mzHashTableLookup_absent (fun _ => true) h hnone hsize).2.resolve_left fun h => nomatch h.2
  have hsame : mzHashTableLookup calloc t (K.hash a) a K.cmpFunc true =
      mzHashTableLookup (fun _ => true) t (K.hash a) a K.cmpFunc true := by
    have hplus : cInt (t.numEntries + 1) = .ok (t.numEntries + 1) := by
      unfold LOAD_DENOM LOAD_NUMER at hroom
      exact cInt_ok (by omega) (by omega)
    simp only [mzHashTableLookup, hplus, Except.ok_bind, hgrow]
  refine ⟨t', hsame.trans hrun, hinv, hperm, ?_⟩
  have hplus : cInt (t.numEntries + 1) = .ok (t.numEntries + 1) := by
    unfold LOAD_DENOM LOAD_NUMER at hroom
    exact cInt_ok (by omega) (by omega)
  simp only [mzHashTableLookup, hplus, Except.ok_bind, hgrow] at hrun
  obtain ⟨-, -, hrun⟩ := Except.bind_eq_ok.mp hrun
  obtain ⟨i, -, hrun⟩ := Except.bind_eq_ok.mp hrun
  cases hi : t.pEntries[i]? with
  | none =>
    rw [hi] at hrun
    cases hrun
  | some e =>
    rw [hi] at hrun
    by_cases hnull : e.isNull = true
    · simp only [hnull, if_true] at hrun
      obtain ⟨-, -, hrun⟩ := Except.bind_eq_ok.mp hrun
      cases hrun
      exact ⟨List.length_set, rfl⟩
    · simp only [hnull] at hrun
      obtain ⟨-, rfl⟩ := Prod.mk.inj (Except.ok.inj hrun)
      exact ⟨rfl, rfl⟩

/-- An item of the table is replaced by a tombstone. -/
theorem mzHashTableRemove_present [DecidableEq α] (h : t.Inv K) (ha : a ∈ t.items)
    (hsize : t.tableSize < 2 ^ 28) :
    ∃ t', mzHashTableRemove t (K.hash a) a = .ok (true, t') ∧ t'.Inv K ∧ t'.freeFunc = t.freeFunc ∧
      t.items.Perm (a :: t'.items) := by
  obtain ⟨i, e, hi, hitem⟩ := mem_items.mp ha
  have hprobe : probe t (fun e => e.item? == some a) t.tableSize (home (K.hash a) t.tableSize) = .ok i := by
    refine probe_live h hi hitem (by simp [hitem]) (fun e' b' hitem' _ hfound => ?_) fun e' hfound => ?_
    · rw [hitem', beq_iff_eq] at hfound
      cases hfound
      exact K.refl _
    · rw [beq_iff_eq] at hfound
      rw [hfound]
      rfl
  have hassert : hashAssert (t.tableSize > 0) = .ok () := if_pos h.pos
  have hload := h.load
  have hentries := h.entries
  have hdead := h.dead
  unfold LOAD_DENOM LOAD_NUMER at hload
  have hminus : cInt (t.numEntries - 1) = .ok (t.numEntries - 1) := cInt_ok (by omega) (by omega)
  have hplus : cInt (t.numDeadEntries + 1) = .ok (t.numDeadEntries + 1) := cInt_ok (by omega) (by omega)
  obtain ⟨hplaced, hperm⟩ := h.placed.drop hi hitem
  have htomb : (t.pEntries.set i { e with data := .tombstone }).countP HashEntry.isTombstone =
      t.pEntries.countP HashEntry.isTombstone + 1 := by
    obtain ⟨rest, hl, hset⟩ := Probe.perm_set hi
    rw [(hset _).countP_eq, hl.countP_eq, List.countP_cons, List.countP_cons, isTombstone_of_item? hitem]
    rfl
  have hlen := hperm.length_eq
  rw [List.length_cons] at hlen
  refine ⟨{ t with
    pEntries := t.pEntries.set i { e with data := .tombstone }
    numEntries := t.numEntries - 1
    numDeadEntries := t.numDeadEntries + 1 }, ?_, ⟨hplaced, ?_, ?_, ?_⟩, rfl, hperm⟩
  · simp only [mzHashTableRemove, hassert, hprobe, Except.ok_bind, hi, isNull_of_item? hitem,
      Bool.false_eq_true, if_false, hminus, hplus]
    rfl
  · show t.numEntries - 1 = ((t.pEntries.set i { e with data := .tombstone }).filterMap HashEntry.item?).length
    unfold HashTable.items at hentries
    omega
  · show t.numDeadEntries + 1 = ((t.pEntries.set i { e with data := .tombstone }).countP HashEntry.isTombstone : Nat)
    unfold countTombStones at hdead
    omega
  · show (((t.pEntries.set i { e with data := .tombstone }).filterMap HashEntry.item?).length +
      (t.pEntries.set i { e with data := .tombstone }).countP HashEntry.isTombstone) * 8 ≤
      (t.pEntries.set i { e with data := .tombstone }).length * 5
    unfold HashTable.items countTombStones HashTable.tableSize at hload
    rw [htomb, List.length_set]
    omega

theorem mzHashTableRemove_absent [DecidableEq α] (h : t.Inv K) (ha : a ∉ t.items) :
    mzHashTableRemove t (K.hash a) a = .ok (false, t) := by
  obtain ⟨i, e, hprobe, hi, hnull, -⟩ := probe_absent h (fun e => e.item? == some a) (K.hash a)
    fun e he => by
      rw [beq_eq_false_iff_ne]
      intro hitem
      exact ha (List.mem_filterMap.mpr ⟨e, he, hitem⟩)
  have hassert : hashAssert (t.tableSize > 0) = .ok () := if_pos h.pos
  simp only [mzHashTableRemove, hassert, hprobe, Except.ok_bind, hi, hnull, if_true]
  rfl

theorem mzHashTableClear_spec (h : t.Inv K) :
    (mzHashTableClear t).2.Inv K ∧ (mzHashTableClear t).2.items = [] ∧
      (mzHashTableClear t).2.freeFunc = t.freeFunc := by
  have hvacant : ∀ e ∈ (mzHashTableClear t).2.pEntries, e.isNull = true := by
    intro e he
    obtain ⟨e₀, -, rfl⟩ := List.mem_map.mp he
    rfl
  have hsize : ∃ k, (mzHashTableClear t).2.pEntries.length = 2 ^ k := by
    obtain ⟨k, hk⟩ := h.placed.size
    exact ⟨k, (List.length_map _).trans hk⟩
  exact ⟨.vacant K hvacant hsize rfl rfl, vacant_items hvacant, rfl⟩

theorem mzHashTableCreate_spec (K : HashKey α) (calloc : Nat → Bool) {initialSize : Nat} (freeFunc : Bool)
    (hpos : 0 < initialSize) (hsize : initialSize < 2 ^ 28) :
    (mzHashTableCreate calloc initialSize freeFunc = .ok (none : Option (HashTable α)) ∧
        ∃ n, calloc n = false) ∨
      ∃ t : HashTable α, mzHashTableCreate calloc initialSize freeFunc = .ok (some t) ∧ t.Inv K ∧
        t.items = [] ∧ t.freeFunc = freeFunc ∧ initialSize ≤ t.tableSize ∧ t.tableSize ≤ 2 * initialSize ∧
        t.numDeadEntries = 0 := by
  have hval : (UInt32.ofNat initialSize).toNat = initialSize := by
    rw [UInt32.toNat_ofNat']
    exact Nat.mod_eq_of_lt (by omega)
  obtain ⟨k, hk, hle, hlt⟩ := roundUpPower2_spec (UInt32.ofNat initialSize) (by omega) (by omega)
  have hassert : hashAssert (initialSize > 0) = .ok () := if_pos hpos
  simp only [mzHashTableCreate, hassert, Except.ok_bind, hk]
  by_cases hcalloc : calloc (2 ^ k) = true
  · right
    rw [if_pos hcalloc]
    refine ⟨_, rfl, .vacant K (replicate_vacant _) ⟨k, List.length_replicate⟩ rfl rfl,
      vacant_items (replicate_vacant _), rfl, ?_⟩
    unfold HashTable.tableSize
    rw [List.length_replicate]
    exact ⟨by omega, by omega, rfl⟩
  · left
    rw [if_neg hcalloc]
    exact ⟨rfl, 2 ^ k, by simpa using hcalloc⟩

/-! ## The finite map -/

inductive HashOp (α : Type)
  | lookup (item : α) (doAdd : Bool)
  | remove (item : α)
  | clear
deriving DecidableEq

inductive HashResult (α : Type)
  | data (d : HashData α)
  | removed (b : Bool)
  | freed (items : List α)
deriving DecidableEq

/-- One operation, with the hash that belongs to its item. -/
def HashTable.apply [DecidableEq α] (K : HashKey α) (calloc : Nat → Bool) (t : HashTable α) :
    HashOp α → Except HashFault (HashResult α × HashTable α)
  | .lookup item doAdd =>
    (mzHashTableLookup calloc t (K.hash item) item K.cmpFunc doAdd).map fun r => (.data r.1, r.2)
  | .remove item => (mzHashTableRemove t (K.hash item) item).map fun r => (.removed r.1, r.2)
  | .clear => .ok (.freed (mzHashTableClear t).1, (mzHashTableClear t).2)

/-- The results of a sequence of operations, and the table behind it. -/
def HashTable.run [DecidableEq α] (K : HashKey α) (calloc : Nat → Bool) :
    HashTable α → List (HashOp α) → Except HashFault (List (HashResult α) × HashTable α)
  | t, [] => .ok ([], t)
  | t, op :: ops => do
    let (r, t) ← t.apply K calloc op
    let (rs, t) ← t.run K calloc ops
    pure (r :: rs, t)

def HashKey.setoid (K : HashKey α) : Setoid α := ⟨fun a b => K.cmpFunc a b = 0, K.equiv⟩

/-- A map from the classes of equivalent items to the item of the class that it holds. -/
abbrev ItemMap (K : HashKey α) := Quotient K.setoid → Option α

def HashKey.key (K : HashKey α) (a : α) : Quotient K.setoid := Quotient.mk K.setoid a

open Classical in
noncomputable def ItemMap.set (M : ItemMap K) (k : Quotient K.setoid) (v : Option α) : ItemMap K :=
  fun k' => if k' = k then v else M k'

/-- The operations of a map. -/
inductive ItemMap.Step (K : HashKey α) (freeFunc : Bool) : ItemMap K → HashOp α → HashResult α → ItemMap K → Prop
  | found {M : ItemMap K} {a b : α} {doAdd : Bool} (h : M (K.key a) = some b) :
    Step K freeFunc M (.lookup a doAdd) (.data (.item b)) M
  | absent {M : ItemMap K} {a : α} (h : M (K.key a) = none) :
    Step K freeFunc M (.lookup a false) (.data .null) M
  | added {M : ItemMap K} {a : α} (h : M (K.key a) = none) :
    Step K freeFunc M (.lookup a true) (.data (.item a)) (M.set (K.key a) (some a))
  | removed {M : ItemMap K} {a : α} (h : M (K.key a) = some a) :
    Step K freeFunc M (.remove a) (.removed true) (M.set (K.key a) none)
  | kept {M : ItemMap K} {a : α} (h : M (K.key a) ≠ some a) :
    Step K freeFunc M (.remove a) (.removed false) M
  | cleared {M : ItemMap K} {items : List α} (hnodup : items.Nodup)
      (h : ∀ a, a ∈ items ↔ freeFunc = true ∧ M (K.key a) = some a) :
    Step K freeFunc M .clear (.freed items) fun _ => none

inductive ItemMap.Run (K : HashKey α) (freeFunc : Bool) :
    ItemMap K → List (HashOp α) → List (HashResult α) → ItemMap K → Prop
  | nil {M : ItemMap K} : Run K freeFunc M [] [] M
  | cons {M M' M'' : ItemMap K} {op : HashOp α} {r : HashResult α} {ops : List (HashOp α)}
      {rs : List (HashResult α)} (h : Step K freeFunc M op r M') (t : Run K freeFunc M' ops rs M'') :
    Run K freeFunc M (op :: ops) (r :: rs) M''

/-- The table holds what the map holds. -/
def HashTable.Represents (t : HashTable α) (M : ItemMap K) : Prop :=
  ∀ a b, M (K.key a) = some b ↔ b ∈ t.items ∧ K.cmpFunc b a = 0

variable {M : ItemMap K}

theorem key_eq : K.key a = K.key b ↔ K.cmpFunc a b = 0 :=
  ⟨fun h => Quotient.exact (s := K.setoid) h, fun h => Quotient.sound (s := K.setoid) h⟩

theorem HashTable.Represents.absent (h : t.Represents M) (hnone : M (K.key a) = none) :
    ∀ b ∈ t.items, K.cmpFunc b a ≠ 0 := by
  intro b hb hcmp
  have := (h a b).mpr ⟨hb, hcmp⟩
  rw [hnone] at this
  cases this

theorem HashTable.Represents.self (h : t.Represents M) : M (K.key a) = some a ↔ a ∈ t.items :=
  (h a a).trans ⟨fun hmem => hmem.1, fun hmem => ⟨hmem, K.refl a⟩⟩

theorem HashTable.Represents.add {t' : HashTable α} (h : t.Represents M) (hnone : M (K.key a) = none)
    (hperm : t'.items.Perm (a :: t.items)) : t'.Represents (M.set (K.key a) (some a)) := by
  intro c b
  rw [hperm.mem_iff, List.mem_cons]
  unfold ItemMap.set
  split
  · rename_i hkey
    rw [key_eq] at hkey
    constructor
    · intro hb
      cases hb
      exact ⟨.inl rfl, HashKey.symm hkey⟩
    · rintro ⟨rfl | hb, hcmp⟩
      · rfl
      · exact absurd (K.equiv.trans hcmp hkey) (h.absent hnone b hb)
  · rename_i hkey
    rw [h c b]
    constructor
    · exact fun hb => ⟨.inr hb.1, hb.2⟩
    · rintro ⟨rfl | hb, hcmp⟩
      · exact absurd (key_eq.mpr (HashKey.symm hcmp)) hkey
      · exact ⟨hb, hcmp⟩

theorem HashTable.Represents.remove {t' : HashTable α} (hinv : t.Inv K) (h : t.Represents M)
    (hperm : t.items.Perm (a :: t'.items)) : t'.Represents (M.set (K.key a) none) := by
  have hpair := List.pairwise_cons.mp ((hperm.pairwise_iff fun hne => fun h0 => hne (HashKey.symm h0)).mp
    hinv.placed.distinct)
  intro c b
  unfold ItemMap.set
  split
  · rename_i hkey
    rw [key_eq] at hkey
    constructor
    · exact fun hb => by cases hb
    · rintro ⟨hb, hcmp⟩
      exact absurd (HashKey.symm (K.equiv.trans hcmp hkey)) (hpair.1 b hb)
  · rename_i hkey
    rw [h c b, hperm.mem_iff, List.mem_cons]
    constructor
    · rintro ⟨rfl | hb, hcmp⟩
      · exact absurd (key_eq.mpr (HashKey.symm hcmp)) hkey
      · exact ⟨hb, hcmp⟩
    · exact fun hb => ⟨.inr hb.1, hb.2⟩

theorem HashTable.Inv.nodup (h : t.Inv K) : t.items.Nodup :=
  h.placed.distinct.imp fun {a b} hne (heq : a = b) => hne (heq ▸ K.refl a)

/-- One operation does to the table what it does to the map, or memory is short. -/
theorem HashTable.apply_spec [DecidableEq α] (calloc : Nat → Bool) (h : t.Inv K) (hrep : t.Represents M)
    (hsize : t.tableSize < 2 ^ 28) (op : HashOp α) :
    (t.apply K calloc op = .error .abort ∧ ∃ n, calloc n = false) ∨
      ∃ r t' M', t.apply K calloc op = .ok (r, t') ∧ ItemMap.Step K t.freeFunc M op r M' ∧ t'.Inv K ∧
        t'.Represents M' ∧ t'.freeFunc = t.freeFunc := by
  cases op with
  | lookup a doAdd =>
    cases hfind : M (K.key a) with
    | some b =>
      obtain ⟨hb, hcmp⟩ := (hrep a b).mp hfind
      right
      refine ⟨_, t, M, ?_, .found hfind, h, hrep, rfl⟩
      rw [HashTable.apply, mzHashTableLookup_found h hb hcmp]
      rfl
    | none =>
      obtain ⟨hlook, hadd⟩ := mzHashTableLookup_absent calloc h (hrep.absent hfind) hsize
      cases doAdd with
      | false =>
        right
        refine ⟨_, t, M, ?_, .absent hfind, h, hrep, rfl⟩
        rw [HashTable.apply, hlook]
        rfl
      | true =>
        rcases hadd with ⟨habort, hcalloc⟩ | ⟨t', hrun, hinv, hfree, hperm⟩
        · left
          refine ⟨?_, _, hcalloc⟩
          rw [HashTable.apply, habort]
          rfl
        · right
          refine ⟨_, t', _, ?_, .added hfind, hinv, hrep.add hfind hperm, hfree⟩
          rw [HashTable.apply, hrun]
          rfl
  | remove a =>
    right
    by_cases ha : a ∈ t.items
    · obtain ⟨t', hrun, hinv, hfree, hperm⟩ := mzHashTableRemove_present h ha hsize
      refine ⟨_, t', _, ?_, .removed (hrep.self.mpr ha), hinv, hrep.remove h hperm, hfree⟩
      rw [HashTable.apply, hrun]
      rfl
    · refine ⟨_, t, M, ?_, .kept fun hself => ha (hrep.self.mp hself), h, hrep, rfl⟩
      rw [HashTable.apply, mzHashTableRemove_absent h ha]
      rfl
  | clear =>
    right
    obtain ⟨hinv, hitems, hfree⟩ := mzHashTableClear_spec h
    refine ⟨_, _, _, rfl, .cleared ?_ ?_, hinv, ?_, hfree⟩
    · unfold mzHashTableClear
      dsimp only
      split
      · exact h.nodup
      · exact List.nodup_nil
    · intro a
      rw [hrep.self]
      unfold mzHashTableClear
      dsimp only
      split
      · rename_i htrue
        simp [htrue]
      · rename_i hfalse
        simp [hfalse]
    · intro a b
      rw [hitems]
      simp

theorem HashTable.run_spec [DecidableEq α] {calloc : Nat → Bool} (h : t.Inv K) (hrep : t.Represents M)
    (ops : List (HashOp α))
    (hsize : ∀ done, done <+: ops → ∀ rs t', t.run K calloc done = .ok (rs, t') → t'.tableSize < 2 ^ 28) :
    (t.run K calloc ops = .error .abort ∧ ∃ n, calloc n = false) ∨
      ∃ rs t' M', t.run K calloc ops = .ok (rs, t') ∧ ItemMap.Run K t.freeFunc M ops rs M' ∧ t'.Inv K ∧
        t'.Represents M' := by
  induction ops generalizing t M with
  | nil => exact .inr ⟨[], t, M, rfl, .nil, h, hrep⟩
  | cons op ops ih =>
    have hnow := hsize [] List.nil_prefix [] t rfl
    rcases HashTable.apply_spec calloc h hrep hnow op with
      ⟨habort, hcalloc⟩ | ⟨r, t₁, M₁, happly, hstep, hinv, hrep₁, hfree⟩
    · left
      refine ⟨?_, hcalloc⟩
      rw [HashTable.run, habort]
      rfl
    · have hrest := ih hinv hrep₁ fun done hdone rs t' hrun =>
        hsize (op :: done) ((List.prefix_cons_inj op).mpr hdone) (r :: rs) t' (by
          rw [HashTable.run, happly, Except.ok_bind]
          dsimp only
          rw [hrun]
          rfl)
      rcases hrest with ⟨habort, hcalloc⟩ | ⟨rs, t', M', hrun, hmap, hinv', hrep'⟩
      · left
        refine ⟨?_, hcalloc⟩
        rw [HashTable.run, happly, Except.ok_bind]
        dsimp only
        rw [habort]
        rfl
      · right
        refine ⟨r :: rs, t', M', ?_, .cons hstep (hfree ▸ hmap), hinv', hrep'⟩
        rw [HashTable.run, happly, Except.ok_bind]
        dsimp only
        rw [hrun]
        rfl

/-- A table that is created and used in any way behaves as a finite map from the classes of equivalent
items, as long as it stays below `2 ^ 28` slots and memory lasts. No assertion fails, every probe ends,
the counters are exact and there is always an empty slot. -/
theorem mzHashTable_finite_map [DecidableEq α] (K : HashKey α) (calloc : Nat → Bool) (freeFunc : Bool)
    (initialSize : Nat) (hpos : 0 < initialSize) (hsize : initialSize < 2 ^ 28) :
    (mzHashTableCreate calloc initialSize freeFunc = .ok (none : Option (HashTable α)) ∧
        ∃ n, calloc n = false) ∨
      ∃ t : HashTable α, mzHashTableCreate calloc initialSize freeFunc = .ok (some t) ∧
        ∀ ops : List (HashOp α),
          (∀ done, done <+: ops → ∀ rs t', t.run K calloc done = .ok (rs, t') → t'.tableSize < 2 ^ 28) →
          (t.run K calloc ops = .error .abort ∧ ∃ n, calloc n = false) ∨
            ∃ rs t', t.run K calloc ops = .ok (rs, t') ∧
              (∃ M : ItemMap K, ItemMap.Run K freeFunc (fun _ => none) ops rs M ∧ t'.Represents M) ∧
              t'.numEntries = t'.items.length ∧ t'.numDeadEntries = countTombStones t' ∧
              ∃ e ∈ t'.pEntries, e.isNull = true := by
  rcases mzHashTableCreate_spec K calloc freeFunc hpos hsize with hnone | ⟨t, ht, hinv, hitems, hfree, -⟩
  · exact .inl hnone
  · refine .inr ⟨t, ht, fun ops hbound => ?_⟩
    have hempty : t.Represents (K := K) fun _ => none := by
      intro a b
      rw [hitems]
      simp
    rcases HashTable.run_spec hinv hempty ops hbound with habort | ⟨rs, t', M, hrun, hmap, hinv', hrep⟩
    · exact .inl habort
    · exact .inr ⟨rs, t', hrun, ⟨M, hfree ▸ hmap, hrep⟩, hinv'.entries, hinv'.dead, hinv'.exists_null⟩

/-- Numbers that all have the same hash. -/
def collidingNumbers : HashKey Nat where
  hash _ := 7
  cmpFunc a b := (a : Int) - b
  equiv := ⟨fun a => Int.sub_self a, fun h => by omega, fun h h' => by omega⟩
  compatible _ _ _ := rfl

theorem mzHashTable_collisions :
    ∃ t : HashTable Nat, mzHashTableCreate (fun _ => true) 2 false = .ok (some t) ∧
      ∃ rs t', t.run collidingNumbers (fun _ => true) [.lookup 1 true, .lookup 9 true, .remove 1, .lookup 9 false] =
          .ok (rs, t') ∧
        (∃ M : ItemMap collidingNumbers, ItemMap.Run collidingNumbers false (fun _ => none)
          [.lookup 1 true, .lookup 9 true, .remove 1, .lookup 9 false] rs M ∧ t'.Represents M) ∧
        t'.numEntries = t'.items.length ∧ t'.numDeadEntries = countTombStones t' ∧
        ∃ e ∈ t'.pEntries, e.isNull = true := by
  rcases mzHashTable_finite_map collidingNumbers (fun _ => true) false 2 (by decide) (by decide) with
    ⟨-, n, hn⟩ | ⟨t, ht, hrun⟩
  · cases hn
  · obtain rfl : t = ⟨List.replicate 2 .zero, 0, 0, false⟩ := by
      have hcreate : mzHashTableCreate (fun _ => true) 2 false =
        .ok (some (⟨List.replicate 2 .zero, 0, 0, false⟩ : HashTable Nat)) := by decide +kernel
      rw [hcreate] at ht
      cases ht
      rfl
    have hbound : ∀ done ∈ List.inits [HashOp.lookup 1 true, .lookup 9 true, .remove 1, .lookup 9 false],
        ((⟨List.replicate 2 .zero, 0, 0, false⟩ : HashTable Nat).run collidingNumbers (fun _ => true)
          done).toOption.all fun r => r.2.tableSize < 2 ^ 28 := by decide +kernel
    refine ⟨_, ht, (hrun [.lookup 1 true, .lookup 9 true, .remove 1, .lookup 9 false] ?_).resolve_left
      fun h => by obtain ⟨n, hn⟩ := h.2; cases hn⟩
    intro done hdone rs t' hdoneRun
    have := hbound done ((List.mem_inits done _).mpr hdone)
    rw [hdoneRun] at this
    exact of_decide_eq_true this

end Miui
