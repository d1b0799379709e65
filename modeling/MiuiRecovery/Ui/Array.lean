import Mathlib.Data.List.Nodup
import Mathlib.Logic.Function.Basic
import MiuiRecovery.Lib.Bytes

/-!
# The associative array

`aarray_get`, `aarray_set` and `aarray_del` (`miui_array.c`). A deletion leaves a slot without a key, and
every search passes each slot to `strcmp`.

* `findKey_eq`: a search that meets no emptied slot finds the first slot with the key.
* `apply_spec`: one operation is one of a finite map.
* `finiteMap_iff`: a sequence of operations is one of the finite map exactly as long as no search meets an
  emptied slot.
-/

namespace Miui

/-! ## miui_array.c -/

/-- An item; a deletion sets both to `NULL`. -/
structure AArrayItem where
  key : Option Bytes
  val : Option Bytes

/-- `a->items`; `a->length` is their number. -/
structure AArray where
  items : List AArrayItem

def aarrayCreate : AArray := ⟨[]⟩

/-- The first slot with the key; `none` where `strcmp` gets a null pointer. -/
def findKey (key : Bytes) : List AArrayItem → Option (Option Nat)
  | [] => some none
  | item :: items =>
    match item.key with
    | none => none
    | some k => if k = key then some (some 0) else (findKey key items).map (·.map (· + 1))

/-- The value that is returned, `NULL` or a string. -/
def aarrayGet (a : AArray) (key : Option Bytes) : Option (Option Bytes) :=
  match key with
  | none => some none
  | some key => do
    let found_id ← findKey key a.items
    some (found_id.bind fun i => (a.items[i]?).bind AArrayItem.val)

def aarraySet (a : AArray) (key val : Option Bytes) : Option (Nat × AArray) :=
  match key, val with
  | some key, some val => do
    match ← findKey key a.items with
    | some found_id => some (1, ⟨a.items.modify found_id fun item => { item with val := some val }⟩)
    | none =>
      -- "Find Freed Items"
      match a.items.findIdx? (·.key.isNone) with
      | some found_id => some (1, ⟨a.items.set found_id ⟨some key, some val⟩⟩)
      | none => some (1, ⟨a.items ++ [⟨some key, some val⟩]⟩)
  | _, _ => some (0, a)

def aarrayDel (a : AArray) (key : Option Bytes) : Option (Nat × AArray) :=
  match key with
  | none => some (0, a)
  | some key => do
    match ← findKey key a.items with
    | some i => some (1, ⟨a.items.set i ⟨none, none⟩⟩)
    | none => some (0, a)

/-! ## Runs -/

/-- A call; a null pointer is an argument as well. -/
inductive AArrayOp
  | get (key : Option Bytes)
  | set (key val : Option Bytes)
  | del (key : Option Bytes)

inductive AArrayReply
  | val (v : Option Bytes)
  | byte (b : Nat)
  deriving DecidableEq

/-- The call: `none` where it dereferences a null pointer. -/
def AArray.apply (a : AArray) : AArrayOp → Option (AArrayReply × AArray)
  | .get key => (aarrayGet a key).map fun v => (.val v, a)
  | .set key val => (aarraySet a key val).map fun r => (.byte r.1, r.2)
  | .del key => (aarrayDel a key).map fun r => (.byte r.1, r.2)

/-- The replies to a sequence of calls. -/
def AArray.run (a : AArray) : List AArrayOp → Option (List AArrayReply)
  | [] => some []
  | op :: ops => do
    let (reply, a) ← a.apply op
    (a.run ops).map (reply :: ·)

/-! ## The finite map -/

/-- The call on a finite map. -/
def mapApply (m : Bytes → Option Bytes) : AArrayOp → AArrayReply × (Bytes → Option Bytes)
  | .get none => (.val none, m)
  | .get (some key) => (.val (m key), m)
  | .set (some key) (some val) => (.byte 1, Function.update m key (some val))
  | .set _ _ => (.byte 0, m)
  | .del none => (.byte 0, m)
  | .del (some key) => (.byte (if (m key).isSome then 1 else 0), Function.update m key none)

def mapRun (m : Bytes → Option Bytes) : List AArrayOp → List AArrayReply
  | [] => []
  | op :: ops => (mapApply m op).1 :: mapRun (mapApply m op).2 ops

/-! ## Searches -/

/-- No emptied slot comes before the slot of the key, or anywhere if there is none. -/
def Unemptied (key : Bytes) (items : List AArrayItem) : Prop :=
  ∀ item ∈ items.takeWhile fun item => item.key != some key, item.key ≠ none

variable {key val k : Bytes} {items : List AArrayItem} {item : AArrayItem}

theorem unemptied_cons {k : Bytes} (hkey : item.key = some k) (hk : k ≠ key) :
    Unemptied key (item :: items) ↔ Unemptied key items := by
  have hpos : (item.key != some key) = true := by simpa [hkey] using hk
  unfold Unemptied
  rw [List.takeWhile_cons_of_pos (p := fun item : AArrayItem => item.key != some key) hpos, List.forall_mem_cons]
  exact and_iff_right (by simp [hkey])

/-- A search that meets no emptied slot finds the slot of the key, or nothing. -/
theorem findKey_cases (h : Unemptied key items) :
    (∃ front item back, items = front ++ item :: back ∧ (∀ x ∈ front, x.key ≠ some key) ∧
        item.key = some key ∧ findKey key items = some (some front.length)) ∨
      ((∀ x ∈ items, x.key ≠ some key ∧ x.key ≠ none) ∧ findKey key items = some none) := by
  induction items with
  | nil => exact .inr ⟨fun _ h => (nomatch h), rfl⟩
  | cons item items ih =>
    cases hkey : item.key with
    | none => exact absurd hkey (h item (by simp [hkey]))
    | some k =>
      by_cases hk : k = key
      · exact .inl ⟨[], item, items, rfl, fun _ h => (nomatch h), hk ▸ hkey, by simp [findKey, hkey, hk]⟩
      · rcases ih ((unemptied_cons hkey hk).mp h) with ⟨front, item', back, rfl, hfront, hitem, hfind⟩ | ⟨hall, hfind⟩
        · refine .inl ⟨item :: front, item', back, rfl, ?_, hitem, ?_⟩
          · exact List.forall_mem_cons.mpr ⟨by simpa [hkey] using hk, hfront⟩
          · simp [findKey, hkey, hk, hfind]
        · refine .inr ⟨List.forall_mem_cons.mpr ⟨⟨by simpa [hkey] using hk, by simp [hkey]⟩, hall⟩, ?_⟩
          simp [findKey, hkey, hk, hfind]

/-- A search that meets an emptied slot passes a null pointer to `strcmp`. -/
theorem findKey_none (h : ¬ Unemptied key items) : findKey key items = none := by
  induction items with
  | nil => exact absurd (fun _ h => nomatch h) h
  | cons item items ih =>
    cases hkey : item.key with
    | none => rw [findKey, hkey]
    | some k =>
      by_cases hk : k = key
      · refine absurd (fun item' hitem' => ?_) h
        rw [List.takeWhile_cons_of_neg (by simp [hkey, hk])] at hitem'
        cases hitem'
      · have htail : ¬ Unemptied key items := mt (unemptied_cons hkey hk).mpr h
        rw [findKey, hkey]
        simp [hk, ih htail]

/-! ## One operation -/

/-- The value of the first slot with the key. -/
def lookup (items : List AArrayItem) (key : Bytes) : Option Bytes :=
  (items.find? (·.key == some key)).bind AArrayItem.val

/-- The keys are unique and have values. -/
structure AArray.Inv (a : AArray) : Prop where
  nodup : (a.items.filterMap AArrayItem.key).Nodup
  vals : ∀ item ∈ a.items, item.key ≠ none → item.val ≠ none

/-- The slots hold the finite map. -/
def AArray.Represents (a : AArray) (m : Bytes → Option Bytes) : Prop := ∀ key, lookup a.items key = m key

/-- The key that a call looks for. -/
def AArrayOp.key? : AArrayOp → Option Bytes
  | .get key => key
  | .set key val => if val = none then none else key
  | .del key => key

/-- The call meets no emptied slot. -/
def AArray.Passes (a : AArray) (op : AArrayOp) : Prop := ∀ key, op.key? = some key → Unemptied key a.items

theorem lookup_split {front back : List AArrayItem} (hfront : ∀ x ∈ front, x.key ≠ some key)
    (hitem : item.key = some key) : lookup (front ++ item :: back) key = item.val := by
  have hnone : front.find? (·.key == some key) = none := by
    rw [List.find?_eq_none]
    simpa using hfront
  simp [lookup, List.find?_append, hnone, hitem]

theorem lookup_absent (h : ∀ x ∈ items, x.key ≠ some key) : lookup items key = none := by
  have hnone : items.find? (·.key == some key) = none := by
    rw [List.find?_eq_none]
    simpa using h
  rw [lookup, hnone, Option.bind_none]

/-- A slot that has another key before and after does not matter. -/
theorem lookup_other {front back : List AArrayItem} {item' : AArrayItem} (h : item.key ≠ some k)
    (h' : item'.key ≠ some k) : lookup (front ++ item' :: back) k = lookup (front ++ item :: back) k := by
  have hk : (item.key == some k) = false := by simpa using h
  have hk' : (item'.key == some k) = false := by simpa using h'
  simp only [lookup, List.find?_append, List.find?_cons, hk, hk']

theorem nodup_split {front back : List AArrayItem}
    (h : ((front ++ item :: back).filterMap AArrayItem.key).Nodup) (hitem : item.key = some key) :
    ∀ x ∈ front ++ back, x.key ≠ some key := by
  rw [List.filterMap_append, List.filterMap_cons_some hitem, List.nodup_middle, List.nodup_cons,
    ← List.filterMap_append] at h
  exact fun x hx hkey => h.1 (List.mem_filterMap.mpr ⟨x, hx, hkey⟩)

/-- The slot of a key gets a new value or is emptied. -/
theorem replace_spec {a : AArray} {m : Bytes → Option Bytes} (hinv : a.Inv) (hrep : a.Represents m)
    {front back : List AArrayItem} (hitems : a.items = front ++ item :: back)
    (hfront : ∀ x ∈ front, x.key ≠ some key) (hitem : item.key = some key) (item' : AArrayItem)
    (hnew : item'.key = some key ∧ item'.val ≠ none ∨ item'.key = none ∧ item'.val = none) :
    AArray.Inv ⟨front ++ item' :: back⟩ ∧
      AArray.Represents ⟨front ++ item' :: back⟩ (Function.update m key item'.val) := by
  have hnodup := hinv.nodup
  rw [hitems] at hnodup
  have hother := nodup_split hnodup hitem
  rw [List.filterMap_append, List.filterMap_cons_some hitem] at hnodup
  refine ⟨⟨?_, ?_⟩, fun k => ?_⟩
  · rcases hnew with ⟨hkey, -⟩ | ⟨hkey, -⟩
    · rw [List.filterMap_append, List.filterMap_cons_some hkey]
      exact hnodup
    · rw [List.filterMap_append, List.filterMap_cons_none hkey]
      exact (List.nodup_cons.mp (List.nodup_middle.mp hnodup)).2
  · intro x hx hkey
    rcases List.mem_append.mp hx with hx | hx
    · exact hinv.vals x (by simp [hitems, hx]) hkey
    · rcases List.mem_cons.mp hx with rfl | hx
      · exact hnew.elim And.right fun h => absurd h.1 hkey
      · exact hinv.vals x (by simp [hitems, hx]) hkey
  · by_cases hk : k = key
    · rw [hk, Function.update_self]
      rcases hnew with ⟨hkey, -⟩ | ⟨hkey, hval⟩
      · exact lookup_split hfront hkey
      · rw [hval]
        refine lookup_absent fun x hx => ?_
        rcases List.mem_append.mp hx with hx | hx
        · exact hother x (by simp [hx])
        · rcases List.mem_cons.mp hx with rfl | hx
          · simp [hkey]
          · exact hother x (by simp [hx])
    · rw [Function.update_of_ne hk, ← hrep k, hitems]
      refine lookup_other (by simpa [hitem] using Ne.symm hk) ?_
      rcases hnew with ⟨hkey, -⟩ | ⟨hkey, -⟩
      · simpa [hkey] using Ne.symm hk
      · simp [hkey]

/-- A new slot at the end. -/
theorem append_spec {a : AArray} {m : Bytes → Option Bytes} (hinv : a.Inv) (hrep : a.Represents m)
    (hall : ∀ x ∈ a.items, x.key ≠ some key) (val : Bytes) :
    AArray.Inv ⟨a.items ++ [⟨some key, some val⟩]⟩ ∧
      AArray.Represents ⟨a.items ++ [⟨some key, some val⟩]⟩ (Function.update m key (some val)) := by
  refine ⟨⟨?_, ?_⟩, fun k => ?_⟩
  · rw [List.filterMap_append]
    exact List.nodup_middle.mpr (by simpa using ⟨hall, hinv.nodup⟩)
  · intro x hx hkey
    rcases List.mem_append.mp hx with hx | hx
    · exact hinv.vals x hx hkey
    · obtain rfl := List.mem_singleton.mp hx
      simp
  · by_cases hk : k = key
    · rw [hk, Function.update_self]
      exact lookup_split hall rfl
    · have hlast : ((some key : Option Bytes) == some k) = false := by simpa using Ne.symm hk
      rw [Function.update_of_ne hk, ← hrep k]
      simp [lookup, List.find?_append, hlast]

/-- A call that meets no emptied slot is one of the finite map. -/
theorem apply_spec {a : AArray} {m : Bytes → Option Bytes} (hinv : a.Inv) (hrep : a.Represents m)
    {op : AArrayOp} (hpass : a.Passes op) :
    ∃ a', a.apply op = some ((mapApply m op).1, a') ∧ a'.Inv ∧ a'.Represents (mapApply m op).2 := by
  cases op with
  | get key =>
    cases key with
    | none => exact ⟨a, rfl, hinv, hrep⟩
    | some key =>
      refine ⟨a, ?_, hinv, hrep⟩
      rcases findKey_cases (hpass key rfl) with ⟨front, item, back, hitems, hfront, hitem, hfind⟩ | ⟨hall, hfind⟩
      · have hval : m key = item.val := by rw [← hrep key, hitems, lookup_split hfront hitem]
        simp only [AArray.apply, aarrayGet, hfind, mapApply, hval, Option.bind_eq_bind, Option.bind_some]
        simp [hitems]
      · have hval : m key = none := by rw [← hrep key, lookup_absent fun x hx => (hall x hx).1]
        simp [AArray.apply, aarrayGet, hfind, mapApply, hval]
  | set key val =>
    cases val with
    | none => cases key <;> exact ⟨a, rfl, hinv, hrep⟩
    | some val =>
      cases key with
      | none => exact ⟨a, rfl, hinv, hrep⟩
      | some key =>
        rcases findKey_cases (hpass key rfl) with ⟨front, item, back, hitems, hfront, hitem, hfind⟩ | ⟨hall, hfind⟩
        · have hmodify : a.items.modify front.length (fun item => { item with val := some val }) =
              front ++ { item with val := some val } :: back := by
            rw [List.modify_eq_take_cons_drop (by simp [hitems])]
            simp [hitems]
          refine ⟨_, ?_, replace_spec hinv hrep hitems hfront hitem
            { item with val := some val } (.inl ⟨hitem, by simp⟩)⟩
          simp only [AArray.apply, aarraySet, hfind, mapApply, Option.bind_eq_bind, Option.bind_some, hmodify]
          rfl
        · have hfull : a.items.findIdx? (·.key.isNone) = none := by
            rw [List.findIdx?_eq_none_iff]
            intro x hx
            simpa [Option.isSome_iff_ne_none] using (hall x hx).2
          refine ⟨_, ?_, append_spec hinv hrep (fun x hx => (hall x hx).1) val⟩
          simp only [AArray.apply, aarraySet, hfind, mapApply, Option.bind_eq_bind, Option.bind_some, hfull]
          rfl
  | del key =>
    cases key with
    | none => exact ⟨a, rfl, hinv, hrep⟩
    | some key =>
      rcases findKey_cases (hpass key rfl) with ⟨front, item, back, hitems, hfront, hitem, hfind⟩ | ⟨hall, hfind⟩
      · have hset : a.items.set front.length ⟨none, none⟩ = front ++ ⟨none, none⟩ :: back := by
          simp [hitems]
        have hval : (m key).isSome = true := by
          rw [← hrep key, hitems, lookup_split hfront hitem, Option.isSome_iff_ne_none]
          exact hinv.vals item (by simp [hitems]) (by simp [hitem])
        refine ⟨_, ?_, replace_spec hinv hrep hitems hfront hitem ⟨none, none⟩ (.inr ⟨rfl, rfl⟩)⟩
        simp only [AArray.apply, aarrayDel, hfind, mapApply, hval, Option.bind_eq_bind, Option.bind_some, hset]
        rfl
      · have hval : m key = none := by rw [← hrep key, lookup_absent fun x hx => (hall x hx).1]
        refine ⟨a, ?_, hinv, fun k => ?_⟩
        · simp only [AArray.apply, aarrayDel, hfind, mapApply, hval, Option.bind_eq_bind, Option.bind_some]
          rfl
        · rw [mapApply, ← hval, Function.update_eq_self]
          exact hrep k

/-- A call that meets an emptied slot dereferences its null pointer. -/
theorem apply_none {a : AArray} {op : AArrayOp} (h : ¬ a.Passes op) : a.apply op = none := by
  obtain ⟨key, hkey, hun⟩ : ∃ key, op.key? = some key ∧ ¬ Unemptied key a.items := by
    simpa [AArray.Passes] using h
  have hfind := findKey_none hun
  cases op with
  | get k =>
    obtain rfl : k = some key := hkey
    simp [AArray.apply, aarrayGet, hfind]
  | set k v =>
    cases v with
    | none => simp [AArrayOp.key?] at hkey
    | some v =>
      obtain rfl : k = some key := by simpa [AArrayOp.key?] using hkey
      simp [AArray.apply, aarraySet, hfind]
  | del k =>
    obtain rfl : k = some key := hkey
    simp [AArray.apply, aarrayDel, hfind]

/-! ## All runs -/

/-- No call of the sequence meets a slot that an earlier one emptied. -/
def AArray.PassesAll (a : AArray) : List AArrayOp → Prop
  | [] => True
  | op :: ops => a.Passes op ∧ ∀ reply a', a.apply op = some (reply, a') → a'.PassesAll ops

theorem run_iff {a : AArray} {m : Bytes → Option Bytes} (hinv : a.Inv) (hrep : a.Represents m)
    (ops : List AArrayOp) : a.run ops = some (mapRun m ops) ↔ a.PassesAll ops := by
  induction ops generalizing a m with
  | nil => exact iff_of_true rfl trivial
  | cons op ops ih =>
    by_cases hpass : a.Passes op
    · obtain ⟨a', happly, hinv', hrep'⟩ := apply_spec hinv hrep hpass
      have hrest := ih hinv' hrep'
      simp only [AArray.run, happly, mapRun, AArray.PassesAll, Option.bind_eq_bind, Option.bind_some]
      rw [Option.map_eq_some_iff]
      constructor
      · rintro ⟨replies, hrun, hcons⟩
        obtain rfl := List.tail_eq_of_cons_eq hcons
        refine ⟨hpass, fun reply a'' h => ?_⟩
        cases h
        exact hrest.mp hrun
      · rintro ⟨-, hall⟩
        exact ⟨_, hrest.mpr (hall _ _ rfl), rfl⟩
    · simp only [AArray.run, apply_none hpass, AArray.PassesAll, Option.bind_eq_bind, Option.bind_none,
        reduceCtorEq, hpass, false_and]

end Miui
