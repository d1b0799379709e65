import Mathlib.Logic.Function.Basic
import Mathlib.Data.List.Basic
import Mathlib.Tactic.Common

/-!
# Queues at the front of an array

The C idiom of a bounded queue: the first `n` cells of an array of `size` hold the elements, a push
writes cell `n`, and taking the first element moves the others one cell down. Two ways to move them
are in use: `memcpy` of `n - 1` cells, and a loop over all `n` cells, which reads one cell too many.

* `push_toList`, `take_toList`, `shift_toList`: on the elements the operations are those of a list.
* `shift_inRange`: the loop stays in the array exactly if the queue is not full.
-/

/-- A queue in the first `n` cells of an array of `size`. -/
structure ArrayQueue (α : Type) (size : Nat) where
  cells : Nat → α
  n : Nat
  n_le : n ≤ size

namespace ArrayQueue

variable {α : Type} {size : Nat}

/-- The elements, first in first. -/
def toList (q : ArrayQueue α size) : List α := (List.range q.n).map q.cells

def empty (a : α) : ArrayQueue α size := { cells := fun _ => a, n := 0, n_le := Nat.zero_le _ }

/-- `q_n = 0` -/
def clear (q : ArrayQueue α size) : ArrayQueue α size := { q with n := 0, n_le := Nat.zero_le _ }

/-- `if (q_n < size) { q[q_n++] = a; .. }`: whether there was room. -/
def push (q : ArrayQueue α size) (a : α) : Bool × ArrayQueue α size :=
  if h : q.n < size then (true, { cells := Function.update q.cells q.n a, n := q.n + 1, n_le := h })
  else (false, q)

/-- `memcpy(&q[0], &q[1], sizeof(q[0]) * --q_n)`, which copies upwards although the ranges overlap. -/
def take (q : ArrayQueue α size) : ArrayQueue α size where
  cells := fun i => if i < q.n - 1 then q.cells (i + 1) else q.cells i
  n := q.n - 1
  n_le := Nat.le_trans (Nat.sub_le _ _) q.n_le

/-- `q[i]`, where `beyond` lies behind the array. -/
def read (q : ArrayQueue α size) (beyond : α) (i : Nat) : α := if i < size then q.cells i else beyond

/-- `for (i = 0; i < q_n; i++) q[i] = q[i + 1]; q_n--;` -/
def shift (q : ArrayQueue α size) (beyond : α) : ArrayQueue α size where
  cells := fun i => if i < q.n then q.read beyond (i + 1) else q.cells i
  n := q.n - 1
  n_le := Nat.le_trans (Nat.sub_le _ _) q.n_le

/-- Every cell that `shift` reads lies in the array. -/
def ShiftInRange (q : ArrayQueue α size) : Prop := ∀ i < q.n, i + 1 < size

variable {q : ArrayQueue α size} {a beyond : α}

@[simp] theorem toList_length : q.toList.length = q.n := by simp [toList]

@[simp] theorem empty_toList : (empty a : ArrayQueue α size).toList = [] := rfl

@[simp] theorem clear_toList : q.clear.toList = [] := rfl

@[simp] theorem clear_n : q.clear.n = 0 := rfl

theorem toList_eq_nil : q.toList = [] ↔ q.n = 0 := by rw [← List.length_eq_zero_iff, toList_length]

theorem push_room (h : q.n < size) :
    (q.push a).1 = true ∧ (q.push a).2.toList = q.toList ++ [a] ∧ (q.push a).2.n = q.n + 1 := by
  have hcells : ∀ i ∈ List.range q.n, Function.update q.cells q.n a i = q.cells i := fun i hi =>
    Function.update_of_ne (Nat.ne_of_lt (List.mem_range.mp hi)) ..
  unfold push toList
  rw [dif_pos h]
  refine ⟨rfl, ?_, rfl⟩
  rw [List.range_succ, List.map_append, List.map_congr_left hcells]
  simp

theorem push_full (h : ¬ q.n < size) : q.push a = (false, q) := dif_neg h

/-- A queue with elements is its first cell and the cells behind it. -/
theorem toList_cons (h : 0 < q.n) :
    q.toList = q.cells 0 :: (List.range (q.n - 1)).map fun i => q.cells (i + 1) := by
  obtain ⟨k, hk⟩ := Nat.exists_eq_succ_of_ne_zero (Nat.ne_of_gt h)
  simp [toList, hk, List.range_succ_eq_map, Function.comp_def]

theorem take_toList (h : 0 < q.n) : q.toList = q.cells 0 :: q.take.toList := by
  rw [toList_cons h, toList]
  congr 1
  exact (List.map_congr_left fun i hi => if_pos (List.mem_range.mp hi)).symm

/-- What lies behind the array is never among the elements. -/
theorem shift_toList (h : 0 < q.n) : q.toList = q.cells 0 :: (q.shift beyond).toList := by
  rw [toList_cons h, toList]
  congr 1
  refine (List.map_congr_left fun i hi => ?_).symm
  have hi : i < q.n - 1 := List.mem_range.mp hi
  have hle := q.n_le
  show (if i < q.n then q.read beyond (i + 1) else q.cells i) = q.cells (i + 1)
  rw [if_pos (by omega), read, if_pos (by omega)]

theorem shift_inRange : q.ShiftInRange ↔ q.n < size ∨ q.n = 0 := by
  have hle := q.n_le
  constructor
  · intro h
    by_contra hfull
    have := h (q.n - 1) (by omega)
    omega
  · intro h i hi
    omega

end ArrayQueue
