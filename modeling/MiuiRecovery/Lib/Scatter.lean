import Mathlib.Logic.Function.Basic
import Mathlib.Data.List.Range

/-!
# Cells behind a map

A store of cells, and a map that gives each number its cell. Values are written one after the other through the map,
and read back through it. Where two numbers have the same cell, the later value stands there.

* `scatter_frame`: cells that no number in the range has are not changed.
* `scatter_holds`: a cell holds a value that all of its numbers have.
* `gather_scatter_iff`: what is written comes back exactly if numbers of the same cell have the same value.
-/

namespace Scatter

variable {α κ : Type} (place : Nat → κ)

/-- What stands in the cells of `n` numbers from `i` on. -/
def gather (s : κ → α) (i n : Nat) : List α := (List.range' i n).map fun j => s (place j)

/-- Numbers of the same cell have the same value. -/
def Agree (xs : List α) (i : Nat) : Prop :=
  ∀ j j' x x', xs[j]? = some x → xs[j']? = some x' → place (i + j) = place (i + j') → x = x'

variable {place} {s : κ → α} {k : κ}

theorem gather_length (s : κ → α) (i n : Nat) : (gather place s i n).length = n := by
  rw [gather, List.length_map, List.length_range']

theorem gather_getElem? {i n j : Nat} (hj : j < n) : (gather place s i n)[j]? = some (s (place (i + j))) := by
  rw [gather, List.getElem?_map, List.getElem?_range' hj, Nat.one_mul]
  rfl

section Write

variable [DecidableEq κ]

/-- The values `xs` go to the cells of `i`, `i + 1`, … -/
def scatter (place : Nat → κ) : List α → Nat → (κ → α) → κ → α
  | [], _, s => s
  | x :: xs, i, s => scatter place xs (i + 1) (Function.update s (place i) x)

theorem scatter_frame (xs : List α) (i : Nat) (h : ∀ j < xs.length, place (i + j) ≠ k) :
    scatter place xs i s k = s k := by
  induction xs generalizing i s with
  | nil => rfl
  | cons x xs ih =>
    rw [scatter, ih (i + 1) ?_]
    · exact Function.update_of_ne (Ne.symm (h 0 (Nat.succ_pos _))) x s
    · intro j hj
      rw [Nat.add_assoc, Nat.add_comm 1]
      exact h (j + 1) (Nat.succ_lt_succ hj)

theorem scatter_holds {x : α} (xs : List α) (i : Nat)
    (hcell : s k = x ∨ ∃ j < xs.length, place (i + j) = k)
    (h : ∀ j y, xs[j]? = some y → place (i + j) = k → y = x) : scatter place xs i s k = x := by
  induction xs generalizing i s with
  | nil =>
    obtain hk | ⟨j, hj, -⟩ := hcell
    · exact hk
    · cases hj
  | cons y ys ih =>
    rw [scatter]
    apply ih (i + 1)
    · by_cases hi : place i = k
      · subst hi
        rw [Function.update_self]
        exact .inl (h 0 y rfl rfl)
      · rw [Function.update_of_ne (Ne.symm hi)]
        obtain hk | ⟨j, hj, hjk⟩ := hcell
        · exact .inl hk
        · cases j with
          | zero => exact absurd hjk hi
          | succ j => exact .inr ⟨j, Nat.lt_of_succ_lt_succ hj, by rw [Nat.add_assoc, Nat.add_comm 1, hjk]⟩
    · intro j z hz hjk
      apply h (j + 1) z hz
      rwa [Nat.add_comm j 1, ← Nat.add_assoc]

theorem scatter_iff (s : κ → α) (xs : List α) (i : Nat) :
    (∀ j x, xs[j]? = some x → scatter place xs i s (place (i + j)) = x) ↔ Agree place xs i := by
  constructor
  · intro h j j' x x' hx hx' heq
    rw [← h j x hx, ← h j' x' hx', heq]
  · intro h j x hx
    obtain ⟨hj, -⟩ := List.getElem?_eq_some_iff.mp hx
    apply scatter_holds xs i (.inr ⟨j, hj, rfl⟩)
    intro j' y hy heq
    exact h j' j y x hy hx heq

theorem gather_scatter_iff (s : κ → α) (xs : List α) (i : Nat) :
    gather place (scatter place xs i s) i xs.length = xs ↔ Agree place xs i := by
  rw [← scatter_iff s]
  constructor
  · intro h j x hx
    obtain ⟨hj, -⟩ := List.getElem?_eq_some_iff.mp hx
    have hat : (gather place (scatter place xs i s) i xs.length)[j]? = xs[j]? := by rw [h]
    rw [gather_getElem? hj, hx] at hat
    exact Option.some.inj hat
  · intro h
    apply List.ext_getElem?
    intro j
    by_cases hj : j < xs.length
    · rw [gather_getElem? hj, List.getElem?_eq_getElem hj, h j xs[j] (List.getElem?_eq_getElem hj)]
    · rw [List.getElem?_eq_none (by rw [gather_length]; omega), List.getElem?_eq_none (by omega)]

end Write

end Scatter
