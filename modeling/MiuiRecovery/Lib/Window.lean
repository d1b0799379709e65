import Mathlib.Algebra.BigOperators.Intervals
import Mathlib.Algebra.Order.BigOperators.Group.Finset
import Mathlib.Order.Interval.Finset.Nat

/-!
# Sums over a sliding window

A window of a radius moves along a line of values. Where it moves by one place, at most one value leaves it
and at most one enters.

* `total_zero`, `total_succ`: the first sum, and a sum from the one before.
* `total_grow`: what one more value at the end of the line changes.
-/

namespace Window

variable {M : Type*} [AddCommMonoid M] {f : Nat → M} {n r x : Nat}

/-- The places of a line of length `n` at distance at most `r` from `x`. -/
def around (n r x : Nat) : Finset Nat := (Finset.range n).filter fun k => x ≤ k + r ∧ k ≤ x + r

/-- The sum of the values at these places. -/
def total (f : Nat → M) (n r x : Nat) : M := ∑ k ∈ around n r x, f k

theorem mem_around {k : Nat} : k ∈ around n r x ↔ k < n ∧ x ≤ k + r ∧ k ≤ x + r := by
  unfold around
  rw [Finset.mem_filter, Finset.mem_range]

theorem total_zero : total f n r 0 = ∑ k ∈ Finset.range (min (r + 1) n), f k := by
  unfold total
  congr 1
  ext k
  rw [mem_around, Finset.mem_range]
  omega

theorem total_succ :
    total f n r (x + 1) + (if r ≤ x ∧ x - r < n then f (x - r) else 0) =
      total f n r x + (if x + 1 + r < n then f (x + 1 + r) else 0) := by
  -- the value that leaves and the one that enters, as sums over the line
  have hleave : (if r ≤ x ∧ x - r < n then f (x - r) else 0) =
      ∑ k ∈ Finset.range n, if k + r = x then f k else 0 := by
    by_cases h : r ≤ x ∧ x - r < n
    · rw [if_pos h, Finset.sum_eq_single_of_mem (x - r) (Finset.mem_range.mpr h.2)
        fun k _ hk => if_neg (by omega), if_pos (by omega)]
    · rw [if_neg h, Finset.sum_eq_zero]
      intro k hk
      rw [Finset.mem_range] at hk
      exact if_neg (by omega)
  have henter : (if x + 1 + r < n then f (x + 1 + r) else 0) =
      ∑ k ∈ Finset.range n, if k = x + 1 + r then f k else 0 := by
    rw [Finset.sum_ite_eq']
    simp only [Finset.mem_range]
  unfold total around
  rw [hleave, henter, Finset.sum_filter, Finset.sum_filter, ← Finset.sum_add_distrib,
    ← Finset.sum_add_distrib]
  apply Finset.sum_congr rfl
  intro k _
  by_cases hx : k + r = x
  · rw [if_neg (by omega), if_pos hx, if_pos (by omega), if_neg (by omega), zero_add, add_zero]
  · by_cases hk : k = x + 1 + r
    · rw [if_pos (by omega), if_neg hx, if_neg (by omega), if_pos hk, zero_add, add_zero]
    · rw [if_neg hx, if_neg hk, add_zero, add_zero]
      congr 1
      rw [eq_iff_iff]
      omega

theorem total_grow :
    total f (n + 1) r x = total f n r x + (if x ≤ n + r ∧ n ≤ x + r then f n else 0) := by
  unfold total around
  rw [Finset.sum_filter, Finset.sum_filter, Finset.sum_range_succ]

theorem total_le {f : Nat → Nat} {m : Nat} (h : ∀ k, f k ≤ m) : total f n r x ≤ n * m :=
  calc total f n r x ≤ ∑ _k ∈ around n r x, m := Finset.sum_le_sum fun k _ => h k
    _ = (around n r x).card * m := by rw [Finset.sum_const]; rfl
    _ ≤ n * m := Nat.mul_le_mul_right m ((Finset.card_filter_le _ _).trans_eq (Finset.card_range n))

end Window
