import Mathlib.Logic.Function.Iterate
import Mathlib.Order.WellFounded

/-!
# Machines that can stall

A machine takes one step after the other. A step that stalls waits for its environment and makes no progress; every
other step makes a measure smaller.

* `Machine.invariant`: what a step keeps, a run keeps.
* `Machine.ends_iff`: a run comes to an end unless it stalls for ever.
-/

namespace Machine

variable {σ α : Type*} {step : σ → σ} {s : σ}

/-- What a step keeps, a run keeps. -/
theorem invariant {I : σ → Prop} (hstep : ∀ s, I s → I (step s)) (hs : I s) (n : Nat) : I (step^[n] s) := by
  induction n with
  | zero => exact hs
  | succ n ih =>
    rw [Function.iterate_succ_apply']
    exact hstep _ ih

/-- The steps of a machine: at the end it stays where it is, a step that stalls does not change the measure, and any
other makes it smaller. -/
structure Progress [Preorder α] (step : σ → σ) (I final stalls : σ → Prop) (rank : σ → α) : Prop where
  keeps : ∀ s, I s → I (step s)
  stays : ∀ s, final s → final (step s)
  ended : ∀ s, final s → ¬ stalls s
  waits : ∀ s, stalls s → rank (step s) = rank s
  moves : ∀ s, I s → ¬ final s → ¬ stalls s → rank (step s) < rank s

variable [Preorder α] {I final stalls : σ → Prop} {rank : σ → α}

theorem Progress.rank_le (h : Progress step I final stalls rank) (hs : I s) (hrun : ∀ n, ¬ final (step^[n] s)) (n : Nat) :
    rank (step^[n] s) ≤ rank s := by
  induction n with
  | zero => exact le_refl _
  | succ n ih =>
    rw [Function.iterate_succ_apply']
    refine le_trans ?_ ih
    by_cases hstall : stalls (step^[n] s)
    · exact (h.waits _ hstall).le
    · exact (h.moves _ (invariant h.keeps hs n) (hrun n) hstall).le

/-- A run comes to an end unless it stalls for ever. -/
theorem Progress.ends_iff [WellFoundedLT α] (h : Progress step I final stalls rank) (hs : I s) :
    (∃ n, final (step^[n] s)) ↔ ¬ ∃ n, ∀ k, n ≤ k → stalls (step^[k] s) := by
  constructor
  · rintro ⟨n, hn⟩ ⟨n', hstall⟩
    have hfinal := invariant h.stays hn n'
    rw [← Function.iterate_add_apply] at hfinal
    exact h.ended _ hfinal (hstall _ (Nat.le_add_right _ _))
  · intro hstall
    by_contra hnone
    have hrun := not_exists.mp hnone
    clear hnone
    -- Induction on the measure: behind every step that moves it is smaller.
    induction hr : rank s using WellFoundedLT.induction generalizing s with
    | ind r ih =>
      obtain ⟨k, -, hmoves⟩ : ∃ k, 0 ≤ k ∧ ¬ stalls (step^[k] s) := by
        by_contra hall
        exact hstall ⟨0, fun k hk => by_contra fun hmoves => hall ⟨k, hk, hmoves⟩⟩
      have hshift (n : Nat) : step^[n] (step^[k + 1] s) = step^[n + (k + 1)] s :=
        (Function.iterate_add_apply step n (k + 1) s).symm
      refine ih (rank (step^[k + 1] s)) ?_ (invariant h.keeps hs (k + 1)) ?_ ?_ rfl
      · rw [← hr, Function.iterate_succ_apply']
        exact (h.moves _ (invariant h.keeps hs k) (hrun k) hmoves).trans_le (h.rank_le hs hrun k)
      · rintro ⟨n, hn⟩
        refine hstall ⟨n + (k + 1), fun k' hk' => ?_⟩
        have hn := hn (k' - (k + 1)) (by omega)
        rwa [hshift, Nat.sub_add_cancel (by omega)] at hn
      · intro n
        rw [hshift]
        exact hrun _

end Machine
