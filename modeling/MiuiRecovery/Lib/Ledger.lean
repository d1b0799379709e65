import Mathlib.Order.Bounds.Basic
import Mathlib.Tactic.Common

/-!
# A ledger of blocks

Blocks of one size are gone through in order; each is passed over or taken. The ledger has the offsets of both
kinds, up to a frontier.

* `Ledger.pass`, `Ledger.take`: the frontier moves behind one more block.
* `Ledger.first_taken`: the first block from an offset on that was not passed over is the first one taken.
-/

/-- Each block before the frontier is in one of the two lists. -/
structure Ledger (size : Nat) (passed taken : List Nat) (frontier : Nat) : Prop where
  aligned : size ∣ frontier
  increasing : passed.Pairwise (· < ·)
  mem : ∀ x, x ∈ passed ∨ x ∈ taken ↔ size ∣ x ∧ x < frontier
  once : ∀ x ∈ passed, x ∉ taken

namespace Ledger

variable {size frontier pos first : Nat} {passed taken : List Nat}

theorem lt_next {x : Nat} (hpos : 0 < size) (hx : size ∣ x) (hf : size ∣ frontier) :
    x < frontier + size ↔ x < frontier ∨ x = frontier := by
  constructor
  · intro hlt
    obtain ⟨a, rfl⟩ := hx
    obtain ⟨b, rfl⟩ := hf
    rw [← Nat.mul_succ] at hlt
    have hle : a ≤ b := Nat.le_of_lt_succ (Nat.lt_of_mul_lt_mul_left hlt)
    rcases Nat.lt_or_eq_of_le hle with h | rfl
    · exact .inl (Nat.mul_lt_mul_of_pos_left h hpos)
    · exact .inr rfl
  · omega

/-- An empty ledger. -/
theorem empty : Ledger size [] [] 0 where
  aligned := Nat.dvd_zero _
  increasing := .nil
  mem x := by simp
  once x hx := nomatch hx

theorem passed_spec (h : Ledger size passed taken frontier) {x : Nat} (hx : x ∈ passed) :
    size ∣ x ∧ x < frontier := (h.mem x).mp (.inl hx)

theorem taken_spec (h : Ledger size passed taken frontier) {x : Nat} (hx : x ∈ taken) :
    size ∣ x ∧ x < frontier := (h.mem x).mp (.inr hx)

theorem pass (hpos : 0 < size) (h : Ledger size passed taken frontier) :
    Ledger size (passed ++ [frontier]) taken (frontier + size) where
  aligned := Nat.dvd_add h.aligned (Nat.dvd_refl _)
  increasing := by
    refine List.pairwise_append.mpr ⟨h.increasing, List.pairwise_singleton _ _, fun x hx y hy => ?_⟩
    rw [List.mem_singleton.mp hy]
    exact (h.passed_spec hx).2
  mem x := by
    rw [List.mem_append, List.mem_singleton, or_right_comm, h.mem]
    constructor
    · rintro (⟨hx, hlt⟩ | rfl)
      · exact ⟨hx, by omega⟩
      · exact ⟨h.aligned, by omega⟩
    · rintro ⟨hx, hlt⟩
      exact ((lt_next hpos hx h.aligned).mp hlt).imp_left fun hlt => ⟨hx, hlt⟩
  once x hx ht := by
    rcases List.mem_append.mp hx with hx | hx
    · exact h.once x hx ht
    · have := (h.taken_spec ht).2
      rw [List.mem_singleton.mp hx] at this
      omega

theorem take (hpos : 0 < size) (h : Ledger size passed taken frontier) :
    Ledger size passed (taken ++ [frontier]) (frontier + size) where
  aligned := Nat.dvd_add h.aligned (Nat.dvd_refl _)
  increasing := h.increasing
  mem x := by
    rw [List.mem_append, List.mem_singleton, ← or_assoc, h.mem]
    constructor
    · rintro (⟨hx, hlt⟩ | rfl)
      · exact ⟨hx, by omega⟩
      · exact ⟨h.aligned, by omega⟩
    · rintro ⟨hx, hlt⟩
      exact ((lt_next hpos hx h.aligned).mp hlt).imp_left fun hlt => ⟨hx, hlt⟩
  once x hx ht := by
    rcases List.mem_append.mp ht with ht | ht
    · exact h.once x hx ht
    · have := (h.passed_spec hx).2
      rw [List.mem_singleton.mp ht] at this
      omega

/-- The first block from `pos` on that was not passed over is the first that was taken, if one was. -/
theorem first_taken (h : Ledger size passed taken frontier)
    (hfirst : IsLeast {x | size ∣ x ∧ pos ≤ x ∧ x ∉ passed} first) (htaken : ∃ x ∈ taken, pos ≤ x) :
    IsLeast {x | x ∈ taken ∧ pos ≤ x} first := by
  have hfree : ∀ x ∈ taken, pos ≤ x → x ∈ {x | size ∣ x ∧ pos ≤ x ∧ x ∉ passed} :=
    fun x hx hle => ⟨(h.taken_spec hx).1, hle, fun hp => h.once x hp hx⟩
  obtain ⟨x, hx, hle⟩ := htaken
  have hlt : first < frontier := Nat.lt_of_le_of_lt (hfirst.2 (hfree x hx hle)) (h.taken_spec hx).2
  have hmem := (h.mem first).mpr ⟨hfirst.1.1, hlt⟩
  exact ⟨⟨hmem.resolve_left hfirst.1.2.2, hfirst.1.2.1⟩, fun y hy => hfirst.2 (hfree y hy.1 hy.2)⟩

end Ledger
