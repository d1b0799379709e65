import MiuiRecovery.Lib.Loop
import Mathlib.Order.Interval.Finset.Nat

/-!
# Permuting a stretch of an array

A stretch `[a, b)` of an array is permuted in place by swaps. The permutation `P` stands for what the
whole array should show; the array shows it at least inside the stretch.

* `Shuffles.swap`: a swap inside the stretch is a checked one and keeps everything outside.
* `number_shuffle`: a stretch holds as many entries with a property as before.
* `eq_of_full`: once all places that the entries with a property need are taken, no other has it.
-/

/-- `q` lies in the stretch from `a` to `b`. -/
def Within (a b q : Nat) : Prop := a ≤ q ∧ q < b

/-- What swaps within a stretch do to the permutation and to the array that shows it. -/
structure Shuffles (a b : Nat) (P : Equiv.Perm Nat) (I : Arr) (P' : Equiv.Perm Nat) (I' : Arr) : Prop where
  perm : ∀ q, ¬ Within a b q → P' q = P q
  outside : ∀ q, ¬ Within a b q → I'.get q = I.get q
  inside : ∀ q, Within a b q → I'.get q = P' q
  size : I'.size = I.size

variable {a b : Nat} {P P₁ : Equiv.Perm Nat} {I I₁ : Arr}

theorem Shuffles.refl (h : ∀ q, Within a b q → I.get q = P q) : Shuffles a b P I P I :=
  ⟨fun _ _ => rfl, fun _ _ => rfl, h, rfl⟩

theorem Shuffles.swap (h : Shuffles a b P I P₁ I₁) {u v : Nat} (hu : Within a b u) (hv : Within a b v)
    (hb : b ≤ I.size) : ∃ I₂, I₁.swap u v = some I₂ ∧
      Shuffles a b P I ((Equiv.swap u v).trans P₁) I₂ := by
  have hsize := h.size
  refine ⟨_, Arr.swap_eq (by unfold Within at hu; omega) (by unfold Within at hv; omega), ?_⟩
  have hfix : ∀ q, ¬ Within a b q → Equiv.swap u v q = q := by
    intro q hq
    apply Equiv.swap_apply_of_ne_of_ne
    · rintro rfl; exact hq hu
    · rintro rfl; exact hq hv
  have hin : ∀ q, Within a b q → Within a b (Equiv.swap u v q) := by
    intro q hq
    rw [Equiv.swap_apply_def]
    split
    · exact hv
    · split
      · exact hu
      · exact hq
  constructor
  · intro q hq
    rw [Equiv.trans_apply, hfix q hq, h.perm q hq]
  · intro q hq
    rw [Arr.swap_get, hfix q hq, h.outside q hq]
  · intro q hq
    rw [Arr.swap_get, h.inside _ (hin q hq), Equiv.trans_apply]
  · exact h.size

/-- The entries of a stretch stay in it. -/
theorem perm_within (h : ∀ q, ¬ Within a b q → P₁ q = P q) {q : Nat} (hq : Within a b q) :
    ∃ q', Within a b q' ∧ P₁ q = P q' := by
  refine ⟨P.symm (P₁ q), ?_, (P.apply_symm_apply _).symm⟩
  by_contra hout
  have := h _ hout
  rw [P.apply_symm_apply] at this
  rw [P₁.injective this] at hout
  exact hout hq

/-- A map of `[0, n]` into itself that takes no value twice is a permutation there. -/
theorem exists_perm {n : Nat} {f : Nat → Nat} (hmaps : ∀ q, q ≤ n → f q ≤ n)
    (hinj : ∀ q q', q ≤ n → q' ≤ n → f q = f q' → q = q') :
    ∃ P : Equiv.Perm Nat, (∀ q, q ≤ n → P q = f q) ∧ ∀ q, P q ≤ n ↔ q ≤ n := by
  let g := fun q => if q ≤ n then f q else q
  have hin : ∀ q, q ≤ n → g q = f q := fun q hq => if_pos hq
  have hout : ∀ q, ¬ q ≤ n → g q = q := fun q hq => if_neg hq
  have hle : ∀ q, g q ≤ n ↔ q ≤ n := by
    intro q
    by_cases hq : q ≤ n
    · rw [hin q hq]
      exact iff_of_true (hmaps q hq) hq
    · rw [hout q hq]
  have hg : Function.Injective g := by
    intro q q' heq
    by_cases hq : q ≤ n
    · have hq' : q' ≤ n := (hle q').mp (heq ▸ (hle q).mpr hq)
      rw [hin q hq, hin q' hq'] at heq
      exact hinj q q' hq hq' heq
    · have hq' : ¬ q' ≤ n := fun hq' => hq ((hle q).mp (heq ▸ (hle q').mpr hq'))
      rwa [hout q hq, hout q' hq'] at heq
  have hsurj : Function.Surjective g := by
    intro q
    by_cases hq : q ≤ n
    · have hself : Set.MapsTo g (Finset.range (n + 1)) (Finset.range (n + 1)) := by
        intro q hq
        rw [Finset.mem_coe, Finset.mem_range] at hq ⊢
        have := (hle q).mpr (by omega)
        omega
      obtain ⟨q', -, hq'⟩ := Finset.surjOn_of_injOn_of_card_le g hself hg.injOn (Nat.le_refl _)
        (Finset.mem_coe.mpr (Finset.mem_range.mpr (Nat.lt_succ_of_le hq)))
      exact ⟨q', hq'⟩
    · exact ⟨q, hout q hq⟩
  exact ⟨.ofBijective g ⟨hg, hsurj⟩, hin, hle⟩

/-! ## Counting -/

/-- How many places in `[a, b)` have the property. -/
def number (p : Nat → Prop) [DecidablePred p] (a b : Nat) : Nat := ((Finset.Ico a b).filter p).card

variable {p : Nat → Prop} [DecidablePred p]

@[simp] theorem number_self : number p a a = 0 := by
  rw [number, Finset.Ico_self, Finset.filter_empty, Finset.card_empty]

theorem number_succ (hab : a ≤ b) :
    number p a (b + 1) = if p b then number p a b + 1 else number p a b := by
  unfold number
  rw [← Nat.succ_eq_add_one, Nat.Ico_succ_right_eq_insert_Ico hab, Finset.filter_insert]
  split
  · apply Finset.card_insert_of_notMem
    simp
  · rfl

theorem number_le (hab : a ≤ b) : number p a b ≤ number p a (b + 1) := by
  rw [number_succ hab]
  split <;> omega

theorem number_mono {c : Nat} (hab : a ≤ b) (hbc : b ≤ c) : number p a b ≤ number p a c := by
  induction c, hbc using Nat.le_induction with
  | base => exact Nat.le_refl _
  | succ c hbc ih => exact ih.trans (number_le (by omega))

theorem number_trichotomy (f : Nat → Int) (x : Int) (hab : a ≤ b) :
    number (fun q => f q < x) a b + number (fun q => f q = x) a b + number (fun q => x < f q) a b =
      b - a := by
  induction b, hab using Nat.le_induction with
  | base => simp
  | succ b hab ih =>
    rw [number_succ hab, number_succ hab, number_succ hab]
    obtain hlt | heq | hgt := Int.lt_trichotomy (f b) x
    · rw [if_pos hlt, if_neg (by omega), if_neg (by omega)]
      omega
    · rw [if_neg (by omega), if_pos heq, if_neg (by omega)]
      omega
    · rw [if_neg (by omega), if_neg (by omega), if_pos hgt]
      omega

/-- The places of `[a, b)` that are taken and one more. -/
theorem lt_number {m c : Nat} (hm : ∀ q, Within m (m + c) q → Within a b q ∧ p q) {u : Nat}
    (hu : Within a b u) (hout : ¬ Within m (m + c) u) (hpu : p u) : c < number p a b := by
  have hsub : insert u (Finset.Ico m (m + c)) ⊆ (Finset.Ico a b).filter p := by
    intro q hq
    rw [Finset.mem_insert, Finset.mem_Ico] at hq
    rw [Finset.mem_filter, Finset.mem_Ico]
    obtain rfl | hq := hq
    · exact ⟨hu, hpu⟩
    · exact hm q hq
  have hcard := Finset.card_le_card hsub
  rw [Finset.card_insert_of_notMem (by rw [Finset.mem_Ico]; exact hout), Nat.card_Ico] at hcard
  unfold number
  omega

theorem eq_of_full {m c : Nat} (hm : ∀ q, Within m (m + c) q → Within a b q ∧ p q)
    (hfull : number p a b = c) {u : Nat} (hu : Within a b u) (hpu : p u) : Within m (m + c) u := by
  by_contra hout
  have := lt_number hm hu hout hpu
  omega

/-- `R` counts the same in a stretch and in what a shuffle makes of it. -/
theorem number_shuffle {R : Nat → Prop} [DecidablePred R] (h : ∀ q, ¬ Within a b q → P₁ q = P q) :
    number (fun q => R (P₁ q)) a b = number (fun q => R (P q)) a b := by
  apply Finset.card_equiv (P₁.trans P.symm)
  intro q
  have hval : P ((P₁.trans P.symm) q) = P₁ q := P.apply_symm_apply _
  rw [Finset.mem_filter, Finset.mem_filter, Finset.mem_Ico, Finset.mem_Ico, hval]
  refine and_congr_left fun _ => ⟨fun hq => ?_, fun hq => ?_⟩
  · obtain ⟨q', hq', heq⟩ := perm_within h hq
    rw [← hval, P.injective.eq_iff] at heq
    rw [heq]
    exact hq'
  · obtain ⟨q', hq', heq⟩ := perm_within (fun q hq => (h q hq).symm) hq
    rw [hval, P₁.injective.eq_iff] at heq
    rw [heq]
    exact hq'
