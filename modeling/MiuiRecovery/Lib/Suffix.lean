import Mathlib.Data.List.Lex
import Mathlib.Data.List.Nodup
import Mathlib.Order.Lattice
import Mathlib.Tactic.Common

/-!
# Sorting suffixes by doubling

The suffixes of a list, by their start, and ranks that tell them apart by their first `h` elements.

* `Ranks.key_lt`, `Ranks.key_eq`: the rank `h` elements further on compares two suffixes that agree on
  their first `h` elements.
* `Ranks.assign`: a part of a class that lies below the rest of it can get a rank of its own.
* `take_eq_of_between`: what lies between two lists with one beginning has that beginning.
* `IsSuffixArray`: all suffixes, in increasing order; `IsSuffixArray.perm`: each is listed once.
-/

namespace Suffix

variable {α : Type} [LinearOrder α] {old : List α} {s t h : Nat}

omit [LinearOrder α] in
theorem drop_inj (hs : s ≤ old.length) (ht : t ≤ old.length) (heq : old.drop s = old.drop t) : s = t := by
  have := congrArg List.length heq
  rw [List.length_drop, List.length_drop] at this
  omega

omit [LinearOrder α] in
/-- Two suffixes that agree on `h` elements have so many. -/
theorem add_le_of_take_eq (hne : s ≠ t) (hs : s ≤ old.length) (ht : t ≤ old.length)
    (heq : (old.drop s).take h = (old.drop t).take h) : s + h ≤ old.length := by
  have := congrArg List.length heq
  simp only [List.length_take, List.length_drop] at this
  omega

omit [LinearOrder α] in
theorem take_double (heq : (old.drop s).take h = (old.drop t).take h)
    (hkey : (old.drop (s + h)).take h = (old.drop (t + h)).take h) :
    (old.drop s).take (h + h) = (old.drop t).take (h + h) := by
  rw [List.take_add, List.take_add, List.drop_drop, List.drop_drop, heq, hkey]

theorem drop_lt_of_key (heq : (old.drop s).take h = (old.drop t).take h)
    (hkey : old.drop (s + h) < old.drop (t + h)) : old.drop s < old.drop t := by
  rw [← List.take_append_drop h (old.drop s), ← List.take_append_drop h (old.drop t), heq,
    List.drop_drop, List.drop_drop]
  exact List.append_left_lt hkey

/-- Ranks that follow the order of the suffixes and tell apart those that differ in their first `h`
elements. -/
structure Ranks (old : List α) (h : Nat) (V : Nat → Int) : Prop where
  lt : ∀ s t, s ≤ old.length → t ≤ old.length → V s < V t → old.drop s < old.drop t
  eq : ∀ s t, s ≤ old.length → t ≤ old.length → V s = V t →
    (old.drop s).take h = (old.drop t).take h

variable {V V' : Nat → Int}

theorem Ranks.key_lt (hR : Ranks old h V) (hs : s + h ≤ old.length) (ht : t + h ≤ old.length)
    (hst : V s = V t) (hkey : V (s + h) < V (t + h)) : old.drop s < old.drop t :=
  drop_lt_of_key (hR.eq s t (by omega) (by omega) hst) (hR.lt _ _ hs ht hkey)

theorem Ranks.key_eq (hR : Ranks old h V) (hs : s + h ≤ old.length) (ht : t + h ≤ old.length)
    (hst : V s = V t) (hkey : V (s + h) = V (t + h)) :
    (old.drop s).take (h + h) = (old.drop t).take (h + h) :=
  take_double (hR.eq s t (by omega) (by omega) hst) (hR.eq _ _ hs ht hkey)

/-- The part `M` of the class with rank `g` gets the rank `p`. -/
theorem Ranks.assign (hR : Ranks old h V) {M : Nat → Prop} {p g : Int} (hnew : ∀ t, M t → V' t = p)
    (hold : ∀ t, ¬ M t → V' t = V t) (hM : ∀ t, M t → V t = g) (hpg : p ≤ g)
    (hgap : ∀ t, t ≤ old.length → ¬ M t → V t < p ∨ g ≤ V t)
    (hless : p < g → ∀ m t, m ≤ old.length → t ≤ old.length → M m → ¬ M t → V t = g →
      old.drop m < old.drop t) : Ranks old h V' := by
  constructor
  · intro s t hs ht hlt
    by_cases hms : M s
    · by_cases hmt : M t
      · rw [hnew s hms, hnew t hmt] at hlt
        omega
      · rw [hnew s hms, hold t hmt] at hlt
        obtain hgap | hgap := hgap t ht hmt
        · omega
        · by_cases hg : V t = g
          · exact hless (by omega) s t hs ht hms hmt hg
          · exact hR.lt s t hs ht (by rw [hM s hms]; omega)
    · by_cases hmt : M t
      · rw [hold s hms, hnew t hmt] at hlt
        exact hR.lt s t hs ht (by rw [hM t hmt]; omega)
      · rw [hold s hms, hold t hmt] at hlt
        exact hR.lt s t hs ht hlt
  · have hmix : ∀ s t, s ≤ old.length → t ≤ old.length → M s → ¬ M t → V' s = V' t →
        (old.drop s).take h = (old.drop t).take h := by
      intro s t hs ht hms hmt heq
      rw [hnew s hms, hold t hmt] at heq
      obtain hgap | hgap := hgap t ht hmt
      · omega
      · exact hR.eq s t hs ht (by rw [hM s hms]; omega)
    intro s t hs ht heq
    by_cases hms : M s
    · by_cases hmt : M t
      · exact hR.eq s t hs ht (by rw [hM s hms, hM t hmt])
      · exact hmix s t hs ht hms hmt heq
    · by_cases hmt : M t
      · exact (hmix t s ht hs hmt hms heq.symm).symm
      · rw [hold s hms, hold t hmt] at heq
        exact hR.eq s t hs ht heq

/-- What lies between two lists with one beginning has that beginning. -/
theorem take_eq_of_between {a b c : List α} {k : Nat} (hab : ¬ b < a) (hbc : ¬ c < b)
    (hac : a.take k = c.take k) : b.take k = c.take k := by
  induction k generalizing a b c with
  | zero => rfl
  | succ k ih =>
    cases a with
    | nil =>
      cases c with
      | nil =>
        cases b with
        | nil => rfl
        | cons y b => exact absurd (List.nil_lt_cons y b) hbc
      | cons z c => cases hac
    | cons x a =>
      cases c with
      | nil => cases hac
      | cons z c =>
        rw [List.take_succ_cons, List.take_succ_cons, List.cons.injEq] at hac
        obtain ⟨rfl, hac⟩ := hac
        cases b with
        | nil => exact absurd (List.nil_lt_cons x a) hab
        | cons y b =>
          rw [List.cons_lt_cons_iff, not_or] at hab hbc
          obtain rfl : x = y := le_antisymm (not_lt.mp hab.1) (not_lt.mp hbc.1)
          have hab' : ¬ b < a := fun h => hab.2 ⟨rfl, h⟩
          have hbc' : ¬ c < b := fun h => hbc.2 ⟨rfl, h⟩
          rw [List.take_succ_cons, List.take_succ_cons, ih hab' hbc' hac]

/-- The starts of all suffixes, in the increasing order of the suffixes. -/
structure IsSuffixArray (old : List α) (I : Nat → Int) : Prop where
  range : ∀ q, q ≤ old.length → ∃ s : Nat, s ≤ old.length ∧ I q = s
  complete : ∀ s : Nat, s ≤ old.length → ∃ q, q ≤ old.length ∧ I q = s
  sorted : ∀ q q' : Nat, q < q' → q' ≤ old.length →
    old.drop (I q).toNat < old.drop (I q').toNat

theorem IsSuffixArray.injective {I : Nat → Int} (hI : IsSuffixArray old I) {q q' : Nat} (hq : q ≤ old.length)
    (hq' : q' ≤ old.length) (heq : I q = I q') : q = q' := by
  obtain hlt | heq' | hgt := Nat.lt_trichotomy q q'
  · have hsorted := hI.sorted q q' hlt hq'
    rw [heq] at hsorted
    exact absurd hsorted (lt_irrefl _)
  · exact heq'
  · have hsorted := hI.sorted q' q hgt hq
    rw [heq] at hsorted
    exact absurd hsorted (lt_irrefl _)

/-- A suffix array lists each start once. -/
theorem IsSuffixArray.perm {I : Nat → Int} (hI : IsSuffixArray old I) :
    ((List.range (old.length + 1)).map I).Perm ((List.range (old.length + 1)).map Int.ofNat) := by
  have hinj : ((List.range (old.length + 1)).map I).Nodup := by
    refine List.Nodup.map_on (fun q hq q' hq' heq => ?_) (List.nodup_range)
    rw [List.mem_range] at hq hq'
    exact hI.injective (by omega) (by omega) heq
  refine (List.perm_ext_iff_of_nodup hinj (List.nodup_range.map fun _ _ h => Int.ofNat.inj h)).mpr fun v => ?_
  simp only [List.mem_map, List.mem_range]
  constructor
  · rintro ⟨q, hq, rfl⟩
    obtain ⟨s, hs, hIs⟩ := hI.range q (by omega)
    exact ⟨s, by omega, hIs.symm⟩
  · rintro ⟨s, hs, rfl⟩
    obtain ⟨q, hq, hIq⟩ := hI.complete s (by omega)
    exact ⟨q, by omega, hIq⟩

end Suffix
