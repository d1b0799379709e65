import MiuiRecovery.ApplyPatch.Bsdiff.Buckets
import MiuiRecovery.ApplyPatch.Bsdiff.Search
import MiuiRecovery.Lib.Suffix
import Mathlib.Data.Finset.Max

/-!
# Whether search finds a longest match

`search` (`bsdiff.c`) compares a suffix with `new` over the shorter of the two lengths, and so a suffix with which
`new` begins counts as one that is not below `new`: the search goes on below it, and a longer match above it is lost.

* `memcmp_neg_iff`: what the comparison tells.
* `search_longest_iff`: the match is a longest one exactly if no shorter beginning of `new` is compared.
-/

namespace Miui.Bsdiff

open Suffix

variable {old new : Bytes} {I : Arr}

/-! ## Comparing -/

theorem le_matchlen_iff {k : Nat} {a b : Bytes} :
    k ≤ matchlen a b ↔ k ≤ a.length ∧ k ≤ b.length ∧ a.take k = b.take k := by
  induction a generalizing b k with
  | nil =>
    simp only [matchlen, List.length_nil, Nat.le_zero]
    constructor
    · rintro rfl
      simp
    · exact fun h => h.1
  | cons x a ih =>
    cases b with
    | nil =>
      simp only [matchlen, List.length_nil, Nat.le_zero]
      constructor
      · rintro rfl
        simp
      · exact fun h => h.2.1
    | cons y b =>
      cases k with
      | zero => simp
      | succ k =>
        unfold matchlen
        by_cases hxy : x = y
        · rw [if_pos hxy, Nat.add_le_add_iff_right, ih]
          simp [hxy]
        · rw [if_neg hxy]
          simp [hxy]

theorem matchlen_take (a b : Bytes) : a.take (matchlen a b) = b.take (matchlen a b) :=
  (le_matchlen_iff.mp (Nat.le_refl _)).2.2

theorem matchlen_prefix {a b : Bytes} (h : a <+: b) : matchlen a b = a.length :=
  Nat.le_antisymm (le_matchlen_iff.mp (Nat.le_refl _)).1
    (le_matchlen_iff.mpr ⟨Nat.le_refl _, h.length_le, by rw [List.take_length]; exact (List.prefix_iff_eq_take.mp h)⟩)

/-- Of the lists on one side of `new`, those that are closer have the longer match. -/
theorem matchlen_mono {a b : Bytes} (h : (¬ b < a ∧ ¬ new < b) ∨ (¬ b < new ∧ ¬ a < b)) :
    matchlen a new ≤ matchlen b new := by
  have htake := matchlen_take a new
  obtain ⟨ha, hnew, -⟩ := le_matchlen_iff.mp (Nat.le_refl (matchlen a new))
  have hbetween : b.take (matchlen a new) = new.take (matchlen a new) := by
    obtain ⟨hab, hbnew⟩ | ⟨hnewb, hba⟩ := h
    · exact take_eq_of_between hab hbnew htake
    · rw [take_eq_of_between hnewb hba htake.symm, htake]
  refine le_matchlen_iff.mpr ⟨?_, hnew, hbetween⟩
  have hlen := congrArg List.length hbetween
  rw [List.length_take, List.length_take] at hlen
  omega

/-- Over the shorter length a list is below `new` if it is and `new` does not begin with it. -/
theorem memcmp_neg_iff (s new : Bytes) :
    memcmp (min s.length new.length) s new < 0 ↔ s < new ∧ ¬ s <+: new := by
  induction s generalizing new with
  | nil => simp [memcmp]
  | cons x s ih =>
    cases new with
    | nil => simp [memcmp]
    | cons y new =>
      rw [List.length_cons, List.length_cons, Nat.succ_min_succ, memcmp, List.cons_lt_cons_iff,
        List.cons_prefix_cons]
      by_cases hxy : x = y
      · rw [if_pos hxy, ih]
        simp [hxy]
      · rw [if_neg hxy, UInt8.lt_iff_toNat_lt]
        simp only [hxy, false_and, or_false, not_false_eq_true, and_true]
        omega

/-! ## The suffixes compared -/

/-- Suffix number `q` of the array. -/
def suffixOf (old : Bytes) (I : Arr) (q : Nat) : Bytes := old.drop (I.get q).toNat

/-- The numbers of the suffixes that the search of `[st, en]` compares. -/
def probes (I : Arr) (old new : Bytes) (st en : Nat) : List Nat :=
  if en - st < 2 then []
  else
    let x := st + (en - st) / 2
    let s := suffixOf old I x
    x :: if memcmp (min s.length new.length) s new < 0 then probes I old new x en else probes I old new st x
  termination_by en - st

theorem probes_short {st en : Nat} (hshort : en - st < 2) : probes I old new st en = [] := by
  rw [probes, if_pos hshort]

theorem probes_step {st en x : Nat} (hlong : ¬ en - st < 2) (hx : x = st + (en - st) / 2) :
    probes I old new st en = x ::
      if memcmp (min (suffixOf old I x).length new.length) (suffixOf old I x) new < 0 then
        probes I old new x en
      else probes I old new st x := by
  rw [probes, if_neg hlong, hx]

theorem suffixOf_lt (harray : IsSuffixArray old I.get) {q q' : Nat} (hlt : q < q') (hle : q' ≤ old.length) :
    suffixOf old I q < suffixOf old I q' := harray.sorted q q' hlt hle

/-- The comparisons keep a longest match exactly where none is with a shorter beginning of `new`. -/
theorem search_best_iff (hI : Places old I) (harray : IsSuffixArray old I.get) {m : Nat}
    (hmax : ∀ q ≤ old.length, matchlen (suffixOf old I q) new ≤ m) {st en len : Nat} {pos : Int} (hle : en ≤ old.length)
    (hin : ∃ q, st ≤ q ∧ q ≤ en ∧ matchlen (suffixOf old I q) new = m)
    (hsearch : search I old new st en = some (len, pos)) :
    len = m ↔ ∀ x ∈ probes I old new st en, suffixOf old I x <+: new → m ≤ (suffixOf old I x).length := by
  induction hwidth : en - st using Nat.strongRecOn generalizing st en with
  | _ width ih =>
    obtain ⟨q, hst, hen, hq⟩ := hin
    by_cases hshort : en - st < 2
    · rw [probes_short hshort]
      refine ⟨fun _ x hx => absurd hx List.not_mem_nil, fun _ => ?_⟩
      have hmaxst : matchlen (old.drop (I.get st).toNat) new ≤ m := hmax st (by omega)
      have hmaxen : matchlen (old.drop (I.get en).toNat) new ≤ m := hmax en hle
      have hends : matchlen (old.drop (I.get st).toNat) new = m ∨ matchlen (old.drop (I.get en).toNat) new = m := by
        obtain rfl | rfl : q = st ∨ q = en := by omega
        · exact .inl hq
        · exact .inr hq
      rw [search_short hI new hle (by omega) hshort] at hsearch
      split at hsearch <;> cases hsearch <;> omega
    · obtain ⟨x, hx⟩ : ∃ x, x = st + (en - st) / 2 := ⟨_, rfl⟩
      rw [search_step hI new hle hshort hx] at hsearch
      rw [probes_step hshort hx, List.forall_mem_cons]
      have hmaxx := hmax x (by omega)
      change (if memcmp (min (suffixOf old I x).length new.length) (suffixOf old I x) new < 0 then _ else _) = _
        at hsearch
      by_cases hcmp : memcmp (min (suffixOf old I x).length new.length) (suffixOf old I x) new < 0
      · rw [if_pos hcmp] at hsearch ⊢
        obtain ⟨hbelow, hnot⟩ := (memcmp_neg_iff _ _).mp hcmp
        -- a best suffix below this one is no better than it
        have hin' : ∃ q, x ≤ q ∧ q ≤ en ∧ matchlen (suffixOf old I q) new = m := by
          by_cases hqx : x ≤ q
          · exact ⟨q, hqx, hen, hq⟩
          · have hmono : matchlen (suffixOf old I q) new ≤ matchlen (suffixOf old I x) new :=
              matchlen_mono (.inl ⟨not_lt_of_gt (suffixOf_lt harray (by omega) (by omega)), not_lt_of_gt hbelow⟩)
            exact ⟨x, Nat.le_refl _, by omega, by omega⟩
        rw [ih (en - x) (by omega) hle hin' hsearch rfl]
        exact ⟨fun h => ⟨fun hbegin => absurd hbegin hnot, h⟩, fun h => h.2⟩
      · rw [if_neg hcmp] at hsearch ⊢
        by_cases hbest : matchlen (suffixOf old I x) new = m
        · rw [ih (x - st) (by omega) (by omega) ⟨x, by omega, Nat.le_refl _, hbest⟩ hsearch rfl]
          exact ⟨fun h => ⟨fun _ => hbest ▸ (le_matchlen_iff.mp (Nat.le_refl _)).1, h⟩, fun h => h.2⟩
        · by_cases hbegin : suffixOf old I x <+: new
          -- the suffixes up to this one are no better than it
          · have hlen := matchlen_prefix hbegin
            obtain ⟨p, s, -, hp, -, hget, hfound⟩ := search_spec hI new st x (by omega) (by omega)
            have hs : old.drop s = suffixOf old I p := by rw [suffixOf, hget, Int.toNat_natCast]
            rw [hsearch, hs, Option.some.injEq, Prod.mk.injEq] at hfound
            have hmono : matchlen (suffixOf old I p) new ≤ matchlen (suffixOf old I x) new := by
              obtain rfl | hlt := Nat.eq_or_lt_of_le hp
              · exact Nat.le_refl _
              · exact matchlen_mono (.inl ⟨not_lt_of_gt (suffixOf_lt harray hlt (by omega)), hbegin.le⟩)
            refine ⟨fun hm => by omega, fun h => ?_⟩
            have := h.1 hbegin
            omega
          · have habove : ¬ suffixOf old I x < new := fun h => hcmp ((memcmp_neg_iff _ _).mpr ⟨h, hbegin⟩)
            have hqx : q ≤ x := by
              by_contra hlt
              have hmono : matchlen (suffixOf old I q) new ≤ matchlen (suffixOf old I x) new :=
                matchlen_mono (.inr ⟨habove, not_lt_of_gt (suffixOf_lt harray (by omega) (by omega))⟩)
              omega
            rw [ih (x - st) (by omega) (by omega) ⟨q, hst, hqx, hq⟩ hsearch rfl]
            exact ⟨fun h => ⟨fun h' => absurd h' hbegin, h⟩, fun h => h.2⟩

/-- The search ends within its bounds, with one of the places of `old` and the length of the match there, and that is a
longest match exactly if no suffix is compared with which `new` begins while there is a longer match. -/
theorem search_longest_iff (hsize : I.size = old.length + 1) (harray : IsSuffixArray old I.get) (new : Bytes) :
    ∃ s : Nat, s ≤ old.length ∧ search I old new 0 old.length = some (matchlen (old.drop s) new, (s : Int)) ∧
      ((∀ p ≤ old.length, matchlen (old.drop p) new ≤ matchlen (old.drop s) new) ↔
        ∀ x ∈ probes I old new 0 old.length, suffixOf old I x <+: new →
          ∀ p ≤ old.length, matchlen (old.drop p) new ≤ (suffixOf old I x).length) := by
  have hI : Places old I := ⟨hsize, harray.range⟩
  obtain ⟨-, s, -, -, hs, -, hsearch⟩ := search_spec hI new 0 old.length (Nat.zero_le _) (Nat.le_refl _)
  refine ⟨s, hs, hsearch, ?_⟩
  -- the length of a longest match
  obtain ⟨b, hb, hbest⟩ : ∃ b ≤ old.length, ∀ p ≤ old.length, matchlen (old.drop p) new ≤ matchlen (old.drop b) new := by
    obtain ⟨b, hb, hbest⟩ := Finset.exists_max_image (Finset.range (old.length + 1))
      (fun p => matchlen (old.drop p) new) ⟨0, by simp⟩
    exact ⟨b, by simpa [Nat.lt_succ_iff] using hb, fun p hp => hbest p (by simpa [Nat.lt_succ_iff] using hp)⟩
  obtain ⟨q, hq, hget⟩ := harray.complete b hb
  have hqb : suffixOf old I q = old.drop b := by rw [suffixOf, hget, Int.toNat_natCast]
  have hmax : ∀ q ≤ old.length, matchlen (suffixOf old I q) new ≤ matchlen (old.drop b) new := by
    intro q hq
    obtain ⟨p, hp, hget⟩ := harray.range q hq
    rw [suffixOf, hget, Int.toNat_natCast]
    exact hbest p hp
  have hiff := search_best_iff hI harray hmax (Nat.le_refl _) ⟨q, Nat.zero_le _, hq, by rw [hqb]⟩ hsearch
  constructor
  · intro h x hx hbegin p hp
    have heq := Nat.le_antisymm (hbest s hs) (h b hb)
    exact Nat.le_trans (hbest p hp) (hiff.mp heq x hx hbegin)
  · intro h p hp
    rw [hiff.mpr fun x hx hbegin => h x hx hbegin b hb]
    exact hbest p hp

theorem search_longest_byte : ∃ s : Nat, s ≤ 1 ∧
    search ⟨2, fun q => 1 - q⟩ [97] [97, 98] 0 1 = some (matchlen (List.drop s [97]) [97, 98], (s : Int)) ∧
    ((∀ p ≤ 1, matchlen (List.drop p [97]) [97, 98] ≤ matchlen (List.drop s [97]) [97, 98]) ↔
      ∀ x ∈ probes ⟨2, fun q => 1 - q⟩ [97] [97, 98] 0 1, suffixOf [97] ⟨2, fun q => 1 - q⟩ x <+: [97, 98] →
        ∀ p ≤ 1, matchlen (List.drop p [97]) [97, 98] ≤ (suffixOf [97] ⟨2, fun q => 1 - q⟩ x).length) := by
  have harray : IsSuffixArray ([97] : Bytes) fun q => 1 - (q : Int) := by
    refine ⟨fun q hq => ?_, fun s hs => ?_, fun q q' hlt hle => ?_⟩
    · change q ≤ 1 at hq
      exact ⟨1 - q, Nat.sub_le _ _, by omega⟩
    · change s ≤ 1 at hs
      exact ⟨1 - s, Nat.sub_le _ _, by omega⟩
    · change q' ≤ 1 at hle
      obtain ⟨rfl, rfl⟩ : q = 0 ∧ q' = 1 := by omega
      decide
  have hsize : (⟨2, fun q => 1 - (q : Int)⟩ : Arr).size = ([97] : Bytes).length + 1 := rfl
  exact search_longest_iff hsize harray [97, 98]

/-- The suffixes of `"aba"` in their order. -/
theorem suffixArray_aba {I : Nat → Int} (h : IsSuffixArray ([97, 98, 97] : Bytes) I) :
    I 0 = 3 ∧ I 1 = 2 ∧ I 2 = 0 ∧ I 3 = 1 := by
  obtain ⟨a, ha, hIa⟩ := h.range 0 (by decide)
  obtain ⟨b, hb, hIb⟩ := h.range 1 (by decide)
  obtain ⟨c, hc, hIc⟩ := h.range 2 (by decide)
  obtain ⟨d, hd, hId⟩ := h.range 3 (by decide)
  rw [show ([97, 98, 97] : Bytes).length = 3 from rfl] at ha hb hc hd
  have hab := h.sorted 0 1 (by decide) (by decide)
  have hbc := h.sorted 1 2 (by decide) (by decide)
  have hcd := h.sorted 2 3 (by decide) (by decide)
  rw [hIa, hIb] at hab
  rw [hIb, hIc] at hbc
  rw [hIc, hId] at hcd
  have hrank : ∀ s < 4, ∀ t < 4, ([97, 98, 97] : Bytes).drop s < [97, 98, 97].drop t →
      [2, 3, 1, 0].getD s 0 < [2, 3, 1, 0].getD t 0 := by decide +kernel
  have hplace : ∀ s < 4, [2, 3, 1, 0].getD s 0 < 4 ∧ s = [3, 2, 0, 1].getD ([2, 3, 1, 0].getD s 0) 0 := by decide
  have hab := hrank a (by omega) b (by omega) hab
  have hbc := hrank b (by omega) c (by omega) hbc
  have hcd := hrank c (by omega) d (by omega) hcd
  obtain ⟨-, ha'⟩ := hplace a (by omega)
  obtain ⟨-, hb'⟩ := hplace b (by omega)
  obtain ⟨-, hc'⟩ := hplace c (by omega)
  obtain ⟨hlast, hd'⟩ := hplace d (by omega)
  rw [show [2, 3, 1, 0].getD a 0 = 0 by omega] at ha'
  rw [show [2, 3, 1, 0].getD b 0 = 1 by omega] at hb'
  rw [show [2, 3, 1, 0].getD c 0 = 2 by omega] at hc'
  rw [show [2, 3, 1, 0].getD d 0 = 3 by omega] at hd'
  subst ha' hb' hc' hd'
  exact ⟨hIa, hIb, hIc, hId⟩

/-- In `"aba"` the search for `"ab"` stops at the suffix `"a"`. -/
theorem search_aba : ∃ I, qsufsort [97, 98, 97] (mallocArr 4) (mallocArr 4) = some I ∧
    search I [97, 98, 97] [97, 98] 0 3 = some (1, 2) ∧ matchlen (List.drop 0 [97, 98, 97]) [97, 98] = 2 := by
  obtain ⟨I, hrun, hsize, harray⟩ := qsufsort_spec (I := mallocArr 4) (V := mallocArr 4) [97, 98, 97] rfl rfl
  have hI : Places [97, 98, 97] I := ⟨hsize, harray.range⟩
  obtain ⟨h0, h1, -, -⟩ := suffixArray_aba harray
  refine ⟨I, hrun, ?_, by decide⟩
  -- `"ab"` begins with the suffix in the middle, so the search goes on below it.
  rw [search_step hI [97, 98] (Nat.le_refl 3) (by decide) rfl, h1, if_neg (by decide),
    search_short hI [97, 98] (by decide) (by decide) (by decide), h0, h1]
  rfl

end Miui.Bsdiff
