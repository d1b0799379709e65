import MiuiRecovery.ApplyPatch.Bsdiff.Qsufsort

/-!
# search

`matchlen` and `search` (`bsdiff.c`): a binary search in the suffix array for a long match of `new`.

* `search_spec`: on any array that lists places of `old`, the search ends within its bounds, and the
  length that it returns is the length of the match at its place.
-/

namespace Miui.Bsdiff

/-- The length of the common prefix. -/
def matchlen : Bytes → Bytes → Nat
  | a :: old, b :: new => if a = b then matchlen old new + 1 else 0
  | _, _ => 0

/-- The string at `old + s`; the place behind the last byte counts. -/
def suffixAt (old : Bytes) (s : Int) : Option Bytes :=
  if 0 ≤ s ∧ s ≤ old.length then some (old.drop s.toNat) else none

/-- `memcmp` of `n` bytes -/
def memcmp : Nat → Bytes → Bytes → Int
  | n + 1, a :: as, b :: bs => if a = b then memcmp n as bs else (a.toNat : Int) - b.toNat
  | _, _, _ => 0

/-- `search`: the length of a match and its place. -/
def search (I : Arr) (old new : Bytes) (st en : Nat) : Option (Nat × Int) :=
  if h : en - st < 2 then do
    let p ← I.read st
    let q ← I.read en
    let x := matchlen (← suffixAt old p) new
    let y := matchlen (← suffixAt old q) new
    if x > y then some (x, p) else some (y, q)
  else do
    let x := st + (en - st) / 2
    let s ← suffixAt old (← I.read x)
    if memcmp (min s.length new.length) s new < 0 then search I old new x en else search I old new st x
  termination_by en - st

theorem matchlen_le (old new : Bytes) : matchlen old new ≤ new.length := by
  induction old generalizing new with
  | nil => exact Nat.zero_le _
  | cons a old ih =>
    cases new with
    | nil => exact Nat.zero_le _
    | cons b new =>
      have := ih new
      unfold matchlen
      split
      · rw [List.length_cons]
        omega
      · exact Nat.zero_le _

variable {old : Bytes} {I : Arr}

/-- `I` lists places of `old`. -/
structure Places (old : Bytes) (I : Arr) : Prop where
  size : I.size = old.length + 1
  range : ∀ q, q ≤ old.length → ∃ s : Nat, s ≤ old.length ∧ I.get q = s

theorem Places.read (hI : Places old I) {q : Nat} (hq : q ≤ old.length) :
    ∃ s : Nat, s ≤ old.length ∧ I.get q = s ∧ I.read (q : Int) = some (s : Int) ∧
      suffixAt old s = some (old.drop s) := by
  obtain ⟨s, hs, hget⟩ := hI.range q hq
  have hsize := hI.size
  refine ⟨s, hs, hget, by rw [Arr.read_eq (by omega), hget], ?_⟩
  unfold suffixAt
  rw [if_pos (by omega), Int.toNat_natCast]

/-- The two candidates that are left. -/
theorem search_short (hI : Places old I) (new : Bytes) {st en : Nat} (hle : en ≤ old.length) (hen : st ≤ en)
    (hshort : en - st < 2) : search I old new st en =
      if matchlen (old.drop (I.get st).toNat) new > matchlen (old.drop (I.get en).toNat) new then
        some (matchlen (old.drop (I.get st).toNat) new, I.get st)
      else some (matchlen (old.drop (I.get en).toNat) new, I.get en) := by
  obtain ⟨p, hp, hget, hread, hsuffix⟩ := hI.read (show st ≤ old.length by omega)
  obtain ⟨q, hq, hget', hread', hsuffix'⟩ := hI.read hle
  rw [search, dif_pos hshort, hget, hget', Int.toNat_natCast, Int.toNat_natCast]
  simp only [hread, hread', hsuffix, hsuffix', Option.bind_eq_bind, Option.bind_some]

/-- The comparison in the middle. -/
theorem search_step (hI : Places old I) (new : Bytes) {st en x : Nat} (hle : en ≤ old.length)
    (hlong : ¬ en - st < 2) (hx : x = st + (en - st) / 2) : search I old new st en =
      if memcmp (min (old.drop (I.get x).toNat).length new.length) (old.drop (I.get x).toNat) new < 0 then
        search I old new x en
      else search I old new st x := by
  obtain ⟨s, hs, hget, hread, hsuffix⟩ := hI.read (show x ≤ old.length by omega)
  rw [search, dif_neg hlong, hget, Int.toNat_natCast]
  simp only [← hx, hread, hsuffix, Option.bind_eq_bind, Option.bind_some]

theorem search_spec (hI : Places old I) (new : Bytes) (st en : Nat) (hen : st ≤ en) (hle : en ≤ old.length) :
    ∃ q s : Nat, st ≤ q ∧ q ≤ en ∧ s ≤ old.length ∧ I.get q = s ∧
      search I old new st en = some (matchlen (old.drop s) new, (s : Int)) := by
  induction hlen : en - st using Nat.strongRecOn generalizing st en with
  | _ len ih =>
    by_cases hshort : en - st < 2
    · obtain ⟨p, hp, hget⟩ := hI.range st (by omega)
      obtain ⟨q, hq, hget'⟩ := hI.range en hle
      rw [search_short hI new hle hen hshort, hget, hget', Int.toNat_natCast, Int.toNat_natCast]
      split
      · exact ⟨st, p, Nat.le_refl _, hen, hp, hget, rfl⟩
      · exact ⟨en, q, hen, Nat.le_refl _, hq, hget', rfl⟩
    · obtain ⟨x, hx⟩ : ∃ x, x = st + (en - st) / 2 := ⟨_, rfl⟩
      rw [search_step hI new hle hshort hx]
      split
      · obtain ⟨q, s, hst, hq, h⟩ := ih (en - x) (by omega) x en (by omega) hle rfl
        exact ⟨q, s, by omega, hq, h⟩
      · obtain ⟨q, s, hst, hq, h⟩ := ih (x - st) (by omega) st x (by omega) (by omega) rfl
        exact ⟨q, s, hst, by omega, h⟩

end Miui.Bsdiff
