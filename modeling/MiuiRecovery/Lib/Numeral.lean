import MiuiRecovery.Lib.Bytes
import Mathlib.Data.Nat.Digits.Lemmas

/-!
# Numerals

Numbers as `printf` writes them, in a base up to ten.

* `numeral_digits`: a numeral is made of digits only.
* `numeral_length_le`: its length is that of the number.
* `numeral_value`: read in base `c`, a numeral of base `b` is `Nat.ofDigits c (Nat.digits b n)`.
-/

namespace Numeral

/-- The number `n` in base `b`, as `%o` and `%u` print it. -/
def numeral (b n : Nat) : Bytes :=
  if n = 0 then [48] else (Nat.digits b n).reverse.map fun d => UInt8.ofNat (48 + d)

/-- The integer `n`, as `%d` prints it. -/
def signed (n : Int) : Bytes := if n < 0 then 45 :: numeral 10 n.natAbs else numeral 10 n.natAbs

/-- The number that a string of digits stands for in base `c`. -/
def value (c : Nat) (s : Bytes) : Nat := s.foldl (fun n d => c * n + (d.toNat - 48)) 0

variable {b c n k : Nat}

theorem toNat_digit {d : Nat} (hd : d < 10) : (UInt8.ofNat (48 + d)).toNat = 48 + d := by
  rw [UInt8.toNat_ofNat']
  omega

theorem digits_lt_ten (hb : 1 < b) (hb10 : b ≤ 10) {d : Nat} (hd : d ∈ Nat.digits b n) : d < 10 :=
  Nat.lt_of_lt_of_le (Nat.digits_lt_base hb hd) hb10

theorem numeral_ne_nil (b n : Nat) : numeral b n ≠ [] := by
  unfold numeral
  split
  · simp
  · rename_i hn
    simpa [Nat.digits_eq_nil_iff_eq_zero] using hn

theorem numeral_digits (hb : 1 < b) (hb10 : b ≤ 10) {x : UInt8} (hx : x ∈ numeral b n) : 48 ≤ x ∧ x ≤ 57 := by
  unfold numeral at hx
  split at hx
  · rw [List.mem_singleton] at hx
    subst hx
    decide
  · obtain ⟨d, hd, rfl⟩ := List.mem_map.mp hx
    have hd10 := digits_lt_ten hb hb10 (List.mem_reverse.mp hd)
    rw [UInt8.le_iff_toNat_le, UInt8.le_iff_toNat_le, toNat_digit hd10]
    exact ⟨Nat.le_add_right 48 d, by show 48 + d ≤ 57; omega⟩

theorem numeral_length_le (hb : 1 < b) (hk : 0 < k) (hn : n < b ^ k) : (numeral b n).length ≤ k := by
  unfold numeral
  split
  · exact hk
  · rw [List.length_map, List.length_reverse]
    exact (Nat.digits_length_le_iff hb n).mpr hn

theorem value_append (s t : Bytes) : value c (s ++ t) = t.foldl (fun n d => c * n + (d.toNat - 48)) (value c s) :=
  List.foldl_append

/-- A numeral of one base, read in another. -/
theorem numeral_value (hb : 1 < b) (hb10 : b ≤ 10) : value c (numeral b n) = Nat.ofDigits c (Nat.digits b n) := by
  unfold numeral
  split
  · rename_i hn
    rw [hn, Nat.digits_zero]
    rfl
  · have hlt : ∀ d ∈ Nat.digits b n, d < 10 := fun d hd => digits_lt_ten hb hb10 hd
    generalize Nat.digits b n = ds at hlt
    induction ds with
    | nil => rfl
    | cons d ds ih =>
      rw [List.reverse_cons, List.map_append, value_append, ih fun e he => hlt e (List.mem_cons_of_mem d he),
        Nat.ofDigits_cons]
      simp only [List.map_cons, List.map_nil, List.foldl_cons, List.foldl_nil]
      rw [toNat_digit (hlt d List.mem_cons_self)]
      omega

theorem numeral_value_self (hb : 1 < b) (hb10 : b ≤ 10) : value b (numeral b n) = n := by
  rw [numeral_value hb hb10, Nat.ofDigits_digits]

theorem signed_chars {n : Int} {x : UInt8} (hx : x ∈ signed n) : x = 45 ∨ 48 ≤ x ∧ x ≤ 57 := by
  unfold signed at hx
  split at hx
  · rcases List.mem_cons.mp hx with rfl | hx
    · exact .inl rfl
    · exact .inr (numeral_digits (by decide) (by decide) hx)
  · exact .inr (numeral_digits (by decide) (by decide) hx)

theorem signed_length_le {n : Int} (hk : 0 < k) (hn : n.natAbs < 10 ^ k) : (signed n).length ≤ k + 1 := by
  have hlen := numeral_length_le (b := 10) (by decide) hk hn
  unfold signed
  split
  · exact Nat.succ_le_succ hlen
  · exact Nat.le_succ_of_le hlen

end Numeral
