import MiuiRecovery.Lib.CString
import MiuiRecovery.Lib.Numeral
import Mathlib.Data.List.DropRight

/-!
# Formatted input

`scanf` on a text: the directives of a format and what they convert. A number is stored by the caller, in the width of
its own variable.

* `scanInt`: the numbers of `%d`, `%x`, `%u` and `%i`, with the sign and the prefix that they may have.
* `scanf`: the values that were converted, and the text that is left; what a failed number took is not counted.
* `scanAll`: the same for a format that matches as a whole, so that a format can be put together (`scanAll_append`).
* `scanInt_numeral`, `scanInt_hex`: what `printf` writes is read back.
-/

namespace Scan

open CString Numeral

/-- The value of a digit or letter; 36 for any other byte. -/
def digitVal (c : UInt8) : Nat :=
  if 48 ≤ c ∧ c ≤ 57 then c.toNat - 48
  else if 65 ≤ c ∧ c ≤ 90 then c.toNat - 55
  else if 97 ≤ c ∧ c ≤ 122 then c.toNat - 87
  else 36

def isDigit (base : Nat) (c : UInt8) : Bool := digitVal c < base

/-- The number that digits stand for. -/
def digitsVal (base : Nat) (s : Bytes) : Nat := s.foldl (fun n c => base * n + digitVal c) 0

/-- At least one digit. -/
def readDigits (base : Nat) (s : Bytes) : Option (Nat × Bytes) :=
  let ds := s.takeWhile (isDigit base)
  if ds = [] then none else some (digitsVal base ds, s.dropWhile (isDigit base))

/-- The text behind a `0x` that has a digit behind it. -/
def dropHex : Bytes → Option Bytes
  | 48 :: x :: d :: s => if (x = 120 ∨ x = 88) ∧ isDigit 16 d then some (d :: s) else none
  | _ => none

/-- Base 0 is that of the prefix. -/
def readNumber (base : Nat) (s : Bytes) : Option (Nat × Bytes) :=
  match dropHex s with
  | some t => if base = 16 ∨ base = 0 then readDigits 16 t else readDigits base s
  | none => if base = 0 then readDigits (if s.head? = some 48 then 8 else 10) s else readDigits base s

/-- A conversion `%d`, `%u` (base 10), `%x` (base 16) or `%i` (base 0). -/
def scanInt (base : Nat) (s : Bytes) : Option (Int × Bytes) :=
  match s.dropWhile isSpace with
  | 45 :: t => (readNumber base t).map fun (n, r) => (-(n : Int), r)
  | 43 :: t => (readNumber base t).map fun (n, r) => ((n : Int), r)
  | t => (readNumber base t).map fun (n, r) => ((n : Int), r)

inductive Directive
  | space
  | byte (c : UInt8)
  | int (base : Nat)
  /-- `%<width>[^<stop>]` -/
  | upTo (width : Nat) (stop : UInt8)

inductive Arg
  | int (n : Int)
  | str (s : Bytes)

/-- The number of a numeric argument. -/
def Arg.value : Arg → Int
  | .int n => n
  | .str _ => 0

/-- The values that are converted, and the rest of the text. -/
def scanf : List Directive → Bytes → List Arg × Bytes
  | [], s => ([], s)
  | .space :: ds, s => scanf ds (s.dropWhile isSpace)
  | .byte c :: ds, s =>
    match s with
    | x :: t => if x = c then scanf ds t else ([], s)
    | [] => ([], [])
  | .int base :: ds, s =>
    match scanInt base s with
    | some (n, t) => (.int n :: (scanf ds t).1, (scanf ds t).2)
    | none => ([], s.dropWhile isSpace)
  | .upTo width stop :: ds, s =>
    let str := (s.takeWhile (· != stop)).take width
    if str = [] then ([], s)
    else (.str str :: (scanf ds (s.drop str.length)).1, (scanf ds (s.drop str.length)).2)

/-- The same, but only where every directive matches. -/
def scanAll : List Directive → Bytes → Option (List Arg × Bytes)
  | [], s => some ([], s)
  | .space :: ds, s => scanAll ds (s.dropWhile isSpace)
  | .byte c :: ds, s =>
    match s with
    | x :: t => if x = c then scanAll ds t else none
    | [] => none
  | .int base :: ds, s => (scanInt base s).bind fun (n, t) => (scanAll ds t).map fun (args, r) => (.int n :: args, r)
  | .upTo width stop :: ds, s =>
    let str := (s.takeWhile (· != stop)).take width
    if str = [] then none else (scanAll ds (s.drop str.length)).map fun (args, r) => (.str str :: args, r)

/-- The directives of literal text. -/
def lit (s : Bytes) : List Directive := s.map .byte

variable {base n : Nat} {s t rest : Bytes} {c : UInt8} {ds : List Directive}

/-! ## Directives -/

section Literals

attribute [local simp] scanf scanAll

theorem scanf_space : scanf (.space :: ds) s = scanf ds (s.dropWhile isSpace) := rfl

theorem scanf_byte : scanf (.byte c :: ds) (c :: s) = scanf ds s := by simp

theorem scanf_byte_ne {x : UInt8} (h : x ≠ c) : scanf (.byte c :: ds) (x :: s) = ([], x :: s) := by simp [h]

theorem scanAll_byte : scanAll (.byte c :: ds) (c :: s) = scanAll ds s := by simp

theorem scanAll_byte_ne {x : UInt8} (h : x ≠ c) : scanAll (.byte c :: ds) (x :: s) = none := by simp [h]

end Literals

theorem scanf_lit : scanf (lit t ++ ds) (t ++ s) = scanf ds s := by
  induction t with
  | nil => rfl
  | cons c t ih => exact scanf_byte.trans ih

theorem scanf_int {m : Int} (h : scanInt base s = some (m, t)) :
    scanf (.int base :: ds) s = (.int m :: (scanf ds t).1, (scanf ds t).2) := by rw [scanf, h]

theorem scanf_upTo (width : Nat) (stop : UInt8) (s : Bytes) : (scanf [.upTo width stop] s).1 =
    if (s.takeWhile (· != stop)).take width = [] then [] else [.str ((s.takeWhile (· != stop)).take width)] := by
  rw [scanf]
  split <;> rfl

def Directive.converts : Directive → Bool
  | .int _ => true
  | .upTo _ _ => true
  | _ => false

/-- The directive converts no text. -/
def Directive.isNumeric : Directive → Bool
  | .upTo _ _ => false
  | _ => true

/-- The number of values that the directives convert. -/
def conversions (ds : List Directive) : Nat := ds.countP Directive.converts

@[simp] theorem conversions_cons (d : Directive) (ds : List Directive) :
    conversions (d :: ds) = conversions ds + if d.converts then 1 else 0 := List.countP_cons

theorem readDigits_suffix (h : readDigits base s = some (n, t)) : t <:+ s := by
  rw [readDigits] at h
  split at h
  · cases h
  · obtain ⟨-, rfl⟩ := Prod.mk.inj (Option.some.inj h)
    exact List.dropWhile_suffix _

theorem dropHex_suffix (h : dropHex s = some t) : t <:+ s := by
  unfold dropHex at h
  split at h
  · split at h
    · obtain rfl := Option.some.inj h
      exact ⟨[48, _], rfl⟩
    · cases h
  · cases h

theorem readNumber_suffix (h : readNumber base s = some (n, t)) : t <:+ s := by
  unfold readNumber at h
  split at h
  · next u hu =>
    split at h
    · exact (readDigits_suffix h).trans (dropHex_suffix hu)
    · exact readDigits_suffix h
  · split at h <;> exact readDigits_suffix h

theorem scanInt_suffix {m : Int} (h : scanInt base s = some (m, t)) : t <:+ s := by
  have hmap : ∀ {u : Bytes} {f : Nat → Int}, u <:+ s.dropWhile isSpace →
      (readNumber base u).map (fun (n, r) => (f n, r)) = some (m, t) → t <:+ s := by
    intro u f hu hread
    obtain ⟨⟨n, r⟩, hn, heq⟩ := Option.map_eq_some_iff.mp hread
    obtain ⟨-, rfl⟩ := Prod.mk.inj heq
    exact (readNumber_suffix hn).trans (hu.trans (List.dropWhile_suffix _))
  unfold scanInt at h
  split at h
  · next heq => exact hmap (f := fun n => -(n : Int)) (heq ▸ List.suffix_cons _ _) h
  · next heq => exact hmap (f := fun n => (n : Int)) (heq ▸ List.suffix_cons _ _) h
  · exact hmap (f := fun n => (n : Int)) (List.suffix_refl _) h

/-- Where more is converted than stands in front of a byte of the format, the text holds that byte. -/
theorem scanf_mem (ds : List Directive) (c : UInt8) (ds' : List Directive)
    (h : conversions ds < (scanf (ds ++ .byte c :: ds') s).1.length) : c ∈ s := by
  induction ds generalizing s with
  | nil =>
    cases s with
    | nil => simp [scanf] at h
    | cons x s =>
      by_cases hx : x = c
      · exact hx ▸ List.mem_cons_self
      · simp [scanf_byte_ne hx] at h
  | cons d ds ih =>
    rw [List.cons_append] at h
    cases d with
    | space => exact (List.dropWhile_suffix _).subset (ih (by simpa [Directive.converts, scanf_space] using h))
    | byte x =>
      cases s with
      | nil => simp [scanf] at h
      | cons y s =>
        by_cases hy : y = x
        · subst hy
          exact List.mem_cons_of_mem _ (ih (by simpa [Directive.converts, scanf_byte] using h))
        · simp [scanf_byte_ne hy] at h
    | int base =>
      cases hint : scanInt base s with
      | none => simp [scanf, hint] at h
      | some r =>
        obtain ⟨m, t⟩ := r
        exact (scanInt_suffix hint).subset (ih (by simpa [Directive.converts, scanf_int hint] using h))
    | upTo width stop =>
      by_cases hstr : (s.takeWhile (· != stop)).take width = []
      · simp [scanf, hstr] at h
      · exact List.mem_of_mem_drop (ih (by simpa [Directive.converts, scanf, hstr] using h))

/-! ## Formats that match -/

/-- A format matches as its parts do, one after the other. -/
theorem scanAll_append (ds ds' : List Directive) (s : Bytes) :
    scanAll (ds ++ ds') s =
      (scanAll ds s).bind fun r => (scanAll ds' r.2).map fun r' => (r.1 ++ r'.1, r'.2) := by
  induction ds generalizing s with
  | nil =>
    rw [List.nil_append, scanAll, Option.bind_some]
    cases scanAll ds' s <;> rfl
  | cons d ds ih =>
    rw [List.cons_append]
    cases d with
    | space => exact ih _
    | byte x =>
      cases s with
      | nil => simp [scanAll]
      | cons y s =>
        by_cases hy : y = x
        · simp [hy, scanAll_byte, ih]
        · simp [scanAll_byte_ne hy]
    | int base =>
      simp only [scanAll, ih]
      cases scanInt base s with
      | none => rfl
      | some r =>
        simp only [Option.bind_some]
        cases scanAll ds r.2 with
        | none => rfl
        | some r' =>
          simp only [Option.bind_some, Option.map_some]
          cases scanAll ds' r'.2 <;> rfl
    | upTo width stop =>
      simp only [scanAll, ih]
      split
      · rfl
      · cases scanAll ds (s.drop ((s.takeWhile (· != stop)).take width).length) with
        | none => rfl
        | some r =>
          simp only [Option.bind_some, Option.map_some]
          cases scanAll ds' r.2 <;> rfl

/-- A format that matches converts all of its values. -/
theorem scanf_scanAll {r : List Arg × Bytes} (h : scanAll ds s = some r) :
    scanf ds s = r ∧ r.1.length = conversions ds := by
  induction ds generalizing s r with
  | nil =>
    obtain rfl := Option.some.inj h
    exact ⟨rfl, rfl⟩
  | cons d ds ih =>
    cases d with
    | space => simpa [Directive.converts, scanf_space] using ih h
    | byte x =>
      cases s with
      | nil => simp [scanAll] at h
      | cons y s =>
        by_cases hy : y = x
        · subst hy
          rw [scanAll_byte] at h
          simpa [scanf_byte, Directive.converts] using ih h
        · simp [scanAll_byte_ne hy] at h
    | int base =>
      rw [scanAll] at h
      obtain ⟨⟨n, t⟩, hint, h⟩ := Option.bind_eq_some_iff.mp h
      obtain ⟨r', hr', rfl⟩ := Option.map_eq_some_iff.mp h
      obtain ⟨heq, hlen⟩ := ih hr'
      exact ⟨by rw [scanf_int hint, heq], by simp [Directive.converts, hlen]⟩
    | upTo width stop =>
      rw [scanAll] at h
      split at h
      · cases h
      · next hstr =>
        obtain ⟨r', hr', rfl⟩ := Option.map_eq_some_iff.mp h
        obtain ⟨heq, hlen⟩ := ih hr'
        refine ⟨?_, by simp [Directive.converts, hlen]⟩
        rw [scanf, if_neg hstr, heq]

/-- A format of numbers converts numbers. -/
theorem scanAll_numeric {r : List Arg × Bytes} (hds : ∀ d ∈ ds, d.isNumeric = true) (h : scanAll ds s = some r) :
    r.1 = (r.1.map Arg.value).map .int := by
  induction ds generalizing s r with
  | nil =>
    obtain rfl := Option.some.inj h
    rfl
  | cons d ds ih =>
    obtain ⟨hd, htail⟩ := List.forall_mem_cons.mp hds
    cases d with
    | space => exact ih htail h
    | byte x =>
      cases s with
      | nil => simp [scanAll] at h
      | cons y s =>
        by_cases hy : y = x
        · subst hy
          rw [scanAll_byte] at h
          exact ih htail h
        · simp [scanAll_byte_ne hy] at h
    | int base =>
      rw [scanAll] at h
      obtain ⟨⟨n, t⟩, hint, h⟩ := Option.bind_eq_some_iff.mp h
      obtain ⟨r', hr', rfl⟩ := Option.map_eq_some_iff.mp h
      exact congrArg (Arg.int n :: ·) (ih htail hr')
    | upTo width stop => exact absurd hd Bool.false_ne_true

/-- A format that ends with a number and does not match converts too few values. -/
theorem scanf_scanAll_none {base : Nat} (h : scanAll (ds ++ [.int base]) s = none) :
    (scanf (ds ++ [.int base]) s).1.length < conversions ds + 1 := by
  induction ds generalizing s with
  | nil =>
    rw [List.nil_append, scanAll] at h
    cases hint : scanInt base s with
    | none => simp [scanf, hint]
    | some r => simp [hint, scanAll] at h
  | cons d ds ih =>
    rw [List.cons_append] at h ⊢
    cases d with
    | space => simpa [Directive.converts, scanf_space] using ih h
    | byte x =>
      cases s with
      | nil => simp [scanf]
      | cons y s =>
        by_cases hy : y = x
        · subst hy
          rw [scanAll_byte] at h
          simpa [Directive.converts, scanf_byte] using ih h
        · simp [scanf_byte_ne hy]
    | int base' =>
      rw [scanAll] at h
      cases hint : scanInt base' s with
      | none => simp [scanf, hint]
      | some r =>
        obtain ⟨n, t⟩ := r
        rw [hint, Option.bind_some, Option.map_eq_none_iff] at h
        simpa [Directive.converts, scanf_int hint] using ih h
    | upTo width stop =>
      rw [scanAll] at h
      by_cases hstr : (s.takeWhile (· != stop)).take width = []
      · simp [scanf, hstr]
      · rw [if_neg hstr, Option.map_eq_none_iff] at h
        simpa [Directive.converts, scanf, hstr] using ih h

theorem scanf_few {base : Nat} {args : List Arg} (h : scanAll (ds ++ [.int base]) s = none)
    (hscan : scanf (ds ++ [.int base]) s = (args, t)) : args.length ≤ conversions ds := by
  have := scanf_scanAll_none h
  rw [hscan] at this
  exact Nat.le_of_lt_succ this

theorem scanf_suffix (ds : List Directive) (s : Bytes) : (scanf ds s).2 <:+ s := by
  induction ds generalizing s with
  | nil => exact List.suffix_refl _
  | cons d ds ih =>
    cases d with
    | space => exact (ih _).trans (List.dropWhile_suffix _)
    | byte x =>
      cases s with
      | nil => exact List.suffix_refl _
      | cons y s =>
        by_cases hy : y = x
        · subst hy
          rw [scanf_byte]
          exact (ih s).trans (List.suffix_cons _ _)
        · rw [scanf_byte_ne hy]
    | int base =>
      cases hint : scanInt base s with
      | none =>
        rw [scanf, hint]
        exact List.dropWhile_suffix _
      | some r =>
        rw [scanf_int hint]
        exact (ih _).trans (scanInt_suffix hint)
    | upTo width stop =>
      rw [scanf]
      split
      · exact List.suffix_refl _
      · exact (ih _).trans (List.drop_suffix _ _)

/-- What is left is behind what was read. -/
theorem scanAll_suffix {r : List Arg × Bytes} (h : scanAll ds s = some r) : r.2 <:+ s := by
  induction ds generalizing s r with
  | nil =>
    obtain rfl := Option.some.inj h
    exact List.suffix_refl _
  | cons d ds ih =>
    cases d with
    | space => exact (ih h).trans (List.dropWhile_suffix _)
    | byte x =>
      cases s with
      | nil => simp [scanAll] at h
      | cons y s =>
        by_cases hy : y = x
        · subst hy
          exact (ih (by rwa [scanAll_byte] at h)).trans (List.suffix_cons _ _)
        · simp [scanAll_byte_ne hy] at h
    | int base =>
      rw [scanAll] at h
      obtain ⟨⟨n, t⟩, hint, h⟩ := Option.bind_eq_some_iff.mp h
      obtain ⟨r', hr', rfl⟩ := Option.map_eq_some_iff.mp h
      exact (ih hr').trans (scanInt_suffix hint)
    | upTo width stop =>
      rw [scanAll] at h
      split at h
      · cases h
      · obtain ⟨r', hr', rfl⟩ := Option.map_eq_some_iff.mp h
        exact (ih hr').trans (List.drop_suffix _ _)

/-- A format that starts with a byte takes it. -/
theorem scanAll_lt {r : List Arg × Bytes} (h : scanAll (.space :: .byte c :: ds) s = some r) :
    r.2.length < s.length := by
  have hdrop := (List.dropWhile_suffix isSpace (l := s)).length_le
  change scanAll (.byte c :: ds) (s.dropWhile isSpace) = some r at h
  cases hs : s.dropWhile isSpace with
  | nil => simp [hs, scanAll] at h
  | cons x t =>
    rw [hs] at h hdrop
    by_cases hx : x = c
    · subst hx
      rw [scanAll_byte] at h
      exact Nat.lt_of_lt_of_le (Nat.lt_succ_of_le (scanAll_suffix h).length_le) hdrop
    · simp [scanAll_byte_ne hx] at h

/-! ## Numbers -/

theorem readDigits_eq (hs : ∀ c ∈ s, isDigit base c = true) (hne : s ≠ [])
    (hrest : ∀ c ∈ rest.head?, isDigit base c = false) :
    readDigits base (s ++ rest) = some (digitsVal base s, rest) := by
  have htake : rest.takeWhile (isDigit base) = [] ∧ rest.dropWhile (isDigit base) = rest := by
    cases rest with
    | nil => exact ⟨rfl, rfl⟩
    | cons c rest =>
      have hc := hrest c rfl
      exact ⟨List.takeWhile_cons_of_neg (by simp [hc]), List.dropWhile_cons_of_neg (by simp [hc])⟩
  rw [readDigits, List.takeWhile_append_of_pos hs, List.dropWhile_append_of_pos hs, htake.1, htake.2, List.append_nil,
    if_neg hne]

/-- The digit of a value below 16, as `%x` prints it. -/
def digitChar (d : Nat) : UInt8 := if d < 10 then UInt8.ofNat (48 + d) else UInt8.ofNat (87 + d)

theorem digitVal_digitChar {d : Nat} (h : d < 16) : digitVal (digitChar d) = d := by
  interval_cases d <;> rfl

theorem digitsVal_append (s t : Bytes) :
    digitsVal base (s ++ t) = t.foldl (fun n c => base * n + digitVal c) (digitsVal base s) := List.foldl_append

theorem digitsVal_map {l : List Nat} (hl : ∀ d ∈ l, d < 16) :
    digitsVal base (l.reverse.map digitChar) = Nat.ofDigits base l := by
  induction l with
  | nil => rfl
  | cons d l ih =>
    obtain ⟨hd, hl⟩ := List.forall_mem_cons.mp hl
    rw [List.reverse_cons, List.map_append, digitsVal_append, ih hl, Nat.ofDigits_cons]
    simp [digitVal_digitChar hd, Nat.add_comm]

/-- Zeros in front change nothing. -/
theorem digitsVal_zeros (k : Nat) (s : Bytes) : digitsVal base (List.replicate k 48 ++ s) = digitsVal base s := by
  have hzeros : digitsVal base (List.replicate k 48) = 0 := by
    induction k with
    | zero => rfl
    | succ k ih =>
      rw [List.replicate_succ', digitsVal_append, ih]
      rfl
  rw [digitsVal_append, hzeros]
  rfl

/-- `%8.8x`: at least eight digits. -/
def hex8 (n : Nat) : Bytes :=
  List.replicate (8 - (Nat.digits 16 n).length) 48 ++ (Nat.digits 16 n).reverse.map digitChar

theorem hex8_digit (h : c ∈ hex8 n) : isDigit 16 c = true := by
  rw [hex8, List.mem_append] at h
  rcases h with h | h
  · rw [List.eq_of_mem_replicate h]
    rfl
  · obtain ⟨d, hd, rfl⟩ := List.mem_map.mp h
    have hlt := Nat.digits_lt_base (b := 16) (by decide) (List.mem_reverse.mp hd)
    simp [isDigit, digitVal_digitChar hlt, hlt]

theorem hex8_length (n : Nat) : 8 ≤ (hex8 n).length := by
  rw [hex8, List.length_append, List.length_replicate, List.length_map, List.length_reverse]
  omega

theorem digitsVal_hex8 (n : Nat) : digitsVal 16 (hex8 n) = n := by
  rw [hex8, digitsVal_zeros, digitsVal_map fun d hd => Nat.digits_lt_base (by decide) hd, Nat.ofDigits_digits]

/-- A digit is no space, no sign and no `x`. -/
theorem digit_cases (h : isDigit 16 c = true) : isSpace c = false ∧ c ≠ 45 ∧ c ≠ 43 ∧ c ≠ 120 ∧ c ≠ 88 := by
  refine ⟨?_, ?_, ?_, ?_, ?_⟩
  · rw [isDigit, decide_eq_true_iff, digitVal] at h
    rw [isSpace, Bool.or_eq_false_iff, beq_eq_false_iff_ne, ← Bool.decide_and, decide_eq_false_iff_not]
    simp only [UInt8.le_iff_toNat_le] at h ⊢
    refine ⟨?_, ?_⟩
    · rintro rfl
      exact absurd h (by decide)
    · rintro ⟨-, hle⟩
      have h13 : UInt8.toNat 13 = 13 := rfl
      rw [if_neg (by simp; omega), if_neg (by simp; omega), if_neg (by simp; omega)] at h
      omega
  all_goals
    rintro rfl
    exact absurd h (by decide)

theorem digit_mono {base' : Nat} (hle : base ≤ base') (h : isDigit base c = true) : isDigit base' c = true := by
  rw [isDigit, decide_eq_true_iff] at h ⊢
  exact Nat.lt_of_lt_of_le h hle

theorem scanInt_space (hc : isSpace c = true) : scanInt base (c :: s) = scanInt base s := by
  rw [scanInt, List.dropWhile_cons_of_pos hc, scanInt]

/-- White space in front of a number is skipped in any case. -/
theorem scanf_space_int : scanf (.space :: .int base :: ds) s = scanf (.int base :: ds) s := by
  have hidem : (s.dropWhile isSpace).dropWhile isSpace = s.dropWhile isSpace := List.dropWhile_idempotent isSpace _
  have hint : scanInt base (s.dropWhile isSpace) = scanInt base s := by rw [scanInt, hidem, scanInt]
  rw [scanf_space, scanf, scanf, hint, hidem]

/-- A number without a sign and a prefix. -/
theorem scanInt_digits (hbase : base ≠ 0) (hbase16 : base ≤ 16) (hs : ∀ c ∈ s, isDigit base c = true) (hne : s ≠ [])
    (hrest : ∀ c ∈ rest.head?, isDigit base c = false ∧ c ≠ 120 ∧ c ≠ 88) :
    scanInt base (s ++ rest) = some ((digitsVal base s : Int), rest) := by
  have hread : readDigits base (s ++ rest) = some (digitsVal base s, rest) :=
    readDigits_eq hs hne fun c hc => (hrest c hc).1
  obtain ⟨c, s, rfl⟩ := List.exists_cons_of_ne_nil hne
  obtain ⟨hspace, hminus, hplus, -⟩ := digit_cases (digit_mono hbase16 (hs c List.mem_cons_self))
  have hsecond : ∀ x ∈ (s ++ rest).head?, x ≠ 120 ∧ x ≠ 88 := by
    intro x hx
    cases s with
    | nil => exact (hrest x hx).2
    | cons d s =>
      obtain rfl : d = x := Option.some.inj hx
      exact (digit_cases (digit_mono hbase16 (hs d (by simp)))).2.2.2
  have hprefix : dropHex (c :: s ++ rest) = none := by
    rw [List.cons_append]
    generalize s ++ rest = u at hsecond
    unfold dropHex
    split
    · next x d t heq =>
      obtain ⟨-, rfl⟩ := List.cons.inj heq
      obtain ⟨h120, h88⟩ := hsecond x rfl
      rw [if_neg (fun h => h.1.elim h120 h88)]
    · rfl
  have hnumber : readNumber base (c :: s ++ rest) = some (digitsVal base (c :: s), rest) := by
    rw [readNumber, hprefix]
    simp only [hbase, ↓reduceIte, hread]
  rw [List.cons_append] at hnumber ⊢
  rw [scanInt, List.dropWhile_cons_of_neg (by simp [hspace])]
  split
  · next heq => exact absurd (List.cons.inj heq).1 hminus
  · next heq => exact absurd (List.cons.inj heq).1 hplus
  · rw [hnumber]
    rfl

theorem digitsVal_numeral (n : Nat) : digitsVal 10 (numeral 10 n) = n := by
  rw [numeral]
  split
  · next h => rw [h]; rfl
  · have hmap : ((Nat.digits 10 n).reverse.map fun d => UInt8.ofNat (48 + d)) = (Nat.digits 10 n).reverse.map digitChar :=
      List.map_congr_left fun d hd => by
        rw [digitChar, if_pos (digits_lt_ten (by decide) (by decide) (List.mem_reverse.mp hd))]
    rw [hmap, digitsVal_map fun d hd => Nat.lt_of_lt_of_le (digits_lt_ten (by decide) (by decide) hd) (by decide),
      Nat.ofDigits_digits]

theorem numeral_digit (h : c ∈ numeral 10 n) : isDigit 10 c = true := by
  obtain ⟨hlow, hhigh⟩ := numeral_digits (by decide) (by decide) h
  rw [isDigit, digitVal, if_pos ⟨hlow, hhigh⟩, decide_eq_true_iff]
  rw [UInt8.le_iff_toNat_le] at hlow hhigh
  have : c.toNat ≤ 57 := hhigh
  omega

/-- `%d` reads what `%d` wrote. -/
theorem scanInt_numeral (n : Nat) (hrest : ∀ c ∈ rest.head?, isDigit 10 c = false ∧ c ≠ 120 ∧ c ≠ 88) :
    scanInt 10 (numeral 10 n ++ rest) = some ((n : Int), rest) := by
  rw [scanInt_digits (by decide) (by decide) (fun c hc => numeral_digit hc) (numeral_ne_nil 10 n) hrest,
    digitsVal_numeral]

/-- `%x` reads what `%8.8x` wrote. -/
theorem scanInt_hex (n : Nat) (hrest : ∀ c ∈ rest.head?, isDigit 16 c = false ∧ c ≠ 120 ∧ c ≠ 88) :
    scanInt 16 (hex8 n ++ rest) = some ((n : Int), rest) := by
  have hne : hex8 n ≠ [] := by
    rw [← List.length_pos_iff]
    have := hex8_length n
    omega
  rw [scanInt_digits (by decide) (by decide) (fun c hc => hex8_digit hc) hne hrest, digitsVal_hex8]

end Scan
