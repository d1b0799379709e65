import MiuiRecovery.Lib.CString
import Mathlib.Data.List.DropRight
import Mathlib.Tactic.Common

/-!
# Strings that are edited in place

A buffer and pointers into it, as C code has them that takes a text apart where it lies. Every access is checked: what
reads or writes outside of the buffer is `none`.

* `advance_eq`, `retreat_eq`: pointers that are moved over bytes of a kind.
* `strAt_eq`: the string that a pointer points to.
* `strtok_line`, `strtok_last`, `strtok_end`: one call of `strtok`.
-/

namespace InPlace

open CString

/-- `*p` -/
def load (m : Bytes) (p : Nat) : Option UInt8 := m[p]?

/-- `*p = c` -/
def store (m : Bytes) (p : Nat) (c : UInt8) : Option Bytes := if p < m.length then some (m.set p c) else none

/-- `while (c(*p)) ++p` -/
def advance (c : UInt8 → Bool) (m : Bytes) (p : Nat) : Option Nat :=
  if h : p < m.length then if c m[p] then advance c m (p + 1) else some p else none
  termination_by m.length - p

/-- `while (p > lo && c(*p)) --p` -/
def retreat (c : UInt8 → Bool) (m : Bytes) (lo p : Int) : Option Int :=
  if h : lo < p then do
    let x ← if 0 ≤ p then load m p.toNat else none
    if c x then retreat c m lo (p - 1) else some p
  else some p
  termination_by (p - lo).toNat

/-- The string at `p`, if its terminator is in the buffer. -/
def strAt (m : Bytes) (p : Nat) : Option Bytes :=
  if (0 : UInt8) ∈ m.drop p then some (cstr (m.drop p)) else none

/-- `strtok` with one separator, where its last call left off at `p`: the token, if there is one, the buffer, and where
it leaves off now. -/
def strtok (sep : UInt8) (m : Bytes) (p : Nat) : Option (Option Nat × Bytes × Nat) := do
  let start ← advance (· == sep) m p
  if (← load m start) = 0 then some (none, m, start)
  else
    let stop ← advance (fun x => x != sep && x != 0) m start
    if (← load m stop) = 0 then some (some start, m, stop)
    else
      let m ← store m stop 0
      some (some start, m, stop + 1)

section

variable {a b s m : Bytes} {x y : UInt8} {c : UInt8 → Bool} {p : Nat}

theorem load_eq : load (a ++ x :: b) a.length = some x := by simp [load]

theorem store_eq : store (a ++ x :: b) a.length y = some (a ++ y :: b) := by simp [store]

theorem advance_stop (h : c x = false) : advance c (a ++ x :: b) a.length = some a.length := by
  rw [advance]
  simp [h]

theorem advance_eq (hs : ∀ y ∈ s, c y = true) (hx : c x = false) :
    advance c (a ++ (s ++ x :: b)) a.length = some (a.length + s.length) := by
  induction s generalizing a with
  | nil => exact advance_stop hx
  | cons y s ih =>
    obtain ⟨hy, hs⟩ := List.forall_mem_cons.mp hs
    rw [advance, dif_pos (by simp)]
    have hget : (a ++ (y :: s ++ x :: b))[a.length] = y := by simp
    have hih := ih (a := a ++ [y]) hs
    rw [List.append_assoc, List.length_append, List.length_singleton] at hih
    rw [hget, if_pos hy, List.length_cons]
    rw [show a.length + (s.length + 1) = a.length + 1 + s.length by omega]
    exact hih

/-- A pointer that starts at the last byte of `s` goes back to the last byte that is not of the kind. -/
theorem retreat_eq (hhead : ∀ y ∈ s.head?, c y = false) :
    retreat c (a ++ (s ++ b)) a.length (a.length + s.length - 1) =
      some ((a.length : Int) + (s.rdropWhile c).length - 1) := by
  induction s using List.reverseRecOn generalizing b with
  | nil =>
    rw [retreat, dif_neg (by rw [List.length_nil]; omega), List.rdropWhile_nil]
  | append_singleton s y ih =>
    rw [retreat, List.length_append, List.length_singleton]
    by_cases hnil : s = []
    · subst hnil
      have hy : c y = false := hhead y (by simp)
      rw [dif_neg (by simp), List.nil_append, List.rdropWhile_singleton, if_neg (by simp [hy])]
      simp
    · have hpos := List.length_pos_iff.mpr hnil
      have hhead' : ∀ y ∈ s.head?, c y = false := by
        intro z hz
        refine hhead z ?_
        rw [List.head?_append_of_ne_nil _ hnil]
        exact hz
      have hload : load (a ++ (s ++ [y] ++ b)) (a.length + s.length) = some y := by simp [load]
      rw [dif_pos (by omega), if_pos (by omega),
        show ((a.length : Int) + ((s.length + 1 : Nat) : Int) - 1).toNat = a.length + s.length by omega, hload]
      simp only [Option.bind_eq_bind, Option.bind_some]
      rw [List.rdropWhile_concat]
      by_cases hy : c y = true
      · have hih := ih (b := [y] ++ b) hhead'
        rw [if_pos hy, if_pos hy, ← hih, List.append_assoc]
        congr 1
        omega
      · rw [if_neg hy, if_neg hy, List.length_append, List.length_singleton]

theorem strAt_eq (hs : (0 : UInt8) ∉ s) : strAt (a ++ (s ++ 0 :: b)) a.length = some s := by
  unfold strAt
  rw [List.drop_left, if_pos (by simp)]
  unfold cstr
  rw [List.takeWhile_append_of_pos, List.takeWhile_cons_of_neg (by simp), List.append_nil]
  intro y hy
  have : y ≠ 0 := fun h => hs (h ▸ hy)
  simpa using this

/-- Separators and the end of the string. -/
theorem strtok_end {sep : UInt8} {seps : Bytes} (hseps : ∀ y ∈ seps, y = sep) (hsep : sep ≠ 0) :
    strtok sep (a ++ (seps ++ 0 :: b)) a.length = some (none, a ++ (seps ++ 0 :: b), a.length + seps.length) := by
  have hstart : advance (· == sep) (a ++ (seps ++ 0 :: b)) a.length = some (a.length + seps.length) :=
    advance_eq (by simpa using hseps) (by simpa using hsep.symm)
  have hload : load (a ++ (seps ++ 0 :: b)) (a.length + seps.length) = some 0 := by
    rw [← List.append_assoc, ← List.length_append]
    exact load_eq
  simp [strtok, hstart, hload]

section Token

variable {sep : UInt8} {seps l : Bytes} (hseps : ∀ y ∈ seps, y = sep) (hl : l ≠ []) (hstop : ∀ y ∈ l, y ≠ sep ∧ y ≠ 0)

include hseps hl hstop

/-- Where a token starts and stops. -/
theorem strtok_token (hx : x = sep ∨ x = 0) :
    ∃ y, y ≠ 0 ∧ advance (· == sep) (a ++ (seps ++ (l ++ x :: b))) a.length = some (a.length + seps.length) ∧
      load (a ++ (seps ++ (l ++ x :: b))) (a.length + seps.length) = some y ∧
      advance (fun x => x != sep && x != 0) (a ++ (seps ++ (l ++ x :: b))) (a.length + seps.length) =
        some (a.length + seps.length + l.length) ∧
      load (a ++ (seps ++ (l ++ x :: b))) (a.length + seps.length + l.length) = some x := by
  have hassoc : a ++ (seps ++ (l ++ x :: b)) = (a ++ seps) ++ (l ++ x :: b) := (List.append_assoc ..).symm
  have hassoc' : a ++ (seps ++ (l ++ x :: b)) = (a ++ seps ++ l) ++ x :: b := by simp only [List.append_assoc]
  obtain ⟨y, l', rfl⟩ := List.exists_cons_of_ne_nil hl
  obtain ⟨hy, hy0⟩ := hstop y List.mem_cons_self
  refine ⟨y, hy0, ?_, ?_, ?_, ?_⟩
  · exact advance_eq (by simpa using hseps) (by simpa using hy)
  · rw [hassoc, ← List.length_append]
    exact load_eq
  · rw [hassoc, ← List.length_append]
    refine advance_eq (by simpa using hstop) ?_
    rcases hx with rfl | rfl <;> simp
  · rw [hassoc', ← List.length_append, ← List.length_append]
    exact load_eq

/-- Separators, a token and a separator behind it, which is overwritten. -/
theorem strtok_line (hsep : sep ≠ 0) :
    strtok sep (a ++ (seps ++ (l ++ sep :: b))) a.length =
      some (some (a.length + seps.length), a ++ (seps ++ (l ++ 0 :: b)), a.length + seps.length + l.length + 1) := by
  obtain ⟨y, hy0, hstart, hload, hend, hload'⟩ := strtok_token (a := a) (b := b) hseps hl hstop (.inl rfl)
  have hassoc : ∀ x : UInt8, a ++ (seps ++ (l ++ x :: b)) = (a ++ seps ++ l) ++ x :: b := by
    intro x
    simp only [List.append_assoc]
  have hstore : store (a ++ (seps ++ (l ++ sep :: b))) (a.length + seps.length + l.length) 0 =
      some (a ++ (seps ++ (l ++ 0 :: b))) := by
    rw [hassoc, hassoc, ← List.length_append, ← List.length_append]
    exact store_eq
  simp [strtok, hstart, hload, hend, hload', hy0, hsep, hstore]

/-- A token at the end of the string. -/
theorem strtok_last :
    strtok sep (a ++ (seps ++ (l ++ 0 :: b))) a.length =
      some (some (a.length + seps.length), a ++ (seps ++ (l ++ 0 :: b)), a.length + seps.length + l.length) := by
  obtain ⟨y, hy0, hstart, hload, hend, hload'⟩ := strtok_token (a := a) (b := b) hseps hl hstop (.inr rfl)
  simp [strtok, hstart, hload, hend, hload', hy0]

end Token

/-- What `strtok` finds in a text: its first token, with a terminator behind it, and the text that is left. -/
theorem strtok_tokens {sep : UInt8} {r : Bytes} (hsep : sep ≠ 0) (hr : (0 : UInt8) ∉ r) :
    (tokens (· == sep) r = [] ∧ ∃ next, strtok sep (a ++ (r ++ 0 :: b)) a.length = some (none, a ++ (r ++ 0 :: b), next)) ∨
    ∃ seps l z r', tokens (· == sep) r = l :: tokens (· == sep) r' ∧ (0 : UInt8) ∉ l ∧ (0 : UInt8) ∉ r' ∧
      (z ++ (r' ++ 0 :: b)).head? = some 0 ∧
      strtok sep (a ++ (r ++ 0 :: b)) a.length =
        some (some (a ++ seps).length, a ++ seps ++ (l ++ (z ++ (r' ++ 0 :: b))), (a ++ seps ++ (l ++ z)).length) := by
  rcases tokens_cases (· == sep) r with ⟨hall, htok⟩ | ⟨seps, l, rest, rfl, hseps, hl, hlsep, hrest, htok⟩
  · exact .inl ⟨htok, _, strtok_end (by simpa using hall) hsep⟩
  · right
    simp only [List.mem_append, not_or] at hr
    obtain ⟨-, hl0, hrest0⟩ := hr
    have hstop : ∀ y ∈ l, y ≠ sep ∧ y ≠ 0 := fun y hy =>
      ⟨by simpa using hlsep y hy, fun h => hl0 (h ▸ hy)⟩
    have hseps' : ∀ y ∈ seps, y = sep := by simpa using hseps
    cases rest with
    | nil =>
      refine ⟨seps, l, [], [], htok, hl0, List.not_mem_nil, rfl, ?_⟩
      rw [List.append_nil, List.append_assoc seps, strtok_last hseps' hl hstop]
      simp [Nat.add_assoc]
    | cons x r' =>
      obtain rfl : x = sep := by simpa using hrest x rfl
      rw [tokens_sep (by simp)] at htok
      refine ⟨seps, l, [0], r', htok, hl0, fun h => hrest0 (List.mem_cons_of_mem _ h), rfl, ?_⟩
      rw [List.append_assoc seps, List.append_assoc l, List.cons_append, strtok_line hseps' hl hstop hsep]
      simp [Nat.add_assoc]

end

/-! ## Blanks -/

/-- A text without the blanks at both of its ends. -/
def trim (s : Bytes) : Bytes := (s.dropWhile isSpace).rdropWhile isSpace

theorem dropWhile_head {p : UInt8 → Bool} {d : UInt8} {s w : Bytes} (h : s.dropWhile p = d :: w) : p d = false := by
  have hhead := List.head_dropWhile_not p (l := s) (by rw [h]; simp)
  simpa only [h, List.head_cons] using hhead

theorem head_dropWhile_space (s : Bytes) : ∀ c ∈ (s.dropWhile isSpace).head?, isSpace c = false := by
  intro c hc
  cases hs : s.dropWhile isSpace with
  | nil => rw [hs] at hc; cases hc
  | cons x xs =>
    rw [hs, List.head?_cons, Option.mem_some_iff] at hc
    exact hc ▸ dropWhile_head hs

theorem trim_append {sp t : Bytes} (hsp : ∀ c ∈ sp, isSpace c = true) (hhead : ∀ c ∈ t.head?, isSpace c = false) :
    trim (sp ++ t) = t.rdropWhile isSpace := by
  have hdrop : t.dropWhile isSpace = t := by
    cases t with
    | nil => rfl
    | cons c t => exact List.dropWhile_cons_of_neg (by simp [hhead c rfl])
  rw [trim, List.dropWhile_append_of_pos hsp, hdrop]

theorem takeWhile_space (s : Bytes) : ∀ c ∈ s.takeWhile isSpace, isSpace c = true := fun _ hc => List.mem_takeWhile_imp hc

theorem rdropWhile_not_mem {c : UInt8} {t : Bytes} (h : c ∉ t) : c ∉ t.rdropWhile isSpace := fun hc =>
  h ((List.rdropWhile_prefix isSpace t).subset hc)

theorem cstr_terminated (content : Bytes) : ∃ b, content ++ [0] = cstr content ++ 0 :: b := by
  have hsplit := List.takeWhile_append_dropWhile (p := (· != (0 : UInt8))) (l := content)
  have hcstr : content = cstr content ++ content.dropWhile (· != 0) := hsplit.symm
  cases hd : content.dropWhile (· != 0) with
  | nil =>
    rw [hd, List.append_nil] at hcstr
    exact ⟨[], by rw [← hcstr]⟩
  | cons x b =>
    have hx : x = 0 := by simpa using dropWhile_head hd
    rw [hd, hx] at hcstr
    exact ⟨b ++ [0], by rw [← List.cons_append, ← List.append_assoc, ← hcstr]⟩

end InPlace
