import Mathlib.Data.List.Basic
import Mathlib.Tactic.Common

/-!
# Streams in blocks

A device takes or gives blocks of `n` cells, and a buffer in front of it takes or gives any number of them.

* `absorb`: writing; the cells behind the last whole block are left over. `absorb_append`: it makes no
  difference how the cells are split. `absorb_steps`: it takes the whole blocks one after the other.
* `draw`: reading; the rest of the last block is left over. `draw_add`: it makes no difference how the
  request is split. `draw_stream`: what is read is the stream that the blocks make up.
-/

namespace Chunks

variable {α σ : Type} {n : Nat}

/-- A block. -/
abbrev Whole (α : Type) (n : Nat) : Type := { b : List α // b.length = n }

/-! ## Writing -/

section Absorb

/-- Write the whole blocks: what is left, or `none` where `step` failed. -/
def absorb (hn : 0 < n) (step : Whole α n → σ → Bool × σ) (xs : List α) (s : σ) : Option (List α) × σ :=
  if h : n ≤ xs.length then
    match step ⟨xs.take n, List.length_take_of_le h⟩ s with
    | (false, s) => (none, s)
    | (true, s) => absorb hn step (xs.drop n) s
  else (some xs, s)
termination_by xs.length
decreasing_by
  rw [List.length_drop]
  omega

variable {hn : 0 < n} {step : Whole α n → σ → Bool × σ} {xs rest : List α} {s t : σ}

theorem absorb_short (h : xs.length < n) : absorb hn step xs s = (some xs, s) := by
  rw [absorb, dif_neg (by omega)]

theorem absorb_whole (hn : 0 < n) (step : Whole α n → σ → Bool × σ) (b : Whole α n) (xs : List α) (s : σ) :
    absorb hn step (b.1 ++ xs) s = match step b s with
    | (false, s) => (none, s)
    | (true, s) => absorb hn step xs s := by
  obtain ⟨b, rfl⟩ := b
  rw [absorb, dif_pos (by simp)]
  simp

theorem absorb_length (h : absorb hn step xs s = (some rest, t)) : rest.length < n := by
  fun_induction absorb hn step xs s with
  | case1 => cases h
  | case2 xs s hle t' hstep ih => exact ih h
  | case3 xs s hlt =>
    cases h
    omega

/-- What every block that is written keeps. -/
theorem absorb_invariant (I : σ → Prop) (hI : ∀ b s s', step b s = (true, s') → I s → I s') (hs : I s)
    (h : absorb hn step xs s = (some rest, t)) : I t := by
  fun_induction absorb hn step xs s with
  | case1 => cases h
  | case2 xs s hle t' hstep ih => exact ih (hI _ _ _ hstep hs) h
  | case3 xs s hlt =>
    cases h
    exact hs

theorem absorb_take (h : n ≤ xs.length) (ys : List α) (s : σ) : absorb hn step (xs ++ ys) s =
    match step ⟨xs.take n, List.length_take_of_le h⟩ s with
    | (false, s) => (none, s)
    | (true, s) => absorb hn step (xs.drop n ++ ys) s := by
  have hsplit := absorb_whole hn step ⟨xs.take n, List.length_take_of_le h⟩ (xs.drop n ++ ys) s
  rwa [← List.append_assoc, List.take_append_drop] at hsplit

/-- The cells can be written in two parts. -/
theorem absorb_append (xs ys : List α) (s : σ) : absorb hn step (xs ++ ys) s =
    match absorb hn step xs s with
    | (none, s) => (none, s)
    | (some rest, s) => absorb hn step (rest ++ ys) s := by
  fun_induction absorb hn step xs s with
  | case1 xs s hle t hstep => rw [absorb_take hle, hstep]
  | case2 xs s hle t hstep ih => rw [absorb_take hle, hstep, ← ih]
  | case3 xs s hlt => rfl

/-- The whole blocks of the cells. -/
def wholes (hn : 0 < n) (xs : List α) : List (Whole α n) :=
  if h : n ≤ xs.length then ⟨xs.take n, List.length_take_of_le h⟩ :: wholes hn (xs.drop n) else []
termination_by xs.length
decreasing_by
  rw [List.length_drop]
  omega

/-- One block after the other, up to the first that fails. -/
def steps (step : Whole α n → σ → Bool × σ) : List (Whole α n) → σ → Bool × σ
  | [], s => (true, s)
  | b :: bs, s =>
    match step b s with
    | (false, s) => (false, s)
    | (true, s) => steps step bs s

theorem steps_append (step : Whole α n → σ → Bool × σ) (bs bs' : List (Whole α n)) (s : σ) :
    steps step (bs ++ bs') s =
    match steps step bs s with
    | (false, s) => (false, s)
    | (true, s) => steps step bs' s := by
  induction bs generalizing s with
  | nil => rfl
  | cons b bs ih =>
    rw [List.cons_append, steps, steps]
    cases step b s with
    | mk ok t =>
      cases ok with
      | false => rfl
      | true => exact ih t

theorem absorb_steps (xs : List α) (s : σ) : absorb hn step xs s =
    match steps step (wholes hn xs) s with
    | (false, s) => (none, s)
    | (true, s) => (some (xs.drop ((wholes hn xs).length * n)), s) := by
  fun_induction absorb hn step xs s with
  | case1 xs s hle t hstep => rw [wholes, dif_pos hle, steps, hstep]
  | case2 xs s hle t hstep ih =>
    have hlen : ((wholes hn (xs.drop n)).length + 1) * n = n + (wholes hn (xs.drop n)).length * n := by
      rw [Nat.succ_mul, Nat.add_comm]
    rw [wholes, dif_pos hle, steps, hstep, ih]
    simp only [List.length_cons, List.drop_drop, hlen]
  | case3 xs s hlt => simp [wholes, hlt, steps]

theorem wholes_length (hn : 0 < n) (xs : List α) : (wholes hn xs).length = xs.length / n := by
  fun_induction wholes hn xs with
  | case1 xs hle ih =>
    rw [List.length_cons, ih, List.length_drop, ← Nat.div_eq_sub_div hn hle]
  | case2 xs hlt => rw [List.length_nil, Nat.div_eq_of_lt (by omega)]

/-- The blocks and what is left are the cells. -/
theorem wholes_append_rest (hn : 0 < n) (xs : List α) :
    (wholes hn xs).flatMap Subtype.val ++ xs.drop ((wholes hn xs).length * n) = xs := by
  fun_induction wholes hn xs with
  | case1 xs hle ih =>
    rw [List.flatMap_cons, List.append_assoc, List.length_cons, Nat.succ_mul, Nat.add_comm, ← List.drop_drop]
    simp only
    rw [ih, List.take_append_drop]
  | case2 xs hlt => simp

end Absorb

/-! ## Reading -/

section Draw

/-- Read `want` cells, of which the first ones are `pending`: `none` where `next` failed. -/
def draw (hn : 0 < n) (next : σ → Option (Whole α n × σ)) (want : Nat) (pending : List α) (s : σ) :
    Option (List α × List α × σ) :=
  if want ≤ pending.length then some (pending.take want, pending.drop want, s)
  else
    match next s with
    | none => none
    | some (b, s) => (draw hn next (want - pending.length) b.1 s).map fun r => (pending ++ r.1, r.2)
termination_by 2 * want + if pending = [] then 1 else 0
decreasing_by
  have hb : b.1 ≠ [] := List.ne_nil_of_length_pos (by rw [b.2]; exact hn)
  rw [if_neg hb]
  split
  · simp_all
  · have := List.length_pos_iff.mpr ‹pending ≠ []›
    omega

variable {hn : 0 < n} {next : σ → Option (Whole α n × σ)} {pending : List α} {s : σ}

theorem draw_pending {want : Nat} (h : want ≤ pending.length) :
    draw hn next want pending s = some (pending.take want, pending.drop want, s) := by
  rw [draw, if_pos h]

theorem draw_next {want : Nat} (h : pending.length < want) : draw hn next want pending s =
    match next s with
    | none => none
    | some (b, s) => (draw hn next (want - pending.length) b.1 s).map fun r => (pending ++ r.1, r.2) := by
  rw [draw, if_neg (by omega)]

/-- All of the pending cells first. -/
theorem draw_skip {want : Nat} (h : pending.length ≤ want) : draw hn next want pending s =
    (draw hn next (want - pending.length) [] s).map fun r => (pending ++ r.1, r.2) := by
  rcases Nat.lt_or_eq_of_le h with hlt | rfl
  · have hpos : ([] : List α).length < want - pending.length := by
      rw [List.length_nil]
      omega
    rw [draw_next hlt, draw_next hpos]
    cases next s with
    | none => rfl
    | some r =>
      simp only [Option.map_map]
      rfl
  · rw [draw_pending h, Nat.sub_self, draw_pending (Nat.zero_le _)]
    simp

/-- What is read is the stream that the blocks make up. -/
theorem draw_stream (hn : 0 < n) (next : σ → Option (Whole α n × σ)) (stream : σ → List α)
    (hnone : ∀ s, next s = none → stream s = [])
    (hsome : ∀ s b t, next s = some (b, t) → stream s = b.1 ++ stream t) (want : Nat) (pending : List α) (s : σ) :
    match draw hn next want pending s with
    | none => (pending ++ stream s).length < want
    | some (xs, pending', t) => xs.length = want ∧ pending ++ stream s = xs ++ (pending' ++ stream t) := by
  fun_induction draw hn next want pending s with
  | case1 want pending s hle =>
    exact ⟨List.length_take_of_le hle, by rw [← List.append_assoc, List.take_append_drop]⟩
  | case2 want pending s hgt hnext =>
    rw [hnone s hnext, List.append_nil]
    exact Nat.lt_of_not_le hgt
  | case3 want pending s hgt b t hnext ih =>
    rw [hsome s b t hnext]
    cases hd : draw hn next (want - pending.length) b.1 t with
    | none =>
      rw [hd] at ih
      simp only [Option.map_none, List.length_append] at ih ⊢
      omega
    | some r =>
      rw [hd] at ih
      obtain ⟨hlen, heq⟩ := ih
      simp only [Option.map_some]
      refine ⟨by rw [List.length_append, hlen]; omega, ?_⟩
      rw [heq, List.append_assoc]

/-- The cells can be read in two parts. -/
theorem draw_add (k m : Nat) (pending : List α) (s : σ) : draw hn next (k + m) pending s =
    (draw hn next k pending s).bind fun r =>
      (draw hn next m r.2.1 r.2.2).map fun r' => (r.1 ++ r'.1, r'.2) := by
  fun_induction draw hn next k pending s with
  | case1 k pending s hle =>
    rw [Option.bind_some]
    by_cases hsum : k + m ≤ pending.length
    · rw [draw_pending hsum, draw_pending (by rw [List.length_drop]; omega), Option.map_some, List.take_add,
        List.drop_drop]
    · rw [draw_next (by omega), draw_next (by rw [List.length_drop]; omega), List.length_drop,
        show m - (pending.length - k) = k + m - pending.length by omega]
      cases next s with
      | none => rfl
      | some r =>
        simp only [Option.map_map]
        congr 1
        funext r'
        simp only [Function.comp_apply]
        rw [← List.append_assoc, List.take_append_drop]
  | case2 k pending s hgt hnext => rw [draw_next (by omega), hnext, Option.bind_none]
  | case3 k pending s hgt b t hnext ih =>
    rw [draw_next (by omega), hnext]
    simp only
    rw [show k + m - pending.length = k - pending.length + m by omega, ih]
    cases draw hn next (k - pending.length) b.1 t with
    | none => rfl
    | some r =>
      simp only [Option.map_some, Option.bind_some, Option.map_map]
      congr 1
      funext r'
      simp [List.append_assoc]

end Draw

end Chunks
