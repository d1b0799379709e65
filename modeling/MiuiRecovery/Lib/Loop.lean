import Mathlib.Logic.Equiv.Basic
import Mathlib.Tactic.Common

/-!
# Loops over arrays

Calls that can fail. Arrays of integers whose accesses are checked, and loops whose body can fail: `none` stands for an
access out of bounds, or for a `while` loop that ran out of fuel.

* `forTo_spec`: an invariant that every round keeps holds behind the loop.
* `forUpTo_inv`: the same of a loop that an error can stop.
* `loopWhile_spec`: with a measure that every round lowers, enough fuel ends the loop.
-/

/-! ## Calls that can fail -/

theorem Except.ok_bind {ε α β : Type} (a : α) (f : α → Except ε β) : (Except.ok a >>= f) = f a := rfl

theorem Except.error_bind {ε α β : Type} (e : ε) (f : α → Except ε β) :
    ((Except.error e : Except ε α) >>= f) = .error e := rfl

theorem Except.bind_eq_ok {ε α β : Type} {x : Except ε α} {f : α → Except ε β} {b : β} :
    (x >>= f) = .ok b ↔ ∃ a, x = .ok a ∧ f a = .ok b := by
  cases x with
  | error e =>
    constructor
    · intro h
      cases h
    · rintro ⟨a, ha, -⟩
      cases ha
  | ok a =>
    constructor
    · intro h
      exact ⟨a, rfl, h⟩
    · rintro ⟨a', ha, hf⟩
      cases ha
      exact hf

theorem List.mapM_eq_some {α β : Type} {f : α → Option β} {g : α → β} {l : List α}
    (h : ∀ a ∈ l, f a = some (g a)) : l.mapM f = some (l.map g) := by
  induction l with
  | nil => rfl
  | cons a l ih =>
    rw [List.mapM_cons, h a List.mem_cons_self, ih fun a ha => h a (List.mem_cons_of_mem _ ha)]
    rfl

/-! ## Arrays -/

/-- An array of `size` integers. -/
structure Arr where
  size : Nat
  get : Nat → Int

namespace Arr

def set (A : Arr) (i : Nat) (v : Int) : Arr := { A with get := Function.update A.get i v }

/-- `A[i]` -/
def read (A : Arr) (i : Int) : Option Int := if 0 ≤ i ∧ i < A.size then some (A.get i.toNat) else none

/-- `A[i] = v` -/
def write (A : Arr) (i v : Int) : Option Arr :=
  if 0 ≤ i ∧ i < A.size then some (A.set i.toNat v) else none

/-- `tmp = A[p]; A[p] = A[q]; A[q] = tmp` -/
def swap (A : Arr) (p q : Int) : Option Arr := do
  let tmp ← A.read p
  let v ← A.read q
  let B ← A.write p v
  B.write q tmp

variable {A : Arr} {i j : Nat} {v : Int}

@[simp] theorem set_size : (A.set i v).size = A.size := rfl

@[simp] theorem set_get_self : (A.set i v).get i = v := Function.update_self ..

theorem set_get_ne (h : j ≠ i) : (A.set i v).get j = A.get j := Function.update_of_ne h ..

theorem read_eq (h : i < A.size) : A.read (i : Int) = some (A.get i) := by
  unfold read
  rw [if_pos (by omega), Int.toNat_natCast]

theorem write_eq (h : i < A.size) : A.write (i : Int) v = some (A.set i v) := by
  unfold write
  rw [if_pos (by omega), Int.toNat_natCast]

theorem swap_eq (hi : i < A.size) (hj : j < A.size) :
    A.swap i j = some ((A.set i (A.get j)).set j (A.get i)) := by
  have hj' : j < (A.set i (A.get j)).size := hj
  simp [swap, read_eq hi, read_eq hj, write_eq hi, write_eq hj']

theorem swap_get (k : Nat) :
    ((A.set i (A.get j)).set j (A.get i)).get k = A.get (Equiv.swap i j k) := by
  by_cases hj : k = j
  · rw [hj, set_get_self, Equiv.swap_apply_right]
  · rw [set_get_ne hj]
    by_cases hi : k = i
    · rw [hi, set_get_self, Equiv.swap_apply_left]
    · rw [set_get_ne hi, Equiv.swap_apply_of_ne_of_ne hi hj]

end Arr

/-! ## Loops -/

variable {β : Type}

/-- `for (i = 0; i < n; i++)` -/
def forTo (f : Nat → β → Option β) : Nat → β → Option β
  | 0, s => some s
  | n + 1, s => (forTo f n s).bind (f n)

theorem forTo_spec {f : Nat → β → Option β} {n : Nat} {s : β} (I : Nat → β → Prop) (h0 : I 0 s)
    (hstep : ∀ i s, i < n → I i s → ∃ s', f i s = some s' ∧ I (i + 1) s') :
    ∃ s', forTo f n s = some s' ∧ I n s' := by
  induction n with
  | zero => exact ⟨s, rfl, h0⟩
  | succ n ih =>
    obtain ⟨s₁, hrun, hs₁⟩ := ih fun i s hi => hstep i s (by omega)
    obtain ⟨s₂, hlast, hs₂⟩ := hstep n s₁ (by omega) hs₁
    refine ⟨s₂, ?_, hs₂⟩
    rw [forTo, hrun, Option.bind_some, hlast]

/-- Two runs of a loop that stay related. -/
theorem forTo_rel {f : Nat → β → Option β} {n : Nat} {s s' : β} (R : β → β → Prop) (h0 : R s s')
    (hstep : ∀ i s s', i < n → R s s' → ∃ t t', f i s = some t ∧ f i s' = some t' ∧ R t t') :
    ∃ t t', forTo f n s = some t ∧ forTo f n s' = some t' ∧ R t t' := by
  induction n with
  | zero => exact ⟨s, s', rfl, rfl, h0⟩
  | succ n ih =>
    obtain ⟨s₁, s₁', hrun, hrun', hs₁⟩ := ih fun i s s' hi => hstep i s s' (by omega)
    obtain ⟨t, t', hlast, hlast', ht⟩ := hstep n s₁ s₁' (by omega) hs₁
    refine ⟨t, t', ?_, ?_, ht⟩
    · rw [forTo, hrun, Option.bind_some, hlast]
    · rw [forTo, hrun', Option.bind_some, hlast']

/-- `for (i = 0; i < n; i++)` with a body that an error can stop -/
def forUpTo {ε : Type} (f : Nat → β → Except ε β) : Nat → β → Except ε β
  | 0, s => .ok s
  | n + 1, s => forUpTo f n s >>= f n

theorem forUpTo_inv {ε : Type} {f : Nat → β → Except ε β} {n : Nat} {s s' : β} (I : Nat → β → Prop) (h0 : I 0 s)
    (hstep : ∀ i s s', i < n → I i s → f i s = .ok s' → I (i + 1) s') (hrun : forUpTo f n s = .ok s') : I n s' := by
  induction n generalizing s' with
  | zero =>
    cases hrun
    exact h0
  | succ n ih =>
    obtain ⟨s₁, hrun, hlast⟩ := Except.bind_eq_ok.mp hrun
    exact hstep n s₁ s' (Nat.lt_succ_self n) (ih (fun i s s' hi => hstep i s s' (Nat.lt_succ_of_lt hi)) hrun) hlast

/-- `while (c)` with fuel for so many rounds. -/
def loopWhile (c : β → Bool) (f : β → Option β) : Nat → β → Option β
  | 0, s => if c s then none else some s
  | fuel + 1, s => if c s then (f s).bind (loopWhile c f fuel) else some s

theorem loopWhile_spec {c : β → Bool} {f : β → Option β} (I : β → Prop) (m : β → Nat)
    (hstep : ∀ s, I s → c s = true → ∃ s', f s = some s' ∧ I s' ∧ m s' < m s) (fuel : Nat) (s : β)
    (hs : I s) (hfuel : m s ≤ fuel) : ∃ s', loopWhile c f fuel s = some s' ∧ I s' ∧ c s' = false := by
  induction fuel generalizing s with
  | zero =>
    cases hc : c s with
    | false => exact ⟨s, by rw [loopWhile, hc]; rfl, hs, hc⟩
    | true =>
      obtain ⟨s', -, -, hlt⟩ := hstep s hs hc
      omega
  | succ fuel ih =>
    cases hc : c s with
    | false => exact ⟨s, by rw [loopWhile, hc]; rfl, hs, hc⟩
    | true =>
      obtain ⟨s₁, hrun, hs₁, hlt⟩ := hstep s hs hc
      obtain ⟨s', hloop, hs', hend⟩ := ih s₁ hs₁ (by omega)
      refine ⟨s', ?_, hs', hend⟩
      rw [loopWhile, hc, if_pos rfl, hrun, Option.bind_some, hloop]
