import Mathlib.Data.List.Perm.Basic
import Mathlib.Data.Nat.Find
import Mathlib.Tactic.Common

/-!
# Linear probing

The slots of a hash table are a list that is walked around from the home slot of a key. `stop` is what
ends a walk.

* `walk_of_reached`: a walk ends at the first slot that stops it.
* `exists_reached`: where some slot stops the walk, it ends.
* `Reached.set`: a slot stays within reach when another is filled.
* `filterMap_fill`, `filterMap_drop`: the content of the table when a slot is filled or vacated.
-/

namespace Probe

variable {β γ : Type} {l : List β} {stop stop' : β → Bool} {home i j : Nat} {b x : β}

/-- The first slot from `i` on that stops the walk; `none` if it never ends. -/
def walk (l : List β) (stop : β → Bool) : Nat → Nat → Option Nat
  | 0, _ => none
  | fuel + 1, i =>
    match l[i]? with
    | none => none
    | some b => if stop b then some i else walk l stop fuel ((i + 1) % l.length)

/-- Slot `i` is `d` steps behind `home`, and no slot in between stops the walk. -/
def Reached (l : List β) (stop : β → Bool) (home i : Nat) : Prop :=
  ∃ d < l.length, i = (home + d) % l.length ∧
    ∀ e < d, ∀ b, l[(home + e) % l.length]? = some b → stop b = false

theorem Reached.lt (h : Reached l stop home i) : i < l.length := by
  obtain ⟨d, hd, rfl, -⟩ := h
  exact Nat.mod_lt _ (by omega)

theorem walk_steps {fuel d : Nat} (hfuel : d < fuel) (hhome : home < l.length)
    (hpass : ∀ e < d, ∀ b, l[(home + e) % l.length]? = some b → stop b = false)
    (hb : l[(home + d) % l.length]? = some b) (hstop : stop b = true) :
    walk l stop fuel home = some ((home + d) % l.length) := by
  induction d generalizing home fuel with
  | zero =>
    obtain ⟨fuel, rfl⟩ : ∃ n, fuel = n + 1 := ⟨fuel - 1, by omega⟩
    rw [Nat.add_zero, Nat.mod_eq_of_lt hhome] at hb
    rw [show (home + 0) % l.length = home from Nat.mod_eq_of_lt hhome]
    rw [walk, hb]
    simp [hstop]
  | succ d ih =>
    obtain ⟨fuel, rfl⟩ : ∃ n, fuel = n + 1 := ⟨fuel - 1, by omega⟩
    have hnext : ∀ e, ((home + 1) % l.length + e) % l.length = (home + (e + 1)) % l.length := by
      intro e
      rw [Nat.mod_add_mod, Nat.add_assoc, Nat.add_comm 1 e]
    have hfirst : stop l[home] = false := by
      have := hpass 0 (by omega) l[home]
      rw [Nat.add_zero, Nat.mod_eq_of_lt hhome] at this
      exact this (List.getElem?_eq_getElem hhome)
    have ih : walk l stop fuel ((home + 1) % l.length) = some (((home + 1) % l.length + d) % l.length) :=
      ih (by omega) (Nat.mod_lt _ (by omega))
        (fun e he b hb => hpass (e + 1) (by omega) b (by rwa [hnext] at hb)) (by rwa [hnext])
    rw [walk, List.getElem?_eq_getElem hhome]
    simp only [hfirst, Bool.false_eq_true, if_false]
    rw [ih, hnext]

/-- A walk ends at the first slot that stops it. -/
theorem walk_of_reached (hhome : home < l.length) (h : Reached l stop home i) (hb : l[i]? = some b)
    (hstop : stop b = true) : walk l stop l.length home = some i := by
  obtain ⟨d, hd, rfl, hpass⟩ := h
  exact walk_steps hd hhome hpass hb hstop

variable (stop) in
/-- Where some slot stops the walk, it ends. -/
theorem exists_reached (hhome : home < l.length) (h : ∃ b ∈ l, stop b = true) :
    ∃ i b, Reached l stop home i ∧ l[i]? = some b ∧ stop b = true := by
  obtain ⟨b, hb, hstop⟩ := h
  obtain ⟨j, hj, rfl⟩ := List.mem_iff_getElem.mp hb
  have hex : ∃ d, d < l.length ∧ ∃ b, l[(home + d) % l.length]? = some b ∧ stop b = true := by
    refine ⟨(j + l.length - home) % l.length, Nat.mod_lt _ (by omega), l[j], ?_, hstop⟩
    have hback : (home + (j + l.length - home) % l.length) % l.length = j := by
      rw [Nat.add_mod_mod, show home + (j + l.length - home) = j + l.length by omega,
        Nat.add_mod_right, Nat.mod_eq_of_lt hj]
    rw [hback, List.getElem?_eq_getElem hj]
  classical
  obtain ⟨hd, b, hb, hstop⟩ := Nat.find_spec hex
  refine ⟨_, b, ⟨Nat.find hex, hd, rfl, fun e he b' hb' => ?_⟩, hb, hstop⟩
  by_contra hne
  exact Nat.find_min hex he ⟨by omega, b', hb', by simpa using hne⟩

/-- What stops a walk less often leaves more within reach. -/
theorem Reached.mono (h : Reached l stop home i) (hle : ∀ b, stop' b = true → stop b = true) :
    Reached l stop' home i := by
  obtain ⟨d, hd, rfl, hpass⟩ := h
  refine ⟨d, hd, rfl, fun e he b hb => ?_⟩
  have := hpass e he b hb
  cases hstop' : stop' b with
  | false => rfl
  | true => rw [hle b hstop'] at this; exact this

/-- A slot is within reach of every walk that no other slot stops in addition. -/
theorem Reached.of_unique (h : Reached l stop home i)
    (hunique : ∀ j b, j ≠ i → l[j]? = some b → stop' b = true → stop b = true) :
    Reached l stop' home i := by
  obtain ⟨d, hd, rfl, hpass⟩ := h
  refine ⟨d, hd, rfl, fun e he b hb => ?_⟩
  have hne : (home + e) % l.length ≠ (home + d) % l.length := by
    intro heq
    have hzero := Nat.sub_mod_eq_zero_of_mod_eq heq.symm
    rw [Nat.add_sub_add_left, Nat.mod_eq_of_lt (by omega)] at hzero
    omega
  cases hstop' : stop' b with
  | false => rfl
  | true =>
    have := hpass e he b hb
    rw [hunique _ b hne hb hstop'] at this
    exact this

/-- A slot stays within reach when another is filled with what does not stop the walk. -/
theorem Reached.set (h : Reached l stop home i) (hx : stop x = false) :
    Reached (l.set j x) stop home i := by
  obtain ⟨d, hd, rfl, hpass⟩ := h
  refine ⟨d, by rwa [List.length_set], by rw [List.length_set], fun e he b hb => ?_⟩
  rw [List.length_set, List.getElem?_set] at hb
  split at hb
  · split at hb
    · cases hb; exact hx
    · cases hb
  · exact hpass e he b hb

/-! ## The content of the slots -/

variable {live : β → Option γ} {c : γ}

theorem perm_set (hb : l[i]? = some b) : ∃ rest, l.Perm (b :: rest) ∧ ∀ x, (l.set i x).Perm (x :: rest) := by
  obtain ⟨hi, rfl⟩ := List.getElem?_eq_some_iff.mp hb
  exact ⟨l.eraseIdx i, (List.getElem_cons_eraseIdx_perm hi).symm, fun x => List.set_perm_cons_eraseIdx hi x⟩

/-- Filling a slot adds to the content. -/
theorem filterMap_fill (hb : l[i]? = some b) (hnone : live b = none) (hx : live x = some c) :
    ((l.set i x).filterMap live).Perm (c :: l.filterMap live) := by
  obtain ⟨rest, hl, hset⟩ := perm_set hb
  have hset := (hset x).filterMap live
  have hl := hl.filterMap live
  rw [List.filterMap_cons_none hnone] at hl
  rw [List.filterMap_cons_some hx] at hset
  exact hset.trans (hl.symm.cons c)

/-- Vacating a slot takes from the content. -/
theorem filterMap_drop (hb : l[i]? = some b) (hc : live b = some c) (hx : live x = none) :
    (l.filterMap live).Perm (c :: (l.set i x).filterMap live) := by
  obtain ⟨rest, hl, hset⟩ := perm_set hb
  have hset := (hset x).filterMap live
  have hl := hl.filterMap live
  rw [List.filterMap_cons_some hc] at hl
  rw [List.filterMap_cons_none hx] at hset
  exact hl.trans (hset.symm.cons c)

end Probe
