import Mathlib.Data.List.Basic
import Mathlib.Tactic.Common

/-!
# Writing words into an array

A memory is a list of cells; a word is a list of cells and is written at an offset.

* `store`: one word, `patch`: a list of words, one after the other.
* `patch_patch`: words at the same places overwrite each other completely.
* `patch_reads`: words that are equal or apart are all read back.
* `patch_rows_inside`, `patch_rows_outside`: the rows of a part of a picture.
-/

namespace Patch

variable {α : Type}

/-- `bs` with `word` at `off`. -/
def store (bs : List α) (off : Nat) (word : List α) : List α :=
  bs.take off ++ word ++ bs.drop (off + word.length)

/-- The words, written one after the other. -/
def patch (bs : List α) (ws : List (Nat × List α)) : List α :=
  ws.foldl (fun bs w => store bs w.1 w.2) bs

/-- Every word lies inside a memory of `n` cells. -/
def Fits (n : Nat) (ws : List (Nat × List α)) : Prop := ∀ w ∈ ws, w.1 + w.2.length ≤ n

/-- The word has the cell `i`. -/
def Covers (w : Nat × List α) (i : Nat) : Prop := w.1 ≤ i ∧ i < w.1 + w.2.length

variable {bs bs' word : List α} {off i : Nat} {ws ws' : List (Nat × List α)}

theorem length_store (h : off + word.length ≤ bs.length) : (store bs off word).length = bs.length := by
  simp [store]
  omega

theorem store_inside (h : off + word.length ≤ bs.length) (hc : Covers (off, word) i) :
    (store bs off word)[i]? = word[i - off]? := by
  obtain ⟨hlow, hhigh⟩ := hc
  have htake : (bs.take off).length = off := List.length_take_of_le (by omega)
  simp only at hlow hhigh
  rw [store, List.getElem?_append_left (by simp; omega), List.getElem?_append_right (by omega), htake]

theorem store_outside (h : off + word.length ≤ bs.length) (hc : ¬ Covers (off, word) i) :
    (store bs off word)[i]? = bs[i]? := by
  have hout : i < off ∨ off + word.length ≤ i := by
    simp only [Covers] at hc
    omega
  have htake : (bs.take off).length = off := List.length_take_of_le (by omega)
  rcases hout with hlow | hhigh
  · rw [store, List.append_assoc, List.getElem?_append_left (by omega)]
    exact List.getElem?_take_of_lt hlow
  · rw [store, List.getElem?_append_right (by simp; omega), List.getElem?_drop]
    congr 1
    simp
    omega

@[simp] theorem patch_nil : patch bs [] = bs := rfl

@[simp] theorem patch_cons (w : Nat × List α) : patch bs (w :: ws) = patch (store bs w.1 w.2) ws := rfl

theorem Fits.head {n : Nat} {w : Nat × List α} (h : Fits n (w :: ws)) : w.1 + w.2.length ≤ n :=
  h w List.mem_cons_self

theorem Fits.tail {n : Nat} {w : Nat × List α} (h : Fits n (w :: ws)) : Fits n ws :=
  fun w' hw' => h w' (List.mem_cons_of_mem _ hw')

theorem length_patch (h : Fits bs.length ws) : (patch bs ws).length = bs.length := by
  induction ws generalizing bs with
  | nil => rfl
  | cons w ws ih =>
    have hstore := length_store h.head
    rw [patch_cons, ih (hstore.symm ▸ h.tail), hstore]

/-- A cell of no word keeps its value. -/
theorem patch_outside (h : Fits bs.length ws) (hout : ∀ w ∈ ws, ¬ Covers w i) :
    (patch bs ws)[i]? = bs[i]? := by
  induction ws generalizing bs with
  | nil => rfl
  | cons w ws ih =>
    have hstore := length_store h.head
    rw [patch_cons, ih (hstore.symm ▸ h.tail) fun w' hw' => hout w' (List.mem_cons_of_mem _ hw'),
      store_outside h.head (hout w List.mem_cons_self)]

/-- The last word that has the cell decides about it, whatever was there before. -/
theorem patch_inside (h : Fits bs.length ws) (hlen : bs'.length = bs.length)
    (hin : ∃ w ∈ ws, Covers w i) : (patch bs ws)[i]? = (patch bs' ws)[i]? := by
  induction ws generalizing bs bs' with
  | nil => obtain ⟨w, hw, -⟩ := hin; cases hw
  | cons w ws ih =>
    have h' : w.1 + w.2.length ≤ bs'.length := hlen ▸ h.head
    have hstore := length_store h.head
    have hstore' := length_store h'
    rw [patch_cons, patch_cons]
    by_cases hrest : ∃ w' ∈ ws, Covers w' i
    · exact ih (hstore.symm ▸ h.tail) (by rw [hstore', hstore, hlen]) hrest
    · have hout : ∀ w' ∈ ws, ¬ Covers w' i := fun w' hw' hc => hrest ⟨w', hw', hc⟩
      have hw : Covers w i := by
        obtain ⟨w', hw', hc⟩ := hin
        rcases List.mem_cons.mp hw' with rfl | hw'
        · exact hc
        · exact absurd hc (hout w' hw')
      rw [patch_outside (hstore.symm ▸ h.tail) hout,
        patch_outside (by rw [hstore', hlen]; exact h.tail) hout, store_inside h.head hw,
        store_inside h' hw]

/-- Where the words are, and how long. -/
def places (ws : List (Nat × List α)) : List (Nat × Nat) := ws.map fun w => (w.1, w.2.length)

theorem fits_places {n : Nat} (h : places ws = places ws') (hfit : Fits n ws) : Fits n ws' := by
  intro w' hw'
  obtain ⟨w, hw, heq⟩ := List.mem_map.mp (h ▸ List.mem_map_of_mem hw' : (w'.1, w'.2.length) ∈ places ws)
  have := hfit w hw
  simp only [Prod.mk.injEq] at heq
  omega

theorem covers_places (h : places ws = places ws') (hc : ∃ w ∈ ws, Covers w i) :
    ∃ w ∈ ws', Covers w i := by
  obtain ⟨w, hw, hcov⟩ := hc
  obtain ⟨w', hw', heq⟩ := List.mem_map.mp (h ▸ List.mem_map_of_mem hw : (w.1, w.2.length) ∈ places ws')
  simp only [Prod.mk.injEq] at heq
  exact ⟨w', hw', by unfold Covers at *; omega⟩

/-- Words at the same places overwrite each other. -/
theorem patch_patch (hfit : Fits bs.length ws) (h : places ws = places ws') :
    patch (patch bs ws) ws' = patch bs ws' := by
  have hfit' := fits_places h hfit
  have hlen := length_patch hfit
  refine List.ext_getElem? fun i => ?_
  by_cases hc : ∃ w ∈ ws', Covers w i
  · exact (patch_inside hfit' hlen hc).symm
  · have hout : ∀ w ∈ ws', ¬ Covers w i := fun w hw hw' => hc ⟨w, hw, hw'⟩
    have hout' : ∀ w ∈ ws, ¬ Covers w i := fun w hw hw' => hc (covers_places h ⟨w, hw, hw'⟩)
    rw [patch_outside (hlen.symm ▸ hfit') hout, patch_outside hfit hout', patch_outside hfit' hout]

/-- Where two words have a common cell, they are one word. -/
def Apart (ws : List (Nat × List α)) : Prop :=
  ∀ w ∈ ws, ∀ w' ∈ ws, ∀ i, Covers w i → Covers w' i → w = w'

/-- A word that no later one overwrites in part is read back. -/
theorem patch_reads (hfit : Fits bs.length ws) (happart : Apart ws) {w : Nat × List α} (hw : w ∈ ws)
    (hc : Covers w i) : (patch bs ws)[i]? = w.2[i - w.1]? := by
  induction ws generalizing bs with
  | nil => cases hw
  | cons w₀ ws ih =>
    have hstore := length_store hfit.head
    have happart' : Apart ws := fun a ha b hb =>
      happart a (List.mem_cons_of_mem _ ha) b (List.mem_cons_of_mem _ hb)
    rw [patch_cons]
    by_cases hlater : w ∈ ws
    · exact ih (hstore.symm ▸ hfit.tail) happart' hlater
    · obtain rfl : w = w₀ := (List.mem_cons.mp hw).resolve_right hlater
      have hout : ∀ w' ∈ ws, ¬ Covers w' i := fun w' hw' hc' =>
        hlater (happart w hw w' (List.mem_cons_of_mem _ hw') i hc hc' ▸ hw')
      rw [patch_outside (hstore.symm ▸ hfit.tail) hout, store_inside hfit.head hc]

/-- A cell of some word holds what one of the words has there. -/
theorem patch_covered (hfit : Fits bs.length ws) (hin : ∃ w ∈ ws, Covers w i) :
    ∃ w ∈ ws, Covers w i ∧ (patch bs ws)[i]? = w.2[i - w.1]? := by
  induction ws generalizing bs with
  | nil => obtain ⟨w, hw, -⟩ := hin; cases hw
  | cons w₀ ws ih =>
    have hstore := length_store hfit.head
    rw [patch_cons]
    by_cases hrest : ∃ w ∈ ws, Covers w i
    · obtain ⟨w, hw, hc, heq⟩ := ih (hstore.symm ▸ hfit.tail) hrest
      exact ⟨w, List.mem_cons_of_mem _ hw, hc, heq⟩
    · have hout : ∀ w ∈ ws, ¬ Covers w i := fun w hw hc => hrest ⟨w, hw, hc⟩
      have hc : Covers w₀ i := by
        obtain ⟨w, hw, hc⟩ := hin
        rcases List.mem_cons.mp hw with rfl | hw
        · exact hc
        · exact absurd hc (hout w hw)
      refine ⟨w₀, List.mem_cons_self, hc, ?_⟩
      rw [patch_outside (hstore.symm ▸ hfit.tail) hout, store_inside hfit.head hc]

/-! ## Checked writes -/

variable {ι : Type} {f : List α → ι → Option (List α)} {l : List ι} {n : Nat}

/-- Writes that all stay inside the memory. -/
theorem foldlM_patch {word : ι → Nat × List α} (hlen : bs.length = n) (hfit : Fits n (l.map word))
    (h : ∀ a ∈ l, ∀ bs : List α, bs.length = n → f bs a = some (store bs (word a).1 (word a).2)) :
    l.foldlM f bs = some (patch bs (l.map word)) := by
  induction l generalizing bs with
  | nil => rfl
  | cons a l ih =>
    have hstore := length_store (hlen.symm ▸ hfit.head : (word a).1 + (word a).2.length ≤ bs.length)
    rw [List.foldlM_cons, h a List.mem_cons_self bs hlen, Option.bind_eq_bind, Option.bind_some,
      ih (hstore.trans hlen) hfit.tail fun a' ha' => h a' (List.mem_cons_of_mem _ ha')]
    rfl

/-- A write that fails in every memory of the size. -/
theorem foldlM_none (hlen : bs.length = n)
    (hkeep : ∀ a ∈ l, ∀ bs bs' : List α, bs.length = n → f bs a = some bs' → bs'.length = n)
    (h : ∃ a ∈ l, ∀ bs : List α, bs.length = n → f bs a = none) : l.foldlM f bs = none := by
  induction l generalizing bs with
  | nil => obtain ⟨a, ha, -⟩ := h; cases ha
  | cons a l ih =>
    rw [List.foldlM_cons]
    cases hf : f bs a with
    | none => rfl
    | some bs' =>
      obtain ⟨a', ha', hnone⟩ := h
      rcases List.mem_cons.mp ha' with rfl | ha'
      · rw [hnone bs hlen] at hf
        cases hf
      · exact ih (hkeep a List.mem_cons_self bs bs' hlen hf)
          (fun a'' ha'' => hkeep a'' (List.mem_cons_of_mem _ ha'')) ⟨a', ha', hnone⟩

/-- Writes that are made only inside the memory, once all of them were made. -/
theorem foldlM_some (word : ι → Nat × List α) {bs' : List α} (hlen : bs.length = n)
    (h : ∀ a ∈ l, ∀ bs bs' : List α, bs.length = n → f bs a = some bs' →
      (word a).1 + (word a).2.length ≤ n ∧ bs' = store bs (word a).1 (word a).2)
    (hrun : l.foldlM f bs = some bs') : Fits n (l.map word) ∧ bs' = patch bs (l.map word) := by
  induction l generalizing bs with
  | nil =>
    cases hrun
    exact ⟨fun w hw => (nomatch hw), rfl⟩
  | cons a l ih =>
    rw [List.foldlM_cons] at hrun
    cases hf : f bs a with
    | none =>
      rw [hf] at hrun
      cases hrun
    | some bs₁ =>
      obtain ⟨hfit, rfl⟩ := h a List.mem_cons_self bs bs₁ hlen hf
      rw [hf, Option.bind_eq_bind, Option.bind_some] at hrun
      obtain ⟨hrest, rfl⟩ := ih ((length_store (hlen.symm ▸ hfit)).trans hlen)
        (fun a' ha' => h a' (List.mem_cons_of_mem _ ha')) hrun
      refine ⟨fun w hw => ?_, rfl⟩
      rcases List.mem_cons.mp hw with rfl | hw
      · exact hfit
      · exact hrest w hw

/-! ## Rows of a picture -/

section Rows

variable {src : List α} {w h w' h' x₀ y₀ u₀ v₀ m k x y : Nat}

/-- The rows of a part of a picture of the width `w'`, placed in one of the width `w`. -/
def rows (src : List α) (w w' x₀ y₀ u₀ v₀ m k : Nat) : List (Nat × List α) :=
  (List.range k).map fun j => ((y₀ + j) * w + x₀, (src.drop ((v₀ + j) * w' + u₀)).take m)

/-- The end of a part of a row, and the end of the picture. -/
theorem row_end (hx : x₀ + m ≤ w) (hy : y < h) : y * w + x₀ + m ≤ w * h := by
  have hmul := Nat.mul_le_mul_right w (Nat.succ_le_of_lt hy)
  rw [Nat.succ_mul, Nat.mul_comm h] at hmul
  omega

theorem length_row (hsrc : src.length = w' * h') (hu : u₀ + m ≤ w') (hv : y < h') :
    ((src.drop (y * w' + u₀)).take m).length = m := by
  have hend := row_end hu hv
  rw [List.length_take, List.length_drop, hsrc]
  omega

theorem fits_rows (hsrc : src.length = w' * h') (hu : u₀ + m ≤ w') (hv : v₀ + k ≤ h')
    (hx : x₀ + m ≤ w) (hy : y₀ + k ≤ h) : Fits (w * h) (rows src w w' x₀ y₀ u₀ v₀ m k) := by
  intro c hc
  obtain ⟨j, hj, rfl⟩ := List.mem_map.mp hc
  rw [List.mem_range] at hj
  rw [length_row hsrc hu (by omega)]
  exact row_end hx (by omega)

/-- A part of a row has no cell of another row. -/
theorem row_covers (hx : x < w) (hm : x₀ + m ≤ w) :
    y₀ * w + x₀ ≤ y * w + x ∧ y * w + x < y₀ * w + x₀ + m ↔ y = y₀ ∧ x₀ ≤ x ∧ x < x₀ + m := by
  rcases Nat.lt_trichotomy y y₀ with hlt | rfl | hgt
  · have hmul := Nat.mul_le_mul_right w (Nat.succ_le_of_lt hlt)
    rw [Nat.succ_mul] at hmul
    omega
  · omega
  · have hmul := Nat.mul_le_mul_right w (Nat.succ_le_of_lt hgt)
    rw [Nat.succ_mul] at hmul
    omega

theorem rows_covers (hsrc : src.length = w' * h') (hu : u₀ + m ≤ w') (hv : v₀ + k ≤ h')
    (hm : x₀ + m ≤ w) (hx : x < w) {j : Nat} (hj : j < k) :
    Covers ((y₀ + j) * w + x₀, (src.drop ((v₀ + j) * w' + u₀)).take m) (y * w + x) ↔
      y = y₀ + j ∧ x₀ ≤ x ∧ x < x₀ + m := by
  rw [Covers, length_row hsrc hu (by omega), row_covers hx hm]

/-- The part holds the other picture. -/
theorem patch_rows_inside (hbs : bs.length = w * h) (hsrc : src.length = w' * h') (hu : u₀ + m ≤ w')
    (hv : v₀ + k ≤ h') (hm : x₀ + m ≤ w) (hk : y₀ + k ≤ h) (hx : x₀ ≤ x ∧ x < x₀ + m)
    (hy : y₀ ≤ y ∧ y < y₀ + k) :
    (patch bs (rows src w w' x₀ y₀ u₀ v₀ m k))[y * w + x]? =
      src[(v₀ + (y - y₀)) * w' + (u₀ + (x - x₀))]? := by
  have hxw : x < w := by omega
  obtain ⟨c, hc, hcov, heq⟩ := patch_covered (i := y * w + x) (hbs ▸ fits_rows hsrc hu hv hm hk)
    ⟨_, List.mem_map_of_mem (List.mem_range.mpr (by omega : y - y₀ < k)),
      (rows_covers hsrc hu hv hm hxw (by omega)).mpr ⟨by omega, hx⟩⟩
  obtain ⟨j, hj, rfl⟩ := List.mem_map.mp hc
  rw [List.mem_range] at hj
  obtain ⟨rfl, -⟩ := (rows_covers hsrc hu hv hm hxw hj).mp hcov
  refine heq.trans ?_
  simp only
  rw [List.getElem?_take_of_lt (by omega), List.getElem?_drop, Nat.add_sub_cancel_left]
  congr 1
  omega

/-- Beside the part, nothing changes. -/
theorem patch_rows_outside (hbs : bs.length = w * h) (hsrc : src.length = w' * h') (hu : u₀ + m ≤ w')
    (hv : v₀ + k ≤ h') (hm : x₀ + m ≤ w) (hk : y₀ + k ≤ h) (hx : x < w)
    (hout : ¬ ((x₀ ≤ x ∧ x < x₀ + m) ∧ y₀ ≤ y ∧ y < y₀ + k)) :
    (patch bs (rows src w w' x₀ y₀ u₀ v₀ m k))[y * w + x]? = bs[y * w + x]? := by
  refine patch_outside (hbs ▸ fits_rows hsrc hu hv hm hk) fun c hc hcov => hout ?_
  obtain ⟨j, hj, rfl⟩ := List.mem_map.mp hc
  rw [List.mem_range] at hj
  obtain ⟨rfl, hx'⟩ := (rows_covers hsrc hu hv hm hx hj).mp hcov
  exact ⟨hx', by omega⟩

end Rows

end Patch
