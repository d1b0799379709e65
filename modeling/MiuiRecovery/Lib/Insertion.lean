import Mathlib.Data.List.Lex
import Mathlib.Data.List.Basic
import Mathlib.Order.Lattice
import Mathlib.Tactic.Common

/-!
# Binary insertion into a sorted list

A list sorted by a key, and the place that a binary search finds for a new element: behind an element of the
same key when there is one. Such insertions keep the list sorted and never put a later element of a key before
the first one.

* `Narrowed.up`, `Narrowed.down`: what a round of the search learns.
* `Place.insert_sorted`, `Place.insert_find`: the list behind an insertion.
* `prefix_of_between`: strings with one prefix are neighbours in the lexicographic order.
-/

namespace Insertion

variable {α κ : Type} [LinearOrder κ] {key : α → κ} {l : List α} {a x : α} {k : κ} {t mid : Nat}

def Sorted (key : α → κ) (l : List α) : Prop := l.Pairwise fun a b => key a ≤ key b

/-- `x` at index `t`; what stood there moves up. -/
def insertAt (l : List α) (t : Nat) (x : α) : List α := l.take t ++ x :: l.drop t

theorem insertAt_perm (l : List α) (t : Nat) (x : α) : (insertAt l t x).Perm (x :: l) := by
  unfold insertAt
  refine List.perm_middle.trans (List.Perm.cons x ?_)
  rw [List.take_append_drop]

@[simp] theorem insertAt_length (l : List α) (t : Nat) (x : α) : (insertAt l t x).length = l.length + 1 :=
  (insertAt_perm l t x).length_eq

theorem Sorted.le (h : Sorted key l) {i j : Nat} {b : α} (hij : i ≤ j) (ha : l[i]? = some a) (hb : l[j]? = some b) :
    key a ≤ key b := by
  obtain ⟨hi, rfl⟩ := List.getElem?_eq_some_iff.mp ha
  obtain ⟨hj, rfl⟩ := List.getElem?_eq_some_iff.mp hb
  rcases Nat.lt_or_eq_of_le hij with hlt | rfl
  · exact List.pairwise_iff_getElem.mp h i j hi hj hlt
  · exact le_rfl

/-! ## The place of a key -/

structure Place (key : α → κ) (l : List α) (k : κ) (t : Nat) : Prop where
  le_length : t ≤ l.length
  before : ∀ a ∈ l.take t, key a ≤ k
  behind : ∀ a ∈ l.drop t, k ≤ key a
  first : (∃ a ∈ l, key a = k) → ∃ a ∈ l.take t, key a = k

theorem Place.insert_sorted (h : Place key l (key x) t) (hs : Sorted key l) : Sorted key (insertAt l t x) := by
  rw [← List.take_append_drop t l] at hs
  obtain ⟨hbefore, hbehind, hacross⟩ := List.pairwise_append.mp hs
  refine List.pairwise_append.mpr ⟨hbefore, List.pairwise_cons.mpr ⟨h.behind, hbehind⟩, fun a ha b hb => ?_⟩
  rcases List.mem_cons.mp hb with rfl | hb
  · exact h.before a ha
  · exact hacross a ha b hb

/-- The first element of each key is the one that was inserted first. -/
theorem Place.insert_find (h : Place key l (key x) t) {q : α → Bool} (hq : ∀ a, q a = true ↔ key a = k) :
    (insertAt l t x).find? q = (l ++ [x]).find? q := by
  unfold insertAt
  conv_rhs => rw [← List.take_append_drop t l]
  simp only [List.find?_append, List.find?_cons, List.find?_nil]
  by_cases hx : q x = true
  · simp only [hx]
    cases hfind : (l.take t).find? q with
    | some a => simp
    | none =>
      have hnone : (l.drop t).find? q = none := by
        rw [List.find?_eq_none]
        intro a ha ha'
        obtain ⟨b, hb, hkey⟩ := h.first ⟨a, List.mem_of_mem_drop ha, ((hq a).mp ha').trans ((hq x).mp hx).symm⟩
        rw [List.find?_eq_none] at hfind
        exact hfind b hb ((hq b).mpr (hkey.trans ((hq x).mp hx)))
      rw [hnone]
      simp
  · simp [hx]

/-! ## The search -/

/-- What the search knows of the list when it is down to the indices from `low` to `high`. -/
structure Narrowed (key : α → κ) (l : List α) (k : κ) (low high : Int) : Prop where
  low_nonneg : 0 ≤ low
  low_le : low ≤ high + 1
  high_lt : high < l.length
  below : ∀ (j : Nat) a, l[j]? = some a → (j : Int) < low → key a < k
  above : ∀ (j : Nat) a, l[j]? = some a → high < (j : Int) → k < key a

theorem Narrowed.start (key : α → κ) (l : List α) (k : κ) : Narrowed key l k 0 (l.length - 1) where
  low_nonneg := Int.le_refl 0
  low_le := by omega
  high_lt := by omega
  below := fun j a _ hj => by omega
  above := fun j a ha hj => by
    have hlt := (List.getElem?_eq_some_iff.mp ha).1
    omega

variable {low high : Int}

theorem Narrowed.up (h : Narrowed key l k low high) (hs : Sorted key l) (ha : l[mid]? = some a)
    (hhigh : (mid : Int) ≤ high) (hlt : key a < k) : Narrowed key l k (mid + 1) high where
  low_nonneg := by omega
  low_le := by omega
  high_lt := h.high_lt
  below := fun j b hb hj => lt_of_le_of_lt (hs.le (by omega) hb ha) hlt
  above := h.above

theorem Narrowed.down (h : Narrowed key l k low high) (hs : Sorted key l) (ha : l[mid]? = some a)
    (hlow : low ≤ mid) (hhigh : (mid : Int) ≤ high) (hlt : k < key a) : Narrowed key l k low (mid - 1) where
  low_nonneg := h.low_nonneg
  low_le := by omega
  high_lt := by
    have := h.high_lt
    omega
  below := h.below
  above := fun j b hb hj => lt_of_lt_of_le hlt (hs.le (by omega) ha hb)

/-- The search ends without an element of the key. -/
theorem Narrowed.place (h : Narrowed key l k low high) (hend : high < low) : Place key l k low.toNat := by
  have hlow := h.low_nonneg
  have hle := h.low_le
  have hhigh := h.high_lt
  refine ⟨by omega, fun a ha => ?_, fun a ha => ?_, fun ⟨a, ha, hkey⟩ => ?_⟩
  · obtain ⟨j, hj, rfl⟩ := List.mem_take_iff_getElem.mp ha
    exact (h.below j _ (List.getElem?_eq_getElem (by omega)) (by omega)).le
  · obtain ⟨j, hj, rfl⟩ := List.mem_drop_iff_getElem.mp ha
    exact (h.above (low.toNat + j) _ (List.getElem?_eq_getElem _) (by omega)).le
  · obtain ⟨j, hj⟩ := List.mem_iff_getElem?.mp ha
    by_cases hjlow : (j : Int) < low
    · exact absurd hkey (h.below j a hj hjlow).ne
    · exact absurd hkey (h.above j a hj (by omega)).ne'

/-- The search meets an element of the key. -/
theorem Place.behind_equal (hs : Sorted key l) (ha : l[mid]? = some a) (hkey : key a = k) :
    Place key l k (mid + 1) := by
  obtain ⟨hmid, hget⟩ := List.getElem?_eq_some_iff.mp ha
  refine ⟨hmid, fun b hb => ?_, fun b hb => ?_, fun _ => ⟨a, ?_, hkey⟩⟩
  · obtain ⟨j, hj, rfl⟩ := List.mem_take_iff_getElem.mp hb
    exact hkey ▸ hs.le (i := j) (by omega) (List.getElem?_eq_getElem (by omega)) ha
  · obtain ⟨j, hj, rfl⟩ := List.mem_drop_iff_getElem.mp hb
    exact hkey ▸ hs.le (j := mid + 1 + j) (by omega) ha (List.getElem?_eq_getElem _)
  · exact List.mem_take_iff_getElem.mpr ⟨mid, by omega, hget⟩

/-! ## Prefixes -/

theorem cons_le_iff {β : Type} [LinearOrder β] {a b : β} {l₁ l₂ : List β} :
    a :: l₁ ≤ b :: l₂ ↔ a < b ∨ a = b ∧ l₁ ≤ l₂ := by
  rw [le_iff_lt_or_eq, le_iff_lt_or_eq]
  constructor
  · rintro (h | h)
    · cases h with
      | cons h => exact .inr ⟨rfl, .inl h⟩
      | rel h => exact .inl h
    · cases h
      exact .inr ⟨rfl, .inr rfl⟩
  · rintro (h | ⟨rfl, h | rfl⟩)
    · exact .inl (.rel h)
    · exact .inl (.cons h)
    · exact .inr rfl

/-- What stands between two strings with a prefix has the prefix. -/
theorem prefix_of_between {β : Type} [LinearOrder β] : ∀ {p l₁ l₂ l₃ : List β}, p <+: l₁ → p <+: l₃ →
    l₁ ≤ l₂ → l₂ ≤ l₃ → p <+: l₂
  | [], _, _, _, _, _, _, _ => List.nil_prefix
  | c :: p, l₁, [], l₃, h₁, _, h₁₂, _ => by
    obtain ⟨s, rfl⟩ := h₁
    exact absurd h₁₂ (not_le_of_gt (List.Lex.nil))
  | c :: p, l₁, d :: l₂, l₃, h₁, h₃, h₁₂, h₂₃ => by
    obtain ⟨s₁, rfl⟩ := h₁
    obtain ⟨s₃, rfl⟩ := h₃
    rw [List.cons_append, cons_le_iff] at h₁₂ h₂₃
    rcases h₁₂ with hcd | ⟨rfl, h₁₂⟩
    · rcases h₂₃ with hdc | ⟨rfl, -⟩
      · exact absurd hdc hcd.not_gt
      · exact absurd hcd (lt_irrefl _)
    · rcases h₂₃ with hdc | ⟨-, h₂₃⟩
      · exact absurd hdc (lt_irrefl _)
      · exact List.cons_prefix_cons.mpr
          ⟨rfl, prefix_of_between (List.prefix_append p s₁) (List.prefix_append p s₃) h₁₂ h₂₃⟩

end Insertion
