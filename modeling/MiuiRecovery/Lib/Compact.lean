import Mathlib.Data.List.SplitBy
import Mathlib.Data.List.Infix
import Mathlib.Tactic.Common

/-!
# Arrays that are compacted in place

A loop over an array that puts one element where a run of elements was: a run of one element is copied, a longer
one is fused from its first and its last element, in the slot that is next. What lies behind the slots that are
filled is read before it is overwritten, so the elements come out as if each run had a place of its own.

* `runEnd_spec`: the end of a run, as `List.splitBy` has it.
* `compact_spec`: an element for each run, in their order.
* `splitBy_congr`: what only looks at an image of the elements has the same runs there.
-/

namespace Compact

variable {α β : Type} (glue : α → α → Bool) (fuse : α → α → α → α)

/-- An element that goes with the one before it. -/
def glued (a : List α) (i : Nat) : Bool :=
  match a[i - 1]?, a[i]? with
  | some x, some y => glue x y
  | _, _ => false

/-- `for (stop = ...; stop < n && glue(a[stop - 1], a[stop]); ++stop)` -/
def runEnd (a : List α) : Nat → Nat → Nat
  | 0, stop => stop
  | left + 1, stop => if glued glue a stop then runEnd a left (stop + 1) else stop

/-- The run from `start` to `stop` goes to `out`. -/
def place (a : List α) (out start stop : Nat) : List α :=
  match a[out]?, a[start]?, a[stop - 1]? with
  | some slot, some first, some last => a.set out (if stop = start + 1 then first else fuse slot first last)
  | _, _, _ => a

/-- The loop over the runs, and the number of slots that it fills. -/
def loop : Nat → List α → Nat → Nat → List α × Nat
  | 0, a, _, out => (a, out)
  | left + 1, a, start, out =>
    if start < a.length then
      let stop := runEnd glue a (a.length - (start + 1)) (start + 1)
      loop left (place fuse a out start stop) stop (out + 1)
    else (a, out)

def compact (a : List α) : List α :=
  (loop glue fuse a.length a 0 0).1.take (loop glue fuse a.length a 0 0).2

/-- What a run becomes. -/
inductive Fused (a : List α) : α → List α → Prop
  | single (x : α) : Fused a x [x]
  | run (slot first : α) (between : List α) (last : α) (hslot : slot ∈ a) :
    Fused a (fuse slot first last) (first :: (between ++ [last]))

variable {glue fuse} {a pre g rest outs : List α}

theorem glued_at (hg : g ≠ []) (y : α) :
    glued glue (pre ++ g ++ y :: rest) (pre.length + g.length) = glue (g.getLast hg) y := by
  have hlen : 0 < g.length := List.length_pos_iff.mpr hg
  have hlast : (pre ++ g ++ y :: rest)[pre.length + g.length - 1]? = some (g.getLast hg) := by
    rw [List.append_assoc, List.getElem?_append_right (by omega), List.getElem?_append_left (by omega),
      List.getLast_eq_getElem, ← List.getElem?_eq_getElem]
    congr 1
    omega
  have hnext : (pre ++ g ++ y :: rest)[pre.length + g.length]? = some y := by
    rw [List.getElem?_append_right (by rw [List.length_append]), List.length_append, Nat.sub_self]
    rfl
  unfold glued
  rw [hlast, hnext]

/-- A run goes on as long as its elements are glued. -/
theorem runEnd_spec (glue : α → α → Bool) (pre rest : List α) (hg : g ≠ []) (hchain : g.IsChain fun x y => glue x y) :
    ∃ g' rest', g' ++ rest' = g ++ rest ∧ g <+: g' ∧ (g'.IsChain fun x y => glue x y) ∧
      (∀ x ∈ g'.getLast?, ∀ y ∈ rest'.head?, glue x y = false) ∧
      runEnd glue (pre ++ g ++ rest) rest.length (pre.length + g.length) = pre.length + g'.length := by
  induction rest generalizing g with
  | nil => exact ⟨g, [], rfl, List.prefix_rfl, hchain, by simp, rfl⟩
  | cons y rest ih =>
    have hat : glued glue (pre ++ g ++ y :: rest) (pre.length + g.length) = glue (g.getLast hg) y := glued_at hg y
    by_cases hy : glue (g.getLast hg) y = true
    · have hnext : (g ++ [y]).IsChain fun x y => glue x y := by
        rw [List.isChain_append]
        refine ⟨hchain, List.isChain_singleton y, ?_⟩
        intro x hx z hz
        rw [List.getLast?_eq_some_getLast hg] at hx
        cases hx
        cases hz
        exact hy
      obtain ⟨g', rest', hsplit, hpre, hch, hend, hrun⟩ := ih (List.append_ne_nil_of_left_ne_nil hg [y]) hnext
      refine ⟨g', rest', ?_, (List.prefix_append g [y]).trans hpre, hch, hend, ?_⟩
      · rw [hsplit, List.append_assoc]
        rfl
      · rw [List.length_cons, runEnd, hat, if_pos hy, ← hrun, List.length_append, ← Nat.add_assoc]
        simp only [List.append_assoc, List.cons_append, List.nil_append, List.length_singleton]
    · refine ⟨g, y :: rest, rfl, List.prefix_rfl, hchain, ?_, ?_⟩
      · intro x hx z hz
        rw [List.getLast?_eq_some_getLast hg] at hx
        cases hx
        cases hz
        exact Bool.eq_false_iff.mpr hy
      · rw [List.length_cons, runEnd, hat, if_neg hy]

theorem splitBy_run (hg : g ≠ []) (hchain : g.IsChain fun x y => glue x y)
    (hend : ∀ x ∈ g.getLast?, ∀ y ∈ rest.head?, glue x y = false) :
    (g ++ rest).splitBy glue = g :: rest.splitBy glue := by
  rw [List.splitBy_append hend, List.splitBy_of_isChain hg hchain]
  rfl

/-- A run goes to the slot that is next; what comes behind the run stays. -/
theorem place_spec (fuse : α → α → α → α) {start stop : Nat} (hrun : a.drop start = g ++ rest) (hg : g ≠ []) (hout : outs.length ≤ start)
    (hstop : stop = start + g.length) :
    ∃ r, Fused fuse a r g ∧ place fuse (outs ++ a.drop outs.length) outs.length start stop =
      (outs ++ [r]) ++ a.drop (outs.length + 1) := by
  obtain ⟨first, tail, rfl⟩ := List.exists_cons_of_ne_nil hg
  have hlen : a.length = start + ((first :: tail).length + rest.length) := by
    have := congrArg List.length hrun
    rw [List.length_drop, List.length_append] at this
    have hpos : 0 < (first :: tail).length := Nat.succ_pos _
    omega
  rw [List.length_cons] at hlen hstop
  have hget (i : Nat) (hi : outs.length ≤ i) : (outs ++ a.drop outs.length)[i]? = a[i]? := by
    rw [List.getElem?_append_right hi, List.getElem?_drop]
    congr 1
    omega
  have hrunAt (i : Nat) : a[start + i]? = (first :: tail ++ rest)[i]? := by
    rw [← hrun, List.getElem?_drop]
  have hslot : outs.length < a.length := by omega
  have hfirst : (outs ++ a.drop outs.length)[start]? = some first := (hget start hout).trans (hrunAt 0)
  have hlast : (outs ++ a.drop outs.length)[stop - 1]? = some ((first :: tail).getLast hg) := by
    rw [hget _ (by omega), show stop - 1 = start + tail.length by omega, hrunAt,
      List.getElem?_append_left (by rw [List.length_cons]; omega), List.getLast_eq_getElem,
      ← List.getElem?_eq_getElem]
    rfl
  have hset (r : α) : (outs ++ a.drop outs.length).set outs.length r = outs ++ [r] ++ a.drop (outs.length + 1) := by
    rw [List.set_append_right _ _ (Nat.le_refl _), Nat.sub_self, List.drop_eq_getElem_cons hslot, List.set_cons_zero,
      List.append_assoc, List.singleton_append]
  unfold place
  rw [hget _ (Nat.le_refl _), List.getElem?_eq_getElem hslot, hfirst, hlast]
  refine ⟨_, ?_, hset _⟩
  by_cases htail : tail = []
  · rw [if_pos (by rw [hstop, htail]; rfl), htail]
    exact .single first
  · have hsplit : first :: (tail.dropLast ++ [tail.getLast htail]) = first :: tail := by
      rw [List.dropLast_append_getLast]
    have hlong : ¬ stop = start + 1 := by
      have := List.length_pos_iff.mpr htail
      omega
    rw [if_neg hlong, List.getLast_cons htail]
    have hfused : Fused fuse a (fuse a[outs.length] first (tail.getLast htail))
        (first :: (tail.dropLast ++ [tail.getLast htail])) := .run _ _ _ _ (List.getElem_mem hslot)
    rwa [hsplit] at hfused

theorem loop_spec (glue : α → α → Bool) (fuse : α → α → α → α) (outs a : List α) (left start : Nat)
    (hout : outs.length ≤ start) (hleft : a.length - start ≤ left) :
    ∃ rs, List.Forall₂ (Fused fuse a) rs ((a.drop start).splitBy glue) ∧
      (loop glue fuse left (outs ++ a.drop outs.length) start outs.length).1.take
        (loop glue fuse left (outs ++ a.drop outs.length) start outs.length).2 = outs ++ rs := by
  induction left generalizing start outs with
  | zero =>
    rw [List.drop_of_length_le (by omega : a.length ≤ start)]
    refine ⟨[], .nil, ?_⟩
    rw [loop, List.take_left, List.append_nil]
  | succ left ih =>
    by_cases hstart : start < a.length
    · have hall : (outs ++ a.drop outs.length).length = a.length := by
        rw [List.length_append, List.length_drop]
        omega
      have hpre : outs ++ a.drop outs.length =
          (outs ++ (a.drop outs.length).take (start - outs.length)) ++ [a[start]] ++ a.drop (start + 1) := by
        rw [List.append_assoc, List.singleton_append, ← List.drop_eq_getElem_cons hstart, List.append_assoc]
        conv_lhs => rw [← List.take_append_drop (start - outs.length) (a.drop outs.length), List.drop_drop]
        rw [Nat.add_sub_cancel' hout]
      have hprelen : (outs ++ (a.drop outs.length).take (start - outs.length)).length = start := by
        rw [List.length_append, List.length_take, List.length_drop]
        omega
      obtain ⟨g, rest, hsplit, hprefix, hchain, hend, hrun⟩ := runEnd_spec glue
        (outs ++ (a.drop outs.length).take (start - outs.length)) (a.drop (start + 1))
        (List.cons_ne_nil a[start] []) (List.isChain_singleton _)
      have hg : g ≠ [] := fun h => by
        rw [h] at hprefix
        exact List.cons_ne_nil _ _ (List.prefix_nil.mp hprefix)
      rw [List.singleton_append, ← List.drop_eq_getElem_cons hstart] at hsplit
      rw [← hpre, hprelen, List.length_drop, List.length_singleton] at hrun
      obtain ⟨r, hfused, hplace⟩ := place_spec fuse hsplit.symm hg hout rfl
      have hpos : 0 < g.length := List.length_pos_iff.mpr hg
      have hrest : rest = a.drop (start + g.length) := by
        rw [← List.drop_drop, ← hsplit, List.drop_left]
      obtain ⟨rs, hall₂, hloop⟩ := @ih (outs ++ [r]) (start + g.length)
        (by rw [List.length_append, List.length_singleton]; omega) (by omega)
      rw [List.length_append, List.length_singleton] at hloop
      refine ⟨r :: rs, ?_, ?_⟩
      · rw [← hsplit, splitBy_run hg hchain hend, hrest]
        exact .cons hfused hall₂
      · rw [loop, hall, if_pos hstart]
        dsimp only
        rw [hrun, hplace, hloop, List.append_assoc]
        rfl
    · rw [List.drop_of_length_le (by omega : a.length ≤ start)]
      have hend : ¬ start < (outs ++ a.drop outs.length).length := by
        rw [List.length_append, List.length_drop]
        omega
      refine ⟨[], .nil, ?_⟩
      rw [loop, if_neg hend, List.take_left, List.append_nil]

/-- Each run becomes one element. -/
theorem compact_spec (glue : α → α → Bool) (fuse : α → α → α → α) (a : List α) :
    List.Forall₂ (Fused fuse a) (compact glue fuse a) (a.splitBy glue) := by
  obtain ⟨rs, hall, hloop⟩ := loop_spec glue fuse [] a a.length 0
    (Nat.le_refl _) (Nat.le_refl _)
  rw [List.nil_append, List.length_nil, List.drop_zero, List.nil_append] at hloop
  rw [compact, hloop]
  exact hall

/-- On neighbours `glue` only depends on `f`: the runs are those of the images. -/
theorem splitBy_congr {f : α → β} {glue' : β → β → Bool}
    (h : a.IsChain fun x y => glue x y = glue' (f x) (f y)) :
    (a.map f).splitBy glue' = (a.splitBy glue).map (List.map f) := by
  have hnil := List.nil_notMem_splitBy glue a
  rw [← List.flatten_splitBy glue a, List.isChain_flatten hnil] at h
  have hruns := List.isChain_getLast_head_splitBy glue a
  rw [List.splitBy_eq_iff]
  refine ⟨?_, ?_, ?_, ?_⟩
  · rw [← List.map_flatten, List.flatten_splitBy]
  · intro hmem
    obtain ⟨g, hg, hempty⟩ := List.mem_map.mp hmem
    rw [List.map_eq_nil_iff.mp hempty] at hg
    exact hnil hg
  · intro m hm
    obtain ⟨g, hg, rfl⟩ := List.mem_map.mp hm
    rw [List.isChain_map, List.isChain_iff_getElem]
    intro i hi
    rw [← List.isChain_iff_getElem.mp (h.1 g hg) i hi]
    exact List.isChain_iff_getElem.mp (List.isChain_of_mem_splitBy hg) i hi
  · rw [List.isChain_map, List.isChain_iff_getElem]
    intro i hi
    obtain ⟨hlast, hhead, hglue⟩ := List.isChain_iff_getElem.mp hruns i hi
    have heq := List.isChain_iff_getElem.mp h.2 i hi _ (List.getLast?_eq_some_getLast hlast) _
      (List.head?_eq_some_head hhead)
    refine ⟨List.map_eq_nil_iff.not.mpr hlast, List.map_eq_nil_iff.not.mpr hhead, ?_⟩
    rw [List.getLast_map, List.head_map, ← heq]
    exact hglue

end Compact
