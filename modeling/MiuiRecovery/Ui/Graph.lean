import MiuiRecovery.Lib.Patch
import Mathlib.Algebra.Order.Ring.Int
import Mathlib.Order.MinMax

/-!
# Drawing a canvas on another one

`ag_draw_ex` (`miui_graph.c`): a rectangle of the source canvas is copied, row by row, after it was clipped
to both canvases.

* `Axis`: the clipping of one coordinate, and what it comes to (`skip_eq`, `cut_eq`, `enter_eq`, `clip_eq`).
* `clips_iff`: for which rectangles exactly the pixels that lie in both canvases are copied.
-/

namespace Miui

namespace Graph

/-! ## miui_graph.c -/

/-- A canvas and its pixels, row after row. They take two bytes each, and lie in one object of memory. -/
structure Canvas where
  w : Nat
  h : Nat
  data : List UInt16
  size : data.length = w * h
  w_lt : w < 2 ^ 31
  h_lt : h < 2 ^ 31
  bytes : 2 * data.length < 2 ^ 31

/-- The `int` arguments of `ag_draw_ex`. -/
structure Placement where
  dx : Int
  dy : Int
  sx : Int
  sy : Int
  sw : Int
  sh : Int
  ints : ∀ n ∈ [dx, dy, sx, sy, sw, sh], -2 ^ 31 ≤ n ∧ n < 2 ^ 31

/-- The result and the pixels of the destination. -/
structure Drawn where
  result : Nat
  data : List UInt16

/-- An `int`: arithmetic that leaves its range is undefined. -/
def int (n : Int) : Option Int := if -2 ^ 31 ≤ n ∧ n < 2 ^ 31 then some n else none

/-- `abs` -/
def intAbs (n : Int) : Option Int := int (if n < 0 then -n else n)

/-- `if (sx<0) { dx+=abs(sx); sw-=abs(sx); sx=0; }`, and the same with `y`: `dx`, `sw` and `sx`. -/
def skip (d n s : Int) : Option (Int × Int × Int) :=
  if s < 0 then do
    let d ← int (d + (← intAbs s))
    let n ← int (n - (← intAbs s))
    some (d, n, 0)
  else some (d, n, s)

/-- `if (sw+sx>=sc->w) sw-=(sw+sx) - sc->w;` -/
def cut (n s size : Int) : Option Int := do
  let last ← int (n + s)
  if last ≥ size then int (n - (← int (last - size))) else some n

/-- `if (dx<0) { … }`: `sr_x`, `sr_w` and `ds_x`. -/
def enter (d s n : Int) : Option (Int × Int × Int) :=
  if d < 0 then do
    let nd ← intAbs d
    let s ← int (s + nd)
    let n ← int (n - nd)
    some (s, n, 0)
  else some (s, n, d)

/-- `if (sr_w+dx>dc->w) sr_w-=(sr_w+dx) - dc->w;` -/
def clip (n d size : Int) : Option Int := do
  let last ← int (n + d)
  if last > size then int (n - (← int (last - size))) else some n

/-- `memcpy` of `n` pixels, where a negative number is a huge one. -/
def memcpy (dst src : List UInt16) (pos start n : Int) : Option (List UInt16) :=
  if n < 0 then none
  else if n = 0 then some dst
  else if 0 ≤ pos ∧ pos + n ≤ dst.length ∧ 0 ≤ start ∧ start + n ≤ src.length then
    some (Patch.store dst pos.toNat ((src.drop start.toNat).take n.toNat))
  else none

/-- The loop over the rows. The positions are exact: in a row that is copied, they are positions of pixels. -/
def copyRows (dst src : List UInt16) (dc_w sc_w ds_x ds_y sr_x sr_y sr_w sr_h : Int) : Option (List UInt16) :=
  (List.range sr_h.toNat).foldlM (fun dst y =>
    memcpy dst src ((ds_y + (y : Nat)) * dc_w + ds_x) ((sr_y + (y : Nat)) * sc_w + sr_x) sr_w) dst

/-- `ag_draw_ex`: `none` where it leaves a canvas, or the range of `int`. -/
def agDrawEx (dc sc : Canvas) (p : Placement) : Option Drawn :=
  if p.dx ≥ dc.w then some ⟨0, dc.data⟩
  else if p.dy ≥ dc.h then some ⟨0, dc.data⟩
  else do
    let (dx, sw, sx) ← skip p.dx p.sw p.sx
    let (dy, sh, sy) ← skip p.dy p.sh p.sy
    let sw ← cut sw sx sc.w
    let sh ← cut sh sy sc.h
    if sw ≤ 0 ∨ sh ≤ 0 then some ⟨0, dc.data⟩
    else do
      let (sr_x, sr_w, ds_x) ← enter dx sx sw
      let (sr_y, sr_h, ds_y) ← enter dy sy sh
      let sr_w ← clip sr_w dx dc.w
      let sr_h ← clip sr_h dy dc.h
      let data ← copyRows dc.data sc.data dc.w sc.w ds_x ds_y sr_x sr_y sr_w sr_h
      some ⟨1, data⟩

/-! ## One coordinate -/

/-- A coordinate of the rectangle: its place in the destination and in the source, its length, and the sizes
of the canvases. -/
structure Axis where
  d : Int
  s : Int
  n : Int
  size : Nat
  source : Nat

namespace Axis

variable (a : Axis)

/-- Where the part that the source has begins in the destination. -/
def first : Int := a.d - min a.s 0

/-- The length of this part. -/
def count : Int := min (a.n + min a.s 0) (a.source - max a.s 0)

/-- The part that is copied: its place in the destination and in the source, and its length. -/
def dst : Int := max a.first 0

def src : Int := max a.s 0 - min a.first 0

def copied : Int := min (a.count + min a.first 0) (a.size - a.first)

/-- The arguments are `int`s. -/
structure Ints : Prop where
  d : -2 ^ 31 ≤ a.d ∧ a.d < 2 ^ 31
  s : -2 ^ 31 ≤ a.s ∧ a.s < 2 ^ 31
  n : -2 ^ 31 ≤ a.n ∧ a.n < 2 ^ 31
  size : a.size < 2 ^ 31
  source : a.source < 2 ^ 31

/-- Clipping to the source stays in the range of `int`. -/
structure Defined : Prop where
  neg : -a.s < 2 ^ 31
  first : a.first < 2 ^ 31
  length : -2 ^ 31 ≤ a.n + min a.s 0
  last : a.n + min a.s 0 + max a.s 0 < 2 ^ 31

/-- So does clipping to the destination. -/
structure Defined' : Prop where
  neg : -a.first < 2 ^ 31
  src : a.src < 2 ^ 31
  low : -2 ^ 31 ≤ a.count + min a.first 0 + a.first
  high : a.count + min a.first 0 + a.first < 2 ^ 31

end Axis

variable {a : Axis}

theorem int_eq {n : Int} (h : -2 ^ 31 ≤ n ∧ n < 2 ^ 31) : int n = some n := if_pos h

theorem int_none {n : Int} (h : ¬ (-2 ^ 31 ≤ n ∧ n < 2 ^ 31)) : int n = none := if_neg h

theorem skip_eq (hi : a.Ints) (h : -a.s < 2 ^ 31 ∧ a.first < 2 ^ 31 ∧ -2 ^ 31 ≤ a.n + min a.s 0) :
    skip a.d a.n a.s = some (a.first, a.n + min a.s 0, max a.s 0) := by
  obtain ⟨hneg, hfirst, hlen⟩ := h
  have hd := hi.d
  have hn := hi.n
  unfold skip Axis.first at *
  by_cases hs : a.s < 0
  · rw [if_pos hs, intAbs, if_pos hs, int_eq (by omega)]
    simp only [Option.bind_eq_bind, Option.bind_some]
    rw [int_eq (by omega), int_eq (by omega)]
    simp only [Option.bind_some, Option.some.injEq, Prod.mk.injEq]
    omega
  · rw [if_neg hs, Option.some.injEq, Prod.mk.injEq, Prod.mk.injEq]
    omega

theorem skip_none (hi : a.Ints) (h : ¬ (-a.s < 2 ^ 31 ∧ a.first < 2 ^ 31 ∧ -2 ^ 31 ≤ a.n + min a.s 0)) :
    skip a.d a.n a.s = none := by
  have hd := hi.d
  have hn := hi.n
  have hs' := hi.s
  unfold skip Axis.first at *
  have hs : a.s < 0 := by omega
  rw [if_pos hs, intAbs, if_pos hs]
  by_cases hneg : -a.s < 2 ^ 31
  · rw [int_eq (by omega)]
    simp only [Option.bind_eq_bind, Option.bind_some]
    by_cases hd' : a.d + -a.s < 2 ^ 31
    · rw [int_eq (by omega), int_none (by omega)]
      rfl
    · rw [int_none (by omega)]
      rfl
  · rw [int_none (by omega)]
    rfl

theorem cut_eq (hi : a.Ints) (hlen : -2 ^ 31 ≤ a.n + min a.s 0)
    (h : a.n + min a.s 0 + max a.s 0 < 2 ^ 31) :
    cut (a.n + min a.s 0) (max a.s 0) a.source = some a.count := by
  have hn := hi.n
  have hs := hi.s
  have hS := hi.source
  unfold cut Axis.count
  rw [int_eq (by omega)]
  simp only [Option.bind_eq_bind, Option.bind_some]
  split
  · rw [int_eq (by omega), Option.bind_some, int_eq (by omega), Option.some.injEq]
    omega
  · rw [Option.some.injEq]
    omega

theorem cut_none (h : ¬ a.n + min a.s 0 + max a.s 0 < 2 ^ 31) :
    cut (a.n + min a.s 0) (max a.s 0) a.source = none := by
  unfold cut
  rw [int_none (by omega)]
  rfl

theorem count_le : a.count ≤ a.source := by
  unfold Axis.count
  omega

theorem enter_eq (hi : a.Ints) (hcount : 0 < a.count) (h : -a.first < 2 ^ 31 ∧ a.src < 2 ^ 31) :
    enter a.first (max a.s 0) a.count = some (a.src, a.count + min a.first 0, a.dst) := by
  obtain ⟨hneg, hsrc⟩ := h
  have hs := hi.s
  have hc := count_le (a := a)
  have hS := hi.source
  unfold enter Axis.src Axis.dst at *
  by_cases hf : a.first < 0
  · rw [if_pos hf, intAbs, if_pos hf, int_eq (by omega)]
    simp only [Option.bind_eq_bind, Option.bind_some]
    rw [int_eq (by omega), Option.bind_some, int_eq (by omega), Option.bind_some, Option.some.injEq,
      Prod.mk.injEq, Prod.mk.injEq]
    omega
  · rw [if_neg hf, Option.some.injEq, Prod.mk.injEq, Prod.mk.injEq]
    omega

theorem enter_none (hi : a.Ints) (hd : a.Defined)
    (h : ¬ (-a.first < 2 ^ 31 ∧ a.src < 2 ^ 31)) :
    enter a.first (max a.s 0) a.count = none := by
  have hd' := hi.d
  have hs := hi.s
  have hc := count_le (a := a)
  have hS := hi.source
  have hlast := hd.last
  unfold enter Axis.src at *
  have hfirst : -2 ^ 31 ≤ a.first := by
    unfold Axis.first
    omega
  have hf : a.first < 0 := by omega
  rw [if_pos hf, intAbs, if_pos hf]
  by_cases hneg : -a.first < 2 ^ 31
  · rw [int_eq (by omega)]
    simp only [Option.bind_eq_bind, Option.bind_some]
    rw [int_none (by omega)]
    rfl
  · rw [int_none (by omega)]
    rfl

theorem clip_eq (hi : a.Ints) (hd : a.Defined) (hneg : -a.first < 2 ^ 31)
    (h : -2 ^ 31 ≤ a.count + min a.first 0 + a.first ∧ a.count + min a.first 0 + a.first < 2 ^ 31) :
    clip (a.count + min a.first 0) a.first a.size = some a.copied := by
  have hD := hi.size
  have hS := hi.source
  have hfirst := hd.first
  have hc := count_le (a := a)
  unfold clip Axis.copied
  rw [int_eq h]
  simp only [Option.bind_eq_bind, Option.bind_some]
  split
  · rw [int_eq (by omega), Option.bind_some, int_eq (by omega), Option.some.injEq]
    omega
  · rw [Option.some.injEq]
    omega

theorem clip_none
    (h : ¬ (-2 ^ 31 ≤ a.count + min a.first 0 + a.first ∧ a.count + min a.first 0 + a.first < 2 ^ 31)) :
    clip (a.count + min a.first 0) a.first a.size = none := by
  unfold clip
  rw [int_none h]
  rfl

/-! ## Both coordinates -/

variable (dc sc : Canvas) (p : Placement)

/-- The coordinates of a rectangle. -/
abbrev xAxis : Axis := ⟨p.dx, p.sx, p.sw, dc.w, sc.w⟩

abbrev yAxis : Axis := ⟨p.dy, p.sy, p.sh, dc.h, sc.h⟩

variable {dc sc : Canvas} {p : Placement}

theorem xAxis_ints : (xAxis dc sc p).Ints where
  d := p.ints p.dx (by simp)
  s := p.ints p.sx (by simp)
  n := p.ints p.sw (by simp)
  size := dc.w_lt
  source := sc.w_lt

theorem yAxis_ints : (yAxis dc sc p).Ints where
  d := p.ints p.dy (by simp)
  s := p.ints p.sy (by simp)
  n := p.ints p.sh (by simp)
  size := dc.h_lt
  source := sc.h_lt

/-- The rectangle begins before the end of the destination. -/
def Begins (dc : Canvas) (p : Placement) : Prop := p.dx < dc.w ∧ p.dy < dc.h

theorem agDrawEx_outside (h : ¬ Begins dc p) : agDrawEx dc sc p = some ⟨0, dc.data⟩ := by
  unfold agDrawEx
  unfold Begins at h
  split
  · rfl
  · rw [if_pos (by omega)]

/-- Clipping to the source. -/
theorem agDrawEx_source (h : Begins dc p) (hx : (xAxis dc sc p).Defined) (hy : (yAxis dc sc p).Defined) :
    agDrawEx dc sc p =
      if (xAxis dc sc p).count ≤ 0 ∨ (yAxis dc sc p).count ≤ 0 then some ⟨0, dc.data⟩
      else (do
        let (sr_x, sr_w, ds_x) ← enter (xAxis dc sc p).first (max p.sx 0) (xAxis dc sc p).count
        let (sr_y, sr_h, ds_y) ← enter (yAxis dc sc p).first (max p.sy 0) (yAxis dc sc p).count
        let sr_w ← clip sr_w (xAxis dc sc p).first dc.w
        let sr_h ← clip sr_h (yAxis dc sc p).first dc.h
        let data ← copyRows dc.data sc.data dc.w sc.w ds_x ds_y sr_x sr_y sr_w sr_h
        some ⟨1, data⟩) := by
  obtain ⟨hdx, hdy⟩ := h
  unfold agDrawEx
  rw [if_neg (by omega), if_neg (by omega),
    skip_eq (a := xAxis dc sc p) xAxis_ints ⟨hx.neg, hx.first, hx.length⟩,
    skip_eq (a := yAxis dc sc p) yAxis_ints ⟨hy.neg, hy.first, hy.length⟩]
  simp only [Option.bind_eq_bind, Option.bind_some]
  rw [cut_eq (a := xAxis dc sc p) xAxis_ints hx.length hx.last,
    cut_eq (a := yAxis dc sc p) yAxis_ints hy.length hy.last]
  rfl

theorem agDrawEx_overflow (h : Begins dc p)
    (hdef : ¬ ((xAxis dc sc p).Defined ∧ (yAxis dc sc p).Defined)) : agDrawEx dc sc p = none := by
  obtain ⟨hdx, hdy⟩ := h
  unfold agDrawEx
  rw [if_neg (by omega), if_neg (by omega)]
  by_cases hx : -(xAxis dc sc p).s < 2 ^ 31 ∧ (xAxis dc sc p).first < 2 ^ 31 ∧
      -2 ^ 31 ≤ (xAxis dc sc p).n + min (xAxis dc sc p).s 0
  swap
  · rw [skip_none (a := xAxis dc sc p) xAxis_ints hx]
    rfl
  by_cases hy : -(yAxis dc sc p).s < 2 ^ 31 ∧ (yAxis dc sc p).first < 2 ^ 31 ∧
      -2 ^ 31 ≤ (yAxis dc sc p).n + min (yAxis dc sc p).s 0
  swap
  · rw [skip_none (a := yAxis dc sc p) yAxis_ints hy]
    cases skip p.dx p.sw p.sx <;> rfl
  rw [skip_eq (a := xAxis dc sc p) xAxis_ints hx,
    skip_eq (a := yAxis dc sc p) yAxis_ints hy]
  simp only [Option.bind_eq_bind, Option.bind_some]
  by_cases hx' : (xAxis dc sc p).n + min (xAxis dc sc p).s 0 + max (xAxis dc sc p).s 0 < 2 ^ 31
  swap
  · rw [cut_none (a := xAxis dc sc p) hx']
    rfl
  by_cases hy' : (yAxis dc sc p).n + min (yAxis dc sc p).s 0 + max (yAxis dc sc p).s 0 < 2 ^ 31
  swap
  · rw [cut_none (a := yAxis dc sc p) hy']
    cases cut ((xAxis dc sc p).n + min p.sx 0) (max p.sx 0) sc.w <;> rfl
  exact absurd ⟨⟨hx.1, hx.2.1, hx.2.2, hx'⟩, ⟨hy.1, hy.2.1, hy.2.2, hy'⟩⟩ hdef

variable (dc sc p) in
/-- The rows that are copied. -/
def copied : Option (List UInt16) :=
  copyRows dc.data sc.data dc.w sc.w (xAxis dc sc p).dst (yAxis dc sc p).dst (xAxis dc sc p).src
    (yAxis dc sc p).src (xAxis dc sc p).copied (yAxis dc sc p).copied

/-- Clipping to the destination. -/
theorem agDrawEx_copied (h : Begins dc p) (hx : (xAxis dc sc p).Defined) (hy : (yAxis dc sc p).Defined)
    (hcx : 0 < (xAxis dc sc p).count) (hcy : 0 < (yAxis dc sc p).count) (hx' : (xAxis dc sc p).Defined')
    (hy' : (yAxis dc sc p).Defined') : agDrawEx dc sc p = (copied dc sc p).map (⟨1, ·⟩) := by
  rw [agDrawEx_source h hx hy, if_neg (by omega),
    enter_eq (a := xAxis dc sc p) xAxis_ints hcx ⟨hx'.neg, hx'.src⟩,
    enter_eq (a := yAxis dc sc p) yAxis_ints hcy ⟨hy'.neg, hy'.src⟩]
  simp only [Option.bind_eq_bind, Option.bind_some]
  rw [clip_eq (a := xAxis dc sc p) xAxis_ints hx hx'.neg ⟨hx'.low, hx'.high⟩,
    clip_eq (a := yAxis dc sc p) yAxis_ints hy hy'.neg ⟨hy'.low, hy'.high⟩]
  simp only [Option.bind_some]
  rw [copied]
  cases copyRows dc.data sc.data dc.w sc.w (xAxis dc sc p).dst (yAxis dc sc p).dst (xAxis dc sc p).src
    (yAxis dc sc p).src (xAxis dc sc p).copied (yAxis dc sc p).copied <;> rfl

theorem agDrawEx_overflow' (h : Begins dc p) (hx : (xAxis dc sc p).Defined) (hy : (yAxis dc sc p).Defined)
    (hcx : 0 < (xAxis dc sc p).count) (hcy : 0 < (yAxis dc sc p).count)
    (hdef : ¬ ((xAxis dc sc p).Defined' ∧ (yAxis dc sc p).Defined')) : agDrawEx dc sc p = none := by
  rw [agDrawEx_source h hx hy, if_neg (by omega)]
  by_cases hex : -(xAxis dc sc p).first < 2 ^ 31 ∧ (xAxis dc sc p).src < 2 ^ 31
  swap
  · rw [enter_none (a := xAxis dc sc p) xAxis_ints hx hex]
    rfl
  by_cases hey : -(yAxis dc sc p).first < 2 ^ 31 ∧ (yAxis dc sc p).src < 2 ^ 31
  swap
  · rw [enter_none (a := yAxis dc sc p) yAxis_ints hy hey]
    cases enter (xAxis dc sc p).first (max p.sx 0) (xAxis dc sc p).count <;> rfl
  rw [enter_eq (a := xAxis dc sc p) xAxis_ints hcx hex,
    enter_eq (a := yAxis dc sc p) yAxis_ints hcy hey]
  simp only [Option.bind_eq_bind, Option.bind_some]
  by_cases hlx : -2 ^ 31 ≤ (xAxis dc sc p).count + min (xAxis dc sc p).first 0 + (xAxis dc sc p).first ∧
      (xAxis dc sc p).count + min (xAxis dc sc p).first 0 + (xAxis dc sc p).first < 2 ^ 31
  swap
  · rw [clip_none (a := xAxis dc sc p) hlx]
    rfl
  by_cases hly : -2 ^ 31 ≤ (yAxis dc sc p).count + min (yAxis dc sc p).first 0 + (yAxis dc sc p).first ∧
      (yAxis dc sc p).count + min (yAxis dc sc p).first 0 + (yAxis dc sc p).first < 2 ^ 31
  swap
  · rw [clip_none (a := yAxis dc sc p) hly]
    cases clip ((xAxis dc sc p).count + min (xAxis dc sc p).first 0) (xAxis dc sc p).first dc.w <;> rfl
  exact absurd ⟨⟨hex.1, hex.2, hlx.1, hlx.2⟩, ⟨hey.1, hey.2, hly.1, hly.2⟩⟩ hdef

/-! ## The pixels of both canvases -/

namespace Axis

variable (a : Axis)

/-- The pixels `i` of the destination that the rectangle shows, where the source has one for them. -/
def Shown (i : Int) : Prop := (0 ≤ i - a.d ∧ i - a.d < a.n) ∧ 0 ≤ a.s + (i - a.d) ∧ a.s + (i - a.d) < a.source

/-- The copy ends inside the destination. -/
def Inside : Prop := a.dst + a.copied ≤ a.size

end Axis

variable {i : Int}

theorem shown_iff : a.Shown i ↔ a.first ≤ i ∧ i < a.first + a.count := by
  unfold Axis.Shown Axis.first Axis.count
  omega

theorem shown_iff_copied (hin : a.Inside) (hi : 0 ≤ i ∧ i < a.size) :
    a.Shown i ↔ a.dst ≤ i ∧ i < a.dst + a.copied := by
  rw [shown_iff]
  unfold Axis.Inside Axis.dst Axis.copied at *
  omega

/-- Nothing of the rectangle is in the destination. -/
theorem not_shown_of_copied (h : a.copied ≤ 0) (hi : 0 ≤ i ∧ i < a.size) : ¬ a.Shown i := by
  rw [shown_iff]
  unfold Axis.copied at h
  omega

/-- The copy reads the source where the rectangle shows it. -/
theorem src_eq : a.src - a.dst = a.s - a.d := by
  unfold Axis.src Axis.dst Axis.first
  omega

theorem src_le : 0 ≤ a.src ∧ a.src + a.copied ≤ a.source := by
  unfold Axis.src Axis.copied Axis.count at *
  omega

/-- Only a rectangle that begins left of the destination can be copied beyond its end. -/
theorem dst_of_not_inside (h : ¬ a.Inside) : a.dst = 0 ∧ a.size < a.copied := by
  unfold Axis.Inside Axis.dst Axis.copied at *
  omega

/-! ## The copied rows -/

section Rows

open Patch

variable {dst data : List UInt16} {src : List UInt16} {w h w' h' x₀ y₀ u₀ v₀ m k pos start : Nat}

theorem memcpy_cast (hm : 0 < m) : memcpy dst src pos start m =
    if pos + m ≤ dst.length ∧ start + m ≤ src.length then some (store dst pos ((src.drop start).take m))
    else none := by
  unfold memcpy
  rw [if_neg (by omega), if_neg (by omega)]
  by_cases hin : pos + m ≤ dst.length ∧ start + m ≤ src.length
  · rw [if_pos hin, if_pos (by omega)]
    rfl
  · rw [if_neg hin, if_neg (by omega)]

theorem copyRows_cast (dst : List UInt16) : copyRows dst src w w' x₀ y₀ u₀ v₀ m k =
    (List.range k).foldlM (fun dst j =>
      memcpy dst src ((y₀ + j) * w + x₀ : Nat) ((v₀ + j) * w' + u₀ : Nat) m) dst := by
  simp [copyRows]

/-- Rows inside of both canvases are all copied. -/
theorem copyRows_eq (hdst : dst.length = w * h) (hsrc : src.length = w' * h') (hm : 0 < m)
    (hu : u₀ + m ≤ w') (hv : v₀ + k ≤ h') (hx : x₀ + m ≤ w) (hy : y₀ + k ≤ h) :
    copyRows dst src w w' x₀ y₀ u₀ v₀ m k = some (patch dst (rows src w w' x₀ y₀ u₀ v₀ m k)) := by
  rw [copyRows_cast]
  refine foldlM_patch hdst (fits_rows hsrc hu hv hx hy) fun j hj bs hbs => ?_
  rw [List.mem_range] at hj
  rw [memcpy_cast hm, if_pos ⟨hbs ▸ row_end hx (by omega), hsrc ▸ row_end hu (by omega)⟩]

/-- Where the rows are copied, they all fit. -/
theorem copyRows_some (hm : 0 < m) (h : copyRows dst src w w' x₀ y₀ u₀ v₀ m k = some data) :
    Fits dst.length (rows src w w' x₀ y₀ u₀ v₀ m k) ∧ data = patch dst (rows src w w' x₀ y₀ u₀ v₀ m k) ∧
      ∀ j < k, (y₀ + j) * w + x₀ + m ≤ dst.length ∧ (v₀ + j) * w' + u₀ + m ≤ src.length := by
  rw [copyRows_cast] at h
  have hstep : ∀ j (bs bs' : List UInt16), bs.length = dst.length →
      memcpy bs src ((y₀ + j) * w + x₀ : Nat) ((v₀ + j) * w' + u₀ : Nat) m = some bs' →
      ((y₀ + j) * w + x₀ + m ≤ dst.length ∧ (v₀ + j) * w' + u₀ + m ≤ src.length) ∧
        bs' = store bs ((y₀ + j) * w + x₀) ((src.drop ((v₀ + j) * w' + u₀)).take m) := by
    intro j bs bs' hbs hcopy
    rw [memcpy_cast hm] at hcopy
    split at hcopy
    · next hin => exact ⟨hbs ▸ hin, (Option.some.inj hcopy).symm⟩
    · cases hcopy
  obtain ⟨hfit, hdata⟩ := foldlM_some (n := dst.length)
    (fun j => ((y₀ + j) * w + x₀, (src.drop ((v₀ + j) * w' + u₀)).take m)) rfl
    (fun j hj bs bs' hbs hcopy => by
      obtain ⟨⟨hend, -⟩, heq⟩ := hstep j bs bs' hbs hcopy
      exact ⟨(Nat.add_le_add_left (List.length_take_le _ _) _).trans hend, heq⟩) h
  refine ⟨hfit, hdata, fun j hj => ?_⟩
  by_contra hout
  have hnone : ∀ bs : List UInt16, bs.length = dst.length →
      memcpy bs src ((y₀ + j) * w + x₀ : Nat) ((v₀ + j) * w' + u₀ : Nat) m = none := by
    intro bs hbs
    rw [memcpy_cast hm, if_neg (hbs ▸ hout)]
  have hkeep : ∀ j' ∈ List.range k, ∀ bs bs' : List UInt16, bs.length = dst.length →
      memcpy bs src ((y₀ + j') * w + x₀ : Nat) ((v₀ + j') * w' + u₀ : Nat) m = some bs' →
      bs'.length = dst.length := by
    intro j' _ bs bs' hbs hcopy
    obtain ⟨⟨hend, -⟩, rfl⟩ := hstep j' bs bs' hbs hcopy
    rw [length_store ((Nat.add_le_add_left (List.length_take_le _ _) _).trans (hbs ▸ hend)), hbs]
  rw [foldlM_none rfl hkeep ⟨j, List.mem_range.mpr hj, hnone⟩] at h
  cases h

end Rows

/-! ## Exactly which rectangles are clipped -/

/-- After the run, the pixels of the rectangle that both canvases have are copied, and no others are changed. -/
def Clips (dc sc : Canvas) (p : Placement) (r : Option Drawn) : Prop :=
  ∃ drawn, r = some drawn ∧ drawn.data.length = dc.data.length ∧ ∀ x < dc.w, ∀ y < dc.h,
    ((xAxis dc sc p).Shown x ∧ (yAxis dc sc p).Shown y →
      drawn.data[y * dc.w + x]? =
        sc.data[((p.sy + (y - p.dy)) * sc.w + (p.sx + (x - p.dx))).toNat]?) ∧
    (¬ ((xAxis dc sc p).Shown x ∧ (yAxis dc sc p).Shown y) →
      drawn.data[y * dc.w + x]? = dc.data[y * dc.w + x]?)

/-- The rectangle begins beyond the destination; or no coordinate leaves the range of `int`, and either
nothing is left to copy, or the part of the rectangle that the source has ends neither left of the
destination nor begins right of it, and does not go beyond both of its ends. -/
def Clear (x y : Axis) : Prop :=
  x.size ≤ x.d ∨ y.size ≤ y.d ∨ (x.Defined ∧ y.Defined ∧ (x.count ≤ 0 ∨ y.count ≤ 0 ∨
    (x.Defined' ∧ y.Defined' ∧ (y.copied ≤ 0 ∨ x.copied = 0 ∨ 0 < x.copied ∧ x.Inside ∧ y.Inside))))

/-- Nothing is drawn, and nothing was to be drawn. -/
theorem clips_unchanged {result : Nat}
    (h : ∀ x < dc.w, ∀ y < dc.h, ¬ ((xAxis dc sc p).Shown x ∧ (yAxis dc sc p).Shown y)) :
    Clips dc sc p (some ⟨result, dc.data⟩) :=
  ⟨_, rfl, rfl, fun x hx y hy => ⟨fun hs => absurd hs (h x hx y hy), fun _ => rfl⟩⟩

theorem clips_copied (hcx : 0 < (xAxis dc sc p).copied) (hcy : 0 < (yAxis dc sc p).copied)
    (hx : (xAxis dc sc p).Inside) (hy : (yAxis dc sc p).Inside) :
    Clips dc sc p ((copied dc sc p).map (⟨1, ·⟩)) := by
  obtain ⟨hsx, hex⟩ := src_le (a := xAxis dc sc p)
  obtain ⟨hsy, hey⟩ := src_le (a := yAxis dc sc p)
  have hxsrc := src_eq (a := xAxis dc sc p)
  have hysrc := src_eq (a := yAxis dc sc p)
  have hxs := fun i => shown_iff_copied (i := i) hx
  have hys := fun i => shown_iff_copied (i := i) hy
  have hdx : 0 ≤ (xAxis dc sc p).dst := le_max_right _ _
  have hdy : 0 ≤ (yAxis dc sc p).dst := le_max_right _ _
  rw [copied]
  unfold Axis.Inside at hx hy
  generalize (xAxis dc sc p).dst = x₀ at *
  generalize (yAxis dc sc p).dst = y₀ at *
  generalize (xAxis dc sc p).src = u₀ at *
  generalize (yAxis dc sc p).src = v₀ at *
  generalize (xAxis dc sc p).copied = m at *
  generalize (yAxis dc sc p).copied = k at *
  lift x₀ to Nat using hdx
  lift y₀ to Nat using hdy
  lift u₀ to Nat using hsx
  lift v₀ to Nat using hsy
  lift m to Nat using hcx.le
  lift k to Nat using hcy.le
  have hu : u₀ + m ≤ sc.w := by exact_mod_cast hex
  have hv : v₀ + k ≤ sc.h := by exact_mod_cast hey
  have hX : x₀ + m ≤ dc.w := by exact_mod_cast hx
  have hY : y₀ + k ≤ dc.h := by exact_mod_cast hy
  rw [copyRows_eq dc.size sc.size (by omega) hu hv hX hY]
  refine ⟨_, rfl, Patch.length_patch (dc.size ▸ Patch.fits_rows sc.size hu hv hX hY), fun x hxw y hyh => ?_⟩
  have hshow : (xAxis dc sc p).Shown x ∧ (yAxis dc sc p).Shown y ↔
      (x₀ ≤ x ∧ x < x₀ + m) ∧ y₀ ≤ y ∧ y < y₀ + k := by
    rw [hxs x ⟨by omega, by exact_mod_cast hxw⟩, hys y ⟨by omega, by exact_mod_cast hyh⟩]
    omega
  rw [hshow]
  constructor
  · rintro ⟨hxi, hyi⟩
    have hcol : p.sx + ((x : Int) - p.dx) = ((u₀ + (x - x₀) : Nat) : Int) := by
      simp only at hxsrc
      omega
    have hrow : p.sy + ((y : Int) - p.dy) = ((v₀ + (y - y₀) : Nat) : Int) := by
      simp only at hysrc
      omega
    rw [hcol, hrow, Patch.patch_rows_inside dc.size sc.size hu hv hX hY hxi hyi]
    norm_cast
  · exact fun hout => Patch.patch_rows_outside dc.size sc.size hu hv hX hY hxw hout

theorem clips_of_clear (h : Clear (xAxis dc sc p) (yAxis dc sc p)) : Clips dc sc p (agDrawEx dc sc p) := by
  by_cases hb : Begins dc p
  swap
  · rw [agDrawEx_outside hb]
    refine clips_unchanged fun x hx y hy hs => hb ?_
    obtain ⟨⟨hsx, -⟩, ⟨hsy, -⟩⟩ := hs
    exact ⟨by simp only at hsx; omega, by simp only at hsy; omega⟩
  obtain ⟨hdx, hdy⟩ := id hb
  rcases h with hd | hd | ⟨hx, hy, h⟩
  · exact absurd hdx (by simpa using hd)
  · exact absurd hdy (by simpa using hd)
  by_cases hempty : (xAxis dc sc p).count ≤ 0 ∨ (yAxis dc sc p).count ≤ 0
  · rw [agDrawEx_source hb hx hy, if_pos hempty]
    refine clips_unchanged fun x _ y _ hs => ?_
    rw [shown_iff, shown_iff] at hs
    omega
  obtain ⟨hx', hy', h⟩ := (or_assoc.mpr h).resolve_left hempty
  rw [agDrawEx_copied hb hx hy (by omega) (by omega) hx' hy']
  rcases le_or_gt (yAxis dc sc p).copied 0 with hcy | hcy
  · have hdone : copied dc sc p = some dc.data := by
      rw [copied, copyRows, Int.toNat_of_nonpos hcy]
      rfl
    rw [hdone]
    exact clips_unchanged fun x _ y hyh hs =>
      not_shown_of_copied hcy ⟨by omega, by exact_mod_cast hyh⟩ hs.2
  rcases h.resolve_left (by omega) with hcx | ⟨hcx, hxin, hyin⟩
  · have hdone : copied dc sc p = some dc.data := by
      rw [copied, copyRows, hcx]
      simp only [memcpy, lt_irrefl, if_false, if_true]
      exact (List.foldlM_pure (m := Option)).trans (congrArg some (List.foldl_fixed _))
    rw [hdone]
    exact clips_unchanged fun x hxw y _ hs =>
      not_shown_of_copied hcx.le ⟨by omega, by exact_mod_cast hxw⟩ hs.1
  · exact clips_copied hcx hcy hxin hyin

/-- A canvas of the same size, all in one colour. -/
def Canvas.plain (c : Canvas) (colour : UInt16) : Canvas where
  w := c.w
  h := c.h
  data := List.replicate (c.w * c.h) colour
  size := List.length_replicate
  w_lt := c.w_lt
  h_lt := c.h_lt
  bytes := by
    rw [List.length_replicate, ← c.size]
    exact c.bytes

/-- Rows that go beyond the destination: either they leave it, or the first pixel of the row below them
changes. -/
theorem not_clips_copied {c : UInt16} (hc : c ≠ 0) (hcx : 0 < (xAxis dc sc p).copied)
    (hcy : 0 < (yAxis dc sc p).copied) (h : ¬ ((xAxis dc sc p).Inside ∧ (yAxis dc sc p).Inside)) :
    ¬ Clips (dc.plain 0) (sc.plain c) p ((copied (dc.plain 0) (sc.plain c) p).map (⟨1, ·⟩)) := by
  rintro ⟨drawn, hrun, -, hpix⟩
  obtain ⟨data, hcopy, rfl⟩ := Option.map_eq_some_iff.mp hrun
  have hxout := fun h => dst_of_not_inside (a := xAxis dc sc p) h
  have hyout := fun h => dst_of_not_inside (a := yAxis dc sc p) h
  have hys := fun i h => shown_iff_copied (a := yAxis dc sc p) (i := i) h
  obtain ⟨hsx, -⟩ := src_le (a := xAxis dc sc p)
  obtain ⟨hsy, -⟩ := src_le (a := yAxis dc sc p)
  have hdx : 0 ≤ (xAxis dc sc p).dst := le_max_right _ _
  have hdy : 0 ≤ (yAxis dc sc p).dst := le_max_right _ _
  change copyRows _ _ dc.w sc.w (xAxis dc sc p).dst (yAxis dc sc p).dst (xAxis dc sc p).src
    (yAxis dc sc p).src (xAxis dc sc p).copied (yAxis dc sc p).copied = some data at hcopy
  unfold Axis.Inside at *
  generalize (xAxis dc sc p).dst = x₀ at *
  generalize (yAxis dc sc p).dst = y₀ at *
  generalize (xAxis dc sc p).src = u₀ at *
  generalize (yAxis dc sc p).src = v₀ at *
  generalize (xAxis dc sc p).copied = m at *
  generalize (yAxis dc sc p).copied = k at *
  lift x₀ to Nat using hdx
  lift y₀ to Nat using hdy
  lift u₀ to Nat using hsx
  lift v₀ to Nat using hsy
  lift m to Nat using hcx.le
  lift k to Nat using hcy.le
  simp only at hxout hyout hys h
  obtain ⟨hfit, rfl, hends⟩ := copyRows_some (by omega) hcopy
  rw [(dc.plain 0).size, (sc.plain c).size] at hends
  change ∀ j < k, (y₀ + j) * dc.w + x₀ + m ≤ dc.w * dc.h ∧ _ ≤ sc.w * sc.h at hends
  by_cases hy : (y₀ : Int) + k ≤ dc.h
  swap
  · -- a row below the destination
    obtain ⟨hzero, hlong⟩ := hyout hy
    obtain ⟨hend, -⟩ := hends dc.h (by omega)
    obtain rfl : y₀ = 0 := by omega
    rw [Nat.zero_add, Nat.mul_comm] at hend
    omega
  obtain ⟨hzero, hlong⟩ := hxout fun hx => h ⟨hx, hy⟩
  obtain rfl : x₀ = 0 := by omega
  obtain ⟨k, rfl⟩ := Nat.exists_eq_succ_of_ne_zero (by omega : k ≠ 0)
  obtain ⟨hend, hsrc⟩ := hends k k.lt_succ_self
  have hnext : (y₀ + k.succ) * dc.w = (y₀ + k) * dc.w + dc.w := Nat.succ_mul _ _
  by_cases hlast : y₀ + k.succ = dc.h
  · -- the last row of the destination
    rw [hlast, Nat.mul_comm] at hnext
    omega
  have hw : 0 < dc.w := by
    by_contra hw
    obtain hw : dc.w = 0 := by omega
    rw [hw, Nat.mul_zero, Nat.zero_mul] at hend
    omega
  -- the first pixel of the row below
  have hsame := (hpix 0 hw (y₀ + k.succ) (by change _ < dc.h; omega)).2 fun hs =>
    absurd ((hys _ hy ⟨by omega, by omega⟩).mp hs.2) (by push_cast; omega)
  have hlen : (((sc.plain c).data.drop ((v₀ + k) * sc.w + u₀)).take m).length = m := by
    rw [List.length_take, List.length_drop, (sc.plain c).size]
    change min m (sc.w * sc.h - _) = m
    omega
  obtain ⟨word, hword, -, hcell⟩ := Patch.patch_covered (i := (y₀ + k.succ) * dc.w + 0) hfit
    ⟨_, List.mem_map_of_mem (List.mem_range.mpr k.lt_succ_self), by simp only [Patch.Covers, hlen]; omega⟩
  obtain ⟨j, -, rfl⟩ := List.mem_map.mp hword
  have hzero : (dc.plain 0).data[(y₀ + k.succ) * dc.w + 0]? = some 0 :=
    List.getElem?_replicate_of_lt (by
      have := Patch.row_end (by omega : 0 + dc.w ≤ dc.w) (by omega : y₀ + k.succ < dc.h)
      omega)
  have hmem := List.mem_of_getElem? (hcell.symm.trans (hsame.trans hzero))
  exact hc (List.eq_of_mem_replicate (List.mem_of_mem_drop (List.mem_of_mem_take hmem))).symm

theorem not_clips_of_not_clear (h : ¬ Clear (xAxis dc sc p) (yAxis dc sc p)) :
    ¬ Clips (dc.plain 0) (sc.plain 1) p (agDrawEx (dc.plain 0) (sc.plain 1) p) := by
  have hnone : ¬ Clips (dc.plain 0) (sc.plain 1) p none := fun ⟨_, h, _⟩ => by cases h
  unfold Clear at h
  push Not at h
  obtain ⟨hdx, hdy, h⟩ := h
  have hb : Begins (dc.plain 0) p := ⟨hdx, hdy⟩
  by_cases hdef : (xAxis dc sc p).Defined ∧ (yAxis dc sc p).Defined
  swap
  · have hrun : agDrawEx (dc.plain 0) (sc.plain 1) p = none := agDrawEx_overflow hb hdef
    exact hrun ▸ hnone
  obtain ⟨hx, hy⟩ := hdef
  obtain ⟨hcx, hcy, h⟩ := h hx hy
  by_cases hdef' : (xAxis dc sc p).Defined' ∧ (yAxis dc sc p).Defined'
  swap
  · have hrun : agDrawEx (dc.plain 0) (sc.plain 1) p = none := agDrawEx_overflow' hb hx hy hcx hcy hdef'
    exact hrun ▸ hnone
  obtain ⟨hx', hy'⟩ := hdef'
  obtain ⟨hky, hkx, hin⟩ := h hx' hy'
  have hrun : agDrawEx (dc.plain 0) (sc.plain 1) p = (copied (dc.plain 0) (sc.plain 1) p).map (⟨1, ·⟩) :=
    agDrawEx_copied hb hx hy hcx hcy hx' hy'
  rw [hrun]
  rcases lt_or_gt_of_ne hkx with hneg | hpos
  · have hmem : copied (dc.plain 0) (sc.plain 1) p = none := by
      obtain ⟨k, hk⟩ := Nat.exists_eq_succ_of_ne_zero (by omega : (yAxis dc sc p).copied.toNat ≠ 0)
      change copyRows _ _ dc.w sc.w _ _ _ _ (xAxis dc sc p).copied (yAxis dc sc p).copied = none
      rw [copyRows, hk, List.range_succ_eq_map, List.foldlM_cons, memcpy, if_pos hneg]
      rfl
    rw [hmem]
    exact hnone
  · exact not_clips_copied (by decide) hpos hky fun hins => hin hpos hins.1 hins.2

/-- For exactly the clear rectangles, whatever the pixels are, exactly the pixels that both canvases have
are copied. -/
theorem clips_iff (dc sc : Canvas) (p : Placement) :
    (∀ dc' sc' : Canvas, dc'.w = dc.w ∧ dc'.h = dc.h → sc'.w = sc.w ∧ sc'.h = sc.h →
      Clips dc' sc' p (agDrawEx dc' sc' p)) ↔ Clear (xAxis dc sc p) (yAxis dc sc p) := by
  constructor
  · intro h
    by_contra hclear
    exact not_clips_of_not_clear hclear (h (dc.plain 0) (sc.plain 1) ⟨rfl, rfl⟩ ⟨rfl, rfl⟩)
  · rintro h dc' sc' ⟨hw, hh⟩ ⟨hw', hh'⟩
    refine clips_of_clear ?_
    rwa [xAxis, yAxis, hw, hh, hw', hh']

/-- Four pixels, the first of them left of a canvas of two columns. -/
def wide : Placement := ⟨-1, 0, 0, 0, 4, 1, by decide⟩

def wideSource : Canvas := ⟨4, 1, [1, 2, 3, 4], rfl, by decide, by decide, by decide⟩

def narrow : Canvas := ⟨2, 2, [0, 0, 0, 0], rfl, by decide, by decide, by decide⟩

/-- The fourth one goes to the second row. -/
theorem wide_not_clips : ¬ Clips narrow wideSource wide (agDrawEx narrow wideSource wide) := by
  have hrun : agDrawEx narrow wideSource wide = some ⟨1, [2, 3, 4, 0]⟩ := rfl
  rintro ⟨drawn, hdrawn, -, hpix⟩
  obtain rfl := Option.some.inj (hrun.symm.trans hdrawn)
  have hsame := (hpix 0 (by decide) 1 (by decide)).2 fun hs => absurd hs.2.1.2 (by decide)
  exact absurd hsame (by decide)

end Graph

end Miui
