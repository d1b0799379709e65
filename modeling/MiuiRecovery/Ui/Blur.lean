import MiuiRecovery.Lib.Loop
import MiuiRecovery.Lib.Window
import MiuiRecovery.Ui.Graph

/-!
# Blurring a canvas

`ag_blur_h` and `ag_blur_v` (`miui_graph.c`) move a window along each row, or column, and keep the sums of the
channels of its pixels: the pixel behind the window is taken from the sums, the pixel in front added. The
condition for the second is short by one, so a row that is longer than the first window never gets its last
pixel.

* `blurLine_spec`: the sums are those of the line without this pixel.
* `blurs_iff`: for which canvases and radii they are the plain sums.
-/

namespace Miui

namespace Graph

/-! ## miui_graph.c -/

def agR (rgb : UInt16) : UInt8 := ((rgb &&& 0xF800) >>> 8).toUInt8

def agG (rgb : UInt16) : UInt8 := ((rgb &&& 0x07E0) >>> 3).toUInt8

def agB (rgb : UInt16) : UInt8 := ((rgb &&& 0x001F) <<< 3).toUInt8

/-- `agxy`, and the pixel it points to: `none` for `NULL`. -/
def agxy (s : Canvas) (x y : Int) : Option UInt16 :=
  if x < 0 ∨ y < 0 then none
  else if x ≥ s.w ∨ y ≥ s.h then none
  else s.data[(y * s.w + x).toNat]?

/-- `dword r`, `g` and `b`. -/
structure Sums where
  r : UInt32
  g : UInt32
  b : UInt32
  deriving DecidableEq

/-- `r += ag_r(cl[0]); g += ag_g(cl[0]); b += ag_b(cl[0]);` -/
def Sums.add (a : Sums) (cl : UInt16) : Sums :=
  ⟨a.r + (agR cl).toUInt32, a.g + (agG cl).toUInt32, a.b + (agB cl).toUInt32⟩

/-- `r -= ag_r(cl[0]); g -= ag_g(cl[0]); b -= ag_b(cl[0]);` -/
def Sums.sub (a : Sums) (cl : UInt16) : Sums :=
  ⟨a.r - (agR cl).toUInt32, a.g - (agG cl).toUInt32, a.b - (agB cl).toUInt32⟩

section Line

-- The pixel at a place of the line, the radius, and the length of the line.
variable (cl : Int → Option UInt16) (radius n : Int)

/-- `for (k=0;(k<=radius)&&(k<s->w);k++)` -/
def firstSums : Sums :=
  (List.range (min (radius + 1) n).toNat).foldl (fun a (k : Nat) =>
    match cl k with
    | some cl => a.add cl
    | none => a) ⟨0, 0, 0⟩

/-- A round of `for (x=1;x<s->w;x++)`: `none` where it reads through a `NULL`. -/
def nextSums (a : Sums) (x : Int) : Option Sums := do
  let a ← if x > radius then (cl (x - radius - 1)).map a.sub else some a
  if x < n - (radius + 1) then (cl (x + radius)).map a.add else some a

/-- The rounds for the places in the list. -/
def followingSums : List Nat → Sums → Option (List Sums)
  | [], _ => some []
  | x :: xs, a => do
    let a ← nextSums cl radius n a x
    let as ← followingSums xs a
    some (a :: as)

/-- The sums that the pixels of the line are computed from, one after the other. -/
def blurLine : Option (List Sums) :=
  (followingSums cl radius n (List.range' 1 (n.toNat - 1)) (firstSums cl radius n)).map
    (firstSums cl radius n :: ·)

end Line

/-- The result and the sums of each line. -/
structure Blurred where
  result : Nat
  sums : List (List Sums)
  deriving DecidableEq

/-- `int rad=radius*2; int radd=rad+1;`, then the lines. The expressions of the loops stay in the range of
`int` if these two do. -/
def blurLines (radius n : Int) (lines : Nat) (cl : Nat → Int → Option UInt16) : Option Blurred := do
  let rad ← int (radius * 2)
  let _radd ← int (rad + 1)
  let sums ← (List.range lines).mapM fun line => blurLine (cl line) radius n
  some ⟨1, sums⟩

/-- `ag_blur_h`: `none` where it leaves the canvas, or the range of `int`. The destination is another canvas. -/
def agBlurH (s : Option Canvas) (radius : Int) : Option Blurred :=
  if radius < 1 then some ⟨0, []⟩
  else match s with
    | none => some ⟨0, []⟩
    | some s => blurLines radius s.w s.h fun y x => agxy s x y

/-- `ag_blur_v` -/
def agBlurV (s : Option Canvas) (radius : Int) : Option Blurred :=
  if radius < 1 then some ⟨0, []⟩
  else match s with
    | none => some ⟨0, []⟩
    | some s => blurLines radius s.h s.w fun x y => agxy s x y

/-! ## One line -/

/-- The number that a channel sums up to, for each channel, in three `dword`s. -/
def Sums.of (t : (UInt16 → UInt8) → Nat) : Sums := ⟨.ofNat (t agR), .ofNat (t agG), .ofNat (t agB)⟩

theorem Sums.add_of (t : (UInt16 → UInt8) → Nat) (cl : UInt16) :
    (Sums.of t).add cl = Sums.of fun ch => t ch + (ch cl).toNat := by
  simp [Sums.of, Sums.add]

theorem Sums.sub_of (t : (UInt16 → UInt8) → Nat) (cl : UInt16) :
    (Sums.of fun ch => t ch + (ch cl).toNat).sub cl = Sums.of t := by
  simp [Sums.of, Sums.sub]

theorem Sums.add_sub (a : Sums) (l e : UInt16) : (a.sub l).add e = (a.add e).sub l := by
  simp only [Sums.add, Sums.sub, Sums.mk.injEq]
  grind

section Spec

variable {cl : Int → Option UInt16} {px : Nat → UInt16} {n r : Nat}

/-- The plain sum of a channel over the pixels at distance at most `r` from `x`. -/
def plain (px : Nat → UInt16) (n r x : Nat) (ch : UInt16 → UInt8) : Nat :=
  Window.total (fun k => (ch (px k)).toNat) n r x

/-- How many pixels of the line the sums ever get. -/
def reached (n r : Nat) : Nat := if n ≤ r + 1 then n else n - 1

theorem firstSums_eq (hcl : ∀ k < n, cl k = some (px k)) :
    firstSums cl r n = Sums.of (plain px (reached n r) r 0) := by
  have hfold : ∀ m, m ≤ n → (List.range m).foldl (fun a (k : Nat) =>
      match cl k with
      | some cl => Sums.add a cl
      | none => a) ⟨0, 0, 0⟩ = Sums.of fun ch => ∑ k ∈ Finset.range m, (ch (px k)).toNat := by
    intro m hm
    induction m with
    | zero => simp [Sums.of]
    | succ m ih =>
      rw [List.range_succ, List.foldl_append, ih (by omega), List.foldl_cons, List.foldl_nil, hcl m (by omega)]
      simp only [Sums.add_of, Finset.sum_range_succ]
  unfold firstSums
  rw [hfold _ (by omega)]
  congr 1
  funext ch
  unfold plain reached
  rw [Window.total_zero]
  congr 2
  split <;> omega

theorem nextSums_eq (hcl : ∀ k < n, cl k = some (px k)) {x : Nat} (hx : x + 1 < n) :
    nextSums cl r n (Sums.of (plain px (reached n r) r x)) (x + 1 : Nat) =
      some (Sums.of (plain px (reached n r) r (x + 1))) := by
  have hsucc := fun ch : UInt16 → UInt8 =>
    Window.total_succ (f := fun k => (ch (px k)).toNat) (n := reached n r) (r := r) (x := x)
  have hreached : n - 1 ≤ reached n r ∧ reached n r ≤ n ∧
      (x + 1 + r < reached n r ↔ ((x + 1 : Nat) : Int) < n - (r + 1)) := by
    unfold reached
    split <;> omega
  -- the two pixels, where there are such
  have hbehind : r ≤ x → cl ((x + 1 : Nat) - r - 1) = some (px (x - r)) := by
    intro hle
    rw [← hcl _ (by omega)]
    congr 1
    omega
  have hahead : x + 1 + r < reached n r → cl ((x + 1 : Nat) + r) = some (px (x + 1 + r)) :=
    fun hlt => hcl _ (by omega)
  unfold nextSums plain
  simp only [Option.bind_eq_bind]
  by_cases hleave : r ≤ x
  · rw [if_pos (by omega), hbehind hleave]
    simp only [if_pos (⟨hleave, by omega⟩ : r ≤ x ∧ x - r < reached n r)] at hsucc
    simp only [Option.map_some, Option.bind_some]
    by_cases henter : x + 1 + r < reached n r
    · rw [if_pos (by omega), hahead henter, Option.map_some, Sums.add_sub, Sums.add_of]
      simp only [if_pos henter] at hsucc
      simp only [← hsucc, Sums.sub_of]
    · rw [if_neg (by omega)]
      simp only [if_neg henter, Nat.add_zero] at hsucc
      simp only [← hsucc, Sums.sub_of]
  · rw [if_neg (by omega)]
    simp only [if_neg (fun h => hleave h.1 : ¬ (r ≤ x ∧ x - r < reached n r)), Nat.add_zero] at hsucc
    simp only [Option.bind_some]
    by_cases henter : x + 1 + r < reached n r
    · rw [if_pos (by omega), hahead henter, Option.map_some, Sums.add_of]
      simp only [hsucc, if_pos henter]
    · rw [if_neg (by omega)]
      simp only [hsucc, if_neg henter, Nat.add_zero]

theorem followingSums_eq (hcl : ∀ k < n, cl k = some (px k)) {x len : Nat} (hx : x + len < n) :
    followingSums cl r n (List.range' (x + 1) len) (Sums.of (plain px (reached n r) r x)) =
      some ((List.range' (x + 1) len).map fun x => Sums.of (plain px (reached n r) r x)) := by
  induction len generalizing x with
  | zero => rfl
  | succ len ih =>
    rw [List.range'_succ, followingSums, nextSums_eq hcl (by omega)]
    simp only [Option.bind_eq_bind, Option.bind_some]
    rw [ih (by omega)]
    rfl

/-- The sums of a line are those of the pixels that they reach. -/
theorem blurLine_spec (hcl : ∀ k < n, cl k = some (px k)) :
    ∃ as, blurLine cl r n = some as ∧ ∀ x < n, as[x]? = some (Sums.of (plain px (reached n r) r x)) := by
  unfold blurLine
  rw [firstSums_eq hcl, Int.toNat_natCast]
  by_cases hn : n = 0
  · subst hn
    exact ⟨_, rfl, nofun⟩
  · rw [followingSums_eq hcl (by omega)]
    refine ⟨_, rfl, fun x hx => ?_⟩
    cases x with
    | zero => rfl
    | succ x =>
      rw [List.getElem?_cons_succ, List.getElem?_map, List.getElem?_range' (by omega), Option.map_some]
      congr 3
      omega

/-! ## The plain sums -/

/-- The sums are the plain ones at `x`. -/
def Sums.Plain (a : Sums) (px : Nat → UInt16) (n r x : Nat) : Prop :=
  a.r.toNat = plain px n r x agR ∧ a.g.toNat = plain px n r x agG ∧ a.b.toNat = plain px n r x agB

/-- The first window is all of the line or the last pixel is black; and the plain sums are `dword`s. -/
structure Fits (px : Nat → UInt16) (n r : Nat) : Prop where
  last : r + 1 < n → ∀ ch ∈ [agR, agG, agB], ch (px (n - 1)) = 0
  dword : ∀ x < n, ∀ ch ∈ [agR, agG, agB], plain px n r x ch < 2 ^ 32

/-- The sums of a line that is not longer than `2 ^ 24` are `dword`s. -/
theorem plain_le (x : Nat) (ch : UInt16 → UInt8) : plain px n r x ch ≤ n * 255 :=
  Window.total_le fun k => Nat.le_of_lt_succ (ch (px k)).toNat_lt

/-- What the last pixel adds. -/
theorem plain_reached (px : Nat → UInt16) (ch : UInt16 → UInt8) {x : Nat} (hx : x < n) :
    plain px n r x ch = plain px (reached n r) r x ch +
      (if r + 1 < n ∧ n ≤ x + r + 1 then (ch (px (n - 1))).toNat else 0) := by
  unfold reached
  by_cases hn : n ≤ r + 1
  · rw [if_pos hn, if_neg (by omega), Nat.add_zero]
  · obtain ⟨m, rfl⟩ := Nat.exists_eq_succ_of_ne_zero (by omega : n ≠ 0)
    rw [if_neg hn]
    unfold plain
    rw [Window.total_grow]
    congr 1
    simp only [Nat.succ_eq_add_one, Nat.add_sub_cancel]
    congr 1
    rw [eq_iff_iff]
    omega

theorem Sums.of_plain_iff {x : Nat} :
    (Sums.of (plain px (reached n r) r x)).Plain px n r x ↔
      ∀ ch ∈ [agR, agG, agB], plain px (reached n r) r x ch % 2 ^ 32 = plain px n r x ch := by
  simp [Sums.Plain, Sums.of]

theorem all_plain_iff :
    (∀ x < n, (Sums.of (plain px (reached n r) r x)).Plain px n r x) ↔ Fits px n r := by
  simp only [Sums.of_plain_iff]
  constructor
  · intro h
    constructor
    · intro hn ch hch
      have hlast := h (n - 1) (by omega) ch hch
      have hadd := plain_reached px ch (by omega : n - 1 < n) (r := r)
      rw [if_pos (by omega)] at hadd
      have := Nat.mod_le (plain px (reached n r) r (n - 1) ch) (2 ^ 32)
      rw [← UInt8.toNat_inj]
      change _ = 0
      omega
    · intro x hx ch hch
      have := h x hx ch hch
      omega
  · intro h x hx ch hch
    have hadd := plain_reached px ch hx (r := r)
    have hd := h.dword x hx ch hch
    have hzero : (if r + 1 < n ∧ n ≤ x + r + 1 then (ch (px (n - 1))).toNat else 0) = 0 := by
      split
      · rw [h.last (by omega) ch hch]
        rfl
      · rfl
    omega

end Spec

/-! ## A canvas -/

/-- The pixel of column `x` in row `y`. -/
def Canvas.pixel (s : Canvas) (x y : Nat) : UInt16 := s.data.getD (y * s.w + x) 0

theorem agxy_eq {s : Canvas} {x y : Nat} (hx : x < s.w) (hy : y < s.h) :
    agxy s x y = some (s.pixel x y) := by
  have hlen : y * s.w + x < s.data.length := by
    rw [s.size]
    exact Patch.row_end (show x + 1 ≤ s.w from hx) hy
  have hpos : ((y : Int) * s.w + x).toNat = y * s.w + x := by
    rw [← Int.natCast_mul, ← Int.natCast_add, Int.toNat_natCast]
  unfold agxy Canvas.pixel
  rw [if_neg (by omega), if_neg (by omega), hpos, List.getD_eq_getElem?_getD, List.getElem?_eq_getElem hlen]
  rfl

/-- Every pixel of every line is computed from the plain sums. -/
def Blurs (b : Option Blurred) (lines n r : Nat) (px : Nat → Nat → UInt16) : Prop :=
  ∃ blurred, b = some blurred ∧ ∀ line < lines, ∀ x < n, ∃ a,
    blurred.sums[line]?.bind (·[x]?) = some a ∧ a.Plain (px line) n r x

theorem blurLines_eq {r n lines : Nat} {cl : Nat → Int → Option UInt16} (h : 2 * r + 1 < 2 ^ 31) :
    blurLines r n lines cl =
      ((List.range lines).mapM fun line => blurLine (cl line) r n).map (⟨1, ·⟩) := by
  have hrad : int ((r : Int) * 2) = some ((r : Int) * 2) := int_eq (by omega)
  have hradd : int ((r : Int) * 2 + 1) = some ((r : Int) * 2 + 1) := int_eq (by omega)
  unfold blurLines
  rw [hrad, Option.bind_eq_bind, Option.bind_some]
  rw [hradd, Option.bind_eq_bind, Option.bind_some]
  cases (List.range lines).mapM fun line => blurLine (cl line) r n <;> rfl

theorem blurLines_none {r n lines : Nat} {cl : Nat → Int → Option UInt16} (h : ¬ 2 * r + 1 < 2 ^ 31) :
    blurLines r n lines cl = none := by
  unfold blurLines
  by_cases hrange : (r : Int) * 2 < 2 ^ 31
  · have hrad : int ((r : Int) * 2) = some ((r : Int) * 2) := int_eq (by omega)
    have hradd : int ((r : Int) * 2 + 1) = none := int_none (by omega)
    rw [hrad, Option.bind_eq_bind, Option.bind_some]
    rw [hradd]
    rfl
  · have hrad : int ((r : Int) * 2) = none := int_none (by omega)
    rw [hrad]
    rfl

theorem blurLines_iff {lines n r : Nat} {cl : Nat → Int → Option UInt16} {px : Nat → Nat → UInt16}
    (hcl : ∀ line < lines, ∀ k < n, cl line k = some (px line k)) :
    Blurs (blurLines r n lines cl) lines n r px ↔
      2 * r + 1 < 2 ^ 31 ∧ ∀ line < lines, Fits (px line) n r := by
  by_cases hint : 2 * r + 1 < 2 ^ 31
  · choose! as hrun hget using fun line hline => blurLine_spec (r := r) (hcl line hline)
    rw [blurLines_eq hint, List.mapM_eq_some fun line hline => hrun line (List.mem_range.mp hline),
      and_iff_right hint]
    -- the sums at a place
    have hsums : ∀ line < lines, ∀ x < n, ((List.range lines).map as)[line]?.bind (·[x]?) =
        some (Sums.of (plain (px line) (reached n r) r x)) := by
      intro line hline x hx
      rw [List.getElem?_map, List.getElem?_range hline]
      exact hget line hline x hx
    simp only [← all_plain_iff]
    constructor
    · rintro ⟨blurred, hb, h⟩ line hline x hx
      obtain rfl := Option.some.inj hb
      obtain ⟨a, ha, hplain⟩ := h line hline x hx
      obtain rfl := Option.some.inj ((hsums line hline x hx).symm.trans ha)
      exact hplain
    · intro h
      exact ⟨_, rfl, fun line hline x hx => ⟨_, hsums line hline x hx, h line hline x hx⟩⟩
  · rw [blurLines_none hint]
    exact iff_of_false (fun ⟨_, hb, _⟩ => nomatch hb) fun h => hint h.1

/-- For exactly these canvases and radii the sums are the plain ones: those of `ag_blur_h` along each row, and
those of `ag_blur_v` along each column. -/
theorem blurs_iff (s : Canvas) (radius : Nat) (hr : 1 ≤ radius) :
    (Blurs (agBlurH (some s) radius) s.h s.w radius (fun y x => s.pixel x y) ↔
      2 * radius + 1 < 2 ^ 31 ∧ ∀ y < s.h, Fits (fun x => s.pixel x y) s.w radius) ∧
    (Blurs (agBlurV (some s) radius) s.w s.h radius (fun x y => s.pixel x y) ↔
      2 * radius + 1 < 2 ^ 31 ∧ ∀ x < s.w, Fits (fun y => s.pixel x y) s.h radius) := by
  unfold agBlurH agBlurV
  rw [if_neg (by omega), if_neg (by omega)]
  exact ⟨blurLines_iff fun y hy x hx => agxy_eq hx hy, blurLines_iff fun x hx y hy => agxy_eq hx hy⟩

theorem one_lt_max : 1 < 2 ^ 31 := by decide

theorem two_lt_max : 2 < 2 ^ 31 := by decide

/-- Two white pixels. -/
def white : Canvas := ⟨2, 1, [0xffff, 0xffff], rfl, two_lt_max, one_lt_max, by decide⟩

theorem white_blurs : Blurs (agBlurH (some white) (1 : Nat)) 1 2 1 fun y x => white.pixel x y :=
  (blurs_iff white 1 (Nat.le_refl 1)).1.mpr ⟨by decide, fun _ _ =>
    ⟨fun h => absurd h (by decide), fun x _ ch _ => Nat.lt_of_le_of_lt (plain_le x ch) (by decide)⟩⟩

/-- Two black pixels and a white one. -/
def edge : Canvas := ⟨3, 1, [0, 0, 0xffff], rfl, by decide, one_lt_max, by decide⟩

/-- The white pixel never enters the sums. -/
theorem edge_not_blurs : ¬ Blurs (agBlurH (some edge) 1) 1 3 1 fun y x => edge.pixel x y := by
  have hrun : agBlurH (some edge) 1 = some ⟨1, [[⟨0, 0, 0⟩, ⟨0, 0, 0⟩, ⟨0, 0, 0⟩]]⟩ := by decide
  rintro ⟨blurred, hb, h⟩
  obtain rfl := Option.some.inj (hrun.symm.trans hb)
  obtain ⟨a, ha, hred, -⟩ := h 0 (by decide) 2 (by decide)
  obtain rfl := Option.some.inj ha
  exact absurd hred (by decide +kernel)

end Graph

end Miui
