import MiuiRecovery.ApplyPatch.Bsdiff.Qsufsort
import MiuiRecovery.Lib.Stretch
import MiuiRecovery.Lib.Suffix

/-!
# Partitioning a group by its keys

The key of a suffix is the rank of the suffix `h` bytes further on. The proofs follow the list of the
suffixes as a permutation `P`, which `I` shows where it is not marked as sorted.

* `gather_spec`: a small group gets its smallest keys to the front.
* `splitKeys_spec`: a large group gets the order below, equal to and above its pivot.
-/

namespace Miui.Bsdiff

open Suffix

variable {a b : Nat} {P P₁ P₂ : Equiv.Perm Nat} {I I₁ I₂ : Arr}

/-- `P` lists the starts of the suffixes of a string of length `n`. -/
def Lists (n : Nat) (P : Equiv.Perm Nat) : Prop := ∀ q, P q ≤ n ↔ q ≤ n

theorem Lists.perm {n : Nat} (hP : Lists n P) (hb : b ≤ n + 1)
    (h : ∀ q, ¬ Within a b q → P₁ q = P q) : Lists n P₁ := by
  intro q
  by_cases hq : Within a b q
  · obtain ⟨q', hq', heq⟩ := perm_within h hq
    rw [heq, hP q']
    unfold Within at hq hq'
    omega
  · rw [h q hq]
    exact hP q

/-- A group that is about to be split, or the part of it that is left. -/
structure Region (old : Bytes) (h : Nat) (P : Equiv.Perm Nat) (I V : Arr) (start stop : Nat) (g : Int) :
    Prop where
  sizeI : I.size = old.length + 1
  sizeV : V.size = old.length + 1
  lists : Lists old.length P
  stop_le : stop ≤ old.length + 1
  get : ∀ q, Within start stop q → I.get q = P q
  rank : ∀ q, Within start stop q → V.get (P q) = g
  inside : ∀ q, Within start stop q → P q + h ≤ old.length
  gap : ∀ q, q ≤ old.length → ¬ Within start stop q → V.get (P q) < start ∨ g ≤ V.get (P q)
  above : (stop : Int) - 1 ≤ g
  others : ∀ q, q ≤ old.length → ¬ Within start stop q → V.get (P q) = g →
    ∀ q', Within start stop q' → old.drop (P q') < old.drop (P q)

variable {old : Bytes} {h : Nat} {V : Arr} {start stop : Nat} {g : Int}

theorem Region.shuffle (hr : Region old h P I V start stop g)
    (hs : Shuffles start stop P I P₁ I₁) : Region old h P₁ I₁ V start stop g := by
  have hmem := fun q hq => perm_within hs.perm (q := q) hq
  refine ⟨hs.size.trans hr.sizeI, hr.sizeV, hr.lists.perm hr.stop_le hs.perm, hr.stop_le, hs.inside,
    ?_, ?_, ?_, hr.above, ?_⟩
  · intro q hq
    obtain ⟨q', hq', heq⟩ := hmem q hq
    rw [heq, hr.rank q' hq']
  · intro q hq
    obtain ⟨q', hq', heq⟩ := hmem q hq
    rw [heq]
    exact hr.inside q' hq'
  · intro q hq hout
    rw [hs.perm q hout]
    exact hr.gap q hq hout
  · intro q hq hout hV q' hq'
    obtain ⟨q'', hq'', heq⟩ := hmem q' hq'
    rw [hs.perm q hout] at hV ⊢
    rw [heq]
    exact hr.others q hq hout hV q'' hq''

/-- The key of the suffix at `q`. -/
def keyAt (V : Arr) (h : Nat) (P : Equiv.Perm Nat) (q : Nat) : Int := V.get (P q + h)

theorem Region.key_eq (hr : Region old h P I V start stop g) {q : Nat} (hq : Within start stop q) :
    key I V h q = some (keyAt V h P q) := by
  have hinside := hr.inside q hq
  have hle := hr.stop_le
  have hI : q < I.size := by rw [hr.sizeI]; unfold Within at hq; omega
  have hV : P q + h < V.size := by rw [hr.sizeV]; omega
  unfold key
  rw [Arr.read_eq hI, hr.get q hq]
  show V.read ((P q : Int) + (h : Int)) = _
  rw [← Int.natCast_add, Arr.read_eq hV]
  rfl

/-- The suffixes listed in `[a, m)` come before those in `[m, b)`. -/
def Below (old : Bytes) (P : Equiv.Perm Nat) (a m b : Nat) : Prop :=
  ∀ q q', Within a m q → Within m b q' → old.drop (P q) < old.drop (P q')

/-- The suffixes listed in `[a, b)` agree on their first `d` bytes. -/
def Agree (old : Bytes) (d : Nat) (P : Equiv.Perm Nat) (a b : Nat) : Prop :=
  ∀ q q', Within a b q → Within a b q' → (old.drop (P q)).take d = (old.drop (P q')).take d

theorem Region.below (hr : Region old h P I V start stop g) (hR : Ranks old h V.get) {a m b : Nat}
    (ha : start ≤ a) (hb : b ≤ stop)
    (hkey : ∀ q q', Within a m q → Within m b q' → keyAt V h P q < keyAt V h P q') :
    Below old P a m b := by
  intro q q' hq hq'
  have hlt := hkey q q' hq hq'
  unfold Within at hq hq'
  have hin : Within start stop q := ⟨by omega, by omega⟩
  have hin' : Within start stop q' := ⟨by omega, by omega⟩
  apply hR.key_lt (hr.inside q hin) (hr.inside q' hin') _ hlt
  rw [hr.rank q hin, hr.rank q' hin']

theorem Region.agree (hr : Region old h P I V start stop g) (hR : Ranks old h V.get) {a b : Nat} {x : Int}
    (ha : start ≤ a) (hb : b ≤ stop) (hkey : ∀ q, Within a b q → keyAt V h P q = x) :
    Agree old (h + h) P a b := by
  intro q q' hq hq'
  have heq := (hkey q hq).trans (hkey q' hq').symm
  unfold Within at hq hq'
  have hin : Within start stop q := ⟨by omega, by omega⟩
  have hin' : Within start stop q' := ⟨by omega, by omega⟩
  apply hR.key_eq (hr.inside q hin) (hr.inside q' hin') _ heq
  rw [hr.rank q hin, hr.rank q' hin']

/-! ## A small group -/

/-- The first `j` of `i` entries from `k` have the key `x`, the others a larger one. -/
structure Gathered (V : Arr) (h k i : Nat) (P : Equiv.Perm Nat) (j : Nat) (x : Int) : Prop where
  pos : 1 ≤ j
  le : j ≤ i
  smallest : ∀ q, Within k (k + j) q → keyAt V h P q = x
  larger : ∀ q, Within (k + j) (k + i) q → x < keyAt V h P q

variable {k : Nat}

theorem keyAt_swap_left (u v : Nat) : keyAt V h ((Equiv.swap u v).trans P) u = keyAt V h P v := by
  unfold keyAt
  rw [Equiv.trans_apply, Equiv.swap_apply_left]

theorem keyAt_swap_right (u v : Nat) : keyAt V h ((Equiv.swap u v).trans P) v = keyAt V h P u := by
  unfold keyAt
  rw [Equiv.trans_apply, Equiv.swap_apply_right]

theorem keyAt_swap_ne {u v q : Nat} (hu : q ≠ u) (hv : q ≠ v) :
    keyAt V h ((Equiv.swap u v).trans P) q = keyAt V h P q := by
  unfold keyAt
  rw [Equiv.trans_apply, Equiv.swap_apply_of_ne_of_ne hu hv]

/-- A smaller key starts anew. -/
theorem Gathered.smaller {i j : Nat} {x : Int} (hg : Gathered V h k i P j x)
    (hx : keyAt V h P (k + i) < x) :
    Gathered V h k (i + 1) ((Equiv.swap k (k + i)).trans P) 1 (keyAt V h P (k + i)) := by
  have hpos := hg.pos
  have hle := hg.le
  refine ⟨Nat.le_refl _, by omega, ?_, ?_⟩
  · intro q hq
    obtain rfl : q = k := by unfold Within at hq; omega
    exact keyAt_swap_left _ _
  · intro q hq
    unfold Within at hq
    by_cases hlast : q = k + i
    · rw [hlast, keyAt_swap_right, hg.smallest k ⟨by omega, by omega⟩]
      exact hx
    · rw [keyAt_swap_ne (by omega) hlast]
      by_cases hsmall : q < k + j
      · rw [hg.smallest q ⟨by omega, hsmall⟩]
        exact hx
      · exact Int.lt_trans hx (hg.larger q ⟨by omega, by omega⟩)

/-- An equal key joins the others. -/
theorem Gathered.equal {i j : Nat} {x : Int} (hg : Gathered V h k i P j x)
    (hx : keyAt V h P (k + i) = x) :
    Gathered V h k (i + 1) ((Equiv.swap (k + j) (k + i)).trans P) (j + 1) x := by
  have hpos := hg.pos
  have hle := hg.le
  refine ⟨by omega, by omega, ?_, ?_⟩
  · intro q hq
    unfold Within at hq
    by_cases hlast : q = k + j
    · rw [hlast, keyAt_swap_left]
      exact hx
    · rw [keyAt_swap_ne hlast (by omega)]
      exact hg.smallest q ⟨by omega, by omega⟩
  · intro q hq
    unfold Within at hq
    by_cases hlast : q = k + i
    · rw [hlast, keyAt_swap_right]
      exact hg.larger _ ⟨by omega, by omega⟩
    · rw [keyAt_swap_ne (by omega) hlast]
      exact hg.larger q ⟨by omega, by omega⟩

theorem Gathered.skip {i j : Nat} {x : Int} (hg : Gathered V h k i P j x)
    (hx : x < keyAt V h P (k + i)) : Gathered V h k (i + 1) P j x := by
  have hle := hg.le
  refine ⟨hg.pos, by omega, hg.smallest, fun q hq => ?_⟩
  unfold Within at hq
  by_cases hlast : q = k + i
  · rw [hlast]
    exact hx
  · exact hg.larger q ⟨by omega, by omega⟩

theorem gatherStep_spec (hr : Region old h P I V k stop g) {i j : Nat} {x : Int}
    (hi : k + i < stop) (hs : Shuffles k stop P I P₁ I₁) (hg : Gathered V h k i P₁ j x) :
    ∃ j' x' I₂ P₂, gatherStep V h k i (j, x, I₁) = some (j', x', I₂) ∧
      Shuffles k stop P I P₂ I₂ ∧ Gathered V h k (i + 1) P₂ j' x' := by
  have hpos := hg.pos
  have hle := hg.le
  have hkey := (hr.shuffle hs).key_eq (q := k + i) ⟨by omega, hi⟩
  have hstop : stop ≤ I.size := by rw [hr.sizeI]; exact hr.stop_le
  unfold gatherStep
  obtain hlt | heq | hgt := Int.lt_trichotomy (keyAt V h P₁ (k + i)) x
  · obtain ⟨I₂, hswap, hs₂⟩ := hs.swap (u := k + 0) (v := k + i) ⟨by omega, by omega⟩
      ⟨by omega, hi⟩ hstop
    refine ⟨_, _, I₂, _, ?_, hs₂, hg.smaller hlt⟩
    simp only [Nat.add_zero, Int.natCast_add] at hswap
    simp [hkey, hlt, hswap]
  · obtain ⟨I₂, hswap, hs₂⟩ := hs.swap (u := k + j) (v := k + i) ⟨by omega, by omega⟩
      ⟨by omega, hi⟩ hstop
    refine ⟨_, _, I₂, _, ?_, hs₂, hg.equal heq⟩
    simp only [Int.natCast_add] at hswap
    simp [hkey, heq, hswap]
  · refine ⟨j, x, I₁, P₁, ?_, hs, hg.skip hgt⟩
    simp [hkey, Int.ne_of_gt hgt, Int.not_lt.mpr (Int.le_of_lt hgt)]

theorem gather_spec (hr : Region old h P I V k stop g) (hR : Ranks old h V.get) (hk : k < stop) :
    ∃ j I₁ P₁, gather V h k stop I = some (j, I₁) ∧ Shuffles k stop P I P₁ I₁ ∧
      (1 ≤ j ∧ k + j ≤ stop) ∧ Below old P₁ k (k + j) stop ∧ Agree old (h + h) P₁ k (k + j) := by
  have hkey := hr.key_eq (q := k) ⟨Nat.le_refl _, hk⟩
  obtain ⟨⟨j, x, I₁⟩, hloop, P₁, hs, hg⟩ := forTo_spec (f := fun i => gatherStep V h k (i + 1))
    (n := stop - k - 1) (s := (1, keyAt V h P k, I))
    (fun i st => ∃ P₁, Shuffles k stop P I P₁ st.2.2 ∧ Gathered V h k (i + 1) P₁ st.1 st.2.1)
    ⟨P, .refl hr.get, Nat.le_refl _, Nat.le_refl _, fun q hq => by
      obtain rfl : q = k := by unfold Within at hq; omega
      rfl, fun q hq => by unfold Within at hq; omega⟩
    (by
      rintro i ⟨j, x, I₁⟩ hi ⟨P₁, hs, hg⟩
      obtain ⟨j', x', I₂, P₂, hstep, hs₂, hg₂⟩ := gatherStep_spec hr (i := i + 1) (by omega) hs hg
      exact ⟨_, hstep, P₂, hs₂, hg₂⟩)
  have hr₁ := hr.shuffle hs
  have hle := hg.le
  refine ⟨j, I₁, P₁, ?_, hs, ⟨hg.pos, by omega⟩, hr₁.below hR (Nat.le_refl _) (Nat.le_refl _) ?_,
    hr₁.agree hR (x := x) (Nat.le_refl _) (by omega) hg.smallest⟩
  · unfold gather
    simp [hkey, hloop]
  · intro q q' hq hq'
    unfold Within at hq'
    rw [hg.smallest q hq]
    exact hg.larger q' ⟨hq'.1, by omega⟩

/-! ## A large group -/

/-- The keys below `x` fit in `[start, jj)`, those equal to it in `[jj, kk)`. -/
structure Counted (V : Arr) (h : Nat) (P : Equiv.Perm Nat) (start stop : Nat) (x : Int) (jj kk : Nat) :
    Prop where
  less : jj = start + number (fun q => keyAt V h P q < x) start stop
  equal : kk = jj + number (fun q => keyAt V h P q = x) start stop
  greater : stop = kk + number (fun q => x < keyAt V h P q) start stop

variable {x : Int} {jj kk : Nat}

theorem Counted.shuffle (hc : Counted V h P start stop x jj kk) (hs : Shuffles start stop P I P₁ I₁) :
    Counted V h P₁ start stop x jj kk := by
  obtain ⟨hless, hequal, hgreater⟩ := hc
  refine ⟨hless.trans ?_, hequal.trans ?_, hgreater.trans ?_⟩
  · exact congrArg (start + ·) (number_shuffle (R := fun s => V.get (s + h) < x) hs.perm).symm
  · exact congrArg (jj + ·) (number_shuffle (R := fun s => V.get (s + h) = x) hs.perm).symm
  · exact congrArg (kk + ·) (number_shuffle (R := fun s => x < V.get (s + h)) hs.perm).symm

theorem countKeys_spec (hr : Region old h P I V start stop g) (hstart : start ≤ stop) :
    countKeys I V h start (stop - start) x = some (number (fun q => keyAt V h P q < x) start stop,
      number (fun q => keyAt V h P q = x) start stop) := by
  obtain ⟨st, hloop, hst⟩ := forTo_spec (n := stop - start) (s := ((0, 0) : Nat × Nat))
    (f := fun i (st : Nat × Nat) => do
      let y ← key I V h (start + i)
      some (if y < x then st.1 + 1 else st.1, if y = x then st.2 + 1 else st.2))
    (fun i st => st = (number (fun q => keyAt V h P q < x) start (start + i),
      number (fun q => keyAt V h P q = x) start (start + i)))
    (by simp)
    (by
      rintro i st hi rfl
      have hkey := hr.key_eq (q := start + i) ⟨by omega, by omega⟩
      refine ⟨_, by rw [hkey]; rfl, ?_⟩
      rw [← Nat.add_assoc, number_succ (by omega), number_succ (by omega)])
  rw [Nat.add_sub_cancel' hstart] at hst
  rw [countKeys, hloop, hst]

/-- What the cursors have passed is in its place. -/
structure Placed (V : Arr) (h : Nat) (P : Equiv.Perm Nat) (start stop : Nat) (x : Int) (jj kk : Nat)
    (c : Cursors) : Prop where
  start_le : start ≤ c.i
  i_le : c.i ≤ jj
  j_le : jj + c.j ≤ kk
  k_le : kk + c.k ≤ stop
  less : ∀ q, Within start c.i q → keyAt V h P q < x
  equal : ∀ q, Within jj (jj + c.j) q → keyAt V h P q = x
  greater : ∀ q, Within kk (kk + c.k) q → x < keyAt V h P q

variable {c : Cursors}

theorem Placed.init (hjj : start ≤ jj) (hkk : jj ≤ kk) (hstop : kk ≤ stop) :
    Placed V h P start stop x jj kk ⟨start, 0, 0, I⟩ := by
  refine ⟨Nat.le_refl _, hjj, hkk, hstop, fun q hq => ?_, fun q hq => ?_, fun q hq => ?_⟩
  · have : start ≤ q ∧ q < start := hq
    omega
  · have : jj ≤ q ∧ q < jj := hq
    omega
  · have : kk ≤ q ∧ q < kk := hq
    omega

theorem Placed.passLess (hp : Placed V h P start stop x jj kk c) (hi : c.i < jj)
    (hx : keyAt V h P c.i < x) : Placed V h P start stop x jj kk { c with i := c.i + 1 } := by
  have hstart := hp.start_le
  refine ⟨by show start ≤ c.i + 1; omega, hi, hp.j_le, hp.k_le, fun q hq => ?_, hp.equal, hp.greater⟩
  obtain ⟨hq, hq'⟩ : start ≤ q ∧ q < c.i + 1 := hq
  by_cases hlast : q = c.i
  · rw [hlast]
    exact hx
  · exact hp.less q ⟨hq, by omega⟩

theorem Placed.passEqual (hp : Placed V h P start stop x jj kk c) (hj : jj + c.j < kk)
    (hx : keyAt V h P (jj + c.j) = x) : Placed V h P start stop x jj kk { c with j := c.j + 1 } := by
  refine ⟨hp.start_le, hp.i_le, hj, hp.k_le, hp.less, fun q hq => ?_, hp.greater⟩
  obtain ⟨hq, hq'⟩ : jj ≤ q ∧ q < jj + (c.j + 1) := hq
  by_cases hlast : q = jj + c.j
  · rw [hlast]
    exact hx
  · exact hp.equal q ⟨hq, by omega⟩

/-- An entry from `u` joins the equal keys. -/
theorem Placed.swapEqual (hp : Placed V h P start stop x jj kk c) (hi : c.i < jj) (hj : jj + c.j < kk)
    (hx : keyAt V h P c.i = x) : Placed V h ((Equiv.swap c.i (jj + c.j)).trans P) start stop x jj kk
      { c with I := I, j := c.j + 1 } := by
  refine ⟨hp.start_le, hp.i_le, hj, hp.k_le, fun q hq => ?_, fun q hq => ?_, fun q hq => ?_⟩
  · obtain ⟨hq, hq'⟩ : start ≤ q ∧ q < c.i := hq
    rw [keyAt_swap_ne (by omega) (by omega)]
    exact hp.less q ⟨hq, hq'⟩
  · obtain ⟨hq, hq'⟩ : jj ≤ q ∧ q < jj + (c.j + 1) := hq
    by_cases hlast : q = jj + c.j
    · rw [hlast, keyAt_swap_right]
      exact hx
    · rw [keyAt_swap_ne (by omega) hlast]
      exact hp.equal q ⟨hq, by omega⟩
  · obtain ⟨hq, hq'⟩ : kk ≤ q ∧ q < kk + c.k := hq
    rw [keyAt_swap_ne (by omega) (by omega)]
    exact hp.greater q ⟨hq, hq'⟩

/-- An entry from `u`, which none has passed, joins the greater keys. -/
theorem Placed.swapGreater (hp : Placed V h P start stop x jj kk c) {u : Nat} (hi : c.i ≤ u)
    (hu : u < kk) (hj : ¬ Within jj (jj + c.j) u) (hk : kk + c.k < stop) (hx : x < keyAt V h P u) :
    Placed V h ((Equiv.swap u (kk + c.k)).trans P) start stop x jj kk
      { c with I := I, k := c.k + 1 } := by
  have hle := hp.i_le
  have hjle := hp.j_le
  refine ⟨hp.start_le, hp.i_le, hp.j_le, hk, fun q hq => ?_, fun q hq => ?_, fun q hq => ?_⟩
  · obtain ⟨hq, hq'⟩ : start ≤ q ∧ q < c.i := hq
    rw [keyAt_swap_ne (by omega) (by omega)]
    exact hp.less q ⟨hq, hq'⟩
  · have hne : q ≠ u := by
      rintro rfl
      exact hj hq
    obtain ⟨hq, hq'⟩ : jj ≤ q ∧ q < jj + c.j := hq
    rw [keyAt_swap_ne hne (by omega)]
    exact hp.equal q ⟨hq, hq'⟩
  · obtain ⟨hq, hq'⟩ : kk ≤ q ∧ q < kk + (c.k + 1) := hq
    by_cases hlast : q = kk + c.k
    · rw [hlast, keyAt_swap_right]
      exact hx
    · rw [keyAt_swap_ne (by omega) hlast]
      exact hp.greater q ⟨hq, by omega⟩

/-- The entries at the cursors have not been passed, so there is room for them. -/
theorem Placed.equal_room (hp : Placed V h P start stop x jj kk c)
    (hc : Counted V h P start stop x jj kk) {u : Nat} (hu : Within start jj u)
    (hx : keyAt V h P u = x) : jj + c.j < kk := by
  have hequal := hc.equal
  have hless := hc.less
  have hgreater := hc.greater
  have hj := hp.j_le
  unfold Within at hu
  have := lt_number (p := fun q => keyAt V h P q = x) (a := start) (b := stop) (m := jj) (c := c.j)
    (fun q hq => ⟨⟨by unfold Within at hq; omega, by unfold Within at hq; omega⟩, hp.equal q hq⟩)
    ⟨hu.1, by omega⟩ (by unfold Within; omega) hx
  omega

theorem Placed.greater_room (hp : Placed V h P start stop x jj kk c)
    (hc : Counted V h P start stop x jj kk) {u : Nat} (hu : Within start kk u)
    (hx : x < keyAt V h P u) : kk + c.k < stop := by
  have hequal := hc.equal
  have hless := hc.less
  have hgreater := hc.greater
  have hk := hp.k_le
  unfold Within at hu
  have := lt_number (p := fun q => x < keyAt V h P q) (a := start) (b := stop) (m := kk) (c := c.k)
    (fun q hq => ⟨⟨by unfold Within at hq; omega, by unfold Within at hq; omega⟩, hp.greater q hq⟩)
    ⟨hu.1, by omega⟩ (by unfold Within; omega) hx
  omega

theorem splitLessStep_spec (hr : Region old h P I V start stop g)
    (hs : Shuffles start stop P I P₁ c.I) (hc : Counted V h P₁ start stop x jj kk)
    (hp : Placed V h P₁ start stop x jj kk c) (hi : c.i < jj) :
    ∃ c' P', splitLessStep V h x jj kk c = some c' ∧ Shuffles start stop P I P' c'.I ∧
      Placed V h P' start stop x jj kk c' ∧ c'.i + c'.j + c'.k = c.i + c.j + c.k + 1 := by
  have hstart := hp.start_le
  have hequal := hc.equal
  have hgreater := hc.greater
  have hkey := (hr.shuffle hs).key_eq (q := c.i) ⟨hstart, by omega⟩
  have hstop : stop ≤ I.size := by rw [hr.sizeI]; exact hr.stop_le
  unfold splitLessStep
  obtain hlt | heq | hgt := Int.lt_trichotomy (keyAt V h P₁ c.i) x
  · refine ⟨{ c with i := c.i + 1 }, P₁, by simp [hkey, hlt], hs, hp.passLess hi hlt, ?_⟩
    show c.i + 1 + c.j + c.k = _
    omega
  · have hroom := hp.equal_room hc (u := c.i) ⟨hstart, hi⟩ heq
    obtain ⟨I₂, hswap, hs₂⟩ := hs.swap (u := c.i) (v := jj + c.j) ⟨hstart, by omega⟩
      ⟨by omega, by omega⟩ hstop
    simp only [Int.natCast_add] at hswap
    refine ⟨{ c with I := I₂, j := c.j + 1 }, _, by simp [hkey, heq, hswap], hs₂,
      hp.swapEqual hi hroom heq, ?_⟩
    show c.i + (c.j + 1) + c.k = _
    omega
  · have hroom := hp.greater_room hc (u := c.i) ⟨hstart, by omega⟩ hgt
    obtain ⟨I₂, hswap, hs₂⟩ := hs.swap (u := c.i) (v := kk + c.k) ⟨hstart, by omega⟩
      ⟨by omega, by omega⟩ hstop
    simp only [Int.natCast_add] at hswap
    have hnot := Int.not_lt.mpr (Int.le_of_lt hgt)
    refine ⟨{ c with I := I₂, k := c.k + 1 }, _, by simp [hkey, Int.ne_of_gt hgt, hnot, hswap], hs₂,
      hp.swapGreater (Nat.le_refl _) (by omega) (by unfold Within; omega) hroom hgt, ?_⟩
    show c.i + c.j + (c.k + 1) = _
    omega

/-- All keys below `x` are at the front. -/
theorem Placed.not_less (hp : Placed V h P start stop x jj kk c)
    (hc : Counted V h P start stop x jj kk) (hi : c.i = jj) {u : Nat} (hu : Within jj stop u) :
    ¬ keyAt V h P u < x := by
  intro hx
  have hless := hc.less
  have hstart := hp.start_le
  have hequal := hc.equal
  have hgreater := hc.greater
  unfold Within at hu
  have hin := eq_of_full (p := fun q => keyAt V h P q < x) (a := start) (b := stop) (m := start)
    (c := jj - start)
    (fun q hq => by
      unfold Within at hq
      exact ⟨⟨hq.1, by omega⟩, hp.less q ⟨hq.1, by omega⟩⟩)
    (by omega) ⟨by omega, hu.2⟩ hx
  unfold Within at hin
  omega

theorem splitEqualStep_spec (hr : Region old h P I V start stop g)
    (hs : Shuffles start stop P I P₁ c.I) (hc : Counted V h P₁ start stop x jj kk)
    (hp : Placed V h P₁ start stop x jj kk c) (hi : c.i = jj) (hj : jj + c.j < kk) :
    ∃ c' P', splitEqualStep V h x jj kk c = some c' ∧ Shuffles start stop P I P' c'.I ∧
      Placed V h P' start stop x jj kk c' ∧ c'.i = jj ∧ c'.j + c'.k = c.j + c.k + 1 := by
  have hstart := hp.start_le
  have hgreater := hc.greater
  have hkey := (hr.shuffle hs).key_eq (q := jj + c.j) ⟨by omega, by omega⟩
  have hstop : stop ≤ I.size := by rw [hr.sizeI]; exact hr.stop_le
  have hnot := hp.not_less hc hi (u := jj + c.j) ⟨by omega, by omega⟩
  unfold splitEqualStep
  by_cases heq : keyAt V h P₁ (jj + c.j) = x
  · refine ⟨{ c with j := c.j + 1 }, P₁, by simp [hkey, heq], hs, hp.passEqual hj heq, hi, ?_⟩
    show c.j + 1 + c.k = _
    omega
  · have hgt : x < keyAt V h P₁ (jj + c.j) := by omega
    have hroom := hp.greater_room hc (u := jj + c.j) ⟨by omega, hj⟩ hgt
    obtain ⟨I₂, hswap, hs₂⟩ := hs.swap (u := jj + c.j) (v := kk + c.k) ⟨by omega, by omega⟩
      ⟨by omega, by omega⟩ hstop
    simp only [Int.natCast_add] at hswap
    refine ⟨{ c with I := I₂, k := c.k + 1 }, _, by simp [hkey, heq, hswap], hs₂,
      hp.swapGreater (by omega) hj (by unfold Within; omega) hroom hgt, hi, ?_⟩
    show c.j + (c.k + 1) = _
    omega

/-- Both loops bring every key to its place. -/
theorem sortCursors_spec (hr : Region old h P I V start stop g)
    (hc : Counted V h P start stop x jj kk) {len : Nat} (hlen : start + len = stop) :
    ∃ c c' P', loopWhile (fun c => c.i < jj) (splitLessStep V h x jj kk) len ⟨start, 0, 0, I⟩ = some c ∧
      loopWhile (fun c => jj + c.j < kk) (splitEqualStep V h x jj kk) len c = some c' ∧
      Shuffles start stop P I P' c'.I ∧ Counted V h P' start stop x jj kk ∧
      Placed V h P' start stop x jj kk c' ∧ c'.i = jj ∧ jj + c'.j = kk := by
  have hless := hc.less
  have hequal := hc.equal
  have hgreater := hc.greater
  obtain ⟨c, hrun, ⟨P₁, hs, hp⟩, hend⟩ := loopWhile_spec (f := splitLessStep V h x jj kk)
    (fun c => ∃ P₁, Shuffles start stop P I P₁ c.I ∧ Placed V h P₁ start stop x jj kk c)
    (fun c => (jj + kk + stop) - (c.i + (jj + c.j) + (kk + c.k)))
    (by
      rintro c ⟨P₁, hs, hp⟩ hi
      obtain ⟨c', P', hstep, hs', hp', hsum⟩ :=
        splitLessStep_spec hr hs (hc.shuffle hs) hp (of_decide_eq_true hi)
      have hi := hp'.i_le
      have hj := hp'.j_le
      have hk := hp'.k_le
      exact ⟨c', hstep, ⟨P', hs', hp'⟩, by omega⟩)
    len ⟨start, 0, 0, I⟩
    ⟨P, .refl hr.get, .init (by omega) (by omega) (by omega)⟩
    (by show jj + kk + stop - (start + (jj + 0) + (kk + 0)) ≤ len; omega)
  have hi : c.i = jj := by
    have := hp.i_le
    have := of_decide_eq_false hend
    omega
  obtain ⟨c', hrun', ⟨P', hs', hp', hi'⟩, hend'⟩ := loopWhile_spec (f := splitEqualStep V h x jj kk)
    (fun c => ∃ P₁, Shuffles start stop P I P₁ c.I ∧ Placed V h P₁ start stop x jj kk c ∧ c.i = jj)
    (fun c => (kk + stop) - ((jj + c.j) + (kk + c.k)))
    (by
      rintro c ⟨P₁, hs, hp, hi⟩ hj
      obtain ⟨c', P', hstep, hs', hp', hi', hsum⟩ :=
        splitEqualStep_spec hr hs (hc.shuffle hs) hp hi (of_decide_eq_true hj)
      have hj := hp'.j_le
      have hk := hp'.k_le
      exact ⟨c', hstep, ⟨P', hs', hp', hi'⟩, by omega⟩)
    len c ⟨P₁, hs, hp, hi⟩ (by omega)
  refine ⟨c, c', P', hrun, hrun', hs', hc.shuffle hs', hp', hi', ?_⟩
  have := hp'.j_le
  have := of_decide_eq_false hend'
  omega

/-- All keys equal to `x` are in the middle. -/
theorem Placed.not_equal (hp : Placed V h P start stop x jj kk c)
    (hc : Counted V h P start stop x jj kk) (hj : jj + c.j = kk) {u : Nat} (hu : Within kk stop u) :
    keyAt V h P u ≠ x := by
  intro hx
  have hless := hc.less
  have hequal := hc.equal
  have hgreater := hc.greater
  unfold Within at hu
  have hin := eq_of_full (p := fun q => keyAt V h P q = x) (a := start) (b := stop) (m := jj) (c := c.j)
    (fun q hq => ⟨⟨by unfold Within at hq; omega, by unfold Within at hq; omega⟩, hp.equal q hq⟩)
    (by omega) ⟨by omega, hu.2⟩ hx
  unfold Within at hin
  omega

theorem splitKeys_spec (hr : Region old h P I V start stop g) (hR : Ranks old h V.get) {len : Nat}
    (hlen : start + len = stop) (hpos : 0 < len) :
    ∃ jj kk I₁ P₁, splitKeys I V start len h = some (jj, kk, I₁) ∧ Shuffles start stop P I P₁ I₁ ∧
      (start ≤ jj ∧ jj < kk ∧ kk ≤ stop) ∧ Below old P₁ start jj stop ∧
      Agree old (h + h) P₁ jj kk ∧ Below old P₁ jj kk stop := by
  have hmid : Within start stop (start + len / 2) := ⟨by omega, by omega⟩
  have hkey := hr.key_eq hmid
  generalize hx : keyAt V h P (start + len / 2) = x at hkey
  have hcount := countKeys_spec hr (x := x) (by omega)
  rw [show stop - start = len by omega] at hcount
  have htotal := number_trichotomy (fun q => keyAt V h P q) x (a := start) (b := stop) (by omega)
  obtain ⟨jj, kk, hc₀⟩ : ∃ jj kk, Counted V h P start stop x jj kk := ⟨_, _, rfl, rfl, by omega⟩
  obtain ⟨c, c', P₁, hrun, hrun', hs, hc, hp, hi, hj⟩ := sortCursors_spec hr hc₀ hlen
  have hpivot := lt_number (p := fun q => keyAt V h P q = x) (m := start) (c := 0)
    (fun q hq => by unfold Within at hq; omega) hmid (by unfold Within; omega) hx
  have hless := hc₀.less
  have hequal := hc₀.equal
  have hgreater := hc₀.greater
  have hr₁ := hr.shuffle hs
  refine ⟨jj, kk, c'.I, P₁, ?_, hs, ⟨by omega, by omega, by omega⟩, ?_, ?_, ?_⟩
  · unfold splitKeys
    simp only [hkey, hcount, Option.bind_eq_bind, Option.bind_some]
    rw [← hless, ← hequal, hrun, Option.bind_some, hrun', Option.bind_some]
  · apply hr₁.below hR (Nat.le_refl _) (Nat.le_refl _)
    intro q q' hq hq'
    have hlt := hp.less q (by rw [hi]; exact hq)
    have hnot := hp.not_less hc hi hq'
    omega
  · apply hr₁.agree hR (x := x) (by omega) (by omega)
    intro q hq
    exact hp.equal q (by rw [hj]; exact hq)
  · apply hr₁.below hR (by omega) (Nat.le_refl _)
    intro q q' hq hq'
    have heq := hp.equal q (by rw [hj]; exact hq)
    have hne := hp.not_equal hc hj hq'
    have hnot := hp.not_less hc hi (u := q') (by unfold Within at hq hq' ⊢; omega)
    omega

end Miui.Bsdiff
