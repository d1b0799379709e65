import MiuiRecovery.ApplyPatch.Bsdiff.Partition

/-!
# split refines a group

`split` divides a group of suffixes that agree on `h` bytes into groups that agree on `2 * h` bytes.

* `Segs`: a stretch of the array as a sequence of groups and sorted runs.
* `close_spec`: the suffixes with one key become a group of their own.
* `split_spec`: `split` ends within its bounds, and the whole group becomes such a sequence.
-/

namespace Miui.Bsdiff

open Suffix

variable {old : Bytes} {h d : Nat} {P P₁ P₂ : Equiv.Perm Nat} {I I₁ I₂ V V₁ V₂ : Arr} {a b k m : Nat}
  {start stop : Nat} {g : Int}

/-! ## Groups and runs -/

/-- The suffixes from `a` on agree on `d` bytes; their rank is the last index of the group. -/
structure Group (old : Bytes) (d : Nat) (P : Equiv.Perm Nat) (I V : Arr) (a len : Nat) : Prop where
  get : ∀ q, Within a (a + len) q → I.get q = P q
  rank : ∀ q, Within a (a + len) q → V.get (P q) = (a + len : Nat) - 1
  inside : ∀ q, Within a (a + len) q → P q + d ≤ old.length
  agree : Agree old d P a (a + len)

/-- A stretch of groups and of runs, where a run of `len` sorted suffixes starts with `-len`. -/
inductive Segs (old : Bytes) (d : Nat) (P : Equiv.Perm Nat) (I V : Arr) : Nat → Nat → Prop
  | nil (a : Nat) : Segs old d P I V a a
  | run {a b : Nat} (len : Nat) (hpos : 0 < len) (hhead : I.get a = -(len : Int))
      (hrank : ∀ q, Within a (a + len) q → V.get (P q) = q) (hrest : Segs old d P I V (a + len) b) :
      Segs old d P I V a b
  | group {a b : Nat} (len : Nat) (hpos : 0 < len) (hgroup : Group old d P I V a len)
      (hrest : Segs old d P I V (a + len) b) : Segs old d P I V a b

theorem Segs.le (hs : Segs old d P I V a b) : a ≤ b := by
  induction hs with
  | nil a => exact Nat.le_refl _
  | run len hpos hhead hrank hrest ih => omega
  | group len hpos hgroup hrest ih => omega

theorem Segs.append (hs : Segs old d P I V a m) (ht : Segs old d P I V m b) : Segs old d P I V a b := by
  induction hs with
  | nil a => exact ht
  | run len hpos hhead hrank hrest ih => exact .run len hpos hhead hrank (ih ht)
  | group len hpos hgroup hrest ih => exact .group len hpos hgroup (ih ht)

/-- The ranks of a stretch are among its indices. -/
theorem Segs.rank_mem (hs : Segs old d P I V a b) {q : Nat} (hq : Within a b q) :
    (a : Int) ≤ V.get (P q) ∧ V.get (P q) < b := by
  induction hs with
  | nil a => unfold Within at hq; omega
  | run len hpos hhead hrank hrest ih =>
    have hle := hrest.le
    unfold Within at hq
    rename_i a b
    by_cases hin : q < a + len
    · rw [hrank q ⟨hq.1, hin⟩]
      omega
    · have := ih ⟨by omega, hq.2⟩
      omega
  | group len hpos hgroup hrest ih =>
    have hle := hrest.le
    unfold Within at hq
    rename_i a b
    by_cases hin : q < a + len
    · rw [hgroup.rank q ⟨hq.1, hin⟩]
      omega
    · have := ih ⟨by omega, hq.2⟩
      omega

/-- What changes inside the stretch from `a` to `b` only. -/
structure Keeps (a b : Nat) (P : Equiv.Perm Nat) (I V : Arr) (P' : Equiv.Perm Nat) (I' V' : Arr) :
    Prop where
  sizeI : I'.size = I.size
  sizeV : V'.size = V.size
  perm : ∀ q, ¬ Within a b q → P' q = P q
  get : ∀ q, ¬ Within a b q → I'.get q = I.get q
  rank : ∀ q, ¬ Within a b q → V'.get (P' q) = V.get (P q)

theorem Keeps.refl : Keeps a b P I V P I V :=
  ⟨rfl, rfl, fun _ _ => rfl, fun _ _ => rfl, fun _ _ => rfl⟩

theorem Keeps.trans (h₁ : Keeps a b P I V P₁ I₁ V₁) (h₂ : Keeps a b P₁ I₁ V₁ P₂ I₂ V₂) :
    Keeps a b P I V P₂ I₂ V₂ :=
  ⟨h₂.sizeI.trans h₁.sizeI, h₂.sizeV.trans h₁.sizeV, fun q hq => (h₂.perm q hq).trans (h₁.perm q hq),
    fun q hq => (h₂.get q hq).trans (h₁.get q hq), fun q hq => (h₂.rank q hq).trans (h₁.rank q hq)⟩

theorem Keeps.mono (hk : Keeps k m P I V P₁ I₁ V₁) (ha : a ≤ k) (hb : m ≤ b) :
    Keeps a b P I V P₁ I₁ V₁ := by
  have hout : ∀ q, ¬ Within a b q → ¬ Within k m q := by
    intro q hq hin
    unfold Within at hq hin
    omega
  exact ⟨hk.sizeI, hk.sizeV, fun q hq => hk.perm q (hout q hq), fun q hq => hk.get q (hout q hq),
    fun q hq => hk.rank q (hout q hq)⟩

theorem Keeps.of_shuffles (hs : Shuffles a b P I P₁ I₁) : Keeps a b P I V P₁ I₁ V := by
  refine ⟨hs.size, rfl, hs.perm, hs.outside, fun q hq => ?_⟩
  rw [hs.perm q hq]

theorem Group.congr {len : Nat} (hg : Group old d P I V a len)
    (hP : ∀ q, Within a (a + len) q → P₁ q = P q) (hI : ∀ q, Within a (a + len) q → I₁.get q = I.get q)
    (hV : ∀ q, Within a (a + len) q → V₁.get (P₁ q) = V.get (P q)) : Group old d P₁ I₁ V₁ a len := by
  constructor
  · intro q hq
    rw [hI q hq, hP q hq, hg.get q hq]
  · intro q hq
    rw [hV q hq, hg.rank q hq]
  · intro q hq
    rw [hP q hq]
    exact hg.inside q hq
  · intro q q' hq hq'
    rw [hP q hq, hP q' hq']
    exact hg.agree q q' hq hq'

/-- What happens outside a stretch leaves its groups and runs. -/
theorem Segs.keeps (hs : Segs old d P I V a b) (hk : Keeps k m P I V P₁ I₁ V₁)
    (hout : b ≤ k ∨ m ≤ a) : Segs old d P₁ I₁ V₁ a b := by
  induction hs with
  | nil a => exact .nil a
  | run len hpos hhead hrank hrest ih =>
    have hle := hrest.le
    refine .run len hpos ?_ (fun q hq => ?_) (ih (by omega))
    · rw [hk.get _ (by unfold Within; omega), hhead]
    · rw [hk.rank q (by unfold Within at hq ⊢; omega), hrank q hq]
  | group len hpos hgroup hrest ih =>
    have hle := hrest.le
    refine .group len hpos (hgroup.congr (fun q hq => ?_) (fun q hq => ?_) fun q hq => ?_) (ih (by omega))
    · exact hk.perm q (by unfold Within at hq ⊢; omega)
    · exact hk.get q (by unfold Within at hq ⊢; omega)
    · exact hk.rank q (by unfold Within at hq ⊢; omega)

/-! ## Ranks -/

theorem setRanks_spec {p n : Nat} {v : Int} (hI : p + n ≤ I.size)
    (hget : ∀ q, Within p (p + n) q → I.get q = P q)
    (hV : ∀ q, Within p (p + n) q → P q < V.size) :
    ∃ V', setRanks I p n v V = some V' ∧ V'.size = V.size ∧
      (∀ q, Within p (p + n) q → V'.get (P q) = v) ∧
      ∀ q, ¬ Within p (p + n) q → V'.get (P q) = V.get (P q) := by
  unfold setRanks
  apply forTo_spec (fun i (V' : Arr) => V'.size = V.size ∧ (∀ q, Within p (p + i) q → V'.get (P q) = v) ∧
    ∀ q, ¬ Within p (p + i) q → V'.get (P q) = V.get (P q))
  · refine ⟨rfl, fun q hq => ?_, fun q _ => rfl⟩
    unfold Within at hq
    omega
  · rintro i V' hi ⟨hsize, hnew, hold⟩
    have hin : Within p (p + n) (p + i) := ⟨by omega, by omega⟩
    have hread : I.read ((p + i : Nat) : Int) = some (P (p + i) : Int) := by
      rw [Arr.read_eq (by omega), hget _ hin]
    have hwrite := Arr.write_eq (A := V') (v := v) (hsize ▸ hV _ hin)
    refine ⟨V'.set (P (p + i)) v, ?_, hsize, fun q hq => ?_, fun q hq => ?_⟩
    · rw [hread, Option.bind_eq_bind, Option.bind_some, hwrite]
    · unfold Within at hq
      by_cases hlast : q = p + i
      · rw [hlast, Arr.set_get_self]
      · rw [Arr.set_get_ne (P.injective.ne hlast), hnew q ⟨hq.1, by omega⟩]
    · unfold Within at hq
      have hne : q ≠ p + i := by omega
      rw [Arr.set_get_ne (P.injective.ne hne), hold q (by unfold Within; omega)]

/-- The stretch from `a` to `b` is divided further, and nothing else changes. -/
structure Refined (old : Bytes) (h a b : Nat) (P : Equiv.Perm Nat) (I V : Arr) (P' : Equiv.Perm Nat)
    (I' V' : Arr) : Prop where
  keeps : Keeps a b P I V P' I' V'
  segs : Segs old (h + h) P' I' V' a b
  ranks : Ranks old h V'.get

/-- The new rank of a group keeps the ranks in the order of the suffixes. -/
theorem Region.ranks (hr : Region old h P I V a b g) (hab : a < b) (hR : Ranks old h V.get)
    (hin : ∀ q, Within a b q → V₁.get (P q) = (b : Int) - 1)
    (hout : ∀ q, ¬ Within a b q → V₁.get (P q) = V.get (P q)) : Ranks old h V₁.get := by
  have hP := P.apply_symm_apply
  apply hR.assign (M := fun t => Within a b (P.symm t)) (p := (b : Int) - 1) (g := g)
  · intro t ht
    have := hin _ ht
    rwa [hP] at this
  · intro t ht
    have := hout _ ht
    rwa [hP] at this
  · intro t ht
    have := hr.rank _ ht
    rwa [hP] at this
  · exact hr.above
  · intro t ht hM
    have := hr.gap _ ((hr.lists _).mp (by rwa [hP])) hM
    rw [hP] at this
    omega
  · intro _ m t hm ht hMm hMt hg
    have := hr.others _ ((hr.lists _).mp (by rwa [hP])) hMt (by rwa [hP]) _ hMm
    rwa [hP, hP] at this

/-- Suffixes that agree on `2 * h` bytes become a group, a single one a sorted run. -/
theorem close_spec (hr : Region old h P I V a b g) (hab : a < b) (hR : Ranks old h V.get)
    (hagree : Agree old (h + h) P a b) :
    ∃ I' V', setRanks I a (b - a) ((b : Int) - 1) V = some V' ∧ markSingle a (b - a) I = some I' ∧
      Refined old h a b P I V P I' V' := by
  have hlen : a + (b - a) = b := by omega
  have hsizeI := hr.sizeI
  have hsizeV := hr.sizeV
  have hstop := hr.stop_le
  obtain ⟨V', hset, hsize, hin, hout⟩ := setRanks_spec (I := I) (P := P) (V := V) (p := a) (n := b - a)
    (v := (b : Int) - 1) (by omega) (fun q hq => hr.get q (by rwa [hlen] at hq)) (fun q hq => by
      have := hr.inside q (by rwa [hlen] at hq)
      omega)
  rw [hlen] at hin hout
  have hranks := hr.ranks hab hR hin hout
  unfold markSingle
  by_cases hsingle : b - a = 1
  · refine ⟨I.set a (-1), V', hset, ?_, ⟨rfl, hsize, fun _ _ => rfl, fun q hq => ?_, hout⟩, ?_, hranks⟩
    · rw [if_pos hsingle, Arr.write_eq (by omega)]
    · apply Arr.set_get_ne
      rintro rfl
      exact hq ⟨Nat.le_refl _, hab⟩
    · refine .run 1 Nat.one_pos Arr.set_get_self (fun q hq => ?_) ?_
      · unfold Within at hq
        rw [hin q ⟨hq.1, by omega⟩]
        omega
      · rw [show b = a + 1 by omega]
        exact .nil _
  · refine ⟨I, V', hset, by rw [if_neg hsingle], ⟨rfl, hsize, fun _ _ => rfl, fun _ _ => rfl, hout⟩, ?_,
      hranks⟩
    refine .group (b - a) (by omega) ?_ (by rw [hlen]; exact .nil _)
    rw [← hlen] at hagree
    constructor
    · intro q hq
      exact hr.get q (by rwa [hlen] at hq)
    · intro q hq
      rw [hlen] at hq ⊢
      exact hin q hq
    · intro q hq
      -- another suffix of the group agrees on `2 * h` bytes, so both have so many
      obtain ⟨q', hq', hne⟩ : ∃ q', Within a (a + (b - a)) q' ∧ q ≠ q' := by
        by_cases hfirst : q = a
        · exact ⟨a + 1, ⟨by omega, by omega⟩, by omega⟩
        · exact ⟨a, ⟨by omega, by omega⟩, hfirst⟩
      have hlists := fun q (hq : Within a (a + (b - a)) q) =>
        (hr.lists q).mpr (by unfold Within at hq; omega)
      exact add_le_of_take_eq (P.injective.ne hne) (hlists q hq) (hlists q' hq') (hagree q q' hq hq')
    · exact hagree

/-! ## Progress through a group -/

theorem Region.front (hr : Region old h P I V start stop g) (hm : m ≤ stop)
    (hbelow : Below old P start m stop) : Region old h P I V start m g := by
  have hin : ∀ q, Within start m q → Within start stop q := fun q hq => ⟨hq.1, by unfold Within at hq; omega⟩
  have habove := hr.above
  have hstop := hr.stop_le
  refine ⟨hr.sizeI, hr.sizeV, hr.lists, by omega, fun q hq => hr.get q (hin q hq),
    fun q hq => hr.rank q (hin q hq), fun q hq => hr.inside q (hin q hq), ?_, by omega, ?_⟩
  · intro q hq hout
    by_cases hrest : Within start stop q
    · have := hr.rank q hrest
      omega
    · exact hr.gap q hq hrest
  · intro q hq hout hg q' hq'
    by_cases hrest : Within start stop q
    · exact hbelow q' q hq' (by unfold Within at hout hrest ⊢; omega)
    · exact hr.others q hq hrest hg q' (hin q' hq')

theorem Region.rest (hr : Region old h P I V start stop g) (hm : start ≤ m ∧ m ≤ stop)
    (hf : Refined old h start m P I V P₁ I₁ V₁) : Region old h P₁ I₁ V₁ m stop g := by
  have hk := hf.keeps
  have hin : ∀ q, Within m stop q → Within start stop q ∧ ¬ Within start m q := by
    intro q hq
    unfold Within at hq ⊢
    omega
  have hlow : ∀ q, Within start m q → V₁.get (P₁ q) < m := fun q hq => (hf.segs.rank_mem hq).2
  have habove := hr.above
  have hstop := hr.stop_le
  refine ⟨hk.sizeI.trans hr.sizeI, hk.sizeV.trans hr.sizeV, hr.lists.perm (by omega) hk.perm, hstop,
    ?_, ?_, ?_, ?_, habove, ?_⟩
  · intro q hq
    rw [hk.get q (hin q hq).2, hk.perm q (hin q hq).2, hr.get q (hin q hq).1]
  · intro q hq
    rw [hk.rank q (hin q hq).2, hr.rank q (hin q hq).1]
  · intro q hq
    rw [hk.perm q (hin q hq).2]
    exact hr.inside q (hin q hq).1
  · intro q hq hout
    by_cases hfirst : Within start m q
    · exact .inl (hlow q hfirst)
    · rw [hk.rank q hfirst]
      have := hr.gap q hq (by unfold Within at hout hfirst ⊢; omega)
      omega
  · intro q hq hout hg q' hq'
    by_cases hfirst : Within start m q
    · have := hlow q hfirst
      unfold Within at hq'
      omega
    · rw [hk.rank q hfirst] at hg
      rw [hk.perm q hfirst, hk.perm q' (hin q' hq').2]
      exact hr.others q hq (by unfold Within at hout hfirst ⊢; omega) hg q' (hin q' hq').1

/-- The group is divided up to `k`. -/
structure Progress (old : Bytes) (h start k stop : Nat) (g : Int) (P : Equiv.Perm Nat) (I V : Arr)
    (P' : Equiv.Perm Nat) (I' V' : Arr) : Prop where
  le : start ≤ k ∧ k ≤ stop
  keeps : Keeps start stop P I V P' I' V'
  segs : Segs old (h + h) P' I' V' start k
  ranks : Ranks old h V'.get
  region : Region old h P' I' V' k stop g

theorem Progress.init (hr : Region old h P I V start stop g) (hR : Ranks old h V.get)
    (hle : start ≤ stop) : Progress old h start start stop g P I V P I V :=
  ⟨⟨Nat.le_refl _, hle⟩, .refl, .nil _, hR, hr⟩

theorem Progress.shuffle (hp : Progress old h start k stop g P I V P₁ I₁ V₁)
    (hs : Shuffles k stop P₁ I₁ P₂ I₂) : Progress old h start k stop g P I V P₂ I₂ V₁ := by
  have hk : Keeps k stop P₁ I₁ V₁ P₂ I₂ V₁ := .of_shuffles hs
  exact ⟨hp.le, hp.keeps.trans (hk.mono hp.le.1 (Nat.le_refl _)), hp.segs.keeps hk (.inl (Nat.le_refl _)),
    hp.ranks, hp.region.shuffle hs⟩

theorem Progress.refine (hp : Progress old h start k stop g P I V P₁ I₁ V₁) (hm : k ≤ m ∧ m ≤ stop)
    (hf : Refined old h k m P₁ I₁ V₁ P₂ I₂ V₂) : Progress old h start m stop g P I V P₂ I₂ V₂ := by
  have hle := hp.le
  exact ⟨⟨by omega, hm.2⟩, hp.keeps.trans (hf.keeps.mono hle.1 hm.2),
    (hp.segs.keeps hf.keeps (.inl (Nat.le_refl _))).append hf.segs, hf.ranks, hp.region.rest hm hf⟩

theorem Progress.finish (hp : Progress old h start stop stop g P I V P₁ I₁ V₁) :
    Refined old h start stop P I V P₁ I₁ V₁ := ⟨hp.keeps, hp.segs, hp.ranks⟩

/-- The suffixes up to `m` are the next group. -/
theorem Progress.close (hp : Progress old h start k stop g P I V P₁ I₁ V₁) (hm : k < m ∧ m ≤ stop)
    (hbelow : Below old P₁ k m stop) (hagree : Agree old (h + h) P₁ k m) :
    ∃ I₂ V₂, setRanks I₁ k (m - k) ((m : Int) - 1) V₁ = some V₂ ∧ markSingle k (m - k) I₁ = some I₂ ∧
      Progress old h start m stop g P I V P₁ I₂ V₂ := by
  obtain ⟨I₂, V₂, hset, hmark, hf⟩ := close_spec (hp.region.front hm.2 hbelow) hm.1 hp.ranks hagree
  exact ⟨I₂, V₂, hset, hmark, hp.refine ⟨by omega, hm.2⟩ hf⟩

/-! ## split -/

theorem sortSmallStep_spec (hp : Progress old h start k stop g P I V P₁ I₁ V₁) (hk : k < stop) :
    ∃ k' I₂ V₂, sortSmallStep h stop (k, I₁, V₁) = some (k', I₂, V₂) ∧ k < k' ∧
      ∃ P₂, Progress old h start k' stop g P I V P₂ I₂ V₂ := by
  obtain ⟨j, I', P', hgather, hs, hj, hbelow, hagree⟩ := gather_spec hp.region hp.ranks hk
  obtain ⟨I₂, V₂, hset, hmark, hp'⟩ := (hp.shuffle hs).close ⟨by omega, hj.2⟩ hbelow hagree
  rw [Nat.add_sub_cancel_left] at hset hmark
  refine ⟨k + j, I₂, V₂, ?_, by omega, P', hp'⟩
  simp only [sortSmallStep, hgather, hset, hmark, Option.bind_eq_bind, Option.bind_some]

theorem splitSmall_spec (hr : Region old h P I V start stop g) (hR : Ranks old h V.get) {len : Nat}
    (hlen : start + len = stop) : ∃ I' V' P', splitSmall I V start len h = some (I', V') ∧
      Refined old h start stop P I V P' I' V' := by
  subst hlen
  obtain ⟨⟨k, I', V'⟩, hrun, ⟨P', hp⟩, hend⟩ := loopWhile_spec
    (c := fun st : Nat × Arr × Arr => st.1 < start + len) (f := sortSmallStep h (start + len))
    (fun st => ∃ P', Progress old h start st.1 (start + len) g P I V P' st.2.1 st.2.2)
    (fun st => start + len - st.1)
    (by
      rintro ⟨k, I₁, V₁⟩ ⟨P₁, hp⟩ hk
      have hk : k < start + len := of_decide_eq_true hk
      obtain ⟨k', I₂, V₂, hstep, hlt, hp'⟩ := sortSmallStep_spec hp hk
      exact ⟨_, hstep, hp', by show start + len - k' < start + len - k; omega⟩)
    len (start, I, V) ⟨P, .init hr hR (by omega)⟩ (by show start + len - start ≤ len; omega)
  have hle := hp.le
  obtain rfl : k = start + len := by
    have : ¬ k < start + len := of_decide_eq_false hend
    have : k ≤ start + len := hle.2
    omega
  refine ⟨I', V', P', ?_, hp.finish⟩
  rw [splitSmall, hrun]
  rfl

/-- What a call of `split` does. -/
def Splits (split : Arr → Arr → Nat → Nat → Nat → Option (Arr × Arr)) (old : Bytes) (h n : Nat) : Prop :=
  ∀ P I V start stop g, Region old h P I V start stop g → Ranks old h V.get → start < stop →
    stop - start ≤ n → ∃ I' V' P', split I V start (stop - start) h = some (I', V') ∧
      Refined old h start stop P I V P' I' V'

theorem Progress.splitPart {f : Arr → Arr → Nat → Nat → Nat → Option (Arr × Arr)} {n : Nat}
    (hf : Splits f old h n) (hp : Progress old h start k stop g P I V P₁ I₁ V₁)
    (hm : k ≤ m ∧ m ≤ stop) (hn : m - k ≤ n) (hbelow : Below old P₁ k m stop) :
    ∃ I₂ V₂ P₂, Bsdiff.splitPart f I₁ V₁ k m h = some (I₂, V₂) ∧
      Progress old h start m stop g P I V P₂ I₂ V₂ ∧ ∀ q, ¬ Within k m q → P₂ q = P₁ q := by
  unfold Bsdiff.splitPart
  by_cases hlt : k < m
  · obtain ⟨I₂, V₂, P₂, hcall, href⟩ := hf _ _ _ _ _ _ (hp.region.front hm.2 hbelow) hp.ranks hlt hn
    refine ⟨I₂, V₂, P₂, ?_, hp.refine hm href, href.keeps.perm⟩
    rw [if_pos hlt, hcall]
  · obtain rfl : k = m := by omega
    exact ⟨I₁, V₁, P₁, if_neg hlt, hp, fun _ _ => rfl⟩

theorem splitLarge_spec {f : Arr → Arr → Nat → Nat → Nat → Option (Arr × Arr)} {n : Nat}
    (hf : Splits f old h n) : Splits (splitLarge f) old h (n + 1) := by
  intro P I V start stop g hr hR hlt hn
  obtain ⟨jj, kk, I₁, P₁, hkeys, hs, hle, hless, hequal, hgreater⟩ :=
    splitKeys_spec hr hR (Nat.add_sub_cancel' hlt.le) (by omega)
  have hp := (Progress.init hr hR hlt.le).shuffle hs
  obtain ⟨I₂, V₂, P₂, hcall, hp₂, hsame⟩ := hp.splitPart hf ⟨hle.1, by omega⟩ (by omega) hless
  have hback : ∀ q, Within jj stop q → P₂ q = P₁ q := by
    intro q hq
    apply hsame
    unfold Within at hq ⊢
    omega
  obtain ⟨I₃, V₃, hset, hmark, hp₃⟩ := hp₂.close ⟨hle.2.1, hle.2.2⟩
    (by
      intro q q' hq hq'
      rw [hback q (by unfold Within at hq ⊢; omega), hback q' (by unfold Within at hq' ⊢; omega)]
      exact hgreater q q' hq hq')
    (by
      intro q q' hq hq'
      rw [hback q (by unfold Within at hq ⊢; omega), hback q' (by unfold Within at hq' ⊢; omega)]
      exact hequal q q' hq hq')
  obtain ⟨I₄, V₄, P₄, hcall', hp₄, -⟩ := hp₃.splitPart hf ⟨hle.2.2, Nat.le_refl _⟩ (by omega)
    (by
      intro q q' _ hq'
      unfold Within at hq'
      omega)
  refine ⟨I₄, V₄, P₄, ?_, hp₄.finish⟩
  rw [splitLarge, hkeys]
  simp only [hcall, hset, hmark, Option.bind_eq_bind, Option.bind_some]
  rw [Nat.add_sub_cancel' hlt.le, hcall']

/-- `split` divides a group of any size. -/
theorem split_spec (fuel : Nat) : Splits (split fuel) old h fuel := by
  induction fuel with
  | zero =>
    intro P I V start stop g hr hR hlt hn
    omega
  | succ fuel ih =>
    intro P I V start stop g hr hR hlt hn
    rw [split]
    split
    · exact splitSmall_spec hr hR (Nat.add_sub_cancel' hlt.le)
    · exact splitLarge_spec ih P I V start stop g hr hR hlt hn

end Miui.Bsdiff
