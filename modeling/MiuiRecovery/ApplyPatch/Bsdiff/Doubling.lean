import MiuiRecovery.ApplyPatch.Bsdiff.Split

/-!
# The passes of qsufsort

Each pass over `I` divides every group by the ranks `h` bytes further on, and joins neighbouring runs.

* `passStep_spec`: one group or run of a pass.
* `doubleStep_spec`: a whole pass doubles the number of bytes that the groups agree on.
* `doubling_spec`: the passes end with one sorted run.
* `invertRanks_spec`: the ranks of this run give the suffix array.
-/

namespace Miui.Bsdiff

open Suffix

variable {old : Bytes} {h d : Nat} {P P₁ P₂ : Equiv.Perm Nat} {I I₁ I₂ V V₁ V₂ : Arr} {a b k m : Nat}

/-- Between two passes. -/
structure Doubled (old : Bytes) (h : Nat) (P : Equiv.Perm Nat) (I V : Arr) : Prop where
  pos : 0 < h
  sizeI : I.size = old.length + 1
  sizeV : V.size = old.length + 1
  lists : Lists old.length P
  segs : Segs old h P I V 0 (old.length + 1)
  ranks : Ranks old h V.get

/-- Suffixes with one rank are in one group. -/
theorem Segs.agree (hs : Segs old d P I V a b) {q q' : Nat} (hq : Within a b q) (hq' : Within a b q')
    (heq : V.get (P q) = V.get (P q')) : (old.drop (P q)).take d = (old.drop (P q')).take d := by
  induction hs with
  | nil a => unfold Within at hq; omega
  | run len hpos hhead hrank hrest ih =>
    rename_i a b
    have hsplit := fun q (hq : Within a b q) => show Within a (a + len) q ∨ Within (a + len) b q by
      unfold Within at hq ⊢; omega
    obtain hin | hout := hsplit q hq <;> obtain hin' | hout' := hsplit q' hq'
    · rw [hrank q hin, hrank q' hin'] at heq
      rw [Int.ofNat_inj.mp heq]
    · have := hrank q hin
      have := hrest.rank_mem hout'
      unfold Within at hin
      omega
    · have := hrank q' hin'
      have := hrest.rank_mem hout
      unfold Within at hin'
      omega
    · exact ih hout hout'
  | group len hpos hgroup hrest ih =>
    rename_i a b
    have hsplit := fun q (hq : Within a b q) => show Within a (a + len) q ∨ Within (a + len) b q by
      unfold Within at hq ⊢; omega
    obtain hin | hout := hsplit q hq <;> obtain hin' | hout' := hsplit q' hq'
    · exact hgroup.agree q q' hin hin'
    · have := hgroup.rank q hin
      have := hrest.rank_mem hout'
      omega
    · have := hgroup.rank q' hin'
      have := hrest.rank_mem hout
      omega
    · exact ih hout hout'

/-! ## A pass -/

/-- During a pass: the groups before the pending run are divided, those from `i` on are not. -/
structure Passing (old : Bytes) (h : Nat) (P : Equiv.Perm Nat) (p : Pass) : Prop where
  sizeI : p.I.size = old.length + 1
  sizeV : p.V.size = old.length + 1
  lists : Lists old.length P
  len_le : p.len ≤ p.i
  done : Segs old (h + h) P p.I p.V 0 (p.i - p.len)
  pending : ∀ q, Within (p.i - p.len) p.i q → p.V.get (P q) = q
  todo : Segs old h P p.I p.V p.i (old.length + 1)
  ranks : Ranks old h p.V.get
  whole : old.length < h → p.len = p.i

/-- `I[i - len] = -len` ends the pending run. -/
theorem closeRun_spec {i len : Nat} (hi : i ≤ I.size) (hle : len ≤ i)
    (hdone : Segs old d P I V 0 (i - len)) (hpending : ∀ q, Within (i - len) i q → V.get (P q) = q) :
    ∃ I', closeRun i len I = some I' ∧ Keeps (i - len) i P I V P I' V ∧ Segs old d P I' V 0 i ∧
      (0 < len → I'.get (i - len) = -(len : Int)) := by
  unfold closeRun
  split
  · rename_i hzero
    subst hzero
    exact ⟨I, rfl, .refl, hdone, by omega⟩
  · rename_i hpos
    refine ⟨I.set (i - len) (-(len : Int)), ?_, ?_, ?_, fun _ => Arr.set_get_self⟩
    · rw [← Int.ofNat_sub hle, Arr.write_eq (by omega)]
    · refine ⟨rfl, rfl, fun _ _ => rfl, fun q hq => ?_, fun _ _ => rfl⟩
      apply Arr.set_get_ne
      rintro rfl
      exact hq ⟨Nat.le_refl _, by omega⟩
    · have hk : Keeps (i - len) i P I V P (I.set (i - len) (-(len : Int))) V := by
        refine ⟨rfl, rfl, fun _ _ => rfl, fun q hq => ?_, fun _ _ => rfl⟩
        apply Arr.set_get_ne
        rintro rfl
        exact hq ⟨Nat.le_refl _, by omega⟩
      refine (hdone.keeps hk (.inl (Nat.le_refl _))).append (.run len (by omega) Arr.set_get_self ?_ ?_)
      · rwa [Nat.sub_add_cancel hle]
      · rw [Nat.sub_add_cancel hle]
        exact .nil i

/-- A group between divided groups and groups to come. -/
theorem Group.region {i len : Nat} (hg : Group old h P I V i len) (hI : I.size = old.length + 1)
    (hV : V.size = old.length + 1) (hlists : Lists old.length P) (hdone : Segs old d P I V 0 i)
    (htodo : Segs old h P I V (i + len) (old.length + 1)) :
    Region old h P I V i (i + len) ((i + len : Nat) - 1) := by
  have hother : ∀ q, q ≤ old.length → ¬ Within i (i + len) q →
      V.get (P q) < i ∨ ((i + len : Nat) : Int) ≤ V.get (P q) := by
    intro q hq hout
    by_cases hlow : q < i
    · exact .inl (hdone.rank_mem ⟨Nat.zero_le _, hlow⟩).2
    · exact .inr (htodo.rank_mem ⟨by unfold Within at hout; omega, by omega⟩).1
  refine ⟨hI, hV, hlists, htodo.le, hg.get, hg.rank, hg.inside, ?_, Int.le_refl _, ?_⟩
  · intro q hq hout
    have := hother q hq hout
    omega
  · intro q hq hout hrank q' hq'
    have := hother q hq hout
    unfold Within at hq'
    omega

theorem passStep_spec {p : Pass} (hp : Passing old h P p) (hi : p.i < old.length + 1) :
    ∃ p' P', passStep h p = some p' ∧ Passing old h P' p' ∧ p.i < p'.i := by
  obtain ⟨hsizeI, hsizeV, hlists, hle, hdone, hpending, htodo, hranks, hwhole⟩ := hp
  obtain ⟨i, len, I, V⟩ := p
  simp only at *
  have hread : I.read (i : Int) = some (I.get i) := Arr.read_eq (by omega)
  cases htodo with
  | nil => omega
  | run L hpos hhead hrank hrest =>
    refine ⟨⟨i + L, len + L, I, V⟩, P, ?_, ⟨hsizeI, hsizeV, hlists, by show len + L ≤ i + L; omega, ?_, ?_,
      hrest, hranks, ?_⟩, by show i < i + L; omega⟩
    · rw [hhead] at hread
      simp [passStep, hread, hpos]
    · rwa [show i + L - (len + L) = i - len by omega]
    · intro q hq
      rw [show i + L - (len + L) = i - len by omega] at hq
      unfold Within at hq
      by_cases hlow : q < i
      · exact hpending q ⟨hq.1, hlow⟩
      · exact hrank q ⟨by omega, hq.2⟩
    · intro hbig
      have := hwhole hbig
      show len + L = i + L
      omega
  | group L hpos hgroup hrest =>
    have hfirst : Within i (i + L) i := ⟨Nat.le_refl _, by omega⟩
    obtain ⟨I₁, hclose, hk, hdone₁, -⟩ := closeRun_spec (by omega) hle hdone hpending
    have hgroup₁ : Group old h P I₁ V i L := hgroup.congr (fun _ _ => rfl)
      (fun q hq => hk.get q (by unfold Within at hq ⊢; omega)) (fun _ _ => rfl)
    have hrest₁ := hrest.keeps hk (.inr (by omega))
    have hsizeI₁ := hk.sizeI.trans hsizeI
    obtain ⟨I₂, V₂, P₂, hsplit, href⟩ := split_spec L P I₁ V i (i + L) _
      (hgroup₁.region hsizeI₁ hsizeV hlists hdone₁ hrest₁) hranks (by omega) (by omega)
    have hend := hrest.le
    refine ⟨⟨i + L, 0, I₂, V₂⟩, P₂, ?_, ⟨href.keeps.sizeI.trans hsizeI₁, href.keeps.sizeV.trans hsizeV,
      hlists.perm hrest.le href.keeps.perm, Nat.zero_le _, ?_, ?_, ?_, href.ranks, ?_⟩,
      by show i < i + L; omega⟩
    · have hget := hgroup.get i hfirst
      have hget₁ := hgroup₁.get i hfirst
      have hrank := hgroup₁.rank i hfirst
      have hin := (hlists i).mpr (by omega)
      have hread₁ : I₁.read (i : Int) = some (P i : Int) := by rw [Arr.read_eq (by omega), hget₁]
      have hreadV : V.read (P i : Int) = some (((i + L : Nat) : Int) - 1) := by
        rw [Arr.read_eq (by omega), hrank]
      have hlen : (((i + L : Nat) : Int) - 1 + 1 - i).toNat = L := by omega
      have hneg : ¬ ((P i : Int) < 0) := by omega
      rw [hget] at hread
      unfold passStep
      simp only [hread, hclose, hread₁, hreadV, hlen, if_neg hneg, Option.bind_eq_bind, Option.bind_some]
      rw [Nat.add_sub_cancel_left] at hsplit
      rw [hsplit, Option.bind_some]
    · rw [Nat.sub_zero]
      exact (hdone₁.keeps href.keeps (.inl (Nat.le_refl _))).append href.segs
    · intro q hq
      obtain ⟨hq, hq'⟩ : i + L - 0 ≤ q ∧ q < i + L := hq
      omega
    · exact hrest₁.keeps href.keeps (.inr (Nat.le_refl _))
    · intro hbig
      have := hgroup.inside i hfirst
      omega

/-- A pass; the last one leaves a single run. -/
theorem doubleStep_spec (hd : Doubled old h P I V) :
    ∃ I' V' P', doubleStep old.length (h, I, V) = some (h + h, I', V') ∧
      Doubled old (h + h) P' I' V' ∧ (old.length < h → I'.get 0 = -((old.length : Int) + 1)) := by
  obtain ⟨⟨i, len, I₁, V₁⟩, hrun, ⟨P₁, hp⟩, hend⟩ := loopWhile_spec
    (c := fun p : Pass => p.i < old.length + 1) (f := passStep h)
    (fun p => ∃ P', Passing old h P' p) (fun p => old.length + 1 - p.i)
    (by
      rintro p ⟨P', hp⟩ hi
      have hi := of_decide_eq_true hi
      obtain ⟨p', P'', hstep, hp', hlt⟩ := passStep_spec hp hi
      exact ⟨p', hstep, ⟨P'', hp'⟩, by omega⟩)
    (old.length + 1) ⟨0, 0, I, V⟩
    ⟨P, hd.sizeI, hd.sizeV, hd.lists, Nat.le_refl _, .nil 0, fun q hq => by
      obtain ⟨-, hq⟩ : 0 - 0 ≤ q ∧ q < 0 := hq
      omega, hd.segs, hd.ranks, fun _ => rfl⟩
    (Nat.le_refl _)
  obtain ⟨hsizeI, hsizeV, hlists, hle, hdone, hpending, htodo, hranks, hwhole⟩ := hp
  simp only at *
  obtain rfl : i = old.length + 1 := by
    have := htodo.le
    have := of_decide_eq_false hend
    omega
  obtain ⟨I₂, hclose, hk, hsegs, hhead⟩ := closeRun_spec (by omega) hle hdone hpending
  have hpos := hd.pos
  refine ⟨I₂, V₁, P₁, ?_, ⟨by omega, hk.sizeI.trans hsizeI, hsizeV, hlists, hsegs, hranks.lt, ?_⟩, ?_⟩
  · unfold doubleStep
    simp only [hrun, hclose, Option.bind_eq_bind, Option.bind_some]
  · intro s t hs ht heq
    have hin := fun s (hs : s ≤ old.length) =>
      show Within 0 (old.length + 1) (P₁.symm s) from ⟨Nat.zero_le _, by
        have := (hlists (P₁.symm s)).mp (by rwa [P₁.apply_symm_apply])
        omega⟩
    have := hsegs.agree (hin s hs) (hin t ht) (by rwa [P₁.apply_symm_apply, P₁.apply_symm_apply])
    rwa [P₁.apply_symm_apply, P₁.apply_symm_apply] at this
  · intro hbig
    have hlen := hwhole hbig
    subst hlen
    have := hhead (by omega)
    rw [Nat.sub_self] at this
    rw [this]
    omega

/-- One sorted run remains. -/
theorem Doubled.sorted (hd : Doubled old h P I V) (hhead : I.get 0 = -((old.length : Int) + 1)) :
    ∀ q, q ≤ old.length → V.get (P q) = q := by
  intro q hq
  obtain ⟨-, -, -, -, hsegs, -⟩ := hd
  cases hsegs with
  | run len hpos hlen hrank hrest => exact hrank q ⟨Nat.zero_le _, by omega⟩
  | group len hpos hgroup hrest =>
    have := hgroup.get 0 ⟨Nat.le_refl _, by omega⟩
    omega

/-- The passes end: from `h > oldsize` on, no two suffixes can agree on `h` bytes. -/
theorem doubling_spec (hd : Doubled old 1 P I V) :
    ∃ h I' V' P', loopWhile (fun st => st.2.1.get 0 ≠ -((old.length : Int) + 1)) (doubleStep old.length)
      (old.length + 2) (1, I, V) = some (h, I', V') ∧ Doubled old h P' I' V' ∧
      ∀ q, q ≤ old.length → V'.get (P' q) = q := by
  obtain ⟨⟨h, I', V'⟩, hrun, ⟨P', hd'⟩, hend⟩ := loopWhile_spec
    (c := fun st : Nat × Arr × Arr => st.2.1.get 0 ≠ -((old.length : Int) + 1))
    (f := doubleStep old.length) (fun st => ∃ P', Doubled old st.1 P' st.2.1 st.2.2)
    (fun st => if st.2.1.get 0 = -((old.length : Int) + 1) then 0 else old.length + 2 - st.1 + 1)
    (by
      rintro ⟨h, I, V⟩ ⟨P, hd⟩ hc
      obtain ⟨I', V', P', hstep, hd', hlast⟩ := doubleStep_spec hd
      refine ⟨_, hstep, ⟨P', hd'⟩, ?_⟩
      have hpos : 0 < h := hd.pos
      simp only
      rw [if_neg (of_decide_eq_true hc)]
      split
      · omega
      · have hsmall : ¬ old.length < h := fun hbig => absurd (hlast hbig) ‹_›
        omega)
    (old.length + 2) (1, I, V) ⟨P, hd⟩ (by
      show (if I.get 0 = _ then 0 else old.length + 2 - 1 + 1) ≤ old.length + 2
      split <;> omega)
  have hhead : I'.get 0 = -((old.length : Int) + 1) := Decidable.not_not.mp (of_decide_eq_false hend)
  exact ⟨h, I', V', P', hrun, hd', Doubled.sorted hd' hhead⟩

/-! ## The suffix array -/

theorem invertRanks_spec (hd : Doubled old h P I V) (hsorted : ∀ q, q ≤ old.length → V.get (P q) = q) :
    ∃ I', invertRanks old I V = some I' ∧ I'.size = old.length + 1 ∧ IsSuffixArray old I'.get := by
  obtain ⟨I', hrun, hsize, hget⟩ := forTo_spec (n := old.length + 1) (s := I)
    (f := fun i (I : Arr) => do I.write (← V.read i) i)
    (fun i I' => I'.size = old.length + 1 ∧ ∀ q, q ≤ old.length → P q < i → I'.get q = P q)
    ⟨hd.sizeI, by omega⟩
    (by
      rintro i I' hi ⟨hsize, hget⟩
      have hq : P.symm i ≤ old.length := (hd.lists _).mp (by rw [P.apply_symm_apply]; omega)
      have hrank := hsorted _ hq
      rw [P.apply_symm_apply] at hrank
      have hread : V.read (i : Int) = some (P.symm i : Int) := by
        rw [Arr.read_eq (by rw [hd.sizeV]; exact hi), hrank]
      refine ⟨I'.set (P.symm i) i, ?_, hsize, fun q hq hlt => ?_⟩
      · rw [hread, Option.bind_eq_bind, Option.bind_some, Arr.write_eq (by omega)]
      · by_cases hlast : q = P.symm i
        · rw [hlast, Arr.set_get_self, P.apply_symm_apply]
        · rw [Arr.set_get_ne hlast]
          apply hget q hq
          have hne : P q ≠ i := by
            rintro rfl
            exact hlast (P.symm_apply_apply q).symm
          omega)
  have hall : ∀ q, q ≤ old.length → I'.get q = P q := fun q hq =>
    hget q hq (by have := (hd.lists q).mpr hq; omega)
  refine ⟨I', hrun, hsize, ⟨fun q hq => ⟨P q, (hd.lists q).mpr hq, hall q hq⟩, fun s hs => ?_, ?_⟩⟩
  · have hq : P.symm s ≤ old.length := (hd.lists _).mp (by rwa [P.apply_symm_apply])
    exact ⟨P.symm s, hq, by rw [hall _ hq, P.apply_symm_apply]⟩
  · intro q q' hlt hq'
    rw [hall q (by omega), hall q' hq']
    apply hd.ranks.lt _ _ ((hd.lists q).mpr (by omega)) ((hd.lists q').mpr hq')
    rw [hsorted q (by omega), hsorted q' hq']
    omega

end Miui.Bsdiff
