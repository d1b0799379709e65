import MiuiRecovery.ApplyPatch.Bsdiff.Doubling

/-!
# The buckets of qsufsort

Before the passes the suffixes are sorted by their first byte: each gets a place in its bucket, and the
end of the bucket is its rank.

* `fillBuckets_spec`, `placeSuffixes_spec`, `markBuckets_spec`: the loops over the bytes.
* `qsufsort_spec`, `qsufsort_sorts`: `qsufsort` ends within its bounds, on any string, with the suffix array.
-/

namespace Miui.Bsdiff

open Suffix

variable {old : Bytes} {i s t c c' : Nat}

/-- `old[s]` -/
def byteAt (old : Bytes) (s : Nat) : Nat := (old.getD s 0).toNat

/-- How many bytes are smaller than `c`. -/
def less (old : Bytes) (c : Nat) : Nat := number (fun t => byteAt old t < c) 0 old.length

/-- How many of the first `i` bytes are `c`. -/
def occ (old : Bytes) (i c : Nat) : Nat := number (fun t => byteAt old t = c) 0 i

theorem byteAt_lt : byteAt old s < 256 := UInt8.toNat_lt _

theorem oldAt_eq (hi : i < old.length) : oldAt old i = some (byteAt old i : Int) := by
  unfold oldAt byteAt
  rw [List.getD_eq_getElem?_getD, List.getElem?_eq_getElem hi, Option.map_some, Option.getD_some]

theorem drop_cons (hs : s < old.length) : old.drop s = old.getD s 0 :: old.drop (s + 1) := by
  rw [List.getD_eq_getElem?_getD, List.getElem?_eq_getElem hs, Option.getD_some,
    List.drop_eq_getElem_cons hs]

/-! ## Counting bytes -/

theorem less_zero : less old 0 = 0 := by
  unfold less number
  simp

theorem occ_succ : occ old (i + 1) c = if byteAt old i = c then occ old i c + 1 else occ old i c :=
  number_succ (Nat.zero_le _)

theorem occ_mono (old : Bytes) (c : Nat) (hst : s ≤ t) : occ old s c ≤ occ old t c := number_mono (Nat.zero_le _) hst

theorem occ_lt (hst : s < t) (hc : byteAt old s = c) : occ old s c < occ old t c := by
  have := occ_mono old c (show s + 1 ≤ t from hst)
  rw [occ_succ, if_pos hc] at this
  exact this

theorem less_succ : less old (c + 1) = less old c + occ old old.length c := by
  have hsum : ∀ n, number (fun t => byteAt old t < c + 1) 0 n =
      number (fun t => byteAt old t < c) 0 n + number (fun t => byteAt old t = c) 0 n := by
    intro n
    induction n with
    | zero => simp
    | succ n ih =>
      rw [number_succ (Nat.zero_le n), number_succ (Nat.zero_le n), number_succ (Nat.zero_le n), ih]
      split <;> split <;> split <;> omega
  exact hsum old.length

theorem less_mono (old : Bytes) (hcc : c ≤ c') : less old c ≤ less old c' := by
  induction c', hcc using Nat.le_induction with
  | base => exact Nat.le_refl _
  | succ c' hcc ih =>
    rw [less_succ]
    omega

theorem less_all : less old 256 = old.length := by
  have hall : ∀ n, number (fun t => byteAt old t < 256) 0 n = n := by
    intro n
    induction n with
    | zero => simp
    | succ n ih => rw [number_succ (Nat.zero_le n), if_pos byteAt_lt, ih]
  exact hall old.length

/-! ## Places -/

/-- The place of a suffix in the first order. -/
def place (old : Bytes) (s : Nat) : Nat :=
  if s < old.length then less old (byteAt old s) + occ old s (byteAt old s) + 1 else 0

theorem place_eq (hs : s < old.length) :
    place old s = less old (byteAt old s) + occ old s (byteAt old s) + 1 := if_pos hs

theorem place_end : place old old.length = 0 := if_neg (Nat.lt_irrefl _)

/-- The place lies in the bucket of the byte. -/
theorem place_mem (hs : s < old.length) :
    less old (byteAt old s) < place old s ∧ place old s ≤ less old (byteAt old s + 1) := by
  have := occ_lt hs (c := byteAt old s) rfl
  rw [place_eq hs, less_succ]
  omega

theorem less_lt (hs : s < old.length) : less old (byteAt old s) < less old (byteAt old s + 1) := by
  have := place_mem hs
  omega

theorem place_le (hs : s ≤ old.length) : place old s ≤ old.length := by
  obtain rfl | hs := Nat.eq_or_lt_of_le hs
  · rw [place_end]
    exact Nat.zero_le _
  · have hmem := place_mem hs
    have hbyte : byteAt old s + 1 ≤ 256 := byteAt_lt
    have := less_mono old hbyte
    rw [less_all] at this
    omega

/-- The buckets do not overlap. -/
theorem byteAt_of_place (hs : s < old.length) (hlow : less old c < place old s)
    (hhigh : place old s ≤ less old (c + 1)) : byteAt old s = c := by
  have hmem := place_mem hs
  obtain hlt | heq | hgt := Nat.lt_trichotomy (byteAt old s) c
  · have := less_mono old (show byteAt old s + 1 ≤ c from hlt)
    omega
  · exact heq
  · have := less_mono old (show c + 1 ≤ byteAt old s from hgt)
    omega

theorem place_inj (hs : s ≤ old.length) (ht : t ≤ old.length) (heq : place old s = place old t) :
    s = t := by
  obtain rfl | hs := Nat.eq_or_lt_of_le hs <;> obtain rfl | ht := Nat.eq_or_lt_of_le ht
  · rfl
  · rw [place_end, place_eq ht] at heq
    omega
  · rw [place_end, place_eq hs] at heq
    omega
  · have hmem := place_mem hs
    have hbyte : byteAt old t = byteAt old s := byteAt_of_place ht (heq ▸ hmem.1) (heq ▸ hmem.2)
    rw [place_eq hs, place_eq ht, hbyte] at heq
    obtain hlt | hst | hgt := Nat.lt_trichotomy s t
    · have := occ_lt hlt (c := byteAt old s) rfl
      omega
    · exact hst
    · have := occ_lt hgt hbyte
      omega

/-! ## The loops over the bytes -/

theorem addTo_eq {A : Arr} {d : Int} (hi : i < A.size) :
    addTo A i d = some (A.set i (A.get i + d)) := by
  unfold addTo
  rw [Arr.read_eq hi, Option.bind_eq_bind, Option.bind_some, Arr.write_eq hi]

/-- Buckets that hold `f`. -/
def Holds (b : Arr) (f : Nat → Nat) : Prop := b.size = 256 ∧ ∀ c, c < 256 → b.get c = f c

theorem Holds.read {b : Arr} {f : Nat → Nat} (hb : Holds b f) (hc : c < 256) :
    b.read (c : Int) = some (f c : Int) := by
  have hsize := hb.1
  rw [Arr.read_eq (by omega), hb.2 c hc]

theorem Holds.set {b : Arr} {f f' : Nat → Nat} {v : Int} (hb : Holds b f) (hv : v = f' c)
    (hsame : ∀ c', c' ≠ c → f' c' = f c') : Holds (b.set c v) f' := by
  refine ⟨hb.1, fun c' hc' => ?_⟩
  by_cases heq : c' = c
  · rw [heq, Arr.set_get_self, hv]
  · rw [Arr.set_get_ne heq, hb.2 c' hc', hsame c' heq]

/-- The first loop counts each byte. -/
theorem countBytes_spec (old : Bytes) :
    ∃ b, forTo (fun i b => do addTo b (← oldAt old i) 1) old.length ⟨256, fun _ => 0⟩ = some b ∧
      Holds b (occ old old.length) := by
  apply forTo_spec (fun i b => Holds b (occ old i)) ⟨rfl, fun c _ => by simp [occ]⟩
  intro i b hi hb
  have hsize := hb.1
  have hbyte : byteAt old i < 256 := byteAt_lt
  refine ⟨b.set (byteAt old i) (b.get (byteAt old i) + 1), ?_, hb.set ?_ fun c hc => ?_⟩
  · rw [oldAt_eq hi, Option.bind_eq_bind, Option.bind_some, addTo_eq (by omega)]
  · rw [hb.2 _ hbyte, occ_succ, if_pos rfl, Int.natCast_add]
    rfl
  · rw [occ_succ, if_neg (Ne.symm hc)]

/-- The second adds up the smaller ones. -/
theorem sumBytes_spec {b : Arr} (hb : Holds b (occ old old.length)) :
    ∃ b', forTo (fun i b => do addTo b (i + 1) (← b.read i)) 255 b = some b' ∧
      Holds b' fun c => less old (c + 1) := by
  have hzero : less old 1 = occ old old.length 0 := by rw [less_succ, less_zero, Nat.zero_add]
  obtain ⟨b', hrun, hb'⟩ := forTo_spec (f := fun (i : Nat) b => do addTo b (i + 1) (← b.read i)) (n := 255)
    (fun i b => Holds b fun c => if c ≤ i then less old (c + 1) else occ old old.length c)
    (by
      refine ⟨hb.1, fun c hc => ?_⟩
      rw [hb.2 c hc]
      dsimp only
      split
      · obtain rfl : c = 0 := by omega
        rw [hzero]
      · rfl)
    (by
      intro i b hi hb
      have hsize := hb.1
      have hread := hb.read (c := i) (by omega)
      rw [if_pos (Nat.le_refl _)] at hread
      refine ⟨b.set (i + 1) (b.get (i + 1) + less old (i + 1)), ?_, hb.set ?_ fun c hc => ?_⟩
      · rw [hread, Option.bind_eq_bind, Option.bind_some]
        exact addTo_eq (i := i + 1) (by omega)
      · rw [hb.2 _ (by omega)]
        dsimp only
        rw [if_neg (by omega), if_pos (Nat.le_refl _), less_succ (c := i + 1), Int.natCast_add, Int.add_comm]
      · by_cases hle : c ≤ i
        · rw [if_pos hle, if_pos (by omega)]
        · rw [if_neg hle, if_neg (by omega)])
  refine ⟨b', hrun, hb'.1, fun c hc => ?_⟩
  rw [hb'.2 c hc]
  exact congrArg _ (if_pos (by omega))

/-- The third moves them up. -/
theorem shiftBytes_spec {b : Arr} (hb : Holds b fun c => less old (c + 1)) :
    ∃ b', forTo (fun i b => do b.write (255 - i) (← b.read (254 - i))) 255 b = some b' ∧
      Holds (b'.set 0 0) (less old) ∧ b'.size = 256 := by
  obtain ⟨b', hrun, hb'⟩ := forTo_spec
    (f := fun (i : Nat) b => do b.write (255 - i) (← b.read (254 - i))) (n := 255)
    (fun i b => Holds b fun c => if 255 < c + i then less old c else less old (c + 1))
    (by
      refine ⟨hb.1, fun c hc => ?_⟩
      rw [hb.2 c hc]
      dsimp only
      rw [if_neg (by omega)])
    (by
      intro i b hi hb
      have hsize := hb.1
      have hread := hb.read (c := 254 - i) (by omega)
      rw [if_neg (by omega), show ((254 - i : Nat) : Int) = 254 - i by omega,
        show 254 - i + 1 = 255 - i by omega] at hread
      refine ⟨b.set (255 - i) (less old (255 - i)), ?_, hb.set ?_ fun c hc => ?_⟩
      · rw [hread, Option.bind_eq_bind, Option.bind_some,
          show (255 : Int) - i = ((255 - i : Nat) : Int) by omega, Arr.write_eq (by omega)]
      · rw [if_pos (by omega)]
      · by_cases hlt : 255 < c + i
        · rw [if_pos hlt, if_pos (by omega)]
        · rw [if_neg hlt, if_neg (by omega)])
  refine ⟨b', hrun, ⟨hb'.1, fun c hc => ?_⟩, hb'.1⟩
  by_cases hzero : c = 0
  · rw [hzero, Arr.set_get_self, less_zero]
    rfl
  · rw [Arr.set_get_ne hzero, hb'.2 c hc]
    exact congrArg _ (if_pos (by omega))

theorem fillBuckets_spec (old : Bytes) : ∃ b, fillBuckets old = some b ∧ Holds b (less old) := by
  obtain ⟨b₁, hcount, hb₁⟩ := countBytes_spec old
  obtain ⟨b₂, hsum, hb₂⟩ := sumBytes_spec hb₁
  obtain ⟨b₃, hshift, hb₃, hsize⟩ := shiftBytes_spec hb₂
  refine ⟨b₃.set 0 0, ?_, hb₃⟩
  simp only [Option.bind_eq_bind] at hcount hsum hshift
  simp only [fillBuckets, Option.bind_eq_bind, hcount, hsum, hshift, Option.bind_some]
  exact Arr.write_eq (i := 0) (by omega)

variable {b I V : Arr}

theorem placeSuffixes_spec (hb : Holds b (less old)) (hI : I.size = old.length + 1) :
    ∃ b' I', placeSuffixes old b I = some (b', I') ∧ Holds b' (fun c => less old (c + 1)) ∧
      I'.size = old.length + 1 ∧ ∀ s, s < old.length → I'.get (place old s) = s := by
  obtain ⟨⟨b', I'⟩, hrun, hb', hI', hget⟩ := forTo_spec (n := old.length) (s := (b, I))
    (f := fun i (st : Arr × Arr) => do
      let c ← oldAt old i
      let buckets ← addTo st.1 c 1
      let I ← st.2.write (← buckets.read c) i
      some (buckets, I))
    (fun i st => Holds st.1 (fun c => less old c + occ old i c) ∧ st.2.size = old.length + 1 ∧
      ∀ s, s < i → st.2.get (place old s) = s)
    ⟨⟨hb.1, fun c hc => by
      show b.get c = _
      rw [hb.2 c hc]
      simp [occ]⟩, hI, fun s hs => by omega⟩
    (by
      rintro i ⟨b, I⟩ hi ⟨hb, hI, hget⟩
      have hsize : b.size = 256 := hb.1
      have hI : I.size = old.length + 1 := hI
      have hbyte : byteAt old i < 256 := byteAt_lt
      have hplace : place old i ≤ old.length := place_le hi.le
      have hb' : Holds (b.set (byteAt old i) (b.get (byteAt old i) + 1))
          fun c => less old c + occ old (i + 1) c := by
        refine hb.set ?_ fun c hc => ?_
        · rw [hb.2 _ hbyte, occ_succ, if_pos rfl]
          dsimp only
          omega
        · rw [occ_succ, if_neg (Ne.symm hc)]
      have hread := hb'.read hbyte
      rw [occ_succ, if_pos rfl, ← Nat.add_assoc, ← place_eq hi] at hread
      refine ⟨(b.set (byteAt old i) (b.get (byteAt old i) + 1), I.set (place old i) i), ?_, hb', hI,
        fun s hs => ?_⟩
      · simp only [oldAt_eq hi, Option.bind_eq_bind, Option.bind_some]
        rw [addTo_eq (by omega), Option.bind_some, hread, Option.bind_some, Arr.write_eq (by omega),
          Option.bind_some]
      · show (I.set (place old i) i).get (place old s) = s
        by_cases hlast : s = i
        · rw [hlast, Arr.set_get_self]
        · rw [Arr.set_get_ne fun heq => hlast (place_inj (by omega) hi.le heq)]
          exact hget s (by omega))
  refine ⟨b', I', hrun, ⟨hb'.1, fun c hc => ?_⟩, hI', hget⟩
  show b'.get c = (less old (c + 1) : Int)
  rw [less_succ]
  exact hb'.2 c hc

variable (hb : Holds b fun c => less old (c + 1))
include hb

theorem firstRanks_spec (hV : V.size = old.length + 1) :
    ∃ V', firstRanks old b V = some V' ∧ V'.size = old.length + 1 ∧
      (∀ s, s < old.length → V'.get s = less old (byteAt old s + 1)) ∧ V'.get old.length = 0 := by
  obtain ⟨V', hrun, hsize, hget⟩ := forTo_spec (n := old.length) (s := V)
    (f := fun (i : Nat) (V : Arr) => do V.write i (← b.read (← oldAt old i)))
    (fun i V => V.size = old.length + 1 ∧ ∀ s, s < i → V.get s = less old (byteAt old s + 1))
    ⟨hV, fun s hs => by omega⟩
    (by
      rintro i V hi ⟨hV, hget⟩
      refine ⟨V.set i (less old (byteAt old i + 1)), ?_, hV, fun s hs => ?_⟩
      · simp only [oldAt_eq hi, Option.bind_eq_bind, Option.bind_some]
        rw [hb.read byteAt_lt, Option.bind_some, Arr.write_eq (by omega)]
      · by_cases hlast : s = i
        · rw [hlast, Arr.set_get_self]
        · rw [Arr.set_get_ne hlast, hget s (by omega)])
  refine ⟨V'.set old.length 0, ?_, hsize, fun s hs => ?_, Arr.set_get_self⟩
  · unfold firstRanks
    rw [hrun, Option.bind_eq_bind, Option.bind_some, Arr.write_eq (by omega)]
  · rw [Arr.set_get_ne (by omega), hget s hs]

omit hb in
/-- The index of a bucket up to `i` that has one suffix, but for the byte 0. -/
def Marked (old : Bytes) (i q : Nat) : Prop :=
  ∃ c, 1 ≤ c ∧ c ≤ i ∧ less old (c + 1) = less old c + 1 ∧ q = less old (c + 1)

theorem markBuckets_spec (hI : I.size = old.length + 1) :
    ∃ I', markBuckets b I = some I' ∧ I'.size = old.length + 1 ∧ I'.get 0 = -1 ∧
      (∀ q, Marked old 255 q → I'.get q = -1) ∧
      ∀ q, q ≠ 0 → ¬ Marked old 255 q → I'.get q = I.get q := by
  obtain ⟨I', hrun, hsize, hmark, hkeep⟩ := forTo_spec (n := 255) (s := I)
    (f := fun (i : Nat) (I : Arr) => do
      let x ← b.read (i + 1)
      let y ← b.read i
      if x = y + 1 then I.write x (-1) else some I)
    (fun i I' => I'.size = old.length + 1 ∧ (∀ q, Marked old i q → I'.get q = -1) ∧
      ∀ q, ¬ Marked old i q → I'.get q = I.get q)
    ⟨hI, fun q ⟨c, h1, h2, _⟩ => by omega, fun _ _ => rfl⟩
    (by
      rintro i I' hi ⟨hsize, hmark, hkeep⟩
      have hread := hb.read (c := i) (by omega)
      have hread' := hb.read (c := i + 1) (by omega)
      rw [Int.natCast_add] at hread'
      have hmore : ∀ q, Marked old i q → Marked old (i + 1) q := by
        rintro q ⟨c, h1, h2, h3⟩
        exact ⟨c, h1, by omega, h3⟩
      rw [show b.read ((i : Int) + 1) = _ from hread', hread]
      simp only [Option.bind_eq_bind, Option.bind_some]
      by_cases hone : less old (i + 1 + 1) = less old (i + 1) + 1
      · have hin : less old (i + 1 + 1) ≤ old.length := by
          have := less_mono old (show i + 1 + 1 ≤ 256 by omega)
          rwa [less_all] at this
        refine ⟨I'.set (less old (i + 1 + 1)) (-1), ?_, hsize, fun q hq => ?_, fun q hq => ?_⟩
        · rw [if_pos (by omega), Arr.write_eq (by omega)]
        · by_cases heq : q = less old (i + 1 + 1)
          · rw [heq, Arr.set_get_self]
          · rw [Arr.set_get_ne heq]
            obtain ⟨c, h1, h2, h3, h4⟩ := hq
            have hne : c ≠ i + 1 := by
              rintro rfl
              exact heq h4
            exact hmark q ⟨c, h1, by omega, h3, h4⟩
        · have hne : q ≠ less old (i + 1 + 1) := by
            rintro rfl
            exact hq ⟨i + 1, by omega, Nat.le_refl _, hone, rfl⟩
          rw [Arr.set_get_ne hne]
          exact hkeep q fun hold => hq (hmore q hold)
      · refine ⟨I', by rw [if_neg (by omega)], hsize, fun q hq => ?_, fun q hq => ?_⟩
        · obtain ⟨c, h1, h2, h3, h4⟩ := hq
          have hne : c ≠ i + 1 := by
            rintro rfl
            exact hone h3
          exact hmark q ⟨c, h1, by omega, h3, h4⟩
        · exact hkeep q fun hold => hq (hmore q hold))
  refine ⟨I'.set 0 (-1), ?_, hsize, Arr.set_get_self, fun q hq => ?_, fun q hzero hq => ?_⟩
  · unfold markBuckets
    rw [hrun, Option.bind_eq_bind, Option.bind_some]
    exact Arr.write_eq (i := 0) (by omega)
  · by_cases hzero : q = 0
    · rw [hzero, Arr.set_get_self]
    · rw [Arr.set_get_ne hzero, hmark q hq]
  · rw [Arr.set_get_ne hzero, hkeep q hq]

omit hb

/-! ## The first groups -/

/-- The suffixes in the order of their places. -/
theorem exists_order (old : Bytes) :
    ∃ P : Equiv.Perm Nat, Lists old.length P ∧ ∀ s, s ≤ old.length → P (place old s) = s := by
  obtain ⟨P, hP, hle⟩ := exists_perm (f := place old) (fun s hs => place_le hs)
    (fun s t hs ht => place_inj hs ht)
  refine ⟨P.symm, fun q => ?_, fun s hs => ?_⟩
  · rw [← hle, P.apply_symm_apply]
  · rw [← hP s hs, P.symm_apply_apply]

variable {P : Equiv.Perm Nat} (hP : Lists old.length P) (hplace : ∀ s, s ≤ old.length → P (place old s) = s)
include hP hplace

/-- What a bucket lists. -/
theorem bucket_mem {q : Nat} (hlow : less old c < q) (hhigh : q ≤ less old (c + 1)) (hc : c < 256) :
    P q < old.length ∧ byteAt old (P q) = c := by
  have hall := less_mono old (show c + 1 ≤ 256 from hc)
  rw [less_all] at hall
  have hin : P q ≤ old.length := (hP q).mpr (by omega)
  have hq : place old (P q) = q := P.injective (hplace _ hin)
  have hlt : P q < old.length := by
    obtain heq | hlt := Nat.eq_or_lt_of_le hin
    · rw [heq, place_end] at hq
      omega
    · exact hlt
  exact ⟨hlt, byteAt_of_place hlt (by omega) (by omega)⟩

variable (hV : ∀ s, s < old.length → V.get s = less old (byteAt old s + 1)) (hend : V.get old.length = 0)
include hV hend

theorem buckets_segs (hhead : I.get 0 = -1) (hmark : ∀ q, Marked old 255 q → I.get q = -1)
    (hget : ∀ q, q ≠ 0 → q ≤ old.length → ¬ Marked old 255 q → I.get q = P q) (hc : c ≤ 256) :
    Segs old 1 P I V 0 (less old c + 1) := by
  induction c with
  | zero =>
    rw [less_zero]
    refine .run 1 Nat.one_pos hhead (fun q hq => ?_) (.nil 1)
    obtain rfl : q = 0 := by unfold Within at hq; omega
    have := hplace old.length (Nat.le_refl _)
    rw [place_end] at this
    rw [this, hend]
    rfl
  | succ c ih =>
    have hmono := less_mono old (Nat.le_add_right c 1)
    have hall := less_mono old hc
    rw [less_all] at hall
    have hmem := fun q (hlow : less old c < q) (hhigh : q ≤ less old (c + 1)) =>
      bucket_mem hP hplace hlow hhigh hc
    have hrank : ∀ q, less old c < q → q ≤ less old (c + 1) → V.get (P q) = less old (c + 1) := by
      intro q hlow hhigh
      obtain ⟨hlt, hbyte⟩ := hmem q hlow hhigh
      rw [hV _ hlt, hbyte]
    apply (ih (by omega)).append
    obtain hnone | hsome := Nat.eq_or_lt_of_le hmono
    · rw [← hnone]
      exact .nil _
    · obtain ⟨len, hlen⟩ : ∃ len, less old c + 1 + len = less old (c + 1) + 1 :=
        ⟨less old (c + 1) - less old c, by omega⟩
      rw [← hlen]
      by_cases hsingle : len = 1 ∧ 1 ≤ c
      · refine .run len (by omega) ?_ (fun q hq => ?_) (.nil _)
        · rw [hmark _ ⟨c, hsingle.2, by omega, by omega, by omega⟩, hsingle.1]
          rfl
        · unfold Within at hq
          rw [hrank q (by omega) (by omega)]
          omega
      · refine .group len (by omega) ⟨fun q hq => ?_, fun q hq => ?_, fun q hq => ?_, ?_⟩ (.nil _)
        · unfold Within at hq
          apply hget q (by omega) (by omega)
          rintro ⟨c', h1, h2, h3, h4⟩
          have hc' := hmem q (by omega) (by omega)
          have hc'' := bucket_mem hP hplace (c := c') (q := q) (by omega) (by omega) (by omega)
          obtain rfl : c = c' := hc'.2.symm.trans hc''.2
          omega
        · unfold Within at hq
          rw [hrank q (by omega) (by omega)]
          omega
        · unfold Within at hq
          exact (hmem q (by omega) (by omega)).1
        · intro q q' hq hq'
          unfold Within at hq hq'
          obtain ⟨hlt, hbyte⟩ := hmem q (by omega) (by omega)
          obtain ⟨hlt', hbyte'⟩ := hmem q' (by omega) (by omega)
          have : old.getD (P q) 0 = old.getD (P q') 0 := UInt8.toNat_inj.mp (hbyte.trans hbyte'.symm)
          rw [drop_cons hlt, drop_cons hlt', List.take_one, List.take_one, this]
          rfl

omit hP hplace in
theorem buckets_ranks : Ranks old 1 V.get := by
  have hsome : ∀ s, s < old.length → 0 < V.get s := by
    intro s hs
    have := less_lt hs
    rw [hV s hs]
    omega
  constructor
  · intro s t hs ht hlt
    obtain rfl | ht := Nat.eq_or_lt_of_le ht
    · obtain rfl | hs := Nat.eq_or_lt_of_le hs
      · omega
      · have := hsome s hs
        omega
    · rw [drop_cons ht]
      obtain rfl | hs := Nat.eq_or_lt_of_le hs
      · rw [List.drop_length]
        exact .nil
      · rw [drop_cons hs]
        apply List.Lex.rel
        rw [hV s hs, hV t ht] at hlt
        show (old.getD s 0).toNat < (old.getD t 0).toNat
        by_contra hle
        have := less_mono old (show byteAt old t + 1 ≤ byteAt old s + 1 from by
          unfold byteAt; omega)
        omega
  · intro s t hs ht heq
    obtain rfl | hs := Nat.eq_or_lt_of_le hs <;> obtain rfl | ht := Nat.eq_or_lt_of_le ht
    · rfl
    · have := hsome t ht
      omega
    · have := hsome s hs
      omega
    · rw [hV s hs, hV t ht] at heq
      have := less_lt hs
      have hbyte : byteAt old t = byteAt old s := by
        have := less_lt ht
        obtain hlt | hst | hgt := Nat.lt_trichotomy (byteAt old t) (byteAt old s)
        · have := less_mono old (show byteAt old t + 1 ≤ byteAt old s from hlt)
          omega
        · exact hst
        · have := less_mono old (show byteAt old s + 1 ≤ byteAt old t from hgt)
          omega
      rw [drop_cons hs, drop_cons ht, UInt8.toNat_inj.mp hbyte]
      rfl

omit hP hplace hV hend

/-! ## qsufsort -/

/-- `qsufsort` makes the suffix array of any string, whatever the arrays held before. -/
theorem qsufsort_spec (old : Bytes) (hI : I.size = old.length + 1) (hV : V.size = old.length + 1) :
    ∃ I', qsufsort old I V = some I' ∧ I'.size = old.length + 1 ∧ IsSuffixArray old I'.get := by
  obtain ⟨P, hP, hplace⟩ := exists_order old
  obtain ⟨b₀, hfill, hb₀⟩ := fillBuckets_spec old
  obtain ⟨b, I₁, hput, hb, hI₁, hget⟩ := placeSuffixes_spec hb₀ hI
  obtain ⟨V₁, hfirst, hV₁, hrank, hend⟩ := firstRanks_spec hb hV
  obtain ⟨I₂, hmarkrun, hI₂, hhead, hmark, hkeep⟩ := markBuckets_spec hb (I := I₁.set 0 old.length) hI₁
  have hshow : ∀ q, q ≠ 0 → q ≤ old.length → ¬ Marked old 255 q → I₂.get q = P q := by
    intro q hzero hq hnot
    have hin := (hP q).mpr hq
    have hplq : place old (P q) = q := P.injective (hplace _ hin)
    have hlt : P q < old.length := by
      obtain heq | hlt := Nat.eq_or_lt_of_le hin
      · rw [heq, place_end] at hplq
        exact absurd hplq.symm hzero
      · exact hlt
    have := hget _ hlt
    rw [hplq] at this
    rw [hkeep q hzero hnot, Arr.set_get_ne hzero, this]
  have hsegs := buckets_segs hP hplace hrank hend hhead hmark hshow (Nat.le_refl 256)
  rw [less_all] at hsegs
  obtain ⟨h, I₃, V₃, P₃, hloop, hd, hsorted⟩ :=
    doubling_spec ⟨Nat.one_pos, hI₂, hV₁, hP, hsegs, buckets_ranks hrank hend⟩
  obtain ⟨I', hinv, hsize, harray⟩ := invertRanks_spec hd hsorted
  refine ⟨I', ?_, hsize, harray⟩
  have hwrite : I₁.write 0 old.length = some (I₁.set 0 old.length) := Arr.write_eq (i := 0) (by omega)
  simp only [qsufsort, hfill, hput, hwrite, hfirst, hmarkrun, Option.bind_eq_bind, Option.bind_some]
  rw [hloop, Option.bind_some, hinv]

/-- `qsufsort` ends within the bounds of its arrays, and lists each suffix once, in strictly increasing order. -/
theorem qsufsort_sorts (old : Bytes) (memI memV : Nat → Int) :
    ∃ I, qsufsort old ⟨old.length + 1, memI⟩ ⟨old.length + 1, memV⟩ = some I ∧ I.size = old.length + 1 ∧
      ((List.range (old.length + 1)).map I.get).Perm ((List.range (old.length + 1)).map Int.ofNat) ∧
      ∀ q q' : Nat, q < q' → q' ≤ old.length → old.drop (I.get q).toNat < old.drop (I.get q').toNat := by
  obtain ⟨I, hrun, hsize, harray⟩ := qsufsort_spec (I := ⟨old.length + 1, memI⟩) (V := ⟨old.length + 1, memV⟩)
    old rfl rfl
  exact ⟨I, hrun, hsize, harray.perm, harray.sorted⟩

end Miui.Bsdiff
