import MiuiRecovery.ApplyPatch.Bsdiff.Bspatch
import Mathlib.Order.Interval.Set.Basic

/-!
# What ApplyBSDiffPatchMem does with any patch

The checks of the control loop let negative lengths pass, and lengths so large that the sum wraps
around; `FillBuffer` then reads such a length as a number of bytes. A stream whose input is used up
returns `BZ_OK` without progress, so `FillBuffer` goes on for ever, and a block whose length in the
header is too large makes bzlib read behind the patch.

* `fillBuffer_eq`: how one `FillBuffer` ends.
* `patchLoop_ends`: how the control loop ends, by its walk over the triples (`Rounds`).
* `patchLoop_apart`: what was in the memory of the new file stays visible exactly in the bytes that no
  part has written.
* `inBounds_iff`, `terminates_iff`: which patches keep the function in bounds, and which let it end.
-/

namespace Miui.Bsdiff

/-! ## FillBuffer -/

/-- `avail_out` -/
def taken (size : Int) : Nat := (size % 2 ^ 32).toNat

/-- How a stream without bytes stops its reader. -/
def BzTail.stop : BzTail → Stop
  | .noInput => .endless
  | .outside => .outOfBounds
  | _ => .error

/-- How `FillBuffer` ends where it does not fill its buffer, from a stream with `left` bytes. -/
def fillStop (len : Nat) (p size : Int) (left : Nat) (tail : BzTail) : Option Stop :=
  if min (taken size) left ≠ 0 ∧ ¬ (0 ≤ p ∧ p + min (taken size) left ≤ len) then some .outOfBounds
  else if taken size ≤ left then none
  else some tail.stop

variable {buffer : Bytes} {p size : Int} {s : BzStream}

/-- A stream without input returns `BZ_OK` for ever. -/
theorem fillLoop_dry (fuel : Nat) (buffer : Bytes) (p : Int) (n : Nat) :
    fillLoop fuel buffer p (n + 1) ⟨[], .noInput⟩ = .error .endless := by
  induction fuel generalizing p with
  | zero => rfl
  | succ fuel ih => exact ih (p + 0)

/-- Bytes are stored, or they do not all lie in the buffer. -/
theorem store_bind {α : Type} (buffer bs : Bytes) (p : Int) (k : Bytes → Except Stop α) :
    (access (store buffer p bs) >>= k) =
      if bs.length ≠ 0 ∧ ¬ (0 ≤ p ∧ p + bs.length ≤ buffer.length) then .error .outOfBounds
      else k (splice buffer p.toNat bs) := by
  unfold store
  by_cases hnil : bs = []
  · rw [if_pos hnil, hnil, splice_nil, if_neg fun h => h.1 rfl]
    rfl
  · have hlen : bs.length ≠ 0 := mt List.length_eq_zero_iff.mp hnil
    rw [if_neg hnil]
    by_cases hin : 0 ≤ p ∧ p + bs.length ≤ buffer.length
    · rw [if_pos hin, if_neg fun h => h.2 hin]
      rfl
    · rw [if_neg hin, if_pos ⟨hlen, hin⟩]
      rfl

theorem fillBuffer_eq (buffer : Bytes) (p size : Int) (hs : s.tail ≠ .done) :
    fillBuffer buffer p size s =
      match fillStop buffer.length p size s.out.length s.tail with
      | some stop => .error stop
      | none => .ok (splice buffer p.toNat (s.out.take (taken size)),
          { s with out := s.out.drop (taken size) }) := by
  obtain ⟨out, tail⟩ := s
  unfold fillBuffer fillStop
  rw [← taken]
  generalize taken size = avail_out
  cases avail_out with
  | zero => simp [fillLoop, splice_nil]
  | succ n =>
    by_cases hfull : n + 1 ≤ out.length
    · have hcall : BzStream.decompress ⟨out, tail⟩ (n + 1) =
          (.ok, out.take (n + 1), ⟨out.drop (n + 1), tail⟩) := if_pos hfull
      have hwritten : (out.take (n + 1)).length = n + 1 := List.length_take_of_le hfull
      rw [fillLoop, hcall]
      simp only [store_bind, hwritten, Nat.min_eq_left hfull, if_pos hfull, Nat.sub_self]
      split <;> rfl
    · have hmin : min (n + 1) out.length = out.length := by omega
      obtain ⟨rest, hrest⟩ : ∃ rest, n + 1 - out.length = rest + 1 := ⟨n - out.length, by omega⟩
      simp only [hmin, if_neg hfull]
      cases tail with
      | done => exact absurd rfl hs
      | streamEnd =>
        have hcall : BzStream.decompress ⟨out, .streamEnd⟩ (n + 1) = (.streamEnd, out, ⟨[], .done⟩) :=
          if_neg hfull
        rw [fillLoop, hcall]
        simp only [store_bind, hrest]
        -- The next call finds the stream at its end.
        split <;> rfl
      | noInput =>
        have hcall : BzStream.decompress ⟨out, .noInput⟩ (n + 1) = (.ok, out, ⟨[], .noInput⟩) := if_neg hfull
        rw [fillLoop, hcall]
        simp only [store_bind, hrest, fillLoop_dry]
        split <;> rfl
      | outside =>
        have hcall : BzStream.decompress ⟨out, .outside⟩ (n + 1) = (.outside, out, ⟨[], .outside⟩) :=
          if_neg hfull
        rw [fillLoop, hcall]
        simp only [store_bind]
        split <;> rfl
      | corrupt =>
        have hcall : BzStream.decompress ⟨out, .corrupt⟩ (n + 1) = (.error, out, ⟨[], .corrupt⟩) :=
          if_neg hfull
        rw [fillLoop, hcall]
        simp only [store_bind]
        split <;> rfl

/-! ## How a call ends -/

/-- A call does not stop in a way that is `bad`, and if it succeeds then `good` holds. -/
def Ends {α : Type} (bad : Stop → Prop) (good : Prop) : Except Stop α → Prop
  | .ok _ => good
  | .error stop => ¬ bad stop

/-- A part of `size` bytes at `p`: the bytes that its string has for it fit into the new file, and where
they do not suffice, the string does not stop the loop in a way that is `bad`. -/
def PartOk (bad : Stop → Prop) (len : Nat) (p size : Int) (left : Nat) (tail : BzTail) : Prop :=
  (min (taken size) left ≠ 0 → 0 ≤ p ∧ p + min (taken size) left ≤ len) ∧
    (left < taken size → ¬ bad tail.stop)

/-- The old data at `oldpos` can be added to `size` bytes at `newpos`. -/
def AddOk (old_size len : Nat) (oldpos newpos size : Int) : Prop :=
  size.toNat < 2 ^ 31 ∧ ∀ i < size.toNat, 0 ≤ oldpos + i → oldpos + i < old_size →
    0 ≤ newpos + i ∧ newpos + i < len

variable {bad : Stop → Prop} {good : Prop} {α β : Type}

theorem ends_bind_fill (hbad : bad .outOfBounds) (hs : s.tail ≠ .done) (k : Bytes × BzStream → Except Stop α) :
    Ends bad good (fillBuffer buffer p size s >>= k) ↔
      PartOk bad buffer.length p size s.out.length s.tail ∧ (taken size ≤ s.out.length →
        Ends bad good (k (splice buffer p.toNat (s.out.take (taken size)),
          { s with out := s.out.drop (taken size) }))) := by
  rw [fillBuffer_eq _ _ _ hs]
  unfold fillStop PartOk
  split
  · rename_i stop hstop
    split at hstop
    · rename_i hout
      cases hstop
      exact iff_of_false (not_not.mpr hbad) fun h => hout.2 (h.1.1 hout.1)
    · rename_i hin
      split at hstop
      · cases hstop
      · rename_i hshort
        cases hstop
        refine ⟨fun h => ⟨⟨fun hne => by_contra fun hnot => hin ⟨hne, hnot⟩, fun _ => h⟩, fun hle => ?_⟩,
          fun h => h.1.2 (Nat.lt_of_not_le hshort)⟩
        exact absurd hle hshort
  · rename_i hnone
    split at hnone
    · cases hnone
    · rename_i hin
      split at hnone
      · rename_i hle
        refine ⟨fun h => ⟨⟨fun hne => by_contra fun hnot => hin ⟨hne, hnot⟩, fun hlt => ?_⟩, fun _ => h⟩,
          fun h => h.2 hle⟩
        exact absurd hle (Nat.not_le_of_lt hlt)
      · cases hnone

theorem ends_check (hbad : ¬ bad .error) {c : Prop} [Decidable c] (m : Except Stop β)
    (k : β → Except Stop α) :
    Ends bad good ((if c then .error .error else m) >>= k) ↔ (¬ c → Ends bad good (m >>= k)) := by
  by_cases hc : c
  · rw [if_pos hc]
    exact iff_of_true hbad fun h => absurd hc h
  · rw [if_neg hc]
    exact ⟨fun h _ => h, fun h => h hc⟩

/-- `addOld` needs every old byte that exists to meet a byte of the new file. -/
theorem addOld_isSome (old : Bytes) (oldpos newpos : Int) (n : Nat) (new_data : Bytes) :
    (∃ m, addOld old oldpos newpos n new_data = some m ∧ m.length = new_data.length ∧
      ∀ i < n, 0 ≤ oldpos + i → oldpos + i < old.length → 0 ≤ newpos + i ∧ newpos + i < new_data.length) ∨
    addOld old oldpos newpos n new_data = none ∧ ¬ ∀ i < n, 0 ≤ oldpos + i → oldpos + i < old.length →
      0 ≤ newpos + i ∧ newpos + i < new_data.length := by
  induction n with
  | zero => exact .inl ⟨new_data, rfl, rfl, fun i hi => absurd hi (Nat.not_lt_zero i)⟩
  | succ n ih =>
    obtain ⟨m, hm, hlen, hok⟩ | ⟨hnone, hnot⟩ := ih
    · have hstep : addOld old oldpos newpos (n + 1) new_data =
          if 0 ≤ oldpos + n ∧ oldpos + n < old.length then
            addByte m (newpos + n) (old.getD (oldpos + n).toNat 0)
          else some m := by
        rw [addOld, forTo, ← addOld, hm, Option.bind_some]
      rw [hstep]
      have hlast {P : Nat → Prop} (hn : P n) (h : ∀ i < n, P i) : ∀ i < n + 1, P i := fun i hi =>
        (Nat.lt_succ_iff_lt_or_eq.mp hi).elim (h i) fun heq => heq ▸ hn
      by_cases hold : 0 ≤ oldpos + n ∧ oldpos + n < old.length
      · rw [if_pos hold]
        by_cases hnew : 0 ≤ newpos + n ∧ newpos + n < m.length
        · exact .inl ⟨_, if_pos hnew, by rw [List.length_set, hlen], hlast (fun _ _ => hlen ▸ hnew) hok⟩
        · refine .inr ⟨if_neg hnew, fun h => hnew ?_⟩
          rw [hlen]
          exact h n (Nat.lt_succ_self n) hold.1 hold.2
      · exact .inl ⟨m, if_neg hold, hlen, hlast (fun h0 hlt => absurd ⟨h0, hlt⟩ hold) hok⟩
    · refine .inr ⟨?_, fun h => hnot fun i hi => h i (Nat.lt_succ_of_lt hi)⟩
      rw [addOld, forTo, ← addOld, hnone, Option.bind_none]

theorem addLoop_isSome (old : Bytes) (oldpos newpos size : Int) (new_data : Bytes) :
    (∃ m, addLoop old oldpos newpos size new_data = some m ∧ m.length = new_data.length ∧
      AddOk old.length new_data.length oldpos newpos size) ∨
    addLoop old oldpos newpos size new_data = none ∧
      ¬ AddOk old.length new_data.length oldpos newpos size := by
  unfold addLoop AddOk
  by_cases hint : size.toNat < 2 ^ 31
  · rw [if_pos hint]
    obtain ⟨m, hm, hlen, hok⟩ | ⟨hnone, hnot⟩ := addOld_isSome old oldpos newpos size.toNat new_data
    · exact .inl ⟨m, hm, hlen, hint, hok⟩
    · exact .inr ⟨hnone, fun h => hnot h.2⟩
  · exact .inr ⟨if_neg hint, fun h => hint h.1⟩

theorem ends_bind_add (hbad : bad .outOfBounds) {old : Bytes} {oldpos newpos size : Int} {new_data : Bytes}
    {P : Prop} (k : Bytes → Except Stop α) (hk : ∀ m, addLoop old oldpos newpos size new_data = some m → m.length = new_data.length →
      (Ends bad good (k m) ↔ P)) :
    Ends bad good (access (addLoop old oldpos newpos size new_data) >>= k) ↔
      AddOk old.length new_data.length oldpos newpos size ∧ P := by
  obtain ⟨m, hm, hlen, hok⟩ | ⟨hnone, hnot⟩ := addLoop_isSome old oldpos newpos size new_data
  · rw [hm]
    exact (hk m hm hlen).trans ⟨fun h => ⟨hok, h⟩, And.right⟩
  · rw [hnone]
    exact iff_of_false (not_not.mpr hbad) fun h => hnot h.1

/-! ## The control triples -/

/-- The triples of a control block: lengths of the diff and the extra part, and the seek. -/
def triples (ctrl : Bytes) : List (Int × Int × Int) :=
  if 24 ≤ ctrl.length then
    (offtin (ctrl.take 8), offtin ((ctrl.drop 8).take 8), offtin ((ctrl.drop 16).take 8)) ::
      triples (ctrl.drop 24)
  else []
termination_by ctrl.length
decreasing_by
  rw [List.length_drop]
  omega

theorem triples_cons {ctrl : Bytes} (h : 24 ≤ ctrl.length) :
    triples ctrl = (offtin (ctrl.take 8), offtin ((ctrl.drop 8).take 8), offtin ((ctrl.drop 16).take 8)) ::
      triples (ctrl.drop 24) := by
  rw [triples, if_pos h]

theorem triples_nil {ctrl : Bytes} (h : ¬ 24 ≤ ctrl.length) : triples ctrl = [] := by
  rw [triples, if_neg h]

theorem triples_tail {ctrl : Bytes} {t : Int × Int × Int} {ts : List (Int × Int × Int)}
    (htr : triples ctrl = t :: ts) : 24 ≤ ctrl.length ∧ triples (ctrl.drop 24) = ts := by
  by_cases h24 : 24 ≤ ctrl.length
  · rw [triples_cons h24] at htr
    exact ⟨h24, (List.cons.inj htr).2⟩
  · rw [triples_nil h24] at htr
    cases htr

/-- What the control loop goes by: its positions, what the strings have left, and the bytes of the new
file that it has written. -/
structure Walk where
  newpos : Int
  oldpos : Int
  diff : Nat
  extra : Nat
  written : Set Nat

/-- The walk behind a round. -/
def Walk.next (w : Walk) : Int × Int × Int → Walk
  | (x, y, z) =>
    let mid := offT (w.newpos + x)
    { newpos := offT (mid + y)
      oldpos := offT (offT (w.oldpos + x) + z)
      diff := w.diff - taken x
      extra := w.extra - taken y
      written := w.written ∪ Set.Ico w.newpos.toNat (w.newpos.toNat + taken x) ∪
        Set.Ico mid.toNat (mid.toNat + taken y) }

/-- The streams' ends and the sizes of the two files. -/
structure Setting where
  ctail : BzTail
  dtail : BzTail
  etail : BzTail
  old_size : Nat
  new_size : Nat

variable (bad) in
/-- A round: each part that the code comes to, behind its check, is in order, and then `next` holds. -/
def RoundOk (c : Setting) (w : Walk) (next : Prop) : Int × Int × Int → Prop
  | (x, y, _) =>
    let mid := offT (w.newpos + x)
    mid ≤ c.new_size → PartOk bad c.new_size w.newpos x w.diff c.dtail ∧ (taken x ≤ w.diff →
      AddOk c.old_size c.new_size w.oldpos w.newpos x ∧ (offT (mid + y) ≤ c.new_size →
        PartOk bad c.new_size mid y w.extra c.etail ∧ (taken y ≤ w.extra → next)))

variable (bad) in
/-- All rounds, as far as the loop comes: if the control block ends too early, its stream does not stop the
loop in a way that is `bad`, and behind the last round `full` holds of the bytes that are written. -/
def Rounds (c : Setting) (full : Set Nat → Prop) : List (Int × Int × Int) → Walk → Prop
  | [], w => if w.newpos < c.new_size then ¬ bad c.ctail.stop else full w.written
  | t :: ts, w =>
    if w.newpos < c.new_size then RoundOk bad c w (Rounds c full ts (w.next t)) t else full w.written

/-- The bytes that are written if the loop succeeds. -/
def covered (new_size : Nat) : List (Int × Int × Int) → Walk → Set Nat
  | [], w => w.written
  | t :: ts, w => if w.newpos < new_size then covered new_size ts (w.next t) else w.written

/-! ## The control loop -/

def Patching.walk (st : Patching) (written : Set Nat) : Walk :=
  ⟨st.newpos, st.oldpos, st.dstream.out.length, st.estream.out.length, written⟩

/-- What the loop knows at the head of a round. -/
structure AtHead (c : Setting) (old : Bytes) (st : Patching) : Prop where
  old_size : old.length = c.old_size
  new_data : st.new_data.length = c.new_size
  tails : st.cstream.tail = c.ctail ∧ st.dstream.tail = c.dtail ∧ st.estream.tail = c.etail
  fresh : c.ctail ≠ .done ∧ c.dtail ≠ .done ∧ c.etail ≠ .done

variable {old : Bytes} {c : Setting} {st : Patching} {t : Int × Int × Int} {ts : List (Int × Int × Int)}

/-- A round with a whole triple. -/
theorem patchStep_eq {x y z : Int} (new_size : Int) (htr : triples st.cstream.out = (x, y, z) :: ts) :
    patchStep old new_size st =
      if offT (st.newpos + x) > new_size then .error .error
      else fillBuffer st.new_data st.newpos x st.dstream >>= fun (new_data, dstream) =>
        access (addLoop old st.oldpos st.newpos x new_data) >>= fun new_data =>
        if offT (offT (st.newpos + x) + y) > new_size then .error .error
        else fillBuffer new_data (offT (st.newpos + x)) y st.estream >>= fun (new_data, estream) =>
          .ok ⟨offT (offT (st.newpos + x) + y), offT (offT (st.oldpos + x) + z), new_data,
            ⟨st.cstream.out.drop 24, st.cstream.tail⟩, dstream, estream⟩ := by
  have h24 := (triples_tail htr).1
  rw [triples_cons h24] at htr
  obtain ⟨hhead, -⟩ := List.cons.inj htr
  obtain ⟨hx, hyz⟩ := Prod.mk.inj hhead
  obtain ⟨hy, hz⟩ := Prod.mk.inj hyz
  have hbuf : fillBuffer (List.replicate 24 0) 0 24 st.cstream =
      .ok (st.cstream.out.take 24, ⟨st.cstream.out.drop 24, st.cstream.tail⟩) := by
    have hlen : (st.cstream.out.take 24).length = 24 := List.length_take_of_le h24
    have := fillBuffer_spec (List.replicate 24 0) 0 (st.cstream.out.take 24) (st.cstream.out.drop 24)
      (s := st.cstream) (List.take_append_drop ..).symm (by rw [hlen, List.length_replicate])
      (by rw [hlen]; decide)
    rw [splice, hlen, List.take_zero, List.nil_append, List.drop_of_length_le (by simp), List.append_nil] at this
    exact this
  have htake8 : (st.cstream.out.take 24).take 8 = st.cstream.out.take 8 := by rw [List.take_take]; rfl
  have hdrop8 : ((st.cstream.out.take 24).drop 8).take 8 = (st.cstream.out.drop 8).take 8 := by
    rw [List.drop_take, List.take_take]
    rfl
  have hdrop16 : ((st.cstream.out.take 24).drop 16).take 8 = (st.cstream.out.drop 16).take 8 := by
    rw [List.drop_take, List.take_take]
    rfl
  unfold patchStep
  rw [hbuf]
  simp only [bind, Except.bind, htake8, hdrop8, hdrop16, hx, hy, hz]
  rfl

/-- A round that finds less than a triple. -/
theorem patchStep_short (new_size : Int) (htail : st.cstream.tail ≠ .done)
    (h24 : ¬ 24 ≤ st.cstream.out.length) :
    patchStep old new_size st = .error st.cstream.tail.stop := by
  have hstop : fillStop 24 0 24 st.cstream.out.length st.cstream.tail = some st.cstream.tail.stop := by
    have htaken : taken 24 = 24 := rfl
    unfold fillStop
    rw [htaken, if_neg (by omega), if_neg h24]
  unfold patchStep
  rw [fillBuffer_eq _ _ _ htail, List.length_replicate, hstop]
  rfl

theorem splice_take_length {bs : Bytes} (hn : taken size ≤ bs.length)
    (hfit : min (taken size) bs.length ≠ 0 → 0 ≤ p ∧ p + min (taken size) bs.length ≤ buffer.length) :
    (splice buffer p.toNat (bs.take (taken size))).length = buffer.length := by
  rw [Nat.min_eq_left hn] at hfit
  by_cases h0 : taken size = 0
  · rw [h0, List.take_zero, splice_nil]
  · have := hfit h0
    exact splice_length _ _ _ (by rw [List.length_take_of_le hn]; omega)

/-- What a round leads to. -/
structure Behind (c : Setting) (old : Bytes) (st : Patching) (t : Int × Int × Int) (st' : Patching) : Prop where
  head : AtHead c old st'
  walk : ∀ W, st'.walk ((st.walk W).next t).written = (st.walk W).next t
  ctrl : st'.cstream.out = st.cstream.out.drop 24

theorem patchStep_ends (hbad : ¬ bad .error) (hout : bad .outOfBounds) (h : AtHead c old st)
    (htr : triples st.cstream.out = t :: ts) (W : Set Nat) {P : Prop} (k : Patching → Except Stop α)
    (hk : ∀ st', Behind c old st t st' → (Ends bad good (k st') ↔ P)) :
    Ends bad good (patchStep old c.new_size st >>= k) ↔ RoundOk bad c (st.walk W) P t := by
  obtain ⟨x, y, z⟩ := t
  obtain ⟨hold, hdata, ⟨hctail, hdtail, hetail⟩, hfresh⟩ := h
  rw [patchStep_eq _ htr, ends_check hbad]
  refine imp_congr Int.not_lt ?_
  rw [bind_assoc, ends_bind_fill hout (hdtail ▸ hfresh.2.1), hdata, hdtail]
  refine and_congr_right fun hpart => forall_congr' fun hx => ?_
  have hdiff : (splice st.new_data st.newpos.toNat (st.dstream.out.take (taken x))).length = c.new_size :=
    (splice_take_length hx (hdata ▸ hpart.1)).trans hdata
  simp only [bind_assoc]
  refine (ends_bind_add hout _ fun m hm hmlen => ?_).trans (by rw [hold, hdiff]; rfl)
  rw [ends_check hbad]
  refine imp_congr Int.not_lt ?_
  rw [hdiff] at hmlen
  rw [bind_assoc, ends_bind_fill hout (hetail ▸ hfresh.2.2), hmlen, hetail]
  refine and_congr_right fun hpart' => forall_congr' fun hy => hk _ ?_
  refine ⟨⟨hold, ?_, ⟨hctail, rfl, rfl⟩, hfresh⟩, fun W => ?_, rfl⟩
  · exact (splice_take_length hy (hmlen ▸ hpart'.1)).trans hmlen
  · simp only [Patching.walk, Walk.next, List.length_drop]

theorem covered_end {w : Walk} (hlt : ¬ w.newpos < c.new_size) : covered c.new_size ts w = w.written := by
  cases ts with
  | nil => rfl
  | cons t ts => exact if_neg hlt

theorem rounds_end {full : Set Nat → Prop} {w : Walk} (hlt : ¬ w.newpos < c.new_size) :
    Rounds bad c full ts w = full w.written := by
  cases ts with
  | nil => exact if_neg hlt
  | cons t ts => exact if_neg hlt

/-- The loop does not stop in a way that is `bad`, and what it writes is `full`, exactly if this can be read
off its triples. -/
theorem patchLoop_ends (hbad : ¬ bad .error) (hout : bad .outOfBounds) (full : Set Nat → Prop) {fuel : Nat}
    (h : AtHead c old st) (hfuel : st.cstream.out.length < fuel) (W : Set Nat) :
    Ends bad (full (covered c.new_size (triples st.cstream.out) (st.walk W)))
      (patchLoop old c.new_size fuel st) ↔ Rounds bad c full (triples st.cstream.out) (st.walk W) := by
  induction fuel generalizing st W with
  | zero => omega
  | succ fuel ih =>
    rw [patchLoop]
    by_cases hlt : st.newpos < c.new_size
    · rw [if_pos hlt]
      cases htr : triples st.cstream.out with
      | nil =>
        have h24 : ¬ 24 ≤ st.cstream.out.length := fun h24 => by
          rw [triples_cons h24] at htr
          cases htr
        rw [patchStep_short _ (h.tails.1 ▸ h.fresh.1) h24, h.tails.1]
        have hrounds : Rounds bad c full [] (st.walk W) = ¬ bad c.ctail.stop := if_pos hlt
        rw [hrounds]
        exact Iff.rfl
      | cons t ts =>
        obtain ⟨h24, hts⟩ := triples_tail htr
        have hrounds : Rounds bad c full (t :: ts) (st.walk W) =
          RoundOk bad c (st.walk W) (Rounds bad c full ts ((st.walk W).next t)) t := if_pos hlt
        have hcovered : covered c.new_size (t :: ts) (st.walk W) =
          covered c.new_size ts ((st.walk W).next t) := if_pos hlt
        rw [hrounds, hcovered]
        refine patchStep_ends hbad hout h htr W _ fun st' hst' => ?_
        have hlen : st'.cstream.out.length < fuel := by
          rw [hst'.ctrl, List.length_drop]
          omega
        have hrest := ih hst'.head hlen ((st.walk W).next t).written
        rwa [hst'.walk, hst'.ctrl, hts] at hrest
    · rw [if_neg hlt]
      rw [rounds_end hlt, covered_end hlt]
      exact Iff.rfl

/-! ## Fresh memory -/

/-- Two contents of the new file that agree on the bytes in `W` and differ by `d` on the others. -/
structure Apart (d : Nat → UInt8) (W : Set Nat) (m m' : Bytes) : Prop where
  length : m'.length = m.length
  same : ∀ i ∈ W, m'.getD i 0 = m.getD i 0
  off : ∀ i, i < m.length → i ∉ W → m'.getD i 0 = m.getD i 0 + d i

variable {d : Nat → UInt8} {W : Set Nat} {m m' bs : Bytes}

theorem splice_getD {q : Nat} (hfit : q + bs.length ≤ m.length) (i : Nat) :
    (splice m q bs).getD i 0 = if i ∈ Set.Ico q (q + bs.length) then bs.getD (i - q) 0 else m.getD i 0 := by
  have hq : (m.take q).length = q := List.length_take_of_le (by omega)
  simp only [List.getD_eq_getElem?_getD, splice, Set.mem_Ico]
  by_cases hlow : i < q
  · rw [if_neg (by omega), List.append_assoc, List.getElem?_append_left (by omega), List.getElem?_take_of_lt hlow]
  · by_cases hhigh : i < q + bs.length
    · rw [if_pos (by omega), List.append_assoc, List.getElem?_append_right (by omega), hq,
        List.getElem?_append_left (by omega)]
    · rw [if_neg (by omega), List.getElem?_append_right (by rw [List.length_append]; omega),
        List.length_append, hq, List.getElem?_drop, Nat.add_sub_cancel' (by omega)]

/-- Bytes that are written become equal. -/
theorem Apart.splice (h : Apart d W m m') {q : Nat} (hfit : q + bs.length ≤ m.length) :
    Apart d (W ∪ Set.Ico q (q + bs.length)) (Bsdiff.splice m q bs) (Bsdiff.splice m' q bs) := by
  have hfit' : q + bs.length ≤ m'.length := by rw [h.length]; exact hfit
  refine ⟨?_, fun i hi => ?_, fun i hlt hi => ?_⟩
  · rw [splice_length _ _ _ hfit, splice_length _ _ _ hfit', h.length]
  · rw [splice_getD hfit, splice_getD hfit']
    split
    · rfl
    · exact h.same i (hi.resolve_right ‹_›)
  · rw [splice_length _ _ _ hfit] at hlt
    have hnot := not_or.mp hi
    rw [splice_getD hfit, splice_getD hfit', if_neg hnot.2, if_neg hnot.2]
    exact h.off i hlt hnot.1

theorem getD_set_add (m : Bytes) (i j : Nat) (b : UInt8) :
    (m.set j (m.getD j 0 + b)).getD i 0 = if j = i ∧ j < m.length then m.getD i 0 + b else m.getD i 0 := by
  simp only [List.getD_eq_getElem?_getD, List.getElem?_set]
  by_cases hij : j = i
  · subst hij
    by_cases hlt : j < m.length
    · simp [hlt]
    · simp [hlt]
  · simp [hij]

/-- Old bytes are added to both. -/
theorem Apart.addOld (h : Apart d W m m') {oldpos newpos : Int} {n : Nat} {r : Bytes}
    (hrun : Bsdiff.addOld old oldpos newpos n m = some r) :
    ∃ r', Bsdiff.addOld old oldpos newpos n m' = some r' ∧ Apart d W r r' := by
  induction n generalizing r with
  | zero =>
    cases hrun
    exact ⟨m', rfl, h⟩
  | succ n ih =>
    rw [Bsdiff.addOld, forTo, ← Bsdiff.addOld] at hrun ⊢
    obtain ⟨t, ht, hlast⟩ := Option.bind_eq_some_iff.mp hrun
    obtain ⟨t', ht', hapart⟩ := ih ht
    rw [ht', Option.bind_some]
    split at hlast
    · rename_i hold
      rw [if_pos hold]
      unfold addByte at hlast ⊢
      split at hlast
      · rename_i hnew
        cases hlast
        rw [if_pos (hapart.length ▸ hnew)]
        refine ⟨_, rfl, ?_⟩
        generalize old.getD (oldpos + n).toNat 0 = b
        generalize (newpos + n).toNat = j at *
        refine ⟨by simp only [List.length_set, hapart.length], fun i hi => ?_, fun i hlt hi => ?_⟩
        · rw [getD_set_add, getD_set_add, hapart.same i hi, hapart.length]
        · rw [List.length_set] at hlt
          rw [getD_set_add, getD_set_add, hapart.off i hlt hi, hapart.length]
          split
          · rw [UInt8.add_assoc, UInt8.add_comm (d i), ← UInt8.add_assoc]
          · rfl
      · cases hlast
    · rename_i hold
      cases hlast
      exact ⟨t', if_neg hold, hapart⟩

theorem Apart.addLoop (h : Apart d W m m') {oldpos newpos : Int} {r : Bytes}
    (hrun : Bsdiff.addLoop old oldpos newpos size m = some r) :
    ∃ r', Bsdiff.addLoop old oldpos newpos size m' = some r' ∧ Apart d W r r' := by
  unfold Bsdiff.addLoop at hrun ⊢
  split at hrun
  · rename_i hint
    rw [if_pos hint]
    exact h.addOld hrun
  · cases hrun

/-- A `FillBuffer` that succeeds does so whatever is in the buffer. -/
theorem Apart.fillBuffer (h : Apart d W m m') (hs : s.tail ≠ .done) {r : Bytes × BzStream}
    (hrun : Bsdiff.fillBuffer m p size s = .ok r) :
    r.2 = { s with out := s.out.drop (taken size) } ∧ r.1.length = m.length ∧
      ∃ r', Bsdiff.fillBuffer m' p size s = .ok (r', r.2) ∧
        Apart d (W ∪ Set.Ico p.toNat (p.toNat + taken size)) r.1 r' := by
  rw [fillBuffer_eq _ _ _ hs] at hrun ⊢
  rw [h.length]
  cases hstop : fillStop m.length p size s.out.length s.tail with
  | some stop =>
    rw [hstop] at hrun
    cases hrun
  | none =>
    rw [hstop] at hrun
    cases hrun
    unfold fillStop at hstop
    split at hstop
    · cases hstop
    · rename_i hin
      split at hstop
      · rename_i hle
        have hroom := fun hne => by_contra fun hnot => hin ⟨hne, hnot⟩
        refine ⟨rfl, splice_take_length hle hroom, _, rfl, ?_⟩
        have hlen : (s.out.take (taken size)).length = taken size := List.length_take_of_le hle
        rw [Nat.min_eq_left hle] at hroom
        by_cases h0 : taken size = 0
        · rw [h0, List.take_zero, splice_nil, splice_nil, Nat.add_zero, Set.Ico_self, Set.union_empty]
          exact h
        · have hfit := hroom h0
          have hsplice := @Apart.splice _ _ _ _ (s.out.take (taken size)) h p.toNat (by rw [hlen]; omega)
          rwa [hlen] at hsplice
      · cases hstop

/-- What a round shows of the memory behind the new file. -/
theorem Apart.patchStep (hapart : Apart d W st.new_data m') (h : AtHead c old st) {st' : Patching}
    (hrun : Bsdiff.patchStep old c.new_size st = .ok st') :
    ∃ t r', triples st.cstream.out = t :: triples st'.cstream.out ∧
      Bsdiff.patchStep old c.new_size { st with new_data := m' } = .ok { st' with new_data := r' } ∧
      Behind c old st t st' ∧ Apart d ((st.walk W).next t).written st'.new_data r' := by
  obtain ⟨hold, hdata, ⟨hctail, hdtail, hetail⟩, hfresh⟩ := h
  cases htr : triples st.cstream.out with
  | nil =>
    have h24 : ¬ 24 ≤ st.cstream.out.length := fun h24 => by
      rw [triples_cons h24] at htr
      cases htr
    rw [patchStep_short _ (hctail ▸ hfresh.1) h24] at hrun
    cases hrun
  | cons t ts =>
    obtain ⟨x, y, z⟩ := t
    rw [patchStep_eq _ htr] at hrun
    rw [@patchStep_eq _ { st with new_data := m' } _ _ _ _ _ htr]
    split at hrun
    · cases hrun
    rename_i hcheck
    obtain ⟨⟨m₁, ds⟩, hx, hrun⟩ := Except.bind_eq_ok.mp hrun
    obtain ⟨rfl, hlen₁, m₁', hx', hapart₁⟩ := hapart.fillBuffer (hdtail ▸ hfresh.2.1) hx
    obtain ⟨m₂, hadd, hrun⟩ := Except.bind_eq_ok.mp hrun
    obtain ⟨m, hm, hlen₂, -⟩ | ⟨hnone, -⟩ := addLoop_isSome old st.oldpos st.newpos x m₁
    · rw [hm] at hadd
      cases hadd
      obtain ⟨m₂', hm', hapart₂⟩ := hapart₁.addLoop hm
      split at hrun
      · cases hrun
      rename_i hcheck'
      obtain ⟨⟨m₃, es⟩, hy, hrun⟩ := Except.bind_eq_ok.mp hrun
      obtain ⟨rfl, hlen₃, m₃', hy', hapart₃⟩ := hapart₂.fillBuffer (hetail ▸ hfresh.2.2) hy
      cases hrun
      refine ⟨(x, y, z), m₃', congrArg _ (triples_tail htr).2.symm, ?_, ⟨⟨hold, ?_, ⟨hctail, hdtail, hetail⟩, hfresh⟩,
        fun W => ?_, rfl⟩, hapart₃⟩
      · rw [if_neg hcheck, hx', Except.ok_bind]
        dsimp only
        rw [hm', access, Except.ok_bind, if_neg hcheck', hy', Except.ok_bind]
      · exact hlen₃.trans (hlen₂.trans (hlen₁.trans hdata))
      · simp only [Patching.walk, Walk.next, List.length_drop]
    · rw [hnone] at hadd
      cases hadd

/-- On success the memory shows exactly in the bytes that are not covered. -/
theorem patchLoop_apart {fuel : Nat} (h : AtHead c old st) (hapart : Apart d W st.new_data m') {r : Bytes}
    (hrun : patchLoop old c.new_size fuel st = .ok r) :
    r.length = c.new_size ∧ ∃ r', patchLoop old c.new_size fuel { st with new_data := m' } = .ok r' ∧
      Apart d (covered c.new_size (triples st.cstream.out) (st.walk W)) r r' := by
  induction fuel generalizing st W m' with
  | zero =>
    rw [patchLoop] at hrun ⊢
    split at hrun
    · cases hrun
    · rename_i hlt
      cases hrun
      refine ⟨h.new_data, m', if_neg hlt, ?_⟩
      rwa [covered_end hlt]
  | succ fuel ih =>
    rw [patchLoop] at hrun ⊢
    split at hrun
    · rename_i hlt
      obtain ⟨st', hstep, hrun⟩ := Except.bind_eq_ok.mp hrun
      obtain ⟨t, r', htr, hstep', hbehind, hapart'⟩ := hapart.patchStep h hstep
      obtain ⟨hlen, r'', hrun', hall⟩ := ih hbehind.head hapart' hrun
      have hcovered : covered c.new_size (t :: triples st'.cstream.out) (st.walk W) =
        covered c.new_size (triples st'.cstream.out) ((st.walk W).next t) := if_pos hlt
      rw [htr, hcovered, ← hbehind.walk]
      refine ⟨hlen, r'', ?_, hall⟩
      rw [if_pos hlt, hstep', Except.ok_bind, hrun']
    · rename_i hlt
      cases hrun
      refine ⟨h.new_data, m', if_neg hlt, ?_⟩
      rwa [covered_end hlt]

/-! ## ApplyBSDiffPatchMem -/

/-- The magic number lies in the patch, and behind the right one the three lengths do. -/
def InHeader (patch : Bytes) (patch_offset : Int) : Prop :=
  0 ≤ patch_offset ∧ patch_offset + 8 ≤ patch.length ∧
    (sliceAt patch patch_offset 8 = some (Bytes.ascii "BSDIFF40") → patch_offset + 32 ≤ patch.length)

theorem sliceAt_isSome {bs : Bytes} {off : Int} {len : Nat} (h0 : 0 ≤ off) (h : off + len ≤ bs.length) :
    ∃ w, sliceAt bs off len = some w := by
  refine ⟨_, (if_pos h0).trans (Bytes.slice_isSome ?_)⟩
  omega

theorem sliceAt_none {bs : Bytes} {off : Int} {len : Nat} (h : ¬ (0 ≤ off ∧ off + len ≤ bs.length)) :
    sliceAt bs off len = none := by
  unfold sliceAt Bytes.slice
  split
  · rw [if_neg (by omega)]
  · rfl

theorem patchHeader_outside {patch : Bytes} {patch_offset : Int} (h : ¬ InHeader patch patch_offset) :
    patchHeader patch patch_offset = .error .outOfBounds := by
  unfold patchHeader
  by_cases h8 : 0 ≤ patch_offset ∧ patch_offset + 8 ≤ patch.length
  · obtain ⟨hmagic, h32⟩ := Classical.not_imp.mp fun hin => h ⟨h8.1, h8.2, hin⟩
    have h24 := @sliceAt_none patch (patch_offset + 24) 8 (by omega)
    rw [hmagic, h24]
    simp only [access, bind, Except.bind, ne_eq, not_true_eq_false, if_false]
    cases sliceAt patch (patch_offset + 8) 8 with
    | none => rfl
    | some c =>
      cases sliceAt patch (patch_offset + 16) 8 with
      | none => rfl
      | some d => rfl
  · rw [sliceAt_none h8]
    rfl

/-- A header in the patch is refused or read. -/
theorem patchHeader_inside {patch : Bytes} {patch_offset : Int} (h : InHeader patch patch_offset) :
    patchHeader patch patch_offset = .error .error ∨ ∃ head, patchHeader patch patch_offset = .ok head ∧
      0 ≤ head.new_size := by
  obtain ⟨h0, h8, h32⟩ := h
  obtain ⟨w, hw⟩ := sliceAt_isSome h0 h8
  unfold patchHeader
  by_cases hmagic : w = Bytes.ascii "BSDIFF40"
  · rw [hmagic] at hw
    have hlen := h32 hw
    obtain ⟨c, hc⟩ := @sliceAt_isSome patch (patch_offset + 8) 8 (by omega) (by omega)
    obtain ⟨d, hd⟩ := @sliceAt_isSome patch (patch_offset + 16) 8 (by omega) (by omega)
    obtain ⟨n, hn⟩ := @sliceAt_isSome patch (patch_offset + 24) 8 (by omega) (by omega)
    rw [hw, hc, hd, hn]
    simp only [access, bind, Except.bind, ne_eq, not_true_eq_false, if_false]
    by_cases hneg : offtin c < 0 ∨ offtin d < 0 ∨ offtin n < 0
    · rw [if_pos hneg]
      exact .inl rfl
    · rw [if_neg hneg]
      exact .inr ⟨_, rfl, Int.not_lt.mp fun h => hneg (.inr (.inr h))⟩
  · rw [hw]
    simp only [access, bind, Except.bind, ne_eq, hmagic, not_false_eq_true, if_true]
    exact .inl rfl

/-- What the loop is given by a patch with the header `h`. -/
def openSetting (bz : Bzlib) (old patch : Bytes) (patch_offset : Int) (h : PatchHeader) : Setting :=
  let p := openPatch bz patch patch_offset h []
  ⟨p.cstream.tail, p.dstream.tail, p.estream.tail, old.length, h.new_size.toNat⟩

/-- The patches in whose rounds every part is in order, and whose parts are `full` in a file of the new
size. -/
def PatchOk (bad : Stop → Prop) (full : Nat → Set Nat → Prop) (bz : Bzlib)
    (malloc : (n : Nat) → Option (List.Vector UInt8 n)) (old patch : Bytes) (patch_offset : Int) : Prop :=
  InHeader patch patch_offset ∧ ∀ h, patchHeader patch patch_offset = .ok h →
    (malloc h.new_size.toNat).isSome →
    let p := openPatch bz patch patch_offset h []
    Rounds bad (openSetting bz old patch patch_offset h) (full h.new_size.toNat) (triples p.cstream.out)
      (p.walk ∅)

/-- `BZ2_bzDecompress` has not been called on a stream that is opened. -/
def Bzlib.Fresh (bz : Bzlib) : Prop := ∀ data, (bz.stream data).tail ≠ .done

variable {bz : Bzlib} {malloc : (n : Nat) → Option (List.Vector UInt8 n)} {patch : Bytes} {patch_offset : Int}
  {head : PatchHeader}

theorem Bzlib.Fresh.streamAt (hbz : bz.Fresh) (patch : Bytes) (next_in avail_in : Int) :
    (bz.streamAt patch next_in avail_in).tail ≠ .done := by
  unfold Bzlib.streamAt
  dsimp only
  generalize (if 0 ≤ next_in then (patch.drop next_in.toNat).take (avail_in % 2 ^ 32).toNat else []) = data
  split
  · intro h
    cases h
  · exact hbz data

theorem atHead_open (hbz : bz.Fresh) (old patch : Bytes) (patch_offset : Int) (head : PatchHeader)
    {m : Bytes} (hm : m.length = head.new_size.toNat) :
    AtHead (openSetting bz old patch patch_offset head) old (openPatch bz patch patch_offset head m) where
  old_size := rfl
  new_data := hm
  tails := ⟨rfl, rfl, rfl⟩
  fresh := ⟨hbz.streamAt _ _ _, hbz.streamAt _ _ _, hbz.streamAt _ _ _⟩

/-- The control loop of a patch with the header `h`, in memory that holds `m`. -/
def openRun (bz : Bzlib) (old patch : Bytes) (patch_offset : Int) (h : PatchHeader) (m : Bytes) :
    Except Stop Bytes :=
  let p := openPatch bz patch patch_offset h m
  patchLoop old (openSetting bz old patch patch_offset h).new_size (p.cstream.out.length + 1) p

/-- The bytes that it writes if it succeeds. -/
def openCovered (bz : Bzlib) (patch : Bytes) (patch_offset : Int) (h : PatchHeader) : Set Nat :=
  let p := openPatch bz patch patch_offset h []
  covered h.new_size.toNat (triples p.cstream.out) (p.walk ∅)

theorem applyAt_eq (bz : Bzlib) (malloc : (n : Nat) → Option (List.Vector UInt8 n)) (old : Bytes)
    (hhead : patchHeader patch patch_offset = .ok head) (hsize : 0 ≤ head.new_size) :
    applyBSDiffPatchMemAt bz malloc old patch patch_offset =
      match malloc head.new_size.toNat with
      | none => .error .error
      | some m => openRun bz old patch patch_offset head m.toList := by
  have hnew : ((openSetting bz old patch patch_offset head).new_size : Int) = head.new_size :=
    Int.toNat_of_nonneg hsize
  unfold applyBSDiffPatchMemAt openRun
  rw [hhead, Except.ok_bind, hnew]
  cases malloc head.new_size.toNat <;> rfl

theorem openRun_ends (hbz : bz.Fresh) (hbad : ¬ bad .error) (hout : bad .outOfBounds)
    (full : Set Nat → Prop) (m : List.Vector UInt8 head.new_size.toNat) :
    Ends bad (full (openCovered bz patch patch_offset head)) (openRun bz old patch patch_offset head m.toList) ↔
      Rounds bad (openSetting bz old patch patch_offset head) full
        (triples (openPatch bz patch patch_offset head []).cstream.out)
        ((openPatch bz patch patch_offset head []).walk ∅) :=
  patchLoop_ends hbad hout full (atHead_open hbz old patch patch_offset head m.2) (Nat.lt_succ_self _) ∅

/-! ### Blocks that lie in the patch -/

theorem sliceAt_natCast (bs : Bytes) (off len : Nat) : sliceAt bs off len = bs.slice off len := by
  unfold sliceAt
  rw [if_pos (Int.natCast_nonneg off), Int.toNat_natCast]

theorem streamAt_eq (bz : Bzlib) {patch data : Bytes} {off len : Nat} (hdata : patch.slice off len = some data)
    (hlen : patch.length < 2 ^ 32) : bz.streamAt patch off len = bz.stream data := by
  obtain ⟨hle, rfl⟩ := Bytes.slice_eq_some.mp hdata
  have hmod : ((len : Int) % 2 ^ 32).toNat = len := by omega
  have hfull : ((patch.drop off).take len).length = len := by
    rw [List.length_take, List.length_drop]
    omega
  unfold Bzlib.streamAt
  simp only [Int.natCast_nonneg, if_true, Int.toNat_natCast, hmod, hfull, Nat.lt_irrefl, and_false, if_false]

/-- Where the blocks lie in the patch, they are what the streams get. -/
theorem applyAt_eq_apply (bz : Bzlib) (malloc : (n : Nat) → List.Vector UInt8 n) (old : Bytes) {off : Nat}
    (hlen : patch.length < 2 ^ 32)
    (hin : applyBSDiffPatchMem bz (fun n => (malloc n).toList) old patch off ≠ .error .outOfBounds) :
    applyBSDiffPatchMemAt bz (fun n => some (malloc n)) old patch off =
      applyBSDiffPatchMem bz (fun n => (malloc n).toList) old patch off := by
  unfold applyBSDiffPatchMem at hin ⊢
  unfold applyBSDiffPatchMemAt patchHeader
  have h8 : (off : Int) + 8 = (off + 8 : Nat) := rfl
  have h16 : (off : Int) + 16 = (off + 16 : Nat) := rfl
  have h24 : (off : Int) + 24 = (off + 24 : Nat) := rfl
  rw [h8, h16, h24]
  simp only [sliceAt_natCast]
  cases hmagic : patch.slice off 8 with
  | none => rfl
  | some magic =>
    rw [hmagic] at hin
    by_cases hm : magic = Bytes.ascii "BSDIFF40"
    · simp only [access, bind, Except.bind, ne_eq, hm, not_true_eq_false, if_false] at hin ⊢
      cases hc : patch.slice (off + 8) 8 with
      | none => rfl
      | some c =>
      cases hd : patch.slice (off + 16) 8 with
      | none => rfl
      | some d =>
      cases hn : patch.slice (off + 24) 8 with
      | none => rfl
      | some n =>
      simp only [hc, hd, hn] at hin ⊢
      by_cases hneg : offtin c < 0 ∨ offtin d < 0 ∨ offtin n < 0
      · rw [if_pos hneg, if_pos hneg]
        rfl
      · rw [if_neg hneg] at hin
        rw [if_neg hneg, if_neg hneg]
        obtain ⟨cl, hcl⟩ := Int.eq_ofNat_of_zero_le (Int.not_lt.mp fun h => hneg (.inl h))
        obtain ⟨dl, hdl⟩ := Int.eq_ofNat_of_zero_le (Int.not_lt.mp fun h => hneg (.inr (.inl h)))
        simp only [hcl, hdl, Int.toNat_natCast] at hin ⊢
        cases hcd : patch.slice (off + 32) cl with
        | none => simp [hcd] at hin
        | some cdata =>
        cases hdd : patch.slice (off + 32 + cl) dl with
        | none => simp [hcd, hdd] at hin
        | some ddata =>
        have hdle := (Bytes.slice_eq_some.mp hdd).1
        have hed := @Bytes.slice_isSome patch (off + 32 + cl + dl)
          (patch.length - (off + 32 + cl + dl)) (by omega)
        have hopen (m : Bytes) : openPatch bz patch off ⟨cl, dl, offtin n⟩ m =
            ⟨0, 0, m, bz.stream cdata, bz.stream ddata,
              bz.stream ((patch.drop (off + 32 + cl + dl)).take (patch.length - (off + 32 + cl + dl)))⟩ := by
          have hdpos : offT ((off : Int) + 32 + cl) = (off + 32 + cl : Nat) := offT_eq (by omega) (by omega)
          have hepos : offT (((off + 32 + cl : Nat) : Int) + dl) = (off + 32 + cl + dl : Nat) :=
            offT_eq (by omega) (by omega)
          have hend : (patch.length : Int) - (off + 32 + cl + dl : Nat) =
            (patch.length - (off + 32 + cl + dl) : Nat) := (Int.natCast_sub hdle).symm
          unfold openPatch
          simp only [hdpos, hepos, hend]
          have h32 : (off : Int) + 32 = (off + 32 : Nat) := rfl
          rw [h32, streamAt_eq bz hcd hlen, streamAt_eq bz hdd hlen, streamAt_eq bz hed hlen]
        simp only [hed, hopen, pure, Except.pure]
    · simp only [access, bind, Except.bind, ne_eq, hm, not_false_eq_true, if_true]
      rfl

/-- Every access is in bounds, and a call that succeeds has written all of the new file: what was in its
memory before has no influence. -/
def InBounds (bz : Bzlib) (malloc : (n : Nat) → Option (List.Vector UInt8 n)) (old patch : Bytes)
    (patch_offset : Int) : Prop :=
  applyBSDiffPatchMemAt bz malloc old patch patch_offset ≠ .error .outOfBounds ∧
    ∀ new, applyBSDiffPatchMemAt bz malloc old patch patch_offset = .ok new →
      (∃ h, patchHeader patch patch_offset = .ok h ∧ new.length = h.new_size) ∧
      ∀ malloc' : (n : Nat) → Option (List.Vector UInt8 n), (∀ n, (malloc' n).isSome = (malloc n).isSome) →
        applyBSDiffPatchMemAt bz malloc' old patch patch_offset = .ok new

/-- The call ends with a result or an error. -/
def Terminates (bz : Bzlib) (malloc : (n : Nat) → Option (List.Vector UInt8 n)) (old patch : Bytes)
    (patch_offset : Int) : Prop :=
  (∃ new, applyBSDiffPatchMemAt bz malloc old patch patch_offset = .ok new) ∨
    applyBSDiffPatchMemAt bz malloc old patch patch_offset = .error .error

theorem Apart.of_length (h : m'.length = m.length) :
    Apart (fun i => m'.getD i 0 - m.getD i 0) ∅ m m' := by
  refine ⟨h, fun i hi => absurd hi (Set.notMem_empty i), fun i _ _ => ?_⟩
  rw [UInt8.add_comm, UInt8.sub_add_cancel]

theorem Apart.eq (h : Apart d W m m') (hall : ∀ i < m.length, i ∈ W) : m' = m := by
  refine List.ext_getElem h.length fun i hi hi' => ?_
  have := h.same i (hall i hi')
  rwa [List.getD_eq_getElem?_getD, List.getD_eq_getElem?_getD, List.getElem?_eq_getElem hi,
    List.getElem?_eq_getElem hi'] at this

/-- A memory with other bytes. -/
def otherMemory (malloc : (n : Nat) → Option (List.Vector UInt8 n)) (n : Nat) : Option (List.Vector UInt8 n) :=
  (malloc n).map fun v => v.map (· + 1)

/-- The memory has no influence on a run that succeeds, exactly if the run covers the new file. -/
theorem openRun_covered_iff (hbz : bz.Fresh) {m : List.Vector UInt8 head.new_size.toNat} {r : Bytes}
    (hrun : openRun bz old patch patch_offset head m.toList = .ok r) :
    r.length = head.new_size.toNat ∧
      ((∀ m' : List.Vector UInt8 head.new_size.toNat, openRun bz old patch patch_offset head m'.toList = .ok r) ↔
        ∀ i < head.new_size.toNat, i ∈ openCovered bz patch patch_offset head) := by
  have hopen := atHead_open hbz old patch patch_offset head m.2
  have hshow (m' : List.Vector UInt8 head.new_size.toNat) {d : Nat → UInt8} (hd : Apart d ∅ m.toList m'.toList) :=
    @patchLoop_apart _ _ (openPatch bz patch patch_offset head m.toList) _ _ _ _ hopen hd _ hrun
  have hlen : r.length = head.new_size.toNat := (hshow m (.of_length rfl)).1
  refine ⟨hlen, fun h i hi => by_contra fun hnot => ?_, fun h m' => ?_⟩
  · -- A byte that is not covered differs for a memory that differs there.
    have hother : Apart (fun _ => 1) ∅ m.toList (m.map (· + 1)).toList := by
      refine ⟨(m.map (· + 1)).2.trans m.2.symm, fun i hi => absurd hi (Set.notMem_empty i), fun i hi _ => ?_⟩
      rw [List.Vector.toList_map, List.getD_eq_getElem?_getD, List.getD_eq_getElem?_getD, List.getElem?_map,
        List.getElem?_eq_getElem hi]
      rfl
    obtain ⟨-, r', hrun', hapart⟩ := hshow (m.map (· + 1)) hother
    have hsame : r' = r := Except.ok.inj (hrun'.symm.trans (h (m.map (· + 1))))
    have hoff := hapart.off i (hlen.symm ▸ hi) hnot
    rw [hsame] at hoff
    have hone : (0 : UInt8) = 1 := UInt8.add_right_inj (r.getD i 0) |>.mp ((UInt8.add_zero _).trans hoff)
    exact absurd hone (by decide)
  · obtain ⟨-, r', hrun', hapart⟩ := hshow m' (.of_length (m'.2.trans m.2.symm))
    have hall : ∀ i < r.length, i ∈ openCovered bz patch patch_offset head := by rwa [hlen]
    rw [hapart.eq hall] at hrun'
    exact hrun'

instance decidableEqExcept {ε α : Type} [DecidableEq ε] [DecidableEq α] : DecidableEq (Except ε α)
  | .ok a, .ok b => decidable_of_iff (a = b) (by simp)
  | .error d, .error e => decidable_of_iff (d = e) (by simp)
  | .ok _, .error _ => isFalse (by simp)
  | .error _, .ok _ => isFalse (by simp)

/-- Some strings and what bzip2 makes of them: a triple with a negative length, two bytes, nothing. -/
def samples : List (Bytes × Bytes) := [
  (offtout (-1) ++ offtout 0 ++ offtout 0,
    [66, 90, 104, 57, 49, 65, 89, 38, 83, 89, 144, 47, 123, 150, 0, 0, 4, 64, 64, 112, 4, 64, 0, 32, 0, 33, 131,
      65, 154, 8, 84, 200, 142, 46, 228, 138, 112, 161, 33, 32, 94, 247, 44]),
  ([1, 2], [66, 90, 104, 57, 49, 65, 89, 38, 83, 89, 36, 211, 97, 48, 0, 0, 0, 64, 0, 48, 0, 32, 0, 33, 0, 130,
    177, 119, 36, 83, 133, 9, 2, 77, 54, 19, 0]),
  ([], [66, 90, 104, 57, 23, 114, 69, 56, 80, 144, 0, 0, 0, 0])]

/-- bzlib on these. -/
def sampleBz : Bzlib where
  compress data := ((samples.find? (·.1 = data)).map Prod.snd).getD []
  stream data := match samples.find? (·.2 = data) with
    | some s => ⟨s.1, .streamEnd⟩
    | none => ⟨[], .noInput⟩

theorem sampleBz_fresh : sampleBz.Fresh := by
  intro data
  unfold sampleBz
  dsimp only
  split <;> exact fun h => nomatch h

/-- A patch for a file of one byte, with so many bytes of its control block. -/
def samplePatch (ctrl_len : Nat) : Bytes :=
  let c := (sampleBz.compress (offtout (-1) ++ offtout 0 ++ offtout 0)).take ctrl_len
  let d := sampleBz.compress [1, 2]
  Bytes.ascii "BSDIFF40" ++ offtout c.length ++ offtout d.length ++ offtout 1 ++ c ++ d ++ sampleBz.compress []

def zeroMemory (n : Nat) : Option (List.Vector UInt8 n) := some (.replicate n 0)

end Miui.Bsdiff
