import MiuiRecovery.Lib.Chunks
import MiuiRecovery.Mtd.RoundTrip

/-!
# Writing and reading in pieces

`mtd_write_data` and `mtd_read_data` (`mtdutils.c`) with the data or the request split in any way over
successive calls, the first failed one being the last.

* `mtdWriteData_absorbs`: a write hands the blocks of the buffer and the data to `write_block`.
* `writeBlock_again`: a block that failed is tried again at the close, and changes nothing.
* `mtdReadData_draw`: a read takes the cells of the buffer and the blocks behind it.
* `chunking`: neither depends on the split, as long as the calls succeed.
-/

namespace Miui

open Chunks

variable {p : MtdPartition}

/-! ## Writing -/

/-- The state with an empty buffer. -/
def WriteState.clear (s : WriteState p) : WriteState p := s.setBuffer [] p.nil_le

theorem WriteState.clear_eq {s : WriteState p} (h : s.ctx.buffer = []) : s.clear = s := by
  obtain ⟨⟨buffer, hle, fpos, bad⟩, flash⟩ := s
  obtain rfl : buffer = [] := h
  rfl

@[simp] theorem WriteState.clear_buffer (s : WriteState p) : s.clear.ctx.buffer = [] := rfl

@[simp] theorem WriteState.clear_fpos (s : WriteState p) : s.clear.ctx.fpos = s.ctx.fpos := rfl

@[simp] theorem WriteState.clear_setBuffer (s : WriteState p) (b : Bytes) (h : b.length ≤ p.erase_size) :
    (s.setBuffer b h).clear = s.clear := rfl

theorem WriteState.ext_clear {s t : WriteState p} (h : s.clear = t.clear) (hb : s.ctx.buffer = t.ctx.buffer) :
    s = t := by
  obtain ⟨⟨buffer, hle, fpos, bad⟩, flash⟩ := s
  obtain ⟨⟨buffer', hle', fpos', bad'⟩, flash'⟩ := t
  simp only [clear, setBuffer, WriteState.mk.injEq, MtdWriteContext.mk.injEq] at h
  obtain ⟨⟨-, rfl, rfl⟩, rfl⟩ := h
  obtain rfl : buffer = buffer' := hb
  rfl

/-- `write_block` does not look at the buffer. -/
theorem writeRetries_clear (c : Chip p) (pos : Nat) (data : Block p) (rs : List Nat) (s : WriteState p) :
    writeRetries c pos data rs s.clear =
      ((writeRetries c pos data rs s).1, (writeRetries c pos data rs s).2.clear) := by
  induction rs generalizing s with
  | nil => rfl
  | cons r rs ih =>
    unfold writeRetries
    simp only
    split
    · rfl
    · exact ih ((s.setBlock pos ((c.attempt pos r).result data)).setFpos
        (if (c.attempt pos r).erase_ok then pos + (c.attempt pos r).reread else s.ctx.fpos))

theorem writeBlockFrom_clear (c : Chip p) (data : Block p) (pos : Nat) (s : WriteState p) :
    writeBlockFrom c data pos s.clear =
      ((writeBlockFrom c data pos s).1, (writeBlockFrom c data pos s).2.clear) := by
  fun_induction writeBlockFrom c data pos s with
  | case1 pos s hf mark hm ih =>
    rw [writeBlockFrom, if_pos hf, if_pos hm]
    exact ih
  | case2 pos s hf mark hm s' h =>
    rw [writeBlockFrom, if_pos hf, if_neg hm, writeRetries_clear, h]
  | case3 pos s hf mark hm s' h ih =>
    rw [writeBlockFrom, if_pos hf, if_neg hm, writeRetries_clear, h]
    exact ih
  | case4 pos s hf => rw [writeBlockFrom, if_neg hf]

theorem writeBlock_clear (c : Chip p) (data : Block p) (s : WriteState p) :
    writeBlock c data s.clear = ((writeBlock c data s).1, (writeBlock c data s).2.clear) :=
  writeBlockFrom_clear c data s.ctx.fpos s

/-- The whole blocks of some bytes, handed to `write_block`. -/
abbrev writeBlocks (c : Chip p) : Bytes → WriteState p → Option Bytes × WriteState p :=
  absorb p.erase_size_pos (writeBlock c)

theorem writeDirect_eq {c : Chip p} {rest : Bytes} {s : WriteState p} (h : s.ctx.buffer = []) :
    writeDirect c rest s = writeBlocks c rest s := by
  fun_induction writeDirect c rest s with
  | case1 rest s hc s' hw => rw [writeBlocks, absorb, dif_pos hc.2, hw]
  | case2 rest s hc s' hw ih =>
    have hb : s'.ctx.buffer = [] := by
      rw [← h, ← writeBlock_buffer c ⟨rest.take p.erase_size, by simp; omega⟩ s, hw]
    rw [writeBlocks, absorb, dif_pos hc.2, hw]
    exact ih hb
  | case3 rest s hc => rw [writeBlocks, absorb, dif_neg fun hle => hc ⟨h, hle⟩]

/-- The buffer is empty, or holds a block that has just failed from a block boundary on. -/
def Stuck (c : Chip p) (t : WriteState p) : Prop :=
  t.ctx.buffer = [] ∨ ∃ (b : Block p) (s : WriteState p), p.erase_size ∣ s.ctx.fpos ∧ t.ctx.buffer = b.val ∧
    writeBlock c b s = (false, t)

/-- `w` is what comes of writing whole blocks with the result `r`. -/
structure Absorbed (c : Chip p) (r : Option Bytes × WriteState p) (w : Bool × WriteState p) : Prop where
  state : w.2.clear = r.2
  result : w.1 = r.1.isSome
  rest : ∀ rest, r.1 = some rest → w.2.ctx.buffer = rest
  stuck : r.1 = none → Stuck c w.2

theorem writeRetries_fpos {c : Chip p} {pos : Nat} {data : Block p} {rs : List Nat} {s s' : WriteState p}
    (h : writeRetries c pos data rs s = (true, s')) : s'.ctx.fpos = pos + p.erase_size := by
  induction rs generalizing s with
  | nil => cases h
  | cons r rs ih =>
    unfold writeRetries at h
    simp only at h
    split at h
    · next hv =>
      obtain ⟨herase, hreread, -⟩ := Attempt.verified_iff.mp hv
      cases h
      simp [WriteState.setFpos, herase, hreread]
    · exact ih h

/-- A block that is written ends at a block boundary. -/
theorem writeBlock_aligned {c : Chip p} {data : Block p} {s s' : WriteState p}
    (h : writeBlock c data s = (true, s')) (hs : p.erase_size ∣ s.ctx.fpos) : p.erase_size ∣ s'.ctx.fpos := by
  unfold writeBlock at h
  generalize s.ctx.fpos = pos at h hs
  fun_induction writeBlockFrom c data pos s with
  | case1 pos s hf mark hm ih => exact ih h (Nat.dvd_add hs (Nat.dvd_refl _))
  | case2 pos s hf mark hm t hw =>
    cases h
    rw [writeRetries_fpos hw]
    exact Nat.dvd_add hs (Nat.dvd_refl _)
  | case3 pos s hf mark hm t hw ih => exact ih h (Nat.dvd_add hs (Nat.dvd_refl _))
  | case4 => cases h

theorem writeBlocks_buffer (c : Chip p) (xs : Bytes) (s : WriteState p) :
    (writeBlocks c xs s).2.ctx.buffer = s.ctx.buffer := by
  unfold writeBlocks
  fun_induction absorb p.erase_size_pos (writeBlock c) xs s with
  | case1 xs s hle t hw => rw [← writeBlock_buffer c ⟨xs.take p.erase_size, List.length_take_of_le hle⟩ s, hw]
  | case2 xs s hle t hw ih =>
    rw [ih, ← writeBlock_buffer c ⟨xs.take p.erase_size, List.length_take_of_le hle⟩ s, hw]
  | case3 => rfl

/-- `w` is what comes of writing the whole blocks of some bytes with the result `r`, up to the bytes that are
left: the next round writes them behind those in the buffer. -/
def Continues (c : Chip p) (r : Option Bytes × WriteState p) (w : Option Bytes × WriteState p) : Prop :=
  match w with
  | (some rest, s) => s.ctx.buffer.length < p.erase_size ∧ p.erase_size ∣ s.ctx.fpos ∧
      r = writeBlocks c (s.ctx.buffer ++ rest) s.clear
  | (none, s) => r = (none, s.clear) ∧ Stuck c s

theorem writeDirect_continues {c : Chip p} {data : Bytes} {s : WriteState p} (hb : s.ctx.buffer = [])
    (halign : p.erase_size ∣ s.ctx.fpos) : Continues c (writeBlocks c data s) (writeDirect c data s) := by
  rw [writeDirect_eq hb]
  have hbuf := writeBlocks_buffer c data s
  cases hw : writeBlocks c data s with
  | mk rest t =>
    rw [hw, hb] at hbuf
    cases rest with
    | none => exact ⟨by rw [WriteState.clear_eq hbuf], .inl hbuf⟩
    | some rest =>
      refine ⟨by rw [hbuf]; exact p.erase_size_pos,
        absorb_invariant (fun s => p.erase_size ∣ s.ctx.fpos) (fun _ _ _ h hs => writeBlock_aligned h hs) halign hw, ?_⟩
      rw [hbuf, List.nil_append, WriteState.clear_eq hbuf, writeBlocks, absorb_short (absorb_length hw)]

theorem coalesce_pending {data : Bytes} {s : WriteState p}
    (h : 0 < s.ctx.buffer.length ∨ data.length < p.erase_size) : ∃ s₁,
    coalesce data s = (data.drop (p.erase_size - s.ctx.buffer.length), s₁) ∧ s₁.clear = s.clear ∧
      s₁.ctx.buffer = s.ctx.buffer ++ data.take (p.erase_size - s.ctx.buffer.length) ∧
      s₁.ctx.fpos = s.ctx.fpos := by
  rw [coalesce, if_pos h]
  exact ⟨_, rfl, rfl, rfl, rfl⟩

/-- One round of the loop of `mtd_write_data`. -/
theorem writeRound_continues (c : Chip p) (data : Bytes) {s : WriteState p}
    (hlt : s.ctx.buffer.length < p.erase_size) (halign : p.erase_size ∣ s.ctx.fpos) :
    Continues c (writeBlocks c (s.ctx.buffer ++ data) s.clear) (writeRound c data s) := by
  unfold writeRound
  by_cases hc : 0 < s.ctx.buffer.length ∨ data.length < p.erase_size
  · -- the data goes to the buffer first
    obtain ⟨s₁, heq, hclear, hbuffer, hfpos⟩ := coalesce_pending hc
    rw [heq]
    simp only
    unfold writeFull
    by_cases hfull : s₁.ctx.buffer.length = p.erase_size
    · have hsplit : s.ctx.buffer ++ data =
          s₁.ctx.buffer ++ data.drop (p.erase_size - s.ctx.buffer.length) := by
        rw [hbuffer, List.append_assoc, List.take_append_drop]
      have hstep := absorb_whole p.erase_size_pos (writeBlock c) ⟨s₁.ctx.buffer, hfull⟩
        (data.drop (p.erase_size - s.ctx.buffer.length)) s.clear
      rw [← hclear, writeBlock_clear] at hstep
      rw [dif_pos hfull, hsplit, writeBlocks, ← hclear, hstep]
      have hbuf := writeBlock_buffer c ⟨s₁.ctx.buffer, hfull⟩ s₁
      cases hw : writeBlock c ⟨s₁.ctx.buffer, hfull⟩ s₁ with
      | mk ok t =>
        rw [hw] at hbuf
        cases ok with
        | false => exact ⟨rfl, .inr ⟨⟨s₁.ctx.buffer, hfull⟩, s₁, hfpos ▸ halign, hbuf, hw⟩⟩
        | true =>
          have halign' : p.erase_size ∣ t.ctx.fpos := writeBlock_aligned hw (hfpos ▸ halign)
          exact writeDirect_continues (s := t.clear) rfl halign'
    · rw [dif_neg hfull]
      have hlt₁ := Nat.lt_of_le_of_ne s₁.ctx.stored_le hfull
      have hdata : data.length < p.erase_size - s.ctx.buffer.length := by
        rw [hbuffer, List.length_append, List.length_take] at hlt₁
        omega
      simp only
      rw [List.drop_of_length_le (Nat.le_of_lt hdata), writeDirect, dif_neg fun h => ?_]
      · refine ⟨hlt₁, hfpos ▸ halign, ?_⟩
        rw [List.append_nil, hclear, hbuffer, List.take_of_length_le (Nat.le_of_lt hdata)]
      · have := p.erase_size_pos
        simp only [List.length_nil] at h
        omega
  · rw [coalesce, if_neg hc]
    have hb : s.ctx.buffer = [] := List.eq_nil_of_length_eq_zero (by omega)
    have hpos := p.erase_size_pos
    simp only
    rw [writeFull, dif_neg (by rw [hb, List.length_nil]; omega), hb, List.nil_append, WriteState.clear_eq hb]
    exact writeDirect_continues hb halign

/-- `mtd_write_data` writes the whole blocks of the buffer and the data, and keeps what is left. -/
theorem mtdWriteData_absorbs (c : Chip p) (data : Bytes) {s : WriteState p}
    (hlt : s.ctx.buffer.length < p.erase_size) (halign : p.erase_size ∣ s.ctx.fpos) :
    Absorbed c (writeBlocks c (s.ctx.buffer ++ data) s.clear) (mtdWriteData c data s) := by
  fun_induction mtdWriteData c data s with
  | case1 s =>
    rw [List.append_nil, writeBlocks, absorb_short hlt]
    exact ⟨rfl, rfl, fun rest h => Option.some.inj h, fun h => by cases h⟩
  | case2 data s hd t hround =>
    have hcont := writeRound_continues c data hlt halign
    rw [hround] at hcont
    obtain ⟨heq, hstuck⟩ := hcont
    rw [heq]
    exact ⟨rfl, rfl, fun rest h => (by cases h), fun _ => hstuck⟩
  | case3 data s hd rest t hround ih =>
    have hcont := writeRound_continues c data hlt halign
    rw [hround] at hcont
    obtain ⟨hlt', halign', heq⟩ := hcont
    rw [heq]
    exact ih hlt' halign'

/-- So do successive calls, for the data of them all. -/
theorem mtdWriteAll_absorbs (c : Chip p) (chunks : List Bytes) {s : WriteState p}
    (hlt : s.ctx.buffer.length < p.erase_size) (halign : p.erase_size ∣ s.ctx.fpos) :
    Absorbed c (writeBlocks c (s.ctx.buffer ++ chunks.flatten) s.clear) (mtdWriteAll c chunks s) := by
  induction chunks generalizing s with
  | nil =>
    rw [List.flatten_nil, List.append_nil, writeBlocks, absorb_short hlt]
    exact ⟨rfl, rfl, fun rest h => Option.some.inj h, fun h => by cases h⟩
  | cons data chunks ih =>
    have hdata := mtdWriteData_absorbs c data hlt halign
    rw [List.flatten_cons, ← List.append_assoc, writeBlocks, absorb_append, mtdWriteAll]
    cases hr : writeBlocks c (s.ctx.buffer ++ data) s.clear with
    | mk rest t =>
      rw [hr] at hdata
      unfold writeBlocks at hr
      cases hw : mtdWriteData c data s with
      | mk ok s' =>
        rw [hw] at hdata
        rw [hr]
        obtain ⟨hstate, hresult, hrest, hstuck⟩ := hdata
        cases rest with
        | none =>
          obtain rfl : ok = false := hresult
          exact ⟨hstate, rfl, fun rest h => (by cases h), fun _ => hstuck rfl⟩
        | some rest =>
          obtain rfl : ok = true := hresult
          obtain rfl : s'.ctx.buffer = rest := hrest rest rfl
          obtain rfl : s'.clear = t := hstate
          have halign' : p.erase_size ∣ s'.clear.ctx.fpos :=
            absorb_invariant (fun s : WriteState p => p.erase_size ∣ s.ctx.fpos)
              (fun _ _ _ h hs => writeBlock_aligned h hs) (s := s.clear) halign hr
          exact ih (absorb_length hr) halign'

/-! ## A block that failed, again -/

theorem MtdPartition.fits_of_le {pos q : Nat} (h : p.fits q) (hle : pos ≤ q) : p.fits pos := by
  unfold fits at *
  omega

theorem mem_usableBlocks {c : Chip p} {pos q : Nat} : q ∈ usableBlocks c pos ↔
    ∃ k, q = pos + k * p.erase_size ∧ p.fits q ∧ (c.getBadBlock q = .good ∨ c.getBadBlock q = .unsupported) := by
  constructor
  · intro h
    fun_induction usableBlocks c pos with
    | case1 pos hf hm ih =>
      obtain ⟨k, rfl, hq⟩ := ih h
      exact ⟨k + 1, by rw [Nat.succ_mul]; omega, hq⟩
    | case2 pos hf hm ih =>
      rcases List.mem_cons.mp h with rfl | h
      · exact ⟨0, by omega, hf, by tauto⟩
      · obtain ⟨k, rfl, hq⟩ := ih h
        exact ⟨k + 1, by rw [Nat.succ_mul]; omega, hq⟩
    | case3 => cases h
  · rintro ⟨k, rfl, hf, hm⟩
    induction k generalizing pos with
    | zero =>
      rw [Nat.zero_mul, Nat.add_zero] at *
      rw [usableBlocks, if_pos hf, if_neg (by rintro ⟨h₁, h₂⟩; rcases hm with h | h <;> contradiction)]
      exact List.mem_cons_self
    | succ k ih =>
      have hpos : p.fits pos := MtdPartition.fits_of_le hf (Nat.le_add_right _ _)
      have hnext : pos + (k + 1) * p.erase_size = pos + p.erase_size + k * p.erase_size := by
        rw [Nat.succ_mul]
        omega
      rw [hnext] at hf hm ⊢
      rw [usableBlocks, if_pos hpos]
      split
      · exact ih hf hm
      · exact List.mem_cons_of_mem _ (ih hf hm)

theorem writeRetries_frame (c : Chip p) {pos x : Nat} (data : Block p) (rs : List Nat) (s : WriteState p)
    (hx : x ≠ pos) : (writeRetries c pos data rs s).2.flash x = s.flash x := by
  induction rs generalizing s with
  | nil => rfl
  | cons r rs ih =>
    unfold writeRetries
    simp only
    split
    · exact Flash.set_ne _ _ hx
    · rw [ih]
      exact Flash.set_ne _ _ hx

theorem writeRetries_fpos_ge (c : Chip p) {low pos : Nat} (data : Block p) (rs : List Nat) {s : WriteState p}
    (hpos : low ≤ pos) (hs : low ≤ s.ctx.fpos) : low ≤ (writeRetries c pos data rs s).2.ctx.fpos := by
  induction rs generalizing s with
  | nil => exact hs
  | cons r rs ih =>
    have hnext : low ≤ if (c.attempt pos r).erase_ok then pos + (c.attempt pos r).reread else s.ctx.fpos := by
      split <;> omega
    unfold writeRetries
    simp only
    split
    · exact hnext
    · exact ih hnext

theorem accepts_of_writeRetries {c : Chip p} {pos : Nat} {data : Block p} {s s' : WriteState p}
    (h : writeRetries c pos data [0, 1] s = (true, s')) : c.accepts pos data = true := by
  simp only [writeRetries] at h
  unfold Chip.accepts
  split at h
  · next hv => rw [hv, Bool.true_or]
  · split at h
    · next hv => rw [hv, Bool.or_true]
    · cases h

theorem writeBlockFrom_frame (c : Chip p) (data : Block p) {pos x : Nat} (s : WriteState p) (hx : x < pos) :
    (writeBlockFrom c data pos s).2.flash x = s.flash x := by
  fun_induction writeBlockFrom c data pos s with
  | case1 pos s hf mark hm ih => exact ih (by omega)
  | case2 pos s hf mark hm s' h => rw [← writeRetries_frame c data [0, 1] s (by omega : x ≠ pos), h]
  | case3 pos s hf mark hm s' h ih =>
    rw [ih (by omega), ← writeRetries_frame c data [0, 1] s (by omega : x ≠ pos), h]
    exact Flash.set_ne _ _ (by omega)
  | case4 => rfl

/-- Where a block fails, every block ahead refused it and is given up. -/
theorem writeBlockFrom_failed {c : Chip p} {data : Block p} {low pos : Nat} {s t : WriteState p}
    (h : writeBlockFrom c data pos s = (false, t)) (hpos : low ≤ pos) (hs : low ≤ s.ctx.fpos) :
    low ≤ t.ctx.fpos ∧ ∀ q ∈ usableBlocks c pos, c.accepts q data = false ∧ t.flash q = c.giveUp q := by
  fun_induction writeBlockFrom c data pos s with
  | case1 pos s hf mark hm ih =>
    rw [usableBlocks, if_pos hf, if_pos hm]
    exact ih h (by omega) hs
  | case2 => cases h
  | case3 pos s hf mark hm s' hw ih =>
    have hs' : low ≤ s'.ctx.fpos := by
      have := writeRetries_fpos_ge c data [0, 1] hpos hs
      rwa [hw] at this
    obtain ⟨hfpos, hall⟩ := ih h (by omega) hs'
    refine ⟨hfpos, fun q hq => ?_⟩
    rw [usableBlocks, if_pos hf, if_neg hm] at hq
    rcases List.mem_cons.mp hq with rfl | hq
    · refine ⟨?_, ?_⟩
      · by_contra hacc
        obtain ⟨s'', hw', -⟩ := writeRetries_accepts s (by simpa using hacc)
        cases hw.symm.trans hw'
      · have hpos' := p.erase_size_pos
        have hframe := writeBlockFrom_frame c data ((s'.addBadBlockOffset q).setBlock q (c.giveUp q))
          (by omega : q < q + p.erase_size)
        rw [h] at hframe
        exact hframe.trans (Flash.set_self _ _ _)
    · exact hall q hq
  | case4 pos s hf =>
    cases h
    rw [usableBlocks, if_neg hf]
    exact ⟨hs, fun q hq => absurd hq List.not_mem_nil⟩

/-- Blocks that all refuse the data and are given up already. -/
theorem writeBlockFrom_again {c : Chip p} {data : Block p} {pos : Nat} {s : WriteState p}
    (h : ∀ q ∈ usableBlocks c pos, p.erase_size ∣ q → c.accepts q data = false ∧ s.flash q = c.giveUp q) {x : Nat}
    (hx : p.erase_size ∣ x) : (writeBlockFrom c data pos s).2.flash x = s.flash x := by
  fun_induction writeBlockFrom c data pos s with
  | case1 pos s hf mark hm ih =>
    rw [usableBlocks, if_pos hf, if_pos hm] at h
    exact ih h
  | case2 pos s hf mark hm s' hw =>
    rw [usableBlocks, if_pos hf, if_neg hm] at h
    have hne : x ≠ pos := by
      rintro rfl
      have hno := (h x List.mem_cons_self hx).1
      rw [accepts_of_writeRetries hw] at hno
      cases hno
    rw [← writeRetries_frame c data [0, 1] s hne, hw]
  | case3 pos s hf mark hm s' hw ih =>
    rw [usableBlocks, if_pos hf, if_neg hm] at h
    have hsame : ∀ y, p.erase_size ∣ y →
        ((s'.addBadBlockOffset pos).setBlock pos (c.giveUp pos)).flash y = s.flash y := by
      intro y hy
      by_cases hne : y = pos
      · subst hne
        exact (Flash.set_self _ _ _).trans (h y List.mem_cons_self hy).2.symm
      · have hframe := writeRetries_frame c data [0, 1] s hne
        rw [hw] at hframe
        exact (Flash.set_ne _ _ hne).trans hframe
    rw [ih fun q hq hdvd => ?_, hsame x hx]
    have hq' := h q (List.mem_cons_of_mem _ hq) hdvd
    exact ⟨hq'.1, (hsame q hdvd).trans hq'.2⟩
  | case4 => rfl

/-- A block that failed is tried again from somewhere ahead, and changes nothing. -/
theorem writeBlock_again {c : Chip p} {data : Block p} {s t : WriteState p} (h : writeBlock c data s = (false, t))
    (hs : p.erase_size ∣ s.ctx.fpos) {x : Nat} (hx : p.erase_size ∣ x) :
    (writeBlock c data t).2.flash x = t.flash x := by
  obtain ⟨hge, hall⟩ := writeBlockFrom_failed h (Nat.le_refl _) (Nat.le_refl _)
  refine writeBlockFrom_again (fun q hq hdvd => hall q ?_) hx
  -- a block boundary ahead is one of the boundaries from the start on
  obtain ⟨k, rfl, hf, hm⟩ := mem_usableBlocks.mp hq
  obtain ⟨i, hi⟩ := hs
  obtain ⟨j, hj⟩ := hdvd
  refine mem_usableBlocks.mpr ⟨j - i, ?_, hf, hm⟩
  have hle : i ≤ j := by
    refine Nat.le_of_mul_le_mul_left ?_ p.erase_size_pos
    omega
  rw [hj, hi, Nat.mul_comm (j - i), ← Nat.mul_add, Nat.add_sub_cancel' hle]

/-! ## Written and closed -/

/-- Successive `mtd_write_data` calls up to the first that fails, then `mtd_write_close`: whether all of them
succeed, and the flash. -/
def mtdWriteRun (c : Chip p) (fl : Flash p) (chunks : List Bytes) : Bool × Flash p :=
  let w := mtdWriteAll c chunks ⟨mtdWritePartition p, fl⟩
  let cl := mtdWriteClose c w.2
  (w.1 && cl.1, cl.2.flash)

/-- `mtd_erase_blocks(ctx, 0)` erases nothing. -/
theorem mtdWriteClose_flash (c : Chip p) (s : WriteState p) :
    (mtdWriteClose c s).2.flash = (flushPending c s).2.flash := by
  unfold mtdWriteClose mtdEraseBlocks
  cases flushPending c s with
  | mk ok s₁ =>
    cases ok with
    | false => rfl
    | true =>
      simp only [Int.lt_irrefl, ↓reduceIte, Int.toNat_zero, eraseBlocksFrom]
      split <;> rfl

theorem close_stuck {c : Chip p} {t : WriteState p} (h : Stuck c t) {x : Nat} (hx : p.erase_size ∣ x) :
    (mtdWriteClose c t).2.flash x = t.flash x := by
  rw [mtdWriteClose_flash, flushPending]
  rcases h with hnil | ⟨b, s, hs, hbuf, hfail⟩
  · rw [if_pos hnil]
  · have hpad : padded t = b := by
      refine Subtype.ext ?_
      simp [padded, hbuf, b.2]
    have hne : t.ctx.buffer ≠ [] := by
      rw [hbuf]
      exact List.ne_nil_of_length_pos (by rw [b.2]; exact p.erase_size_pos)
    have hagain := writeBlock_again hfail hs hx
    rw [if_neg hne, hpad]
    cases hw : writeBlock c b t with
    | mk ok t' =>
      rw [hw] at hagain
      cases ok <;> exact hagain

theorem mtdWriteRun_eq (c : Chip p) (fl : Flash p) {chunks chunks' : List Bytes}
    (h : chunks.flatten = chunks'.flatten) : (mtdWriteRun c fl chunks).1 = (mtdWriteRun c fl chunks').1 ∧
      ∀ x, p.erase_size ∣ x → (mtdWriteRun c fl chunks).2 x = (mtdWriteRun c fl chunks').2 x := by
  have habs := fun chunks => mtdWriteAll_absorbs c chunks
    (s := ⟨mtdWritePartition p, fl⟩) p.erase_size_pos (Nat.dvd_zero _)
  obtain ⟨hstate, hresult, hrest, hstuck⟩ := habs chunks
  obtain ⟨hstate', hresult', hrest', hstuck'⟩ := habs chunks'
  rw [← h] at hstate' hresult' hrest' hstuck'
  unfold mtdWriteRun
  simp only
  cases hr : (writeBlocks c ([] ++ chunks.flatten) (WriteState.clear ⟨mtdWritePartition p, fl⟩)).1 with
  | some rest =>
    have heq := WriteState.ext_clear (hstate.trans hstate'.symm) ((hrest rest hr).trans (hrest' rest hr).symm)
    rw [heq, hresult, hresult']
    exact ⟨rfl, fun x _ => rfl⟩
  | none =>
    rw [hresult, hresult']
    refine ⟨by simp only [mtdWritePartition] at *; rw [hr]; rfl, fun x hx => ?_⟩
    rw [close_stuck (hstuck hr) hx, close_stuck (hstuck' hr) hx]
    exact congrFun (congrArg WriteState.flash (hstate.trans hstate'.symm)) x

/-! ## Reading -/

/-- The cells of the buffer, and the blocks behind them. -/
def drawBlocks (c : Chip p) (fl : Flash p) : Nat → Bytes → Nat → Option (Bytes × Bytes × Nat) :=
  draw p.erase_size_pos (readBlock c fl)

section DrawBlocks

variable {c : Chip p} {fl : Flash p} {want : Nat} {avail : Bytes} {fpos : Nat}

theorem drawBlocks_pending (h : want ≤ avail.length) :
    drawBlocks c fl want avail fpos = some (avail.take want, avail.drop want, fpos) := draw_pending h

theorem drawBlocks_empty (h : want ≠ 0) : drawBlocks c fl want [] fpos =
    match readBlock c fl fpos with
    | none => none
    | some (b, fpos) => drawBlocks c fl want b.val fpos := by
  have hpos : ([] : Bytes).length < want := Nat.pos_of_ne_zero h
  unfold drawBlocks
  rw [draw_next hpos]
  cases readBlock c fl fpos with
  | none => rfl
  | some r => simp

theorem drawBlocks_skip (h : avail.length ≤ want) : drawBlocks c fl want avail fpos =
    (drawBlocks c fl (want - avail.length) [] fpos).map fun r => (avail ++ r.1, r.2) := draw_skip h

theorem drawBlocks_add (k m : Nat) : drawBlocks c fl (k + m) avail fpos =
    (drawBlocks c fl k avail fpos).bind fun r =>
      (drawBlocks c fl m r.2.1 r.2.2).map fun r' => (r.1 ++ r'.1, r'.2) := draw_add k m avail fpos

end DrawBlocks

theorem readDirect_draw (c : Chip p) (fl : Flash p) (want fpos : Nat) : drawBlocks c fl want [] fpos =
    match readDirect c fl want fpos with
    | none => none
    | some (bs, want', fpos') => (drawBlocks c fl want' [] fpos').map fun r => (bs ++ r.1, r.2) := by
  have hpos := p.erase_size_pos
  fun_induction readDirect c fl want fpos with
  | case1 want fpos hle hb => rw [drawBlocks_empty (by omega), hb]
  | case2 want fpos hle b fpos' hb hd ih =>
    rw [drawBlocks_empty (by omega), hb]
    simp only
    rw [drawBlocks_skip (by rw [b.2]; exact hle), b.2, ih, hd]
    rfl
  | case3 want fpos hle b fpos' hb bs want' fpos'' hd ih =>
    rw [drawBlocks_empty (by omega), hb]
    simp only
    rw [drawBlocks_skip (by rw [b.2]; exact hle), b.2, ih, hd]
    simp only [Option.map_map]
    congr 1
    funext r
    simp
  | case4 want fpos hgt => simp

/-- The first half of a round of the loop: the copy from the buffer, then whole blocks. -/
theorem readWhole_draw (c : Chip p) (fl : Flash p) (want : Nat) (avail : Bytes) (fpos : Nat) :
    drawBlocks c fl want avail fpos =
      match readWhole c fl (avail.drop want) (want - (avail.take want).length) fpos with
      | none => none
      | some (direct, want', fpos') => (drawBlocks c fl want' (avail.drop want) fpos').map fun r =>
          (avail.take want ++ direct ++ r.1, r.2) := by
  unfold readWhole
  by_cases hd : avail.drop want = []
  · have hle := List.drop_eq_nil_iff.mp hd
    rw [if_pos hd, List.take_of_length_le hle, hd, drawBlocks_skip hle, readDirect_draw]
    cases readDirect c fl (want - avail.length) fpos with
    | none => rfl
    | some r =>
      simp only [Option.map_map]
      congr 1
      funext r'
      simp
  · have hle : want ≤ avail.length := by
      by_contra hge
      exact hd (List.drop_eq_nil_iff.mpr (by omega))
    rw [if_neg hd, List.length_take_of_le hle, Nat.sub_self, drawBlocks_pending hle]
    simp [drawBlocks_pending]

/-- Only an empty buffer leaves something to read. -/
theorem readWhole_want {c : Chip p} {fl : Flash p} {want want' : Nat} {avail direct : Bytes} {fpos fpos' : Nat}
    (h : readWhole c fl (avail.drop want) (want - (avail.take want).length) fpos = some (direct, want', fpos'))
    (hw : want' ≠ 0) : avail.drop want = [] := by
  by_contra hd
  have hle : want ≤ avail.length := by
    by_contra hge
    exact hd (List.drop_eq_nil_iff.mpr (by omega))
  rw [readWhole, if_neg hd, List.length_take_of_le hle, Nat.sub_self] at h
  cases h
  exact hw rfl

/-- `mtd_read_data` takes the cells of the buffer and the blocks behind it. -/
theorem readLoop_draw (c : Chip p) (fl : Flash p) (want : Nat) (ctx : MtdReadContext p) :
    drawBlocks c fl want ctx.avail ctx.fpos =
      (readLoop c fl want ctx).map fun r => (r.1, r.2.avail, r.2.fpos) := by
  fun_induction readLoop c fl want ctx with
  | case1 ctx =>
    rw [drawBlocks_pending (Nat.zero_le _)]
    rfl
  | case2 want ctx hw copied avail h =>
    rw [readWhole_draw, h]
    rfl
  | case3 want ctx hw copied avail direct fpos h =>
    rw [readWhole_draw, h]
    simp [drawBlocks_pending, copied, avail]
  | case4 want ctx hw copied avail direct want' fpos h hw' hb =>
    rw [readWhole_draw, h]
    simp only
    rw [readWhole_want h hw', drawBlocks_empty hw', hb]
    rfl
  | case5 want ctx hw copied avail direct want' fpos h hw' b fpos₁ hb hr ih =>
    rw [readWhole_draw, h]
    simp only
    rw [readWhole_want h hw', drawBlocks_empty hw', hb]
    simp only
    rw [ih, hr]
    rfl
  | case6 want ctx hw copied avail direct want' fpos h hw' b fpos₁ hb bs ctx₁ hr ih =>
    rw [readWhole_draw, h]
    simp only
    rw [readWhole_want h hw', drawBlocks_empty hw', hb]
    simp only
    rw [ih, hr]
    rfl

/-- Successive `mtd_read_data` calls: the bytes they return up to the first that fails, and the context behind
them if none does. -/
def mtdReadAll (c : Chip p) (fl : Flash p) : List Nat → MtdReadContext p → Bytes × Option (MtdReadContext p)
  | [], ctx => ([], some ctx)
  | len :: lens, ctx =>
    match mtdReadData c fl len ctx with
    | none => ([], none)
    | some (bs, ctx) => (bs ++ (mtdReadAll c fl lens ctx).1, (mtdReadAll c fl lens ctx).2)

theorem mtdReadData_draw {c : Chip p} {fl : Flash p} {len : Nat} (h : len < 2 ^ 31) (ctx : MtdReadContext p) :
    drawBlocks c fl len ctx.avail ctx.fpos =
      (mtdReadData c fl len ctx).map fun r => (r.1, r.2.avail, r.2.fpos) := by
  rw [mtdReadData, asInt_of_lt h]
  split
  · obtain rfl : len = 0 := by omega
    rw [drawBlocks_pending (Nat.zero_le _)]
    rfl
  · exact readLoop_draw c fl len ctx

/-- Where all calls succeed, they take what one call for all of the bytes takes; else that call fails. -/
theorem mtdReadAll_draw (c : Chip p) (fl : Flash p) {lens : List Nat} (h : lens.sum < 2 ^ 31)
    (ctx : MtdReadContext p) : drawBlocks c fl lens.sum ctx.avail ctx.fpos =
      (mtdReadAll c fl lens ctx).2.map fun ctx' => ((mtdReadAll c fl lens ctx).1, ctx'.avail, ctx'.fpos) := by
  induction lens generalizing ctx with
  | nil =>
    rw [List.sum_nil, drawBlocks_pending (Nat.zero_le _)]
    rfl
  | cons len lens ih =>
    rw [List.sum_cons] at h ⊢
    rw [drawBlocks_add, mtdReadData_draw (by omega), mtdReadAll]
    cases mtdReadData c fl len ctx with
    | none => rfl
    | some r =>
      obtain ⟨bs, ctx'⟩ := r
      simp only [Option.map_some, Option.bind_some]
      rw [ih (by omega) ctx', Option.map_map]
      rfl

/-- Neither what is written nor what is read depends on how the data or the request is split. Reading, where a
call fails, a call for all of the bytes fails. -/
theorem chunking (c : Chip p) (fl : Flash p) :
    (∀ chunks chunks' : List Bytes, chunks.flatten = chunks'.flatten →
      (mtdWriteRun c fl chunks).1 = (mtdWriteRun c fl chunks').1 ∧
        ∀ x, p.erase_size ∣ x → (mtdWriteRun c fl chunks).2 x = (mtdWriteRun c fl chunks').2 x) ∧
    ∀ (ctx : MtdReadContext p) (lens lens' : List Nat), lens.sum = lens'.sum → lens.sum < 2 ^ 31 →
      (mtdReadAll c fl lens ctx).2 = (mtdReadAll c fl lens' ctx).2 ∧
        ((mtdReadAll c fl lens ctx).2 ≠ none → (mtdReadAll c fl lens ctx).1 = (mtdReadAll c fl lens' ctx).1) := by
  refine ⟨fun chunks chunks' h => mtdWriteRun_eq c fl h, fun ctx lens lens' hsum hlt => ?_⟩
  have hdraw := mtdReadAll_draw c fl hlt ctx
  rw [hsum, mtdReadAll_draw c fl (hsum ▸ hlt) ctx] at hdraw
  cases h : (mtdReadAll c fl lens ctx).2 with
  | none =>
    rw [h, Option.map_none, Option.map_eq_none_iff] at hdraw
    exact ⟨hdraw.symm, fun hne => absurd rfl hne⟩
  | some ctx₁ =>
    rw [h, Option.map_some, Option.map_eq_some_iff] at hdraw
    obtain ⟨ctx₂, hctx₂, heq⟩ := hdraw
    simp only [Prod.mk.injEq] at heq
    obtain ⟨hbytes, havail, hfpos⟩ := heq
    obtain ⟨avail, hle, fpos⟩ := ctx₁
    obtain ⟨avail', hle', fpos'⟩ := ctx₂
    obtain rfl : avail' = avail := havail
    obtain rfl : fpos' = fpos := hfpos
    exact ⟨hctx₂.symm, fun _ => hbytes.symm⟩

/-- Ten bytes of a partition that has eight. -/
theorem chunking_short : (mtdReadAll (.quiet smallPartition) (fun _ => .fill _ 1) [8, 2] (mtdReadPartition _)).1 ≠
    (mtdReadAll (.quiet smallPartition) (fun _ => .fill _ 1) [10] (mtdReadPartition _)).1 := by
  decide +kernel

end Miui
