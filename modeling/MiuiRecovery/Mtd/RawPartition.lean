import MiuiRecovery.Lib.Transfer
import MiuiRecovery.Mtd.Chunks
import Mathlib.Data.List.Perm.Subperm

/-!
# Restoring a raw partition

`cmd_mtd_restore_raw_partition` (`mtdutils.c`): an image is written to the blocks of a partition, the last one
padded. That the last block cannot be written is only printed.

* `steps_placed`: blocks that are all taken stand on the flash, in order.
* `restore_result`: a restore returns 0 exactly if the whole blocks of what it reads are taken.
* `restores_iff`: for which images and drivers a restore that returns 0 has written the image.
-/

namespace Miui

namespace Raw

open Chunks Transfer

variable {p : MtdPartition}

/-! ## mtdutils.c -/

/-- `cmd_mtd_restore_raw_partition` of the partition `p`: the result and the flash. `opened` tells whether the
file, the partition and the write context can be opened, and `reads` what the calls of `fread` return. -/
def cmdMtdRestoreRawPartition (c : Chip p) (opened : Bool) (reads : Nat → Nat) (file : Bytes) (fl : Flash p) :
    Int × Flash p :=
  if opened = false then (-1, fl)
  else
    match mtdWriteAll c (freadAll BUFSIZ reads 0 file) ⟨mtdWritePartition p, fl⟩ with
    | (false, s) => (-1, s.flash)
    | (true, s) =>
      -- that these two fail is only printed
      let erased := mtdEraseBlocks c (-1) s
      let closed := mtdWriteClose c erased.2
      (0, closed.2.flash)

/-! ## What stands on the flash -/

/-- The blocks stand on the flash, one behind the other. -/
def Stored (fl : Flash p) (bs : List (Block p)) : Prop :=
  ∃ gs : List Nat, gs.Pairwise (· < ·) ∧ (∀ x ∈ gs, p.erase_size ∣ x) ∧ gs.map fl = bs

/-- The blocks stand behind each other before the file offset. -/
structure Placed (bs : List (Block p)) (gs : List Nat) (s : WriteState p) : Prop where
  increasing : gs.Pairwise (· < ·)
  before : ∀ x ∈ gs, p.erase_size ∣ x ∧ x < s.ctx.fpos
  holds : gs.map s.flash = bs

/-- There is a block for each of the blocks: the first one from `pos` on that takes it. -/
def takes (c : Chip p) : List (Block p) → Nat → Bool
  | [], _ => true
  | b :: bs, pos =>
    match (usableBlocks c pos).find? fun q => c.accepts q b with
    | none => false
    | some q => takes c bs (q + p.erase_size)

/-- `write_block` puts a block into the first one that takes it, and gives up those before. -/
theorem writeBlockFrom_find (c : Chip p) (b : Block p) (pos : Nat) (s : WriteState p) :
    (∀ q, (usableBlocks c pos).find? (fun q => c.accepts q b) = some q →
      ∃ s', writeBlockFrom c b pos s = (true, s') ∧ s'.ctx.fpos = q + p.erase_size ∧ s'.flash q = b ∧
        ∀ x, x ≠ q → s'.flash x = s.flash x ∨ s'.flash x = c.giveUp x) ∧
    ((usableBlocks c pos).find? (fun q => c.accepts q b) = none →
      ∃ s', writeBlockFrom c b pos s = (false, s') ∧ ∀ x, s'.flash x = s.flash x ∨ s'.flash x = c.giveUp x) := by
  fun_induction writeBlockFrom c b pos s with
  | case1 pos s hf mark hm ih =>
    rw [usableBlocks, if_pos hf, if_pos hm]
    exact ih
  | case2 pos s hf mark hm s' hw =>
    have hacc := accepts_of_writeRetries hw
    obtain ⟨s'', hw', hfpos, hflash, hother⟩ := writeRetries_accepts s hacc
    cases hw.symm.trans hw'
    rw [usableBlocks, if_pos hf, if_neg hm, List.find?_cons, hacc]
    refine ⟨fun q hq => ?_, fun h => by cases h⟩
    obtain rfl := Option.some.inj hq
    exact ⟨s', rfl, hfpos, hflash, fun x hx => .inl (hother x hx)⟩
  | case3 pos s hf mark hm s' hw ih =>
    have hacc : ¬ c.accepts pos b = true := by
      intro hacc
      obtain ⟨s'', hw', -⟩ := writeRetries_accepts s hacc
      cases hw.symm.trans hw'
    have hgiven : ∀ x, ((s'.addBadBlockOffset pos).setBlock pos (c.giveUp pos)).flash x = s.flash x ∨
        ((s'.addBadBlockOffset pos).setBlock pos (c.giveUp pos)).flash x = c.giveUp x := by
      intro x
      by_cases hx : x = pos
      · subst hx
        exact .inr (Flash.set_self _ _ _)
      · have hframe := writeRetries_frame c b [0, 1] s hx
        rw [hw] at hframe
        exact .inl ((Flash.set_ne _ _ hx).trans hframe)
    have hboth : ∀ {y : Block p} {x : Nat},
        y = ((s'.addBadBlockOffset pos).setBlock pos (c.giveUp pos)).flash x ∨ y = c.giveUp x →
        y = s.flash x ∨ y = c.giveUp x := by
      rintro y x (rfl | rfl)
      · exact hgiven x
      · exact .inr rfl
    rw [usableBlocks, if_pos hf, if_neg hm, List.find?_cons, eq_false_of_ne_true hacc]
    refine ⟨fun q hq => ?_, fun hnone => ?_⟩
    · obtain ⟨t, ht, hfpos, hflash, hother⟩ := ih.1 q hq
      exact ⟨t, ht, hfpos, hflash, fun x hx => hboth (hother x hx)⟩
    · obtain ⟨t, ht, hother⟩ := ih.2 hnone
      exact ⟨t, ht, fun x => hboth (hother x)⟩
  | case4 pos s hf =>
    rw [usableBlocks, if_neg hf]
    exact ⟨fun q h => (by cases h), fun _ => ⟨s, rfl, fun x => .inl rfl⟩⟩

/-- What a run of `write_block` does to the flash: the blocks stand where they were placed, and elsewhere is what
was there, or what is left of a block that was given up. -/
theorem steps_placed (c : Chip p) (bs : List (Block p)) {done : List (Block p)} {gs : List Nat} {s : WriteState p}
    (h : Placed done gs s) (halign : p.erase_size ∣ s.ctx.fpos) :
    (takes c bs s.ctx.fpos = true → ∃ s' gs', steps (writeBlock c) bs s = (true, s') ∧
      Placed (done ++ bs) gs' s' ∧ p.erase_size ∣ s'.ctx.fpos ∧ gs ⊆ gs' ∧
      ∀ x, x ∉ gs' → s'.flash x = s.flash x ∨ s'.flash x = c.giveUp x) ∧
    (takes c bs s.ctx.fpos = false → (steps (writeBlock c) bs s).1 = false) := by
  induction bs generalizing done gs s with
  | nil =>
    refine ⟨fun _ => ⟨s, gs, rfl, by rwa [List.append_nil], halign, List.Subset.refl _, fun x _ => .inl rfl⟩, ?_⟩
    intro h
    cases h
  | cons b bs ih =>
    obtain ⟨hsome, hnone⟩ := writeBlockFrom_find c b s.ctx.fpos s
    rw [takes, steps]
    cases hfind : (usableBlocks c s.ctx.fpos).find? fun q => c.accepts q b with
    | none =>
      obtain ⟨s', hs', -⟩ := hnone hfind
      have hw : writeBlock c b s = (false, s') := hs'
      rw [hw]
      exact ⟨fun h => (by cases h), fun _ => rfl⟩
    | some q =>
      obtain ⟨s', hs', hfpos, hflash, hother⟩ := hsome q hfind
      have hw : writeBlock c b s = (true, s') := hs'
      have hmem := List.mem_of_find?_eq_some hfind
      have hge : s.ctx.fpos ≤ q := usableBlocks_ge hmem
      have hq : p.erase_size ∣ q := by
        obtain ⟨k, rfl, -⟩ := mem_usableBlocks.mp hmem
        exact Nat.dvd_add halign (Nat.dvd_mul_left _ _)
      have hpos := p.erase_size_pos
      have hframe : ∀ x, x < s.ctx.fpos → s'.flash x = s.flash x := by
        intro x hx
        have := writeBlockFrom_frame c b s hx
        rwa [hs'] at this
      have hplaced : Placed (done ++ [b]) (gs ++ [q]) s' := by
        refine ⟨List.pairwise_append.mpr ⟨h.increasing, List.pairwise_singleton _ _, fun x hx y hy => ?_⟩,
          fun x hx => ?_, ?_⟩
        · rw [List.mem_singleton.mp hy]
          exact Nat.lt_of_lt_of_le (h.before x hx).2 hge
        · rw [hfpos]
          rcases List.mem_append.mp hx with hx | hx
          · obtain ⟨hdvd, hlt⟩ := h.before x hx
            exact ⟨hdvd, by omega⟩
          · rw [List.mem_singleton.mp hx]
            exact ⟨hq, by omega⟩
        · rw [List.map_append, List.map_singleton, hflash,
            List.map_congr_left fun x hx => hframe x (h.before x hx).2, h.holds]
      have hrest := ih hplaced (by rw [hfpos]; exact Nat.dvd_add hq (Nat.dvd_refl _))
      rw [hfpos] at hrest
      rw [hw]
      refine ⟨fun htakes => ?_, hrest.2⟩
      obtain ⟨t, gs', ht, hplaced', halign', hsub, hother'⟩ := hrest.1 htakes
      refine ⟨t, gs', ht, by simpa using hplaced', halign', fun x hx => hsub (List.mem_append_left _ hx),
        fun x hx => ?_⟩
      have hne : x ≠ q := by
        rintro rfl
        exact hx (hsub (by simp))
      rcases hother' x hx with heq | heq
      · rw [heq]
        exact hother x hne
      · exact .inr heq

/-- The blocks of the data: the whole ones, and the rest with its padding. -/
theorem toBlocks_eq (data : Bytes) : toBlocks p data = wholes p.erase_size_pos data ++
    toBlocks p (data.drop ((wholes p.erase_size_pos data).length * p.erase_size)) := by
  conv_lhs => rw [← wholes_append_rest p.erase_size_pos data]
  exact toBlocks_append _ _

theorem eraseBlocksFrom_flash (c : Chip p) (n pos : Nat) (s : WriteState p) :
    (eraseBlocksFrom c n pos s).2.ctx = s.ctx ∧ (∀ x, x < pos → (eraseBlocksFrom c n pos s).2.flash x = s.flash x) ∧
      ∀ x, (eraseBlocksFrom c n pos s).2.flash x = s.flash x ∨ (eraseBlocksFrom c n pos s).2.flash x = c.erase x := by
  induction n generalizing pos s with
  | zero => exact ⟨rfl, fun _ _ => rfl, fun _ => .inl rfl⟩
  | succ n ih =>
    unfold eraseBlocksFrom
    split
    · obtain ⟨hctx, hlow, hall⟩ := ih (pos + p.erase_size) s
      exact ⟨hctx, fun x hx => hlow x (by omega), hall⟩
    · obtain ⟨hctx, hlow, hall⟩ := ih (pos + p.erase_size) (s.setBlock pos (c.erase pos))
      refine ⟨hctx, fun x hx => ?_, fun x => ?_⟩
      · rw [hlow x (by omega)]
        exact Flash.set_ne _ _ (by omega)
      · rcases hall x with h | h
        · by_cases hx : x = pos
          · subst hx
            exact .inr (h.trans (Flash.set_self _ _ _))
          · exact .inl (h.trans (Flash.set_ne _ _ hx))
        · exact .inr h

/-- What the restore leaves on the flash: some blocks, in order, and elsewhere what was there or what is left of
an erase. -/
def Leaves (c : Chip p) (fl final : Flash p) (bs : List (Block p)) : Prop :=
  ∃ gs : List Nat, gs.Pairwise (· < ·) ∧ (∀ x ∈ gs, p.erase_size ∣ x) ∧ gs.map final = bs ∧
    ∀ x, p.erase_size ∣ x → x ∉ gs → final x = fl x ∨ final x = c.giveUp x ∨ final x = c.erase x

/-- With the pending data written, the rest of the partition is erased. -/
theorem erase_leaves {c : Chip p} {fl : Flash p} {bs : List (Block p)} {gs : List Nat} {s s₁ : WriteState p}
    (hflush : flushPending c s = (true, s₁)) (hs₁ : s₁.ctx.buffer = []) (h : Placed bs gs s₁)
    (hother : ∀ x, x ∉ gs → s₁.flash x = fl x ∨ s₁.flash x = c.giveUp x) :
    Leaves c fl (mtdWriteClose c (mtdEraseBlocks c (-1) s).2).2.flash bs := by
  have herase : ∃ n, (mtdEraseBlocks c (-1) s).2 = (eraseBlocksFrom c n s₁.ctx.fpos s₁).2 := by
    rw [mtdEraseBlocks, hflush]
    simp only [Int.reduceNeg, Int.reduceLT, ↓reduceIte, Int.lt_irrefl]
    exact ⟨_, rfl⟩
  obtain ⟨n, herase⟩ := herase
  obtain ⟨hctx, hlow, hall⟩ := eraseBlocksFrom_flash c n s₁.ctx.fpos s₁
  have hfinal : (mtdWriteClose c (mtdEraseBlocks c (-1) s).2).2.flash =
      (eraseBlocksFrom c n s₁.ctx.fpos s₁).2.flash := by
    rw [mtdWriteClose_flash, herase, flushPending, if_pos (by rw [hctx, hs₁])]
  rw [hfinal]
  refine ⟨gs, h.increasing, fun x hx => (h.before x hx).1, ?_, fun x _ hx => ?_⟩
  · rw [List.map_congr_left fun x hx => hlow x (h.before x hx).2, h.holds]
  · rcases hall x with heq | heq
    · rw [heq]
      rcases hother x hx with h | h
      · exact .inl h
      · exact .inr (.inl h)
    · exact .inr (.inr heq)

/-- With the pending data not written, it is tried again at the close. -/
theorem unflushed_leaves {c : Chip p} {fl : Flash p} {bs : List (Block p)} {gs : List Nat} {s : WriteState p}
    (hbuf : s.ctx.buffer ≠ []) (hfail : (writeBlock c (padded s) s).1 = false)
    (halign : p.erase_size ∣ s.ctx.fpos) (h : Placed bs gs s)
    (hother : ∀ x, x ∉ gs → s.flash x = fl x ∨ s.flash x = c.giveUp x) :
    Leaves c fl (mtdWriteClose c (mtdEraseBlocks c (-1) s).2).2.flash bs := by
  obtain ⟨s₁, hw⟩ : ∃ s₁, writeBlock c (padded s) s = (false, s₁) := ⟨_, Prod.ext hfail rfl⟩
  have hbuf₁ : s₁.ctx.buffer = s.ctx.buffer := by
    have := writeBlock_buffer c (padded s) s
    rwa [hw] at this
  have hpad : padded s₁ = padded s := Subtype.ext (by simp [padded, hbuf₁])
  have hflush : flushPending c s = (false, s₁) := by rw [flushPending, if_neg hbuf, hw]
  have herase : (mtdEraseBlocks c (-1) s).2 = s₁ := by rw [mtdEraseBlocks, hflush]
  have hfinal : ∀ x, p.erase_size ∣ x →
      (mtdWriteClose c (mtdEraseBlocks c (-1) s).2).2.flash x = s₁.flash x := by
    intro x hx
    rw [mtdWriteClose_flash, herase, flushPending, if_neg (hbuf₁ ▸ hbuf), hpad]
    have hagain := writeBlock_again hw halign hx
    cases hw₂ : writeBlock c (padded s) s₁ with
    | mk ok s₂ =>
      rw [hw₂] at hagain
      cases ok <;> exact hagain
  have hlow : ∀ x, x < s.ctx.fpos → s₁.flash x = s.flash x := by
    intro x hx
    have := writeBlockFrom_frame c (padded s) s hx
    rwa [show writeBlockFrom c (padded s) s.ctx.fpos s = (false, s₁) from hw] at this
  have hgiven : ∀ x, s₁.flash x = s.flash x ∨ s₁.flash x = c.giveUp x := by
    intro x
    obtain ⟨hsome, hnone⟩ := writeBlockFrom_find c (padded s) s.ctx.fpos s
    cases hfind : (usableBlocks c s.ctx.fpos).find? fun q => c.accepts q (padded s) with
    | some q =>
      obtain ⟨s', hs', -⟩ := hsome q hfind
      cases hs'.symm.trans hw
    | none =>
      obtain ⟨s', hs', hall⟩ := hnone hfind
      obtain ⟨-, rfl⟩ := Prod.mk.inj (hs'.symm.trans hw)
      exact hall x
  refine ⟨gs, h.increasing, fun x hx => (h.before x hx).1, ?_, fun x hdvd hx => ?_⟩
  · rw [List.map_congr_left fun x hx => hfinal x (h.before x hx).1,
      List.map_congr_left fun x hx => hlow x (h.before x hx).2, h.holds]
  · rw [hfinal x hdvd]
    rcases hgiven x with heq | heq
    · rw [heq]
      rcases hother x hx with h | h
      · exact .inl h
      · exact .inr (.inl h)
    · exact .inr (.inl heq)

/-- The blocks that are on the flash behind a restore that returns 0. -/
def restored (c : Chip p) (data : Bytes) : List (Block p) :=
  if takes c (toBlocks p data) 0 then toBlocks p data else wholes p.erase_size_pos data

/-- A restore returns 0 exactly if the whole blocks of what it reads are taken; the rest does not matter. -/
theorem restore_result (c : Chip p) (reads : Nat → Nat) (file : Bytes) (fl : Flash p) :
    let data := (freadAll BUFSIZ reads 0 file).flatten
    (takes c (wholes p.erase_size_pos data) 0 = false →
      (cmdMtdRestoreRawPartition c true reads file fl).1 = -1) ∧
    (takes c (wholes p.erase_size_pos data) 0 = true →
      (cmdMtdRestoreRawPartition c true reads file fl).1 = 0 ∧
        Leaves c fl (cmdMtdRestoreRawPartition c true reads file fl).2 (restored c data)) := by
  intro data
  have habs := mtdWriteAll_absorbs c (freadAll BUFSIZ reads 0 file) (s := ⟨mtdWritePartition p, fl⟩)
    p.erase_size_pos (Nat.dvd_zero _)
  have hclear : WriteState.clear ⟨mtdWritePartition p, fl⟩ = (⟨mtdWritePartition p, fl⟩ : WriteState p) := rfl
  have hstart : Placed [] [] (⟨mtdWritePartition p, fl⟩ : WriteState p) :=
    ⟨List.Pairwise.nil, fun x hx => (nomatch hx), rfl⟩
  have hzero : p.erase_size ∣ (⟨mtdWritePartition p, fl⟩ : WriteState p).ctx.fpos := Nat.dvd_zero _
  obtain ⟨hsome, hnone⟩ := steps_placed c (wholes p.erase_size_pos data) hstart hzero
  obtain ⟨hsome', hnone'⟩ := steps_placed c (toBlocks p data) hstart hzero
  have hdata : (⟨mtdWritePartition p, fl⟩ : WriteState p).ctx.buffer ++
      (freadAll BUFSIZ reads 0 file).flatten = data := List.nil_append _
  rw [hclear, hdata, writeBlocks, absorb_steps] at habs
  rw [cmdMtdRestoreRawPartition, if_neg (by simp)]
  constructor
  · intro htakes
    have hfail := hnone htakes
    cases hsteps : steps (writeBlock c) (wholes p.erase_size_pos data) ⟨mtdWritePartition p, fl⟩ with
    | mk ok t =>
      rw [hsteps] at hfail habs
      obtain rfl : ok = false := hfail
      have hresult := habs.result
      cases hall : mtdWriteAll c (freadAll BUFSIZ reads 0 file) ⟨mtdWritePartition p, fl⟩ with
      | mk ok s =>
        rw [hall] at hresult
        obtain rfl : ok = false := hresult
        rfl
  · intro htakes
    obtain ⟨t, gs, hsteps, hplaced, halign, -, hother⟩ := hsome htakes
    rw [hsteps] at habs
    obtain ⟨hstate, hresult, hrest, -⟩ := habs
    rw [List.nil_append] at hplaced
    cases hall : mtdWriteAll c (freadAll BUFSIZ reads 0 file) ⟨mtdWritePartition p, fl⟩ with
    | mk ok s =>
      rw [hall] at hstate hresult hrest
      obtain rfl : ok = true := hresult
      obtain rfl : s.clear = t := hstate
      have hbuf := hrest _ rfl
      simp only at hbuf ⊢
      refine ⟨trivial, ?_⟩
      have hblocks : toBlocks p data = wholes p.erase_size_pos data ++ toBlocks p s.ctx.buffer := by
        rw [hbuf]
        exact toBlocks_eq data
      by_cases hnil : s.ctx.buffer = []
      · -- no pending data
        have hall' : toBlocks p data = wholes p.erase_size_pos data := by
          rw [hblocks, hnil, toBlocks, dif_pos rfl, List.append_nil]
        have hrestored : restored c data = wholes p.erase_size_pos data := by
          rw [restored, hall']
          split <;> rfl
        rw [hrestored]
        exact erase_leaves (by rw [flushPending, if_pos hnil]) hnil
          ⟨hplaced.increasing, hplaced.before, hplaced.holds⟩ hother
      · have hlast : toBlocks p s.ctx.buffer = [padded s] := by
          rw [toBlocks_last hnil s.ctx.stored_le]
          congr 1
          exact Subtype.ext (by simp [firstBlock, padded, List.take_of_length_le s.ctx.stored_le])
        rw [hlast] at hblocks
        have happend := steps_append (writeBlock c) (wholes p.erase_size_pos data) [padded s]
          (⟨mtdWritePartition p, fl⟩ : WriteState p)
        rw [← hblocks, hsteps] at happend
        simp only [steps, writeBlock_clear] at happend
        cases hlasts : takes c (toBlocks p data) 0 with
        | true =>
          obtain ⟨t', gs', hsteps', hplaced', halign', -, hother'⟩ := hsome' hlasts
          rw [hsteps'] at happend
          cases hw : writeBlock c (padded s) s with
          | mk ok s₂ =>
            rw [hw] at happend
            cases ok with
            | false => cases happend
            | true =>
              obtain rfl : t' = s₂.clear := (Prod.mk.inj happend).2
              have hflush : flushPending c s = (true, s₂.clear) := by
                rw [flushPending, if_neg hnil, hw]
                rfl
              rw [restored, if_pos hlasts]
              rw [List.nil_append] at hplaced'
              exact erase_leaves hflush rfl hplaced' hother'
        | false =>
          have hfail := hnone' hlasts
          rw [happend] at hfail
          have hlost : (writeBlock c (padded s) s).1 = false := by
            cases hw : writeBlock c (padded s) s with
            | mk ok s₂ =>
              rw [hw] at hfail
              cases ok with
              | false => rfl
              | true => cases hfail
          rw [restored, if_neg (by rw [hlasts]; simp)]
          exact unflushed_leaves hnil hlost halign
            ⟨hplaced.increasing, hplaced.before, hplaced.holds⟩ hother

/-! ## What a restore that returns 0 has written -/

/-- A block that is not there often enough cannot be stored a further time. -/
theorem count_stored {final : Flash p} {g f : Block p} {gs gs' : List Nat} (hgf : g ≠ f) (hnodup : gs'.Nodup)
    (hother : ∀ x ∈ gs', x ∉ gs → final x = g) : (gs'.map final).count f ≤ (gs.map final).count f := by
  rw [List.count, List.countP_map, List.countP_map, List.countP_eq_length_filter, List.countP_eq_length_filter]
  refine (List.Nodup.subperm (hnodup.filter _) fun x hx => ?_).length_le
  obtain ⟨hmem, hf⟩ := List.mem_filter.mp hx
  have heq : final x = f := eq_of_beq hf
  refine List.mem_filter.mpr ⟨?_, hf⟩
  by_contra hno
  exact hgf ((hother x hmem hno).symm.trans heq)

/-- A block different from another one. -/
theorem exists_ne_block (f : Block p) : ∃ g : Block p, g ≠ f := by
  by_cases h : Block.fill p 0 = f
  · refine ⟨Block.fill p 1, fun h' => ?_⟩
    have hbytes := congrArg Subtype.val (h'.trans h.symm)
    have hpos := p.erase_size_pos
    obtain ⟨n, hn⟩ : ∃ n, p.erase_size = n + 1 := ⟨p.erase_size - 1, by omega⟩
    simp [Block.fill, hn, List.replicate_succ] at hbytes
  · exact ⟨_, h⟩

/-- At most one block does not hold what other blocks hold. -/
theorem exists_count_lt {R F : List (Block p)} (hR : R.length ≤ 1) (hF : F ≠ []) (hne : R ≠ F) :
    ∃ f, R.count f < F.count f := by
  match R, F with
  | _, [] => exact absurd rfl hF
  | [], f :: F => exact ⟨f, by simp⟩
  | [t], f :: F =>
    by_cases htf : t = f
    · subst htf
      match F with
      | [] => exact absurd rfl hne
      | f :: F =>
        refine ⟨f, ?_⟩
        rw [List.count_cons, List.count_nil, List.count_cons, List.count_cons_self]
        omega
    · exact ⟨f, by rw [List.count_cons_of_ne htf, List.count_nil, List.count_cons_self]; omega⟩
  | _ :: _ :: _, _ => simp at hR

/-- The cells behind the last whole block. -/
theorem rest_length (data : Bytes) :
    (data.drop ((wholes p.erase_size_pos data).length * p.erase_size)).length < p.erase_size := by
  rw [List.length_drop, wholes_length, Nat.mul_comm, ← Nat.mod_eq_sub]
  exact Nat.mod_lt _ p.erase_size_pos

/-- A block of the file that is missing behind the restore. -/
theorem exists_missing (c : Chip p) {data file : Bytes} (hdata : data <+: file)
    (hwholes : takes c (wholes p.erase_size_pos data) 0 = true)
    (h : ¬ (takes c (toBlocks p data) 0 = true ∧ toBlocks p data = toBlocks p file)) :
    ∃ f, (restored c data).count f < (toBlocks p file).count f := by
  obtain ⟨behind, rfl⟩ := hdata
  have hrest := rest_length (p := p) data
  have hsplit := toBlocks_eq (p := p) data
  have hfile : toBlocks p (data ++ behind) = wholes p.erase_size_pos data ++
      toBlocks p (data.drop ((wholes p.erase_size_pos data).length * p.erase_size) ++ behind) := by
    conv_lhs => rw [← wholes_append_rest p.erase_size_pos data, List.append_assoc]
    exact toBlocks_append _ _
  generalize hC : wholes p.erase_size_pos data = C at *
  generalize data.drop (C.length * p.erase_size) = rest at *
  -- the blocks behind the whole ones: those on the flash, and those of the file
  obtain ⟨R, hR, hlen, hne⟩ : ∃ R, restored c data = C ++ R ∧ R.length ≤ 1 ∧
      (toBlocks p (rest ++ behind) ≠ [] → R ≠ toBlocks p (rest ++ behind)) := by
    by_cases hnil : rest = []
    · have hnone : toBlocks p rest = [] := by rw [hnil, toBlocks, dif_pos rfl]
      rw [hnone, List.append_nil] at hsplit
      refine ⟨[], ?_, by simp, fun hF => hF.symm⟩
      rw [restored, hsplit, hC, List.append_nil, ite_self]
    · have hlast := toBlocks_last hnil (Nat.le_of_lt hrest)
      by_cases htakes : takes c (toBlocks p data) 0 = true
      · refine ⟨[firstBlock p rest], ?_, by simp, fun _ heq => h ⟨htakes, ?_⟩⟩
        · rw [restored, if_pos htakes, hsplit, hlast]
        · rw [hsplit, hlast, hfile, heq]
      · refine ⟨[], ?_, by simp, fun hF => hF.symm⟩
        rw [restored, if_neg htakes, hC, List.append_nil]
  have hF : toBlocks p (rest ++ behind) ≠ [] := by
    intro hnil
    obtain ⟨hrestnil, -⟩ : rest = [] ∧ behind = [] := by
      by_contra hno
      rw [toBlocks, dif_neg (by simpa using hno)] at hnil
      cases hnil
    have hnone : toBlocks p rest = [] := by rw [hrestnil, toBlocks, dif_pos rfl]
    refine h ⟨?_, ?_⟩
    · rw [hsplit, hnone, List.append_nil, hwholes]
    · rw [hsplit, hfile, hnone, hnil]
  obtain ⟨f, hf⟩ := exists_count_lt hlen hF (hne hF)
  refine ⟨f, ?_⟩
  rw [hR, hfile, List.count_append, List.count_append]
  omega

/-- The driver with other contents of the blocks that are given up and erased. -/
def leaving (c : Chip p) (giveUp erase : Nat → Block p) : Chip p := { c with giveUp, erase }

@[simp] theorem leaving_getBadBlock (c : Chip p) (giveUp erase : Nat → Block p) :
    (leaving c giveUp erase).getBadBlock = c.getBadBlock := rfl

@[simp] theorem leaving_accepts (c : Chip p) (giveUp erase : Nat → Block p) :
    (leaving c giveUp erase).accepts = c.accepts := rfl

theorem usableBlocks_leaving (c : Chip p) (giveUp erase : Nat → Block p) (pos : Nat) :
    usableBlocks (leaving c giveUp erase) pos = usableBlocks c pos := by
  fun_induction usableBlocks c pos with
  | case1 pos hf hm ih => rw [usableBlocks, if_pos hf, leaving_getBadBlock, if_pos hm, ih]
  | case2 pos hf hm ih => rw [usableBlocks, if_pos hf, leaving_getBadBlock, if_neg hm, ih]
  | case3 pos hf => rw [usableBlocks, if_neg hf]

theorem takes_leaving (c : Chip p) (giveUp erase : Nat → Block p) (bs : List (Block p)) (pos : Nat) :
    takes (leaving c giveUp erase) bs pos = takes c bs pos := by
  induction bs generalizing pos with
  | nil => rfl
  | cons b bs ih =>
    rw [takes, takes, usableBlocks_leaving]
    simp only [leaving_accepts, ih]

theorem restored_leaving (c : Chip p) (giveUp erase : Nat → Block p) (data : Bytes) :
    restored (leaving c giveUp erase) data = restored c data := by
  rw [restored, restored, takes_leaving]

/-- For which images and drivers a restore that returns 0 has written the image, whatever was on the flash and
whatever an erase leaves. -/
theorem restores_iff (c : Chip p) (opened : Bool) (reads : Nat → Nat) (file : Bytes) :
    (∀ (giveUp erase : Nat → Block p) (fl : Flash p),
      (cmdMtdRestoreRawPartition (leaving c giveUp erase) opened reads file fl).1 = 0 →
      Stored (cmdMtdRestoreRawPartition (leaving c giveUp erase) opened reads file fl).2 (toBlocks p file)) ↔
    opened = false ∨ takes c (wholes p.erase_size_pos (freadAll BUFSIZ reads 0 file).flatten) 0 = false ∨
      takes c (toBlocks p (freadAll BUFSIZ reads 0 file).flatten) 0 = true ∧
        toBlocks p (freadAll BUFSIZ reads 0 file).flatten = toBlocks p file := by
  cases opened with
  | false =>
    refine ⟨fun _ => .inl rfl, fun _ giveUp erase fl hzero => ?_⟩
    rw [cmdMtdRestoreRawPartition, if_pos rfl] at hzero
    cases hzero
  | true =>
    have hresult := fun giveUp erase => restore_result (leaving c giveUp erase) reads file
    simp only [takes_leaving, restored_leaving] at hresult
    constructor
    · intro h
      by_cases hwholes : takes c (wholes p.erase_size_pos (freadAll BUFSIZ reads 0 file).flatten) 0 = true
      · refine .inr (.inr ?_)
        by_contra hno
        obtain ⟨f, hf⟩ := exists_missing c (freadAll_start BUFSIZ reads 0 file) hwholes hno
        obtain ⟨g, hg⟩ := exists_ne_block f
        obtain ⟨hzero, gs, -, -, hgs, hother⟩ := (hresult (fun _ => g) (fun _ => g) (fun _ => g)).2 hwholes
        obtain ⟨gs', hpair, halign, hgs'⟩ := h _ _ _ hzero
        have hcount := count_stored hg (hpair.imp Nat.ne_of_lt) fun x hx hno => by
          rcases hother x (halign x hx) hno with heq | heq | heq <;> exact heq
        rw [hgs', hgs] at hcount
        omega
      · exact .inr (.inl (eq_false_of_ne_true hwholes))
    · rintro (h | h | ⟨htakes, heq⟩) giveUp erase fl hzero
      · cases h
      · rw [(hresult giveUp erase fl).1 h] at hzero
        cases hzero
      · by_cases hwholes : takes c (wholes p.erase_size_pos (freadAll BUFSIZ reads 0 file).flatten) 0 = true
        · obtain ⟨-, gs, hpair, halign, hgs, -⟩ := (hresult giveUp erase fl).2 hwholes
          refine ⟨gs, hpair, halign, ?_⟩
          rw [hgs, restored, if_pos htakes, heq]
        · rw [(hresult giveUp erase fl).1 (eq_false_of_ne_true hwholes)] at hzero
          cases hzero

end Raw

end Miui
