import MiuiRecovery.Mtd.Read
import MiuiRecovery.Mtd.Write

/-!
# Write, close, read back

The writer passes over a block that is marked bad and over a block that fails twice; the reader
passes over a block that is marked bad and over one that the driver cannot answer for. So the
two agree on where the data stands exactly as long as the writer meets only marked blocks
(`Chip.TakesData`).

* `writeBlock_usable`: what one `write_block` does when the first usable block takes the data.
* `Written`: the blocks written so far stand in the first usable blocks, in order.
* `mtdWriteRead_eq`: data written and closed under `Chip.TakesData` reads back.
* `mtdWriteRead_givenUp`: one block that fails twice and carries no bad mark, and the data reads
  back wrong although every call succeeded.
-/

namespace Miui

variable {p : MtdPartition}

/-! ## The blocks of the writer -/

/-- The offsets from `pos` on of the blocks that `write_block` tries. -/
def usableBlocks (c : Chip p) (pos : Nat) : List Nat :=
  if p.fits pos then
    if c.getBadBlock pos ≠ .good ∧ c.getBadBlock pos ≠ .unsupported then
      usableBlocks c (pos + p.erase_size)
    else pos :: usableBlocks c (pos + p.erase_size)
  else []
termination_by p.left pos
decreasing_by all_goals exact MtdPartition.left_lt (by assumption)

/-- One of the two tries verifies. -/
def Chip.accepts (c : Chip p) (pos : Nat) (data : Block p) : Bool :=
  (c.attempt pos 0).verified data || (c.attempt pos 1).verified data

theorem usableBlocks_ge {c : Chip p} {pos g : Nat} (h : g ∈ usableBlocks c pos) : pos ≤ g := by
  fun_induction usableBlocks c pos with
  | case1 pos _ _ ih => have := ih h; omega
  | case2 pos _ _ ih =>
    rcases List.mem_cons.mp h with rfl | h
    · exact Nat.le_refl _
    · have := ih h; omega
  | case3 => cases h

theorem usableBlocks_cons {c : Chip p} {pos g : Nat} {gs : List Nat}
    (h : usableBlocks c pos = g :: gs) : usableBlocks c (g + p.erase_size) = gs := by
  fun_induction usableBlocks c pos with
  | case1 pos _ _ ih => exact ih h
  | case2 pos _ _ ih => cases h; rfl
  | case3 => cases h

theorem goodBlocks_congr {c c' : Chip p} (hm : ∀ pos, c'.getBadBlock pos = c.getBadBlock pos)
    (pos : Nat) : goodBlocks c' pos = goodBlocks c pos := by
  fun_induction goodBlocks c pos with
  | case1 pos hf hg ih =>
    rw [goodBlocks, if_pos hf, if_pos (by rw [hm, hg]), ih]
  | case2 pos hf hg ih =>
    rw [goodBlocks, if_pos hf, if_neg (by rwa [hm]), ih]
  | case3 pos hf => rw [goodBlocks, if_neg hf]

/-- The reader's blocks are the writer's without those the driver cannot answer for. -/
theorem goodBlocks_eq_filter (c : Chip p) (pos : Nat) :
    goodBlocks c pos = (usableBlocks c pos).filter fun g => c.getBadBlock g = .good := by
  fun_induction usableBlocks c pos with
  | case1 pos hf hm ih =>
    unfold goodBlocks
    rw [if_pos hf, if_neg hm.1, ih]
  | case2 pos hf hm ih =>
    unfold goodBlocks
    rw [if_pos hf, ih]
    by_cases hg : c.getBadBlock pos = .good
    · rw [if_pos hg, List.filter_cons_of_pos (by simpa using hg)]
    · rw [if_neg hg, List.filter_cons_of_neg (by simpa using hg)]
  | case3 pos hf =>
    unfold goodBlocks
    rw [if_neg hf]
    rfl

/-! ## One block -/

theorem Attempt.verified_iff {a : Attempt p} {data : Block p} :
    a.verified data = true ↔ a.erase_ok = true ∧ a.reread = p.erase_size ∧ a.store data = data := by
  unfold verified
  simp only [Bool.and_eq_true, beq_iff_eq, and_assoc]

theorem writeRetries_accepts {c : Chip p} {pos : Nat} {data : Block p} (s : WriteState p)
    (h : c.accepts pos data = true) :
    ∃ s', writeRetries c pos data [0, 1] s = (true, s') ∧ s'.ctx.fpos = pos + p.erase_size ∧
      s'.flash pos = data ∧ ∀ x, x ≠ pos → s'.flash x = s.flash x := by
  -- The state after a round that verifies, whatever came before it.
  have hround : ∀ (retry : Nat) (rest : List Nat) (s : WriteState p),
      (c.attempt pos retry).verified data = true →
      ∃ s', writeRetries c pos data (retry :: rest) s = (true, s') ∧
        s'.ctx.fpos = pos + p.erase_size ∧ s'.flash pos = data ∧
        ∀ x, x ≠ pos → s'.flash x = s.flash x := by
    intro retry rest s hv
    obtain ⟨h1, h2, h3⟩ := Attempt.verified_iff.mp hv
    unfold writeRetries
    simp only [hv, h1, h2, ↓reduceIte]
    refine ⟨_, rfl, rfl, ?_, fun x hx => Flash.set_ne _ _ hx⟩
    simp only [WriteState.setFpos, WriteState.setBlock, Flash.set_self, Attempt.result, h1,
      ↓reduceIte, h3]
  by_cases h0 : (c.attempt pos 0).verified data = true
  · exact hround 0 [1] s h0
  · have h1 : (c.attempt pos 1).verified data = true := by
      unfold Chip.accepts at h
      rcases Bool.or_eq_true_iff.mp h with h | h
      · exact absurd h h0
      · exact h
    unfold writeRetries
    simp only [h0, Bool.false_eq_true, ↓reduceIte]
    obtain ⟨s', hs, hf, hp, hx⟩ := hround 1 [] _ h1
    refine ⟨s', hs, hf, hp, fun x hne => ?_⟩
    rw [hx x hne]
    exact Flash.set_ne _ _ hne

/-- The first usable block takes the data: it holds them, the offset is behind it, and no other
block changed. -/
theorem writeBlock_usable {c : Chip p} {data : Block p} {s : WriteState p} {g : Nat}
    {gs : List Nat} (hg : usableBlocks c s.ctx.fpos = g :: gs) (ha : c.accepts g data = true) :
    ∃ s', writeBlock c data s = (true, s') ∧ s'.ctx.fpos = g + p.erase_size ∧
      s'.flash g = data ∧ ∀ x, x ≠ g → s'.flash x = s.flash x := by
  unfold writeBlock
  generalize s.ctx.fpos = pos at hg
  fun_induction writeBlockFrom c data pos s with
  | case1 pos s hf mark hm ih =>
    unfold usableBlocks at hg
    rw [if_pos hf, if_pos hm] at hg
    exact ih hg
  | case2 pos s hf mark hm s' h =>
    unfold usableBlocks at hg
    rw [if_pos hf, if_neg hm] at hg
    cases hg
    obtain ⟨s'', h', hrest⟩ := writeRetries_accepts s ha
    rw [h'] at h; cases h
    exact ⟨_, rfl, hrest⟩
  | case3 pos s hf mark hm s' h ih =>
    unfold usableBlocks at hg
    rw [if_pos hf, if_neg hm] at hg
    cases hg
    obtain ⟨s'', h', -⟩ := writeRetries_accepts s ha
    rw [h'] at h; cases h
  | case4 pos s hf =>
    unfold usableBlocks at hg
    rw [if_neg hf] at hg
    cases hg

theorem writeBlock_none {c : Chip p} {data : Block p} {s : WriteState p}
    (hg : usableBlocks c s.ctx.fpos = []) : (writeBlock c data s).1 = false := by
  unfold writeBlock
  generalize s.ctx.fpos = pos at hg
  fun_induction writeBlockFrom c data pos s with
  | case1 pos s hf mark hm ih =>
    unfold usableBlocks at hg
    rw [if_pos hf, if_pos hm] at hg
    exact ih hg
  | case2 pos s hf mark hm s' h =>
    unfold usableBlocks at hg
    rw [if_pos hf, if_neg hm] at hg
    cases hg
  | case3 pos s hf mark hm s' h ih =>
    unfold usableBlocks at hg
    rw [if_pos hf, if_neg hm] at hg
    cases hg
  | case4 pos s hf => rfl

/-! ## The data as blocks -/

/-- The bytes of a list of blocks. -/
def bytesOf (bs : List (Block p)) : Bytes := bs.flatMap (·.val)

/-- The first block of `data`, zero-padded if `data` ends in it. -/
def firstBlock (p : MtdPartition) (data : Bytes) : Block p :=
  ⟨data.take p.erase_size ++ List.replicate (p.erase_size - data.length) 0, by simp; omega⟩

/-- `data` as blocks, the last one zero-padded. -/
def toBlocks (p : MtdPartition) (data : Bytes) : List (Block p) :=
  if _h : data = [] then []
  else firstBlock p data :: toBlocks p (data.drop p.erase_size)
termination_by data.length
decreasing_by
  have := p.erase_size_pos
  have := List.length_pos_iff.mpr _h
  simp only [List.length_drop]; omega

theorem toBlocks_cons (b : Block p) (data : Bytes) :
    toBlocks p (b.val ++ data) = b :: toBlocks p data := by
  have he := p.erase_size_pos
  have hb := b.2
  have hne : b.val ++ data ≠ [] := by
    intro h
    have := congrArg List.length h
    simp [hb] at this
    omega
  rw [toBlocks, dif_neg hne]
  congr 1
  · apply Subtype.ext
    simp [firstBlock, hb]
  · rw [List.drop_append_of_le_length (by omega), List.drop_of_length_le (by omega), List.nil_append]

theorem toBlocks_append (done : List (Block p)) (data : Bytes) :
    toBlocks p (bytesOf done ++ data) = done ++ toBlocks p data := by
  induction done with
  | nil => rfl
  | cons b done ih =>
    unfold bytesOf at ih ⊢
    rw [List.flatMap_cons, List.append_assoc, toBlocks_cons, ih, List.cons_append]

/-- A whole block of data after the blocks `done`. -/
theorem toBlocks_whole {data rest : Bytes} {done : List (Block p)} {b : Block p}
    (h : data = bytesOf done ++ (b.val ++ rest)) :
    toBlocks p data = done ++ b :: toBlocks p rest := by
  rw [h, toBlocks_append, toBlocks_cons]

/-- A rest that fits into one block. -/
theorem toBlocks_last {data : Bytes} (hne : data ≠ []) (hle : data.length ≤ p.erase_size) :
    toBlocks p data = [firstBlock p data] := by
  unfold toBlocks
  rw [dif_neg hne, List.drop_of_length_le hle]
  unfold toBlocks
  rw [dif_pos rfl]

/-- The blocks of the data hold the data, and zeros behind it. -/
theorem bytesOf_toBlocks (data : Bytes) : data <+: bytesOf (toBlocks p data) := by
  fun_induction toBlocks p data with
  | case1 => exact List.nil_prefix
  | case2 data h ih =>
    unfold bytesOf at ih ⊢
    rw [List.flatMap_cons]
    by_cases hle : data.length ≤ p.erase_size
    · simp only [firstBlock, List.take_of_length_le hle, List.append_assoc]
      exact List.prefix_append _ _
    · obtain ⟨t, ht⟩ := ih
      refine ⟨t, ?_⟩
      rw [← ht, ← List.append_assoc]
      congr 1
      simp [firstBlock, Nat.sub_eq_zero_of_le (Nat.le_of_not_le hle)]

/-- The writer meets only blocks the reader can tell apart: the block that each block of the data
comes to is not marked bad, the driver says so, and it takes the data in two tries. -/
def Chip.TakesData (c : Chip p) (data : Bytes) : Prop :=
  ∀ gb ∈ (usableBlocks c 0).zip (toBlocks p data),
    c.getBadBlock gb.1 = .good ∧ c.accepts gb.1 gb.2 = true

instance (c : Chip p) (data : Bytes) : Decidable (c.TakesData data) :=
  inferInstanceAs (Decidable (∀ gb ∈ _, _))

/-! ## A run of the writer -/

/-- The blocks `done` stand in the first usable blocks, in order, and the file offset is behind the
last of them. -/
def Written (c : Chip p) (done : List (Block p)) (s : WriteState p) : Prop :=
  ∃ gs, usableBlocks c 0 = gs ++ usableBlocks c s.ctx.fpos ∧ (∀ g ∈ gs, g < s.ctx.fpos) ∧
    gs.map s.flash = done

/-- What the writer has been given so far, `given`, is on the flash or in the buffer. -/
def Progress (c : Chip p) (given : Bytes) (s : WriteState p) : Prop :=
  ∃ done, Written c done s ∧ given = bytesOf done ++ s.ctx.buffer

/-- Only the context's buffer changed. -/
theorem Written.of_eq {c : Chip p} {done : List (Block p)} {s s' : WriteState p}
    (h : Written c done s) (hf : s'.flash = s.flash) (hp : s'.ctx.fpos = s.ctx.fpos) :
    Written c done s' := by
  unfold Written
  rw [hf, hp]
  exact h

/-- One more block of the data. -/
theorem Written.step {c : Chip p} {data : Bytes} {done bs : List (Block p)} {b : Block p}
    {s s' : WriteState p} (hc : c.TakesData data) (h : Written c done s)
    (hd : toBlocks p data = done ++ b :: bs) (hw : writeBlock c b s = (true, s')) :
    Written c (done ++ [b]) s' ∧ s'.ctx.buffer = s.ctx.buffer := by
  have hbuf : s'.ctx.buffer = s.ctx.buffer := by rw [← writeBlock_buffer c b s, hw]
  refine ⟨?_, hbuf⟩
  obtain ⟨gs, hu, hlt, hdone⟩ := h
  cases hg : usableBlocks c s.ctx.fpos with
  | nil =>
    have hnone : (writeBlock c b s).1 = false := writeBlock_none hg
    rw [hw] at hnone; cases hnone
  | cons g rest' =>
    -- Block number `done.length` of the data comes to usable block number `gs.length`.
    have hmem : (g, b) ∈ (usableBlocks c 0).zip (toBlocks p data) := by
      rw [hd, hu, hg, List.zip_append (by rw [← hdone, List.length_map])]
      exact List.mem_append_right _ List.mem_cons_self
    obtain ⟨s'', hw', hp, hb, hx⟩ := writeBlock_usable hg (hc _ hmem).2
    rw [hw] at hw'; cases hw'
    have hge : s.ctx.fpos ≤ g := usableBlocks_ge (by rw [hg]; exact List.mem_cons_self)
    have he := p.erase_size_pos
    refine ⟨gs ++ [g], ?_, ?_, ?_⟩
    · rw [hp, usableBlocks_cons hg, hu, hg, List.append_assoc]; rfl
    · intro x hxm
      rw [hp]
      rcases List.mem_append.mp hxm with hxm | hxm
      · have := hlt x hxm; omega
      · rw [List.mem_singleton.mp hxm]; omega
    · rw [List.map_append, ← hdone]
      congr 1
      · refine List.map_congr_left fun x hxm => hx x ?_
        have := hlt x hxm; omega
      · simp [hb]

section Run

variable {c : Chip p} {data : Bytes} (hc : c.TakesData data)

include hc

theorem Progress.direct {given rest rest' later : Bytes} {s s' : WriteState p}
    (h : Progress c given s) (hd : data = given ++ rest ++ later)
    (hw : writeDirect c rest s = (some rest', s')) :
    ∃ used, rest = used ++ rest' ∧ Progress c (given ++ used) s' := by
  fun_induction writeDirect c rest s generalizing given with
  | case1 => cases hw
  | case2 rest s hcond s₁ hb ih =>
    obtain ⟨done, hdone, rfl⟩ := h
    rw [hcond.1, List.append_nil] at hd
    have hblock := toBlocks_whole (b := ⟨rest.take p.erase_size, by simp; omega⟩)
      (show data = bytesOf done ++ (_ ++ (rest.drop p.erase_size ++ later)) by rw [← List.append_assoc (List.take _ _), List.take_append_drop, hd, List.append_assoc])
    obtain ⟨hdone', hbuf⟩ := hdone.step hc hblock hb
    rw [hcond.1] at hbuf
    have hgiven : bytesOf done ++ rest.take p.erase_size =
        bytesOf (done ++ [⟨rest.take p.erase_size, by simp; omega⟩]) := by simp [bytesOf]
    obtain ⟨used, hu, hp⟩ := ih
      ⟨_, hdone', show bytesOf done ++ rest.take p.erase_size = _ by rw [hbuf, List.append_nil, hgiven]⟩
      (by rw [hd, List.append_assoc (bytesOf done) (rest.take _), List.take_append_drop]) hw
    refine ⟨rest.take p.erase_size ++ used, ?_, ?_⟩
    · rw [List.append_assoc, ← hu, List.take_append_drop]
    · rw [hcond.1, List.append_nil, ← List.append_assoc]; exact hp
  | case3 rest s hcond =>
    cases hw
    exact ⟨[], rfl, by rwa [List.append_nil]⟩

theorem Progress.full {given later : Bytes} {s s' : WriteState p} (h : Progress c given s)
    (hd : data = given ++ later) (hw : writeFull c s = (true, s')) : Progress c given s' := by
  unfold writeFull at hw
  split at hw
  · rename_i hfull
    split at hw
    · cases hw
    · rename_i s₁ hb
      cases hw
      obtain ⟨done, hdone, rfl⟩ := h
      obtain ⟨hdone', -⟩ := hdone.step hc
        (toBlocks_whole (b := ⟨s.ctx.buffer, hfull⟩) (by rw [hd, List.append_assoc])) hb
      exact ⟨_, hdone'.of_eq rfl rfl, by simp [bytesOf, WriteState.setBuffer]⟩
  · cases hw; exact h

omit hc in
theorem Progress.copied {given : Bytes} {s : WriteState p} (h : Progress c given s) (rest : Bytes) :
    ∃ used, rest = used ++ (coalesce rest s).1 ∧ Progress c (given ++ used) (coalesce rest s).2 := by
  obtain ⟨done, hdone, rfl⟩ := h
  unfold coalesce
  split
  · refine ⟨rest.take (p.erase_size - s.ctx.buffer.length), (List.take_append_drop _ _).symm, done,
      hdone.of_eq rfl rfl, by simp [WriteState.setBuffer]⟩
  · exact ⟨[], rfl, done, hdone, by simp⟩

theorem Progress.round {given rest rest' later : Bytes} {s s' : WriteState p}
    (h : Progress c given s) (hd : data = given ++ rest ++ later)
    (hw : writeRound c rest s = (some rest', s')) :
    ∃ used, rest = used ++ rest' ∧ Progress c (given ++ used) s' := by
  unfold writeRound at hw
  simp only at hw
  obtain ⟨used, hu, hp⟩ := h.copied rest
  split at hw
  · cases hw
  · rename_i s₁ hf
    have hd₁ : data = given ++ used ++ (coalesce rest s).1 ++ later := by
      rw [List.append_assoc given, ← hu, hd]
    obtain ⟨used', hu', hp'⟩ := (hp.full hc (by rw [hd₁, List.append_assoc]) hf).direct hc
      hd₁ hw
    exact ⟨used ++ used', by rw [List.append_assoc, ← hu', ← hu], by rwa [← List.append_assoc]⟩

theorem Progress.write {given rest later : Bytes} {s s' : WriteState p}
    (h : Progress c given s) (hd : data = given ++ rest ++ later)
    (hw : mtdWriteData c rest s = (true, s')) : Progress c (given ++ rest) s' := by
  fun_induction mtdWriteData c rest s generalizing given with
  | case1 s => cases hw; rwa [List.append_nil]
  | case2 => cases hw
  | case3 rest s hne rest' s₁ hr ih =>
    obtain ⟨used, hu, hp⟩ := h.round hc hd hr
    have := ih hp (by rw [List.append_assoc given, ← hu, hd]) hw
    rwa [List.append_assoc, ← hu] at this

theorem Progress.all {given later : Bytes} {chunks : List Bytes} {s s' : WriteState p}
    (h : Progress c given s) (hd : data = given ++ chunks.flatten ++ later)
    (hw : mtdWriteAll c chunks s = (true, s')) : Progress c (given ++ chunks.flatten) s' := by
  induction chunks generalizing given s with
  | nil => cases hw; simpa using h
  | cons chunk chunks ih =>
    unfold mtdWriteAll at hw
    rw [List.flatten_cons] at hd ⊢
    split at hw
    · cases hw
    · rename_i s₁ h₁
      have hp := h.write hc (show data = given ++ chunk ++ (chunks.flatten ++ later) by rw [hd]; simp) h₁
      have := ih hp (by rw [hd]; simp) hw
      rwa [List.append_assoc] at this

/-- After a successful close every block of the data is on the flash. -/
theorem Progress.close {s s' : WriteState p} (h : Progress c data s)
    (hw : mtdWriteClose c s = (true, s')) : Written c (toBlocks p data) s' := by
  obtain ⟨done, hdone, hdata⟩ := h
  have hflush : ∃ s₁, flushPending c s = (true, s₁) ∧ s'.flash = s₁.flash ∧
      s'.ctx.fpos = s₁.ctx.fpos := by
    unfold mtdWriteClose mtdEraseBlocks at hw
    cases hf : flushPending c s with
    | mk ok s₁ =>
      rw [hf] at hw
      cases ok with
      | false => simp at hw
      | true =>
        -- `mtd_erase_blocks(ctx, 0)` erases nothing.
        refine ⟨s₁, rfl, ?_⟩
        simp only [Int.lt_irrefl, ↓reduceIte, Int.toNat_zero, eraseBlocksFrom] at hw
        split at hw <;> simp only [Prod.mk.injEq] at hw <;> rw [← hw.2] <;> exact ⟨rfl, rfl⟩
  obtain ⟨s₁, hf, hflash, hfpos⟩ := hflush
  refine Written.of_eq ?_ hflash hfpos
  unfold flushPending at hf
  split at hf
  · rename_i hb
    cases hf
    rw [hb] at hdata
    rw [hdata, toBlocks_append]
    unfold toBlocks
    rwa [dif_pos rfl, List.append_nil]
  · rename_i hb
    split at hf
    · cases hf
    · rename_i s₂ hw₂
      cases hf
      have hpad : firstBlock p s.ctx.buffer = padded s :=
        Subtype.ext (by simp [firstBlock, padded, List.take_of_length_le s.ctx.stored_le])
      have hblocks : toBlocks p data = done ++ [padded s] := by
        rw [hdata, toBlocks_append, toBlocks_last hb s.ctx.stored_le, hpad]
      obtain ⟨hdone', -⟩ := hdone.step hc hblocks hw₂
      rw [hblocks]
      exact hdone'.of_eq rfl rfl

end Run

/-! ## The round trip -/

/-- The blocks of the writer that hold the data come first for the reader. -/
theorem stream_prefix {c c' : Chip p} {data : Bytes} {s : WriteState p} (hc : c.TakesData data)
    (hm : ∀ pos, c'.getBadBlock pos = c.getBadBlock pos) (h : Written c (toBlocks p data) s) :
    data <+: stream c' s.flash 0 := by
  obtain ⟨gs, hu, -, hdone⟩ := h
  have hgood : ∀ g ∈ gs, c.getBadBlock g = .good := by
    intro g hg
    obtain ⟨i, hi, rfl⟩ := List.mem_iff_getElem.mp hg
    have hi' : i < (toBlocks p data).length := by rw [← hdone]; simpa using hi
    refine (hc (gs[i], (toBlocks p data)[i]) ?_).1
    rw [hu]
    have hz : (gs ++ usableBlocks c s.ctx.fpos).zip (toBlocks p data) = gs.zip (toBlocks p data) := by
      rw [← List.append_nil (toBlocks p data),
        List.zip_append (by rw [← hdone, List.length_map]), List.append_nil, List.zip_nil_right,
        List.append_nil]
    rw [hz]
    exact List.mem_iff_getElem.mpr ⟨i, by rw [List.length_zip]; omega, by simp⟩
  unfold stream
  rw [goodBlocks_congr hm, goodBlocks_eq_filter, hu, List.filter_append,
    List.filter_eq_self.mpr (by simpa using hgood), List.flatMap_append]
  refine (bytesOf_toBlocks (p := p) data).trans ?_
  rw [← hdone, bytesOf, List.flatMap_map]
  exact List.prefix_append _ _

/-- A partition that can be read is smaller than `2 ^ 31`. -/
theorem stream_length_le (c : Chip p) (fl : Flash p) : (stream c fl 0).length < 2 ^ 31 := by
  have hleft : ∀ pos, (stream c fl pos).length ≤ p.left pos := by
    intro pos
    unfold stream
    fun_induction goodBlocks c pos with
    | case1 pos hf hg ih =>
      rw [List.flatMap_cons, List.length_append, (fl pos).2]
      unfold MtdPartition.fits at hf
      unfold MtdPartition.left at ih ⊢
      omega
    | case2 pos hf hg ih => exact Nat.le_trans ih (Nat.le_of_lt (MtdPartition.left_lt hf))
    | case3 => exact Nat.zero_le _
  have h0 := hleft 0
  have := asInt_lt p.size
  unfold MtdPartition.left at h0
  omega

/-- Data that the writer accepts in any number of calls, with a successful close, comes first for a
reader, if the writer met only marked blocks on its way. -/
theorem mtdWriteAll_stream {c c' : Chip p} {fl : Flash p} {chunks : List Bytes} {s s' : WriteState p}
    (hw : mtdWriteAll c chunks ⟨mtdWritePartition p, fl⟩ = (true, s))
    (hcl : mtdWriteClose c s = (true, s')) (hm : ∀ pos, c'.getBadBlock pos = c.getBadBlock pos)
    (hc : c.TakesData chunks.flatten) : chunks.flatten <+: stream c' s'.flash 0 := by
  have hp : Progress c [] ⟨mtdWritePartition p, fl⟩ :=
    ⟨[], ⟨[], rfl, fun g hg => absurd hg List.not_mem_nil, rfl⟩, rfl⟩
  have hdata : chunks.flatten = [] ++ chunks.flatten ++ [] := by simp
  exact stream_prefix hc hm ((hp.all hc hdata hw).close hc hcl)

/-- The same through a fresh context that meets no read fault. -/
theorem mtdWriteRead_eq (c c' : Chip p) (fl : Flash p) (chunks : List Bytes) (s s' : WriteState p)
    (hw : mtdWriteAll c chunks ⟨mtdWritePartition p, fl⟩ = (true, s))
    (hcl : mtdWriteClose c s = (true, s')) (hr : c'.NoReadFaults)
    (hm : ∀ pos, c'.getBadBlock pos = c.getBadBlock pos) (hc : c.TakesData chunks.flatten) :
    ∃ ctx, mtdReadData c' s'.flash chunks.flatten.length (mtdReadPartition p) =
      some (chunks.flatten, ctx) := by
  have hpre := mtdWriteAll_stream hw hcl hm hc
  have hint : chunks.flatten.length < 2 ^ 31 := by
    have h := stream_length_le c' s'.flash
    have := hpre.length_le
    omega
  obtain ⟨ctx, hctx⟩ := mtdReadData_fresh hr hint hpre.length_le
  exact ⟨ctx, by rw [hctx, ← List.prefix_iff_eq_take.mp hpre]⟩

/-! ## A small device -/

/-- Four blocks of two bytes. -/
def smallPartition : MtdPartition := { size := 8, erase_size := 2, erase_size_pos := by decide }

/-- A driver that does what it is asked: every erase, write and read works. -/
def Chip.quiet (p : MtdPartition) : Chip p where
  getBadBlock := fun _ => .good
  attempt := fun _ _ => { erase_ok := true, erased := default, store := id, reread := p.erase_size }
  giveUp := fun _ => default
  erase := fun _ => default
  close_ok := true
  stats_ok := fun _ => true
  read := fun _ => .ok

theorem Chip.quiet_noReadFaults (p : MtdPartition) : (Chip.quiet p).NoReadFaults :=
  ⟨fun _ => rfl, fun _ => rfl⟩

/-- The quiet driver, but the first block stores zeros whatever is written to it. -/
def Chip.stuck (p : MtdPartition) : Chip p :=
  { Chip.quiet p with
    attempt := fun pos _ =>
      { erase_ok := true, erased := default, reread := p.erase_size
        store := if pos = 0 then fun _ => Block.fill p 0 else id } }

/-- Three bytes in two calls. -/
theorem mtdWriteRead_eq_small :
    ∃ ctx, mtdReadData (Chip.quiet smallPartition)
      (mtdWriteClose (Chip.quiet smallPartition) (mtdWriteAll (Chip.quiet smallPartition)
        [[1], [2, 3]] ⟨mtdWritePartition smallPartition, default⟩).2).2.flash
      3 (mtdReadPartition smallPartition) = some ([1, 2, 3], ctx) :=
  mtdWriteRead_eq (Chip.quiet smallPartition) (Chip.quiet smallPartition) default [[1], [2, 3]] _ _
    (Prod.ext (by decide +kernel) rfl) (Prod.ext (by decide +kernel) rfl)
    (Chip.quiet_noReadFaults _) (fun _ => rfl) (by decide +kernel)

/-- A block that fails twice and carries no bad mark is passed over by the writer only: every call
succeeds, and the reader returns what the failed block was left with. -/
theorem mtdWriteRead_givenUp :
    ¬ ∀ (p : MtdPartition) (c c' : Chip p) (fl : Flash p) (chunks : List Bytes)
      (s s' : WriteState p), mtdWriteAll c chunks ⟨mtdWritePartition p, fl⟩ = (true, s) →
      mtdWriteClose c s = (true, s') → c'.NoReadFaults →
      (∀ pos, c'.getBadBlock pos = c.getBadBlock pos) →
      ∃ ctx, mtdReadData c' s'.flash chunks.flatten.length (mtdReadPartition p) =
        some (chunks.flatten, ctx) := by
  intro h
  obtain ⟨ctx, hctx⟩ := h smallPartition (Chip.stuck _) (Chip.quiet _) default [[0x41, 0x42]] _ _
    (Prod.ext (by decide +kernel) rfl) (Prod.ext (by decide +kernel) rfl)
    (Chip.quiet_noReadFaults _) (fun _ => rfl)
  have hread : (mtdReadData (Chip.quiet smallPartition)
      (mtdWriteClose (Chip.stuck smallPartition) (mtdWriteAll (Chip.stuck smallPartition)
        [[0x41, 0x42]] ⟨mtdWritePartition smallPartition, default⟩).2).2.flash
      2 (mtdReadPartition smallPartition)).map Prod.fst = some [0xff, 0xff] := by decide +kernel
  have := congrArg (Option.map Prod.fst) hctx
  exact absurd (hread.symm.trans this) (by simp)

end Miui
