import MiuiRecovery.Mtd.Device

/-!
# Reading from an MTD partition

`read_block` and `mtd_read_data` of `mtdutils.c`. `read_block` returns the first block from the file
offset on that reads without an error and is not marked bad; `mtd_read_data` hands out its bytes,
through the buffer of the context where the request does not take a whole block.

`mtdReadData_eq`: without read faults a read takes the next bytes of `stream`, the contents of the
blocks that carry no bad mark, in order.
-/

namespace Miui

variable {p : MtdPartition}

/-- `MtdReadContext`: `avail` is the part of the buffer behind `consumed`. -/
structure MtdReadContext (p : MtdPartition) where
  avail : Bytes
  avail_le : avail.length ≤ p.erase_size
  fpos : Nat

/-- `mtd_read_partition`: `consumed` starts at `erase_size`. -/
def mtdReadPartition (p : MtdPartition) : MtdReadContext p :=
  { avail := [], avail_le := p.nil_le, fpos := 0 }

/-- The loop of `read_block` from offset `pos` on: the block and the file offset behind it. -/
def readBlockFrom (c : Chip p) (fl : Flash p) (pos : Nat) : Option (Block p × Nat) :=
  if p.fits pos then
    match c.read pos with
    | .noStats => none
    | .ok =>
      if c.getBadBlock pos = .good then some (fl pos, pos + p.erase_size)
      else readBlockFrom c fl (pos + p.erase_size)
    | _ => readBlockFrom c fl (pos + p.erase_size)
  else none
termination_by p.left pos
decreasing_by all_goals exact MtdPartition.left_lt (by assumption)

def readBlock (c : Chip p) (fl : Flash p) (pos : Nat) : Option (Block p × Nat) :=
  if c.stats_ok pos then readBlockFrom c fl pos else none

/-- "Read complete blocks directly into the user's buffer": the bytes, how many are still wanted,
and the file offset. -/
def readDirect (c : Chip p) (fl : Flash p) (want fpos : Nat) : Option (Bytes × Nat × Nat) :=
  if p.erase_size ≤ want then
    match readBlock c fl fpos with
    | none => none
    | some (b, fpos) =>
      match readDirect c fl (want - p.erase_size) fpos with
      | none => none
      | some (bs, want, fpos) => some (b.val ++ bs, want, fpos)
  else some ([], want, fpos)
termination_by want
decreasing_by have := p.erase_size_pos; omega

theorem readDirect_le {c : Chip p} {fl : Flash p} {want fpos want' fpos' : Nat} {bs : Bytes}
    (h : readDirect c fl want fpos = some (bs, want', fpos')) : want' ≤ want := by
  fun_induction readDirect c fl want fpos generalizing bs with
  | case1 => cases h
  | case2 => cases h
  | case3 want fpos hle b fpos₁ hb bs₁ want₁ fpos₂ hd ih =>
    cases h
    have := ih hd
    omega
  | case4 => cases h; exact Nat.le_refl _

/-- The same under its condition `consumed == erase_size`: the buffer `avail` is used up. -/
def readWhole (c : Chip p) (fl : Flash p) (avail : Bytes) (want fpos : Nat) :
    Option (Bytes × Nat × Nat) :=
  if avail = [] then readDirect c fl want fpos else some ([], want, fpos)

/-- The loop `while (read < len)` with `want` bytes still to read: the bytes it copies. -/
def readLoop (c : Chip p) (fl : Flash p) (want : Nat) (ctx : MtdReadContext p) :
    Option (Bytes × MtdReadContext p) :=
  if hw : want = 0 then some ([], ctx)
  else
    let copied := ctx.avail.take want
    let avail := ctx.avail.drop want
    match h : readWhole c fl avail (want - copied.length) ctx.fpos with
    | none => none
    | some (direct, want', fpos) =>
      if want' = 0 then
        some (copied ++ direct,
          { avail := avail, avail_le := by have := ctx.avail_le; simp [avail]; omega, fpos := fpos })
      else match readBlock c fl fpos with
        | none => none
        | some (b, fpos) =>
          match readLoop c fl want' { avail := b.val, avail_le := Nat.le_of_eq b.2, fpos := fpos } with
          | none => none
          | some (bs, ctx) => some (copied ++ direct ++ bs, ctx)
termination_by 2 * want + if ctx.avail = [] then 1 else 0
decreasing_by
  have hb : b.val ≠ [] := List.ne_nil_of_length_pos (by rw [b.2]; exact p.erase_size_pos)
  have hle : want' ≤ want - copied.length := by
    unfold readWhole at h
    split at h
    · exact readDirect_le h
    · cases h; exact Nat.le_refl _
  rw [if_neg hb]
  split
  · omega
  · rename_i hne
    have := List.length_pos_iff.mpr hne
    simp only [copied, List.length_take] at hle
    omega

/-- `mtd_read_data`: the bytes read, `none` for `-1`. -/
def mtdReadData (c : Chip p) (fl : Flash p) (len : Nat) (ctx : MtdReadContext p) :
    Option (Bytes × MtdReadContext p) :=
  if asInt len ≤ 0 then some ([], ctx) else readLoop c fl len ctx

/-! ## The stream behind a read context -/

/-- The offsets from `pos` on of the blocks without a bad mark. -/
def goodBlocks (c : Chip p) (pos : Nat) : List Nat :=
  if p.fits pos then
    if c.getBadBlock pos = .good then pos :: goodBlocks c (pos + p.erase_size)
    else goodBlocks c (pos + p.erase_size)
  else []
termination_by p.left pos
decreasing_by all_goals exact MtdPartition.left_lt (by assumption)

/-- The contents of the blocks without a bad mark, from `pos` on. -/
def stream (c : Chip p) (fl : Flash p) (pos : Nat) : Bytes :=
  (goodBlocks c pos).flatMap fun x => (fl x).val

/-- A read without faults returns the first good block and stops behind it. -/
theorem readBlock_eq {c : Chip p} (hc : c.NoReadFaults) (fl : Flash p) (pos : Nat) :
    readBlock c fl pos = (goodBlocks c pos).head?.map fun g => (fl g, g + p.erase_size) := by
  unfold readBlock
  rw [if_pos (hc.stats pos)]
  fun_induction goodBlocks c pos with
  | case1 pos hf hg ih =>
    unfold readBlockFrom
    simp [hf, hc.reads, hg]
  | case2 pos hf hg ih =>
    unfold readBlockFrom
    simp [hf, hc.reads, hg, ih]
  | case3 pos hf =>
    unfold readBlockFrom
    simp [hf]

theorem goodBlocks_cons {c : Chip p} {pos g : Nat} {gs : List Nat} (h : goodBlocks c pos = g :: gs) :
    goodBlocks c (g + p.erase_size) = gs := by
  fun_induction goodBlocks c pos with
  | case1 pos hf hg ih => cases h; rfl
  | case2 pos hf hg ih => exact ih h
  | case3 => cases h

/-- One block read takes one block off the stream. -/
theorem stream_step {c : Chip p} (hc : c.NoReadFaults) (fl : Flash p) (pos : Nat)
    (h : stream c fl pos ≠ []) :
    ∃ b fpos, readBlock c fl pos = some (b, fpos) ∧ stream c fl pos = b.val ++ stream c fl fpos := by
  cases hg : goodBlocks c pos with
  | nil => simp [stream, hg] at h
  | cons g gs =>
    refine ⟨fl g, g + p.erase_size, by rw [readBlock_eq hc, hg]; rfl, ?_⟩
    unfold stream
    rw [goodBlocks_cons hg, hg]
    rfl

theorem readDirect_eq {c : Chip p} (hc : c.NoReadFaults) (fl : Flash p) (want fpos : Nat)
    (hlen : want ≤ (stream c fl fpos).length) :
    ∃ bs want' fpos', readDirect c fl want fpos = some (bs, want', fpos') ∧
      want' < p.erase_size ∧ bs.length + want' = want ∧ stream c fl fpos = bs ++ stream c fl fpos' := by
  have he := p.erase_size_pos
  induction want using Nat.strongRecOn generalizing fpos with
  | _ want ih =>
    unfold readDirect
    by_cases hle : p.erase_size ≤ want
    · obtain ⟨b, fpos₁, hb, hs⟩ := stream_step hc fl fpos
        (List.ne_nil_of_length_pos (by omega))
      have hlen₁ : want - p.erase_size ≤ (stream c fl fpos₁).length := by
        rw [hs, List.length_append, b.2] at hlen; omega
      obtain ⟨bs, want', fpos', hd, hlt, hsum, hs'⟩ := ih _ (by omega) fpos₁ hlen₁
      refine ⟨b.val ++ bs, want', fpos', ?_, hlt, ?_, ?_⟩
      · rw [if_pos hle, hb]; simp only; rw [hd]
      · rw [List.length_append, b.2]; omega
      · rw [hs, hs', List.append_assoc]
    · exact ⟨[], want, fpos, if_neg hle, by omega, by simp, rfl⟩

/-- What is left to read of a context: the rest of its buffer and the stream behind it. -/
def MtdReadContext.rest (c : Chip p) (fl : Flash p) (ctx : MtdReadContext p) : Bytes :=
  ctx.avail ++ stream c fl ctx.fpos

/-- The first half of a round of the loop: the copy from the buffer, then whole blocks. -/
theorem readLoop_direct {c : Chip p} (hc : c.NoReadFaults) {fl : Flash p} {want : Nat}
    {ctx : MtdReadContext p} (hlen : want ≤ (ctx.rest c fl).length) :
    ∃ direct want' fpos,
      readWhole c fl (ctx.avail.drop want) (want - (ctx.avail.take want).length) ctx.fpos =
        some (direct, want', fpos) ∧
      (ctx.avail.take want ++ direct).length + want' = want ∧
      (want' ≠ 0 → ctx.avail.drop want = []) ∧ want' < p.erase_size ∧
      ctx.rest c fl = ctx.avail.take want ++ direct ++ (ctx.avail.drop want ++ stream c fl fpos) := by
  have he := p.erase_size_pos
  unfold MtdReadContext.rest at hlen ⊢
  unfold readWhole
  by_cases hd : ctx.avail.drop want = []
  · have hle := List.drop_eq_nil_iff.mp hd
    rw [List.take_of_length_le hle, hd, if_pos rfl]
    obtain ⟨bs, want', fpos, h1, h2, h3, h4⟩ := readDirect_eq hc fl
      (want - ctx.avail.length) ctx.fpos (by rw [List.length_append] at hlen; omega)
    refine ⟨bs, want', fpos, h1, by simp; omega, fun _ => rfl, h2, ?_⟩
    rw [h4, List.append_assoc, List.nil_append]
  · have hlt : want < ctx.avail.length := by
      by_contra hge
      exact hd (List.drop_eq_nil_iff.mpr (by omega))
    have htake : (ctx.avail.take want).length = want := by simp; omega
    refine ⟨[], 0, ctx.fpos, by rw [if_neg hd, htake, Nat.sub_self], by simp; omega,
      fun h => absurd rfl h, he, ?_⟩
    rw [List.append_nil, ← List.append_assoc, List.take_append_drop]

/-- A read takes the next bytes, if there are that many. -/
theorem readLoop_eq {c : Chip p} (hc : c.NoReadFaults) (fl : Flash p) (want : Nat)
    (ctx : MtdReadContext p) (hlen : want ≤ (ctx.rest c fl).length) :
    ∃ bs ctx', readLoop c fl want ctx = some (bs, ctx') ∧ bs.length = want ∧
      ctx.rest c fl = bs ++ ctx'.rest c fl := by
  fun_induction readLoop c fl want ctx with
  | case1 ctx => exact ⟨[], ctx, rfl, rfl, rfl⟩
  | case2 want ctx hw copied avail h =>
    obtain ⟨direct, want', fpos, hd, -⟩ := readLoop_direct hc hlen
    cases hd.symm.trans h
  | case3 want ctx hw copied avail direct fpos h =>
    obtain ⟨_, _, _, hd, hsum, -, -, hrest⟩ := readLoop_direct hc hlen
    cases hd.symm.trans h
    exact ⟨_, _, rfl, hsum, hrest⟩
  | case4 want ctx hw copied avail direct want' fpos h hw' hb =>
    obtain ⟨_, _, _, hd, hsum, hnil, -, hrest⟩ := readLoop_direct hc hlen
    cases hd.symm.trans h
    rw [hnil hw', List.nil_append] at hrest
    rw [hrest, List.length_append] at hlen
    obtain ⟨b, fpos', hb', -⟩ := stream_step hc fl fpos
      (List.ne_nil_of_length_pos (by omega))
    rw [hb'] at hb; cases hb
  | case5 want ctx hw copied avail direct want' fpos h hw' b fpos₁ hb hr ih =>
    obtain ⟨_, _, _, hd, hsum, hnil, -, hrest⟩ := readLoop_direct hc hlen
    cases hd.symm.trans h
    rw [hnil hw', List.nil_append] at hrest
    rw [hrest, List.length_append] at hlen
    have hpos : 0 < (stream c fl fpos).length := by clear ih; omega
    obtain ⟨b', fpos', hb', hs⟩ := stream_step hc _ _ (List.ne_nil_of_length_pos hpos)
    rw [hb'] at hb; cases hb
    have hlen₁ : want' ≤ (b.val ++ stream c fl fpos₁).length := by rw [← hs]; clear ih; omega
    obtain ⟨bs, ctx', hr', -⟩ := ih hlen₁
    rw [hr'] at hr; cases hr
  | case6 want ctx hw copied avail direct want' fpos h hw' b fpos₁ hb bs ctx₁ hr ih =>
    obtain ⟨_, _, _, hd, hsum, hnil, -, hrest⟩ := readLoop_direct hc hlen
    cases hd.symm.trans h
    rw [hnil hw', List.nil_append] at hrest
    have hlen' := hlen
    rw [hrest, List.length_append] at hlen'
    have hpos : 0 < (stream c fl fpos).length := by clear ih; omega
    obtain ⟨b', fpos', hb', hs⟩ := stream_step hc _ _ (List.ne_nil_of_length_pos hpos)
    rw [hb'] at hb; cases hb
    have hlen₁ : want' ≤ (b.val ++ stream c fl fpos₁).length := by rw [← hs]; clear ih; omega
    obtain ⟨bs', ctx', hr', hl, hrest'⟩ := ih hlen₁
    rw [hr'] at hr; cases hr
    refine ⟨_, _, rfl, by rw [List.length_append, hl]; exact hsum, ?_⟩
    rw [hrest, List.append_assoc _ bs, ← hrest', hs]
    rfl

/-- What a read returns was there: the converse of `stream_step`. -/
theorem stream_of_readBlock {c : Chip p} (hc : c.NoReadFaults) {fl : Flash p} {pos fpos : Nat}
    {b : Block p} (h : readBlock c fl pos = some (b, fpos)) :
    stream c fl pos = b.val ++ stream c fl fpos := by
  by_cases hs : stream c fl pos = []
  · have hg : goodBlocks c pos = [] := by
      cases hg : goodBlocks c pos with
      | nil => rfl
      | cons g gs =>
        have hlen := congrArg List.length hs
        have he := p.erase_size_pos
        simp only [stream, hg, List.flatMap_cons, List.length_append, (fl g).2, List.length_nil] at hlen
        omega
    rw [readBlock_eq hc, hg] at h
    cases h
  · obtain ⟨b', fpos', hb, hstream⟩ := stream_step hc fl pos hs
    cases hb.symm.trans h
    exact hstream

theorem readDirect_some {c : Chip p} (hc : c.NoReadFaults) {fl : Flash p} {want want' fpos fpos' : Nat}
    {bs : Bytes} (h : readDirect c fl want fpos = some (bs, want', fpos')) :
    bs.length + want' = want ∧ stream c fl fpos = bs ++ stream c fl fpos' := by
  fun_induction readDirect c fl want fpos generalizing bs with
  | case1 => cases h
  | case2 => cases h
  | case3 want fpos hle b fpos₁ hb bs₁ want₁ fpos₂ hd ih =>
    cases h
    obtain ⟨hlen, hstream⟩ := ih hd
    rw [List.length_append, b.2, stream_of_readBlock hc hb, hstream, List.append_assoc]
    exact ⟨by omega, rfl⟩
  | case4 => cases h; exact ⟨Nat.zero_add _, rfl⟩

/-- A read that succeeds did not ask for more than there was. -/
theorem readLoop_le {c : Chip p} (hc : c.NoReadFaults) {fl : Flash p} {want : Nat}
    {ctx ctx' : MtdReadContext p} {bs : Bytes} (h : readLoop c fl want ctx = some (bs, ctx')) :
    want ≤ (ctx.rest c fl).length := by
  have hwhole : ∀ {avail direct : Bytes} {want want' fpos fpos' : Nat},
      readWhole c fl avail want fpos = some (direct, want', fpos') →
      direct.length + want' = want ∧ stream c fl fpos = direct ++ stream c fl fpos' := by
    intro avail direct want want' fpos fpos' h
    unfold readWhole at h
    split at h
    · exact readDirect_some hc h
    · cases h; exact ⟨Nat.zero_add _, rfl⟩
  unfold MtdReadContext.rest
  fun_induction readLoop c fl want ctx generalizing bs with
  | case1 => exact Nat.zero_le _
  | case2 => cases h
  | case3 =>
    rename_i want ctx hw copied avail direct fpos hd
    obtain ⟨hlen, hstream⟩ := hwhole hd
    simp only [copied, List.length_take] at hlen
    rw [hstream, List.length_append, List.length_append]
    omega
  | case4 => cases h
  | case5 => cases h
  | case6 =>
    rename_i want ctx hw copied avail direct want' fpos hd hw' b fpos₁ hb bs₁ ctx₁ hr ih
    cases h
    have hrest : want' ≤ (b.val ++ stream c fl fpos₁).length := ih hr
    obtain ⟨hlen, hstream⟩ := hwhole hd
    simp only [copied, List.length_take] at hlen
    rw [← stream_of_readBlock hc hb] at hrest
    rw [hstream, List.length_append, List.length_append]
    omega

/-- A fresh context reads the first `len` bytes of the good blocks. -/
theorem mtdReadData_fresh {c : Chip p} (hc : c.NoReadFaults) {fl : Flash p} {len : Nat}
    (hint : len < 2 ^ 31) (hlen : len ≤ (stream c fl 0).length) :
    ∃ ctx, mtdReadData c fl len (mtdReadPartition p) = some ((stream c fl 0).take len, ctx) := by
  have hrest : (mtdReadPartition p).rest c fl = stream c fl 0 := rfl
  unfold mtdReadData
  rw [asInt_of_lt hint]
  by_cases h0 : (len : Int) ≤ 0
  · have : len = 0 := by omega
    exact ⟨mtdReadPartition p, by rw [if_pos h0, this]; rfl⟩
  · obtain ⟨bs, ctx, hr, hl, hs⟩ := readLoop_eq hc fl len (mtdReadPartition p) (by rwa [hrest])
    rw [hrest] at hs
    exact ⟨ctx, by rw [if_neg h0, hr, hs, ← hl, List.take_left]⟩

theorem mtdReadData_le {c : Chip p} (hc : c.NoReadFaults) {fl : Flash p} {len : Nat}
    {ctx : MtdReadContext p} {bs : Bytes} (hint : len < 2 ^ 31)
    (h : mtdReadData c fl len (mtdReadPartition p) = some (bs, ctx)) : len ≤ (stream c fl 0).length := by
  unfold mtdReadData at h
  rw [asInt_of_lt hint] at h
  split at h
  · omega
  · exact readLoop_le hc h

end Miui
