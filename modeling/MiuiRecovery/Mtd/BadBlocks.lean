import MiuiRecovery.Lib.Ledger
import MiuiRecovery.Mtd.RoundTrip

/-!
# The bad blocks of a write context

A write context keeps the offsets of the blocks that `write_block` passed over, and `mtd_find_write_start` looks
an offset up in them. The context goes through the calls of `mtd_write_data` and `mtd_erase_blocks`, each of which
comes to calls of `write_block`.

* `writeBlock_place`: what `write_block` passes over, and where the data goes.
* `WriteSteps`: between two calls of `write_block` neither the offset nor the list changes.
* `booked_of_steady`: the list and the search are right as long as `write_block` does not go on after it ran out
  of space. It leaves the offset in front of blocks that are in the list by then.
-/

namespace Miui

variable {p : MtdPartition}

/-! ## mtdutils.c -/

/-- The loop of `mtd_find_write_start` over the offsets. -/
def findWriteStart (erase_size : Nat) : List Nat → Nat → Nat
  | [], pos => pos
  | off :: offsets, pos =>
    if off = pos then findWriteStart erase_size offsets (pos + erase_size)
    else if off > pos then pos
    else findWriteStart erase_size offsets pos

/-- `mtd_find_write_start` -/
def mtdFindWriteStart (ctx : MtdWriteContext p) (pos : Nat) : Nat :=
  findWriteStart p.erase_size ctx.bad_block_offsets pos

/-- A call of the interface on a context. -/
inductive MtdCall
  | write (data : Bytes)
  | erase (blocks : Int)

/-- What the call leaves behind, whatever it returns. -/
def MtdCall.run (c : Chip p) (s : WriteState p) : MtdCall → WriteState p
  | write data => (mtdWriteData c data s).2
  | erase blocks => (mtdEraseBlocks c blocks s).2

/-! ## The calls of write_block -/

/-- The offsets from `pos` on that `write_block` passes over, and the one where the data goes. -/
def place (c : Chip p) (data : Block p) (pos : Nat) : List Nat × Option Nat :=
  if p.fits pos then
    if (c.getBadBlock pos = .good ∨ c.getBadBlock pos = .unsupported) ∧ c.accepts pos data = true then
      ([], some pos)
    else (pos :: (place c data (pos + p.erase_size)).1, (place c data (pos + p.erase_size)).2)
  else ([], none)
termination_by p.left pos
decreasing_by all_goals exact MtdPartition.left_lt (by assumption)

/-- A call of `write_block`: the driver, the data, and the offset of the descriptor. -/
structure Write (p : MtdPartition) where
  chip : Chip p
  data : Block p
  start : Nat

def Write.skipped (w : Write p) : List Nat := (place w.chip w.data w.start).1

/-- The offset where the data went, `none` when `write_block` ran out of space. -/
def Write.landed (w : Write p) : Option Nat := (place w.chip w.data w.start).2

/-- The calls that `writeDirect` makes. -/
def directWrites (c : Chip p) (rest : Bytes) (s : WriteState p) : List (Write p) :=
  if h : s.ctx.buffer = [] ∧ p.erase_size ≤ rest.length then
    let block : Block p := ⟨rest.take p.erase_size, by simp; omega⟩
    ⟨c, block, s.ctx.fpos⟩ :: match writeBlock c block s with
      | (false, _) => []
      | (true, s) => directWrites c (rest.drop p.erase_size) s
  else []
termination_by rest.length
decreasing_by have := p.erase_size_pos; simp only [List.length_drop]; omega

def fullWrites (c : Chip p) (s : WriteState p) : List (Write p) :=
  if h : s.ctx.buffer.length = p.erase_size then [⟨c, ⟨s.ctx.buffer, h⟩, s.ctx.fpos⟩] else []

def roundWrites (c : Chip p) (data : Bytes) (s : WriteState p) : List (Write p) :=
  let (rest, s) := coalesce data s
  fullWrites c s ++ match writeFull c s with
    | (false, _) => []
    | (true, s) => directWrites c rest s

def dataWrites (c : Chip p) (data : Bytes) (s : WriteState p) : List (Write p) :=
  if _hd : data = [] then []
  else roundWrites c data s ++ match _h : writeRound c data s with
    | (none, _) => []
    | (some rest, s') => dataWrites c rest s'
termination_by roundMeasure p data s
decreasing_by exact writeRound_lt _hd _h

def eraseWrites (c : Chip p) (s : WriteState p) : List (Write p) :=
  if s.ctx.buffer = [] then [] else [⟨c, padded s, s.ctx.fpos⟩]

def MtdCall.writes (c : Chip p) (s : WriteState p) : MtdCall → List (Write p)
  | write data => dataWrites c data s
  | erase _ => eraseWrites c s

/-- The state after a sequence of calls, each with the answers of the driver during it. -/
def runCalls : List (Chip p × MtdCall) → WriteState p → WriteState p
  | [], s => s
  | (c, call) :: calls, s => runCalls calls (call.run c s)

/-- The calls of `write_block` during the sequence. -/
def history : List (Chip p × MtdCall) → WriteState p → List (Write p)
  | [], _ => []
  | (c, call) :: calls, s => call.writes c s ++ history calls (call.run c s)

/-! ## One call of write_block -/

theorem writeRetries_rejects {c : Chip p} {pos : Nat} {data : Block p} (s : WriteState p)
    (h : c.accepts pos data = false) : (writeRetries c pos data [0, 1] s).1 = false := by
  unfold Chip.accepts at h
  obtain ⟨h0, h1⟩ := Bool.or_eq_false_iff.mp h
  simp [writeRetries, h0, h1]

@[simp] theorem writeRetries_bad (c : Chip p) (pos : Nat) (data : Block p) (rs : List Nat) (s : WriteState p) :
    (writeRetries c pos data rs s).2.ctx.bad_block_offsets = s.ctx.bad_block_offsets := by
  induction rs generalizing s with
  | nil => rfl
  | cons r rs ih =>
    unfold writeRetries
    simp only
    split
    · rfl
    · rw [ih]
      rfl

theorem writeBlockFrom_place (c : Chip p) (data : Block p) (pos : Nat) (s : WriteState p) :
    (writeBlockFrom c data pos s).1 = (place c data pos).2.isSome ∧
      (writeBlockFrom c data pos s).2.ctx.bad_block_offsets =
        s.ctx.bad_block_offsets ++ (place c data pos).1 ∧
      ∀ q, (place c data pos).2 = some q → (writeBlockFrom c data pos s).2.ctx.fpos = q + p.erase_size ∧
        (writeBlockFrom c data pos s).2.flash q = data := by
  fun_induction writeBlockFrom c data pos s with
  | case1 pos s hf mark hm ih =>
    rw [place, if_pos hf, if_neg (fun h => h.1.elim hm.1 hm.2)]
    refine ⟨ih.1, ?_, ih.2.2⟩
    rw [ih.2.1]
    simp [WriteState.addBadBlockOffset]
  | case2 pos s hf mark hm s' hw =>
    have hacc : c.accepts pos data = true := by
      by_contra hrej
      have := writeRetries_rejects s (Bool.eq_false_iff.mpr hrej)
      rw [hw] at this
      cases this
    obtain ⟨s'', hw', hpos, hflash, -⟩ := writeRetries_accepts s hacc
    obtain rfl : s' = s'' := by
      rw [hw] at hw'
      exact (Prod.mk.inj hw').2
    rw [place, if_pos hf, if_pos ⟨by tauto, hacc⟩]
    refine ⟨rfl, ?_, ?_⟩
    · rw [← writeRetries_bad c pos data [0, 1] s, hw, List.append_nil]
    · rintro q hq
      cases hq
      exact ⟨hpos, hflash⟩
  | case3 pos s hf mark hm s' hw ih =>
    have hrej : ¬ c.accepts pos data = true := by
      intro hacc
      obtain ⟨s'', hw', -⟩ := writeRetries_accepts s hacc
      rw [hw] at hw'
      cases hw'
    rw [place, if_pos hf, if_neg fun h => hrej h.2]
    refine ⟨ih.1, ?_, ih.2.2⟩
    rw [ih.2.1, ← writeRetries_bad c pos data [0, 1] s, hw]
    simp [WriteState.addBadBlockOffset, WriteState.setBlock]
  | case4 pos s hf =>
    rw [place, if_neg hf]
    exact ⟨rfl, (List.append_nil _).symm, by simp⟩

/-- What a call of `write_block` comes to. -/
theorem writeBlock_place (c : Chip p) (data : Block p) (s : WriteState p) (w : Write p)
    (hw : w = ⟨c, data, s.ctx.fpos⟩) :
    (writeBlock c data s).1 = w.landed.isSome ∧
      (writeBlock c data s).2.ctx.bad_block_offsets = s.ctx.bad_block_offsets ++ w.skipped ∧
      ∀ q, w.landed = some q → (writeBlock c data s).2.ctx.fpos = q + p.erase_size ∧
        (writeBlock c data s).2.flash q = data := by
  subst hw
  exact writeBlockFrom_place c data s.ctx.fpos s

/-- The ledger of the blocks after a call of `write_block` at the frontier. -/
theorem place_ledger (c : Chip p) (data : Block p) {pos : Nat} {passed taken : List Nat}
    (h : Ledger p.erase_size passed taken pos) :
    ∃ frontier, Ledger p.erase_size (passed ++ (place c data pos).1)
        (taken ++ (place c data pos).2.toList) frontier ∧
      ∀ q, (place c data pos).2 = some q → frontier = q + p.erase_size := by
  fun_induction place c data pos generalizing passed with
  | case1 pos hf hacc =>
    refine ⟨pos + p.erase_size, ?_, ?_⟩
    · rw [List.append_nil]
      exact h.take p.erase_size_pos
    · rintro q hq
      cases hq
      rfl
  | case2 pos hf hrej ih =>
    obtain ⟨frontier, hl, hq⟩ := ih (h.pass p.erase_size_pos)
    exact ⟨frontier, by rwa [List.append_assoc] at hl, hq⟩
  | case3 pos hf =>
    exact ⟨pos, by simpa using h, nofun⟩

/-! ## From one call to the next -/

/-- From one state to another by calls of `write_block`; between them the offset and the list stay. -/
inductive WriteSteps : WriteState p → List (Write p) → WriteState p → Prop
  | same {s s' : WriteState p} (hpos : s'.ctx.fpos = s.ctx.fpos)
      (hbad : s'.ctx.bad_block_offsets = s.ctx.bad_block_offsets) : WriteSteps s [] s'
  | block (c : Chip p) (data : Block p) (s : WriteState p) :
      WriteSteps s [⟨c, data, s.ctx.fpos⟩] (writeBlock c data s).2
  | trans {s s₁ s' : WriteState p} {ws ws' : List (Write p)} (h : WriteSteps s ws s₁) (h' : WriteSteps s₁ ws' s') :
      WriteSteps s (ws ++ ws') s'

theorem WriteSteps.refl (s : WriteState p) : WriteSteps s [] s := .same rfl rfl

theorem WriteSteps.after {s s₁ s' : WriteState p} {ws : List (Write p)} (h : WriteSteps s [] s₁)
    (h' : WriteSteps s₁ ws s') : WriteSteps s ws s' := h.trans h'

theorem WriteSteps.before {s s₁ s' : WriteState p} {ws : List (Write p)} (h : WriteSteps s ws s₁)
    (h' : WriteSteps s₁ [] s') : WriteSteps s ws s' := by
  rw [← List.append_nil ws]
  exact h.trans h'

/-- A call of `write_block` that is checked, and what follows where it returned 0. -/
theorem WriteSteps.checked {c : Chip p} {data : Block p} {s s' : WriteState p} {ws : List (Write p)}
    (h : WriteSteps (writeBlock c data s).2 ws s') : WriteSteps s (⟨c, data, s.ctx.fpos⟩ :: ws) s' :=
  (WriteSteps.block c data s).trans h

theorem directWrites_steps (c : Chip p) (rest : Bytes) (s : WriteState p) :
    WriteSteps s (directWrites c rest s) (writeDirect c rest s).2 := by
  fun_induction directWrites c rest s with
  | case1 rest s hc block ih =>
    rw [writeDirect, dif_pos hc]
    apply WriteSteps.checked
    split
    · rename_i s₁ hw
      rw [hw]
      exact .refl _
    · rename_i s₁ hw
      rw [hw]
      exact ih s₁
  | case2 rest s hc =>
    rw [writeDirect, dif_neg hc]
    exact .refl _

theorem fullWrites_steps (c : Chip p) (s : WriteState p) : WriteSteps s (fullWrites c s) (writeFull c s).2 := by
  unfold fullWrites writeFull
  split
  · apply WriteSteps.checked
    split
    · rename_i hw
      rw [hw]
      exact .refl _
    · rename_i hw
      rw [hw]
      exact .same rfl rfl
  · exact .refl _

theorem coalesce_steps (data : Bytes) (s : WriteState p) : WriteSteps s [] (coalesce data s).2 := by
  unfold coalesce
  split <;> exact .same rfl rfl

theorem roundWrites_steps (c : Chip p) (data : Bytes) (s : WriteState p) :
    WriteSteps s (roundWrites c data s) (writeRound c data s).2 := by
  have hcopy := coalesce_steps data s
  unfold roundWrites writeRound
  generalize coalesce data s = copied at *
  obtain ⟨rest, s₁⟩ := copied
  refine hcopy.after ((fullWrites_steps c s₁).trans ?_)
  dsimp only
  generalize writeFull c s₁ = full
  obtain ⟨ok, s₂⟩ := full
  cases ok with
  | false => exact .refl _
  | true => exact directWrites_steps c rest s₂

theorem dataWrites_steps (c : Chip p) (data : Bytes) (s : WriteState p) :
    WriteSteps s (dataWrites c data s) (mtdWriteData c data s).2 := by
  fun_induction mtdWriteData c data s with
  | case1 s =>
    rw [dataWrites, dif_pos rfl]
    exact .refl _
  | case2 data s hd s₁ hw =>
    have hround := roundWrites_steps c data s
    rw [hw] at hround
    rw [dataWrites, dif_neg hd]
    refine hround.trans ?_
    split
    · exact .refl _
    · rename_i hw'
      cases hw.symm.trans hw'
  | case3 data s hd rest s₁ hw ih =>
    have hround := roundWrites_steps c data s
    rw [hw] at hround
    rw [dataWrites, dif_neg hd]
    refine hround.trans ?_
    split
    · rename_i hw'
      cases hw.symm.trans hw'
    · rename_i hw'
      cases hw.symm.trans hw'
      exact ih

theorem eraseBlocksFrom_steps (c : Chip p) (blocks pos : Nat) (s : WriteState p) :
    WriteSteps s [] (eraseBlocksFrom c blocks pos s).2 := by
  induction blocks generalizing pos s with
  | zero => exact .refl _
  | succ blocks ih =>
    unfold eraseBlocksFrom
    split
    · exact ih _ _
    · have hblock : WriteSteps s [] (s.setBlock pos (c.erase pos)) := .same rfl rfl
      exact hblock.after (ih _ _)

theorem eraseWrites_steps (c : Chip p) (blocks : Int) (s : WriteState p) :
    WriteSteps s (eraseWrites c s) (mtdEraseBlocks c blocks s).2 := by
  have hflush : WriteSteps s (eraseWrites c s) (flushPending c s).2 := by
    unfold eraseWrites flushPending
    split
    · exact .refl _
    · apply WriteSteps.checked
      split
      · rename_i hw
        rw [hw]
        exact .refl _
      · rename_i hw
        rw [hw]
        exact .same rfl rfl
  refine hflush.before ?_
  unfold mtdEraseBlocks
  generalize flushPending c s = flushed
  obtain ⟨ok, s₁⟩ := flushed
  cases ok with
  | false => exact .refl _
  | true =>
    dsimp only
    generalize asInt ((p.size - s₁.ctx.fpos) / p.erase_size) = total
    generalize (if blocks < 0 then total else blocks) = blocks
    by_cases hroom : total < blocks
    · rw [if_pos hroom]
      exact .refl _
    · rw [if_neg hroom]
      exact eraseBlocksFrom_steps c _ _ s₁

theorem MtdCall.writes_steps (c : Chip p) (s : WriteState p) (call : MtdCall) :
    WriteSteps s (call.writes c s) (call.run c s) := by
  cases call with
  | write data => exact dataWrites_steps c data s
  | erase blocks => exact eraseWrites_steps c blocks s

theorem history_steps (calls : List (Chip p × MtdCall)) (s : WriteState p) :
    WriteSteps s (history calls s) (runCalls calls s) := by
  induction calls generalizing s with
  | nil => exact .refl _
  | cons call calls ih => exact (MtdCall.writes_steps call.1 s call.2).trans (ih _)

/-! ## The list of bad blocks -/

/-- The offsets where data went. -/
def landings (ws : List (Write p)) : List Nat := ws.filterMap Write.landed

/-- Where a block is left at the offset of the descriptor, no call before ran out of space. -/
def Steady (ws : List (Write p)) : Prop := ws.Pairwise fun w w' => p.fits w'.start → w.landed.isSome

instance (ws : List (Write p)) : Decidable (Steady ws) := inferInstanceAs (Decidable (List.Pairwise _ _))

/-- The blocks up to a frontier are in the ledger, and the descriptor is there or out of space. -/
def InLedger (s : WriteState p) (ws : List (Write p)) : Prop :=
  s.ctx.bad_block_offsets = ws.flatMap Write.skipped ∧
    ∃ frontier, Ledger p.erase_size s.ctx.bad_block_offsets (landings ws) frontier ∧
      (s.ctx.fpos = frontier ∨ ∃ w ∈ ws, w.landed = none)

theorem InLedger.block {s : WriteState p} {ws : List (Write p)} (h : InLedger s ws) (c : Chip p) (data : Block p)
    (hs : Steady (ws ++ [⟨c, data, s.ctx.fpos⟩])) :
    InLedger (writeBlock c data s).2 (ws ++ [⟨c, data, s.ctx.fpos⟩]) := by
  obtain ⟨hbad, frontier, hl, hpos⟩ := h
  obtain ⟨-, hbad', hland⟩ := writeBlock_place c data s _ rfl
  generalize hw : (⟨c, data, s.ctx.fpos⟩ : Write p) = w at *
  have hlist : landings (ws ++ [w]) = landings ws ++ w.landed.toList := by
    unfold landings
    rw [List.filterMap_append]
    cases hlanded : w.landed with
    | none => simp [hlanded]
    | some q => simp [hlanded]
  refine ⟨by rw [hbad', hbad]; simp, ?_⟩
  by_cases hf : p.fits s.ctx.fpos
  · have hat : s.ctx.fpos = frontier := by
      refine hpos.resolve_right fun ⟨w', hw', hnone⟩ => ?_
      have := (List.pairwise_append.mp hs).2.2 w' hw' w List.mem_cons_self (by rw [← hw]; exact hf)
      rw [hnone] at this
      cases this
    subst hat
    obtain ⟨frontier', hl', hq⟩ := place_ledger c data hl
    refine ⟨frontier', ?_, ?_⟩
    · rw [hbad', hlist, ← hw]
      exact hl'
    · cases hlanded : w.landed with
      | none => exact .inr ⟨w, List.mem_append_right _ List.mem_cons_self, hlanded⟩
      | some q =>
        left
        rw [(hland q hlanded).1, hq q (by rw [← hlanded, ← hw]; rfl)]
  · have hplace : place c data s.ctx.fpos = ([], none) := by rw [place, if_neg hf]
    have hskip : w.skipped = [] := by rw [← hw, Write.skipped, hplace]
    have hnone : w.landed = none := by rw [← hw, Write.landed, hplace]
    refine ⟨frontier, ?_, .inr ⟨w, List.mem_append_right _ List.mem_cons_self, hnone⟩⟩
    rw [hbad', hlist, hskip, hnone, List.append_nil, Option.toList_none, List.append_nil]
    exact hl

theorem InLedger.steps {s s' : WriteState p} {ws ws' : List (Write p)} (h : InLedger s ws)
    (hf : WriteSteps s ws' s') (hs : Steady (ws ++ ws')) : InLedger s' (ws ++ ws') := by
  induction hf generalizing ws with
  | same hpos hbad =>
    rw [List.append_nil]
    unfold InLedger
    rw [hpos, hbad]
    exact h
  | block c data s => exact h.block c data hs
  | trans _ _ ih ih' =>
    rw [← List.append_assoc] at hs ⊢
    exact ih' (ih h (List.pairwise_append.mp hs).1) hs

theorem InLedger.fresh (fl : Flash p) : InLedger ⟨mtdWritePartition p, fl⟩ [] :=
  ⟨rfl, 0, Ledger.empty, .inl rfl⟩

/-! ## mtd_find_write_start -/

/-- In an increasing list of block offsets one pass finds the first block that is not in it. -/
theorem findWriteStart_isLeast {size pos : Nat} {offsets : List Nat} (hinc : offsets.Pairwise (· < ·))
    (hal : ∀ off ∈ offsets, size ∣ off) (hpos : size ∣ pos) (hsize : 0 < size) :
    IsLeast {off | size ∣ off ∧ pos ≤ off ∧ off ∉ offsets} (findWriteStart size offsets pos) := by
  induction offsets generalizing pos with
  | nil =>
    exact ⟨⟨hpos, Nat.le_refl _, List.not_mem_nil⟩, fun _ h => h.2.1⟩
  | cons off offsets ih =>
    obtain ⟨hfirst, hinc⟩ := List.pairwise_cons.mp hinc
    have hal' : ∀ off ∈ offsets, size ∣ off := fun x hx => hal x (List.mem_cons_of_mem _ hx)
    unfold findWriteStart
    split
    · rename_i heq
      subst heq
      convert ih hinc hal' (Nat.dvd_add hpos (Nat.dvd_refl _)) using 1
      ext x
      refine and_congr_right fun hx => ?_
      rw [List.mem_cons, not_or]
      constructor
      · rintro ⟨hle, hne, hmem⟩
        have := Nat.le_of_dvd (by omega) (Nat.dvd_sub hx hpos)
        exact ⟨by omega, hmem⟩
      · rintro ⟨hle, hmem⟩
        exact ⟨by omega, by omega, hmem⟩
    · split
      · refine ⟨⟨hpos, Nat.le_refl _, fun hmem => ?_⟩, fun _ h => h.2.1⟩
        rcases List.mem_cons.mp hmem with rfl | hmem
        · omega
        · have := hfirst _ hmem
          omega
      · convert ih hinc hal' hpos using 1
        ext x
        refine and_congr_right fun _ => and_congr_right fun hle => ?_
        rw [List.mem_cons, not_or]
        exact and_iff_right (by omega)

/-- What the list and the search are for. -/
structure Booked (s : WriteState p) (ws : List (Write p)) : Prop where
  /-- The list has what was skipped, in order. -/
  skipped : s.ctx.bad_block_offsets = ws.flatMap Write.skipped
  increasing : s.ctx.bad_block_offsets.Pairwise (· < ·)
  /-- The search finds the first block that is not in the list. -/
  first : ∀ pos, p.erase_size ∣ pos →
    IsLeast {off | p.erase_size ∣ off ∧ pos ≤ off ∧ off ∉ s.ctx.bad_block_offsets}
      (mtdFindWriteStart s.ctx pos)
  /-- It is where data starts, if there is data from `pos` on. -/
  starts : ∀ pos, p.erase_size ∣ pos → (∃ q ∈ landings ws, pos ≤ q) →
    IsLeast {q | q ∈ landings ws ∧ pos ≤ q} (mtdFindWriteStart s.ctx pos)

theorem InLedger.booked {s : WriteState p} {ws : List (Write p)} (h : InLedger s ws) : Booked s ws := by
  obtain ⟨hbad, frontier, hl, -⟩ := h
  have hfirst : ∀ pos, p.erase_size ∣ pos →
      IsLeast {off | p.erase_size ∣ off ∧ pos ≤ off ∧ off ∉ s.ctx.bad_block_offsets}
        (mtdFindWriteStart s.ctx pos) := fun pos hpos =>
    findWriteStart_isLeast hl.increasing (fun off hoff => (hl.passed_spec hoff).1) hpos p.erase_size_pos
  exact ⟨hbad, hl.increasing, hfirst, fun pos hpos hq => hl.first_taken (hfirst pos hpos) hq⟩

/-- The list and the search are right after every sequence of calls in which `write_block` does not go on at a
block after it ran out of space. -/
theorem booked_of_steady (calls : List (Chip p × MtdCall)) (fl : Flash p)
    (h : Steady (history calls ⟨mtdWritePartition p, fl⟩)) :
    Booked (runCalls calls ⟨mtdWritePartition p, fl⟩) (history calls ⟨mtdWritePartition p, fl⟩) :=
  ((InLedger.fresh fl).steps (history_steps calls _) h).booked

/-- The quiet driver, but the first block is marked bad. -/
def Chip.marked (p : MtdPartition) : Chip p :=
  { Chip.quiet p with getBadBlock := fun pos => if pos = 0 then .bad else .good }

theorem marked_booked :
    Booked (runCalls [(Chip.marked smallPartition, .write [1, 2, 3]), (Chip.quiet smallPartition, .erase 1)]
        ⟨mtdWritePartition smallPartition, default⟩)
      (history [(Chip.marked smallPartition, .write [1, 2, 3]), (Chip.quiet smallPartition, .erase 1)]
        ⟨mtdWritePartition smallPartition, default⟩) :=
  booked_of_steady _ _ (by decide +kernel)

/-- One block of two bytes. -/
def tinyPartition : MtdPartition := { size := 2, erase_size := 2, erase_size_pos := Nat.zero_lt_two }

/-- The quiet driver, but no erase works. -/
def Chip.stubborn (p : MtdPartition) : Chip p :=
  { Chip.quiet p with
    attempt := fun _ _ => { erase_ok := false, erased := default, store := id, reread := p.erase_size } }

/-- A block that cannot be erased twice is in the list twice, and at last it takes the data. -/
def stubbornCalls : List (Chip tinyPartition × MtdCall) :=
  [(Chip.stubborn _, .write [1, 2]), (Chip.stubborn _, .write [1, 2]), (Chip.quiet _, .write [1, 2])]

theorem stubborn_not_booked :
    ¬ Booked (runCalls stubbornCalls ⟨mtdWritePartition tinyPartition, default⟩)
      (history stubbornCalls ⟨mtdWritePartition tinyPartition, default⟩) := by
  intro h
  have hlist : (runCalls stubbornCalls ⟨mtdWritePartition tinyPartition, default⟩).ctx.bad_block_offsets =
      [0, 0] := by decide +kernel
  have := h.increasing
  rw [hlist] at this
  exact absurd this (by decide)

end Miui
